import Musl.Malloc.HeapOwners

/-!
# What the table functions do to the owners

The specifications of the page cache, the guard list and the quarantine over `HeapOwned`.

All of them keep the mappings of the owners beside the tables as they are (`Frame`).
-/

namespace Musl.Malloc

open Musl.Lib Musl.Lib.Space List Prog Nat Function

variable {Ω : Type} {T : Tenants Ω} {L : Prop} {s s' : Heap} {X : Multiset (Owner Ω)}
  {w : Owner Ω} {E : Stop → Heap → Prop} {size : ℕ}

structure OutsideCache (s s' : Heap) : Prop where
  opts : s'.opts = s.opts
  secret : s'.secret = s.secret
  clock : s'.clock = s.clock
  delayed : s'.delayed = s.delayed
  guardList : s'.guardList = s.guardList
  detached : s'.detached = s.detached
  guardQ : s'.guardQ = s.guardQ

/-- Nothing but the guard list, the quarantine, memory and trace differs. -/
structure OutsideGuards (s s' : Heap) : Prop where
  opts : s'.opts = s.opts
  secret : s'.secret = s.secret
  clock : s'.clock = s.clock
  delayed : s'.delayed = s.delayed
  heads : s'.heads = s.heads
  cacheBytes : s'.cacheBytes = s.cacheBytes

variable {s s' s'' : Heap} {len ptr a base total d now aligned : ℕ} {place : Option ℕ} {r : Region}
    {env : MguardEnv}

lemma SameTables.outsideCache (h : SameTables s s') : OutsideCache s s' :=
  ⟨h.opts, h.secret, h.clock, h.delayed, h.guardList, h.detached, h.guardQ⟩

lemma SameTables.outsideGuards (h : SameTables s s') : OutsideGuards s s' :=
  ⟨h.opts, h.secret, h.clock, h.delayed, h.heads, h.cacheBytes⟩

lemma OutsideCache.trans (h : OutsideCache s s') (h' : OutsideCache s' s'') : OutsideCache s s'' :=
  ⟨h'.opts.trans h.opts, h'.secret.trans h.secret, h'.clock.trans h.clock,
    h'.delayed.trans h.delayed, h'.guardList.trans h.guardList, h'.detached.trans h.detached,
    h'.guardQ.trans h.guardQ⟩

lemma OutsideGuards.refl (s : Heap) : OutsideGuards s s := (SameTables.refl s).outsideGuards

lemma OutsideGuards.trans (h : OutsideGuards s s') (h' : OutsideGuards s' s'') : OutsideGuards s s'' :=
  ⟨h'.opts.trans h.opts, h'.secret.trans h.secret, h'.clock.trans h.clock,
    h'.delayed.trans h.delayed, h'.heads.trans h.heads, h'.cacheBytes.trans h.cacheBytes⟩

lemma Tables.of_guards (h : Tables L s) (hs : OutsideGuards s s')
    (hl : ∀ g ∈ s'.guardList, g.removed = false ∧ (L ∨ g.ref = 1))
    (hb : ∀ g ∈ s'.guardList, 0 < g.base ∧ g.base < 2 ^ 47) (hd : L ∨ s'.detached = [])
    (hq : ∀ q ∈ s'.guardQ, q.when ≤ s.clock) : Tables L s' :=
  ⟨h.toCacheTable.congr hs.opts hs.heads hs.cacheBytes, ⟨hl, hb, hd, by rw [hs.clock]; exact hq⟩⟩

/-! ### The page cache -/

/-- An entry is put in front of its bucket. -/
lemma Tables.push (h : Tables L s) {nd : Node} (hroom : s.cacheBytes + len ≤ pageCacheCapacity s.opts)
    (hs : OutsideCache s s')
    (hh : s'.heads = update s.heads (pageCachePickBucket s.opts ptr len)
      (⟨nd, ptr, len⟩ :: s.heads (pageCachePickBucket s.opts ptr len)))
    (hby : s'.cacheBytes = s.cacheBytes + len) : Tables L s' := by
  have hb := pickBucket_lt s.opts ptr len
  have hperm := cachedEntries_push (by have := bucketCount_le s.opts; omega) hh
  refine ⟨⟨fun c hc => ?_, ?_, ?_⟩, h.toGuardTable.congr hs.guardList hs.detached hs.guardQ hs.clock⟩
  · rw [hs.opts] at hc
    rw [hh, update_of_ne (by omega)]
    exact h.buckets c hc
  · rw [hby, (hperm.map CacheEntry.len).sum_eq, map_cons, h.bytes]
    exact add_comm _ _
  · rw [hby, hs.opts]; exact hroom

/-- An entry is taken out of its bucket. -/
lemma Tables.take (h : Tables L s) {b : ℕ} (hb : b < pageCacheBucketCount s.opts)
    {l post : List CacheEntry} {e : CacheEntry} (hrest : s.heads b = l ++ e :: post) :
    Tables L (s.takeEntry b (l ++ post) e) := by
  have hperm : (cachedEntries s).Perm (e :: cachedEntries (s.takeEntry b (l ++ post) e)) :=
    cachedEntries_unlink (by have := bucketCount_le s.opts; omega) hrest _ rfl
  have hsum : ((cachedEntries s).map CacheEntry.len).sum =
      e.len + ((cachedEntries (s.takeEntry b (l ++ post) e)).map CacheEntry.len).sum := by
    rw [(hperm.map CacheEntry.len).sum_eq, map_cons, sum_cons]
  have hcap := capacity_le s.opts
  have hbytes := h.bytes
  have hwithin := h.within
  have hnew : (s.takeEntry b (l ++ post) e).cacheBytes = s.cacheBytes - e.len :=
    wrap_sub (by omega) (by omega)
  refine ⟨⟨fun c hc => ?_, ?_, ?_⟩, h.toGuardTable.congr rfl rfl rfl rfl⟩
  · show update s.heads b (l ++ post) c = []
    have hc' : pageCacheBucketCount s.opts ≤ c := hc
    rw [update_of_ne (by omega)]
    exact h.buckets c hc
  · omega
  · show _ ≤ pageCacheCapacity s.opts
    omega

def PutAway (ptr len : ℕ) (s' : Heap) : Prop :=
  (∃ e ∈ cachedEntries s', e.ptr = ptr ∧ e.len = len) ∨
    ∀ x, ptr ≤ x → x < ptr + pagesOf len * 4096 → s'.mem.page (x / 4096) = none

/-- A mapping is unmapped with its owner. -/
lemma munmap_owned (h : HeapOwned T L s (w ::ₘ X)) (hreg : T.regionOf w = ⟨a, pagesOf len⟩) :
    (munmap a len s).Sat (fun _ s' => HeapOwned T L s' X ∧ Frame T.regionOf s.mem s'.mem X ∧
      SameTables s s' ∧ s.trace ⊆ s'.trace ∧
      ∀ x, a ≤ x → x < a + pagesOf len * 4096 → s'.mem.page (x / 4096) = none) E := by
  refine sat_munmap fun tr htr => ?_
  have hsame : SameTables s { s with mem := s.mem.munmap a len, trace := tr } :=
    .mem _ _ _
  have hlen : pagesOf len = (T.regionOf w).pages := by rw [hreg]
  have hbase : a = (T.regionOf w).base := by rw [hreg]
  obtain ⟨h', hf⟩ := h.munmap hlen hsame (by rw [← hbase])
  refine ⟨h', hf, hsame, htr, fun x h1 h2 => ?_⟩
  have hl := h.owned.layout
  rw [owners_cons, Multiset.map_cons] at hl
  have hgone := hl.munmap_gone hlen (x := x) (by rw [← hbase]; exact h1)
    (by unfold Region.stop; rw [← hbase, ← hlen]; exact h2)
  rw [← hbase] at hgone
  exact hgone

/-- A fresh page for a list node. -/
lemma HeapOwned.newNode (h : HeapOwned T L s X) (hpl : s.mem.placeable a size = true)
    (hsize : pagesOf size = 1) :
    Owned T.regionOf T.OwnerOk (s.mem.mmapAt a size) (.node ⟨a, s.mem.next⟩ ::ₘ owners s X) ∧
      Frame T.regionOf s.mem (s.mem.mmapAt a size) X := by
  obtain ⟨ho, hf⟩ := h.owned.mmapAt T.ownerOk_local hpl
    (show T.regionOf (.node ⟨a, s.mem.next⟩) = ⟨a, pagesOf size⟩ by rw [hsize]; rfl) (nodeOk_mmapAt hpl)
  exact ⟨ho, frame_beside hf⟩

section

variable (h : HeapOwned T L s (w ::ₘ X))

include h

lemma HeapOwned.park {g : Bool} {w' : Owner Ω} (hreg : T.regionOf w = r)
    (hk : T.kept g s.mem r) (hpl : s.mem.placeable a size = true) (hsize : pagesOf size = 1)
    (hreg' : T.regionOf w' = r) (hok : ∀ m, T.kept g m r → T.OwnerOk m w') :
    Owned T.regionOf T.OwnerOk (s.mem.mmapAt a size) (w' ::ₘ .node ⟨a, s.mem.next⟩ ::ₘ owners s X) ∧
      Frame T.regionOf s.mem (s.mem.mmapAt a size) X := by
  obtain ⟨ho, hf⟩ := h.newNode hpl hsize
  rw [owners_cons, Multiset.cons_swap] at ho
  have hsame := hf w (Multiset.mem_cons_self w X)
  rw [hreg] at hsame
  exact ⟨ho.swap (hreg'.trans hreg.symm) (hok _ (T.kept_local g s.mem _ r hsame hk)), hf.of_cons⟩

section

variable (hreg : T.regionOf w = ⟨ptr, pagesOf len⟩) (hk : T.kept false s.mem ⟨ptr, pagesOf len⟩)

include hreg hk

lemma HeapOwned.pushCache (hlen : 0 < len) (hwhole : len % 4096 = 0)
    (hpl : s.mem.placeable a sizeofCacheEntry = true)
    (hroom : s.cacheBytes + len ≤ pageCacheCapacity s.opts)
    (hs : OutsideCache s s') (hm : s'.mem = s.mem.mmapAt a sizeofCacheEntry)
    (hh : s'.heads = update s.heads (pageCachePickBucket s.opts ptr len)
      (⟨⟨a, s.mem.next⟩, ptr, len⟩ :: s.heads (pageCachePickBucket s.opts ptr len)))
    (hby : s'.cacheBytes = s.cacheBytes + len) :
    HeapOwned T L s' X ∧ Frame T.regionOf s.mem s'.mem X ∧ PutAway ptr len s' := by
  obtain ⟨ho, hf⟩ := h.park hreg hk hpl rfl
    (show T.regionOf (.cached ⟨⟨a, s.mem.next⟩, ptr, len⟩) = _ from rfl) fun m hm => ⟨hlen, hwhole, hm⟩
  have hperm := cachedEntries_push
    (by have := pickBucket_lt s.opts ptr len; have := bucketCount_le s.opts; omega) hh
  refine ⟨⟨?_, h.tables.push hroom hs hh hby⟩, hm ▸ hf, .inl ⟨_, hperm.mem_iff.2 mem_cons_self, rfl, rfl⟩⟩
  rw [owners_cached X hperm hs.guardQ (by unfold guardNodes; rw [hs.guardList, hs.detached]), hm]
  exact ho

/-- **Insertion.** -/
theorem pageCachePut_owned : (pageCachePut place ptr len s).Sat (fun _ s' => HeapOwned T L s' X ∧
      Frame T.regionOf s.mem s'.mem X ∧ OutsideCache s s' ∧ PutAway ptr len s') E := by
  have hdrop : ∀ s1, HeapOwned T L s1 (w ::ₘ X) → s1.mem = s.mem → OutsideCache s s1 →
      (munmap ptr len s1).Sat (fun _ s' => HeapOwned T L s' X ∧
        Frame T.regionOf s.mem s'.mem X ∧ OutsideCache s s' ∧ PutAway ptr len s') E := by
    intro s1 h1 hm ho
    refine (munmap_owned h1 hreg).imp ?_
    rintro _ s' ⟨h', hf, hs, _, hgone⟩
    exact ⟨h', hm ▸ hf, ho.trans hs.outsideCache, .inr hgone⟩
  rw [pageCachePut, sat_bind, sat_get, sat_ite]
  refine ⟨fun _ => hdrop s h rfl (SameTables.refl s).outsideCache, fun hacc => ?_⟩
  simp only [cacheRefuses, not_or, not_not, not_lt] at hacc
  obtain ⟨_, hlen0, hwhole, _, _, hroom⟩ := hacc
  have hw := h.whole (Multiset.mem_cons_self w X)
  rw [hreg] at hw
  have hhigh := hw.high
  have hle := le_pagesOf len
  have hcap := capacity_le s.opts
  have hwithin := h.tables.within
  have hsum : wrap (s.cacheBytes + len) = s.cacheBytes + len := by
    refine wrap_of_lt ?_
    simp only at hhigh
    omega
  rw [hsum] at hroom
  rw [pushEntry, sat_bind, sat_get, sat_bind]
  refine sat_mmapNode (fun a _ hpl => ?_) ?_
  · obtain ⟨h', hf, hput⟩ := h.pushCache hreg hk (by omega) hwhole hpl hroom
      (show OutsideCache s { s with
        mem := s.mem.mmapAt a sizeofCacheEntry, trace := .map a sizeofCacheEntry :: s.trace,
        heads := update s.heads (pageCachePickBucket s.opts ptr len)
          (⟨⟨a, s.mem.next⟩, ptr, len⟩ :: s.heads (pageCachePickBucket s.opts ptr len)),
        cacheBytes := wrap (s.cacheBytes + len) } from ⟨rfl, rfl, rfl, rfl, rfl, rfl, rfl⟩)
      rfl rfl hsum
    exact ⟨h', hf, ⟨rfl, rfl, rfl, rfl, rfl, rfl, rfl⟩, hput⟩
  · have hs : SameTables s (s.log .mapFailed) := .mem _ _ _
    exact hdrop (s.log .mapFailed) (h.of_same hs rfl) rfl hs.outsideCache

end

end

/-- **Lookup.** -/
theorem pageCacheTryGet_owned (h : HeapOwned T L s X) (hlen : len % 4096 = 0) :
    (pageCacheTryGet len s).Sat (fun p s' => (p = 0 ∧ s' = s) ∨
      (p ≠ 0 ∧ T.kept false s'.mem ⟨p, pagesOf len⟩ ∧ Frame T.regionOf s.mem s'.mem X ∧
        OutsideCache s s' ∧ (∀ e ∈ cachedEntries s, e.len ≠ len → e ∈ cachedEntries s') ∧
        ∀ w, T.regionOf w = ⟨p, pagesOf len⟩ → T.OwnerOk s'.mem w → HeapOwned T L s' (w ::ₘ X))) E := by
  by_cases hg : s.opts.guard = true
  · rw [pageCacheTryGet, sat_bind, sat_get, if_pos (.inl hg)]
    exact .inl ⟨rfl, rfl⟩
  have hentry : ∀ b < pageCacheBucketCount s.opts, ∀ e ∈ s.heads b, e ∈ cachedEntries s :=
    fun b hb e he => mem_cachedEntries.2 ⟨b, by have := bucketCount_le s.opts; omega, he⟩
  refine (pageCacheTryGet_spec (by simpa using hg) hlen ?_ ?_).imp ?_
  · intro b hb e he
    refine h.nodeOk ?_
    unfold nodeList
    simp only [append_assoc]
    exact mem_append_left _ (mem_map_of_mem (hentry b hb e he))
  · intro b hb e he
    have hlow := (h.owned.whole (mem_owners_cached (hentry b hb e he))).low
    have hlow' : 4096 ≤ e.ptr := hlow
    omega
  · rintro p s' ⟨htk, _⟩
    rcases htk with ⟨hp, hs⟩ | ⟨b, hb, l, e, post, hrest, hel, hp, hs⟩
    · exact .inl ⟨hp, hs⟩
    · subst hp hel hs
      have he : e ∈ cachedEntries s := hentry b hb e (by rw [hrest]; simp)
      have hlow : 4096 ≤ e.ptr := (h.owned.whole (mem_owners_cached he)).low
      have hperm : (cachedEntries s).Perm (e :: cachedEntries (s.takeEntry b (l ++ post) e)) :=
        cachedEntries_unlink (by have := bucketCount_le s.opts; omega) hrest _ rfl
      -- first the node goes, then the entry makes room for the new owner
      have ho := h.owned
      rw [owners_cached X hperm rfl rfl, Multiset.cons_swap] at ho
      obtain ⟨ho', hf⟩ := ho.munmap T.ownerOk_local
        (show pagesOf sizeofCacheEntry = (T.regionOf (.node e.node)).pages from rfl)
      refine .inr ⟨by omega, (ho'.ok (.cached e) (Multiset.mem_cons_self _ _)).2.2,
        frame_beside hf.of_cons, ⟨rfl, rfl, rfl, rfl, rfl, rfl, rfl⟩, fun x hx hne => ?_,
        fun w hw hok => ?_⟩
      · exact (mem_cons.1 (hperm.mem_iff.1 hx)).resolve_left (hne ∘ congrArg CacheEntry.len)
      refine ⟨?_, h.tables.take hb hrest⟩
      rw [owners_cons]
      exact ho'.swap hw hok

/-! ### The guard list -/

def RefsPos (s : Heap) : Prop := ∀ g ∈ s.guardList, 0 < g.ref

lemma RefsPos.of_subset (h : RefsPos s) (hsub : ∀ g ∈ s'.guardList, g ∈ s.guardList) : RefsPos s' :=
  fun g hg => h g (hsub g hg)

lemma Tables.refsPos (h : Tables L s) (hL : ¬L) : RefsPos s := by
  intro g hg
  rcases (h.listed g hg).2 with hf | hone
  · exact absurd hf hL
  · rw [hone]
    decide

section

variable (h : HeapOwned T L s X)

include h

lemma HeapOwned.pushGuard (hbase : 0 < base ∧ base < 2 ^ 47)
    (hpl : s.mem.placeable a sizeofGuardEntry = true) (hs : OutsideGuards s s')
    (hq : s'.guardQ = s.guardQ)
    (hd : s'.detached = s.detached) (hm : s'.mem = s.mem.mmapAt a sizeofGuardEntry)
    (hl : s'.guardList = ⟨⟨a, s.mem.next⟩, base, total, 1, false⟩ :: s.guardList) :
    HeapOwned T L s' X ∧ Frame T.regionOf s.mem s'.mem X := by
  obtain ⟨ho, hf⟩ := h.newNode hpl rfl
  refine ⟨⟨?_, h.tables.of_guards hs ?_ ?_ ?_ ?_⟩, hm ▸ hf⟩
  · have hperm : (guardNodes s').Perm (⟨a, s.mem.next⟩ :: guardNodes s) := by
      unfold guardNodes
      rw [hl, hd]
      exact Perm.refl _
    rw [owners_guard X hperm hs.heads hq, hm]
    exact ho
  · exact hl ▸ forall_mem_cons.2 ⟨⟨rfl, .inr rfl⟩, h.tables.listed⟩
  · exact hl ▸ forall_mem_cons.2 ⟨hbase, h.tables.based⟩
  · rw [hd]; exact h.tables.detached
  · rw [hq]; exact h.tables.times

/-- **A new entry of the guard list.** -/
theorem addGuardEntry_owned (hbase : 0 < base ∧ base < 2 ^ 47) :
    (addGuardEntry place base total s).Sat (fun ok s' => HeapOwned T L s' X ∧
      Frame T.regionOf s.mem s'.mem X ∧ OutsideGuards s s' ∧ s'.guardQ = s.guardQ ∧
      s'.detached = s.detached ∧
      ((ok = false ∧ s'.guardList = s.guardList ∧ .mapFailed ∈ s'.trace) ∨ (ok = true ∧ ∃ nd,
        s'.guardList = ⟨nd, base, total, 1, false⟩ :: s.guardList))) E := by
  rw [addGuardEntry, sat_bind]
  refine sat_mmapNode (fun a _ hpl => ?_) ?_
  · obtain ⟨h', hf⟩ := h.pushGuard hbase hpl
      (show OutsideGuards s { s with
        mem := s.mem.mmapAt a sizeofGuardEntry, trace := .map a sizeofGuardEntry :: s.trace,
        guardList := ⟨⟨a, s.mem.next⟩, base, total, 1, false⟩ :: s.guardList } from
        ⟨rfl, rfl, rfl, rfl, rfl, rfl⟩) rfl rfl rfl rfl
    exact ⟨h', hf, ⟨rfl, rfl, rfl, rfl, rfl, rfl⟩, rfl, rfl, .inr ⟨rfl, _, rfl⟩⟩
  · have hs : SameTables s (s.log .mapFailed) := .mem _ _ _
    exact ⟨h.of_same hs rfl, .refl _ _, hs.outsideGuards, rfl, rfl, .inl ⟨rfl, rfl, mem_cons_self⟩⟩

lemma HeapOwned.dropGuard {nd : Node} (hp : (guardNodes s).Perm (nd :: guardNodes s'))
    (hs : OutsideGuards s s') (hq : s'.guardQ = s.guardQ)
    (hm : s'.mem = s.mem.munmap nd.addr sizeofGuardEntry)
    (ht : Tables L s') : HeapOwned T L s' X ∧ Frame T.regionOf s.mem s'.mem X := by
  have ho := h.owned
  rw [owners_guard X hp hs.heads.symm hq.symm] at ho
  obtain ⟨ho', hf⟩ := ho.munmap T.ownerOk_local
    (show pagesOf sizeofGuardEntry = (T.regionOf (.node nd)).pages from rfl)
  exact ⟨⟨hm ▸ ho', ht⟩, hm ▸ frame_beside hf⟩

/-- What `remove_guard_entry` leaves. -/
lemma HeapOwned.removed {r : Bool} (hr : Removed base s r s') :
    HeapOwned T L s' X ∧ Frame T.regionOf s.mem s'.mem X ∧ OutsideGuards s s' ∧
      s'.guardQ = s.guardQ ∧ ∀ g ∈ s'.guardList, g ∈ s.guardList := by
  rcases hr with ⟨_, hs, _⟩ | ⟨_, pre, g, post, hl, _, _, hcase⟩
  · subst hs
    exact ⟨h, .refl _ _, OutsideGuards.refl _, rfl, fun g hg => hg⟩
  have hsub : ∀ x ∈ pre ++ post, x ∈ s.guardList :=
    hl ▸ ((sublist_cons_self g post).append_left pre).subset
  have hg : g ∈ s.guardList := by rw [hl]; simp
  rcases hcase with ⟨_, hs⟩ | ⟨hmore, hs⟩
  · -- the list held the only reference: the page of the node goes
    subst hs
    have hperm : (guardNodes s).Perm (g.node :: guardNodes
        { s with guardList := pre ++ post, mem := s.mem.munmap g.node.addr sizeofGuardEntry }) := by
      simp only [guardNodes, hl, map_append, append_assoc]
      exact perm_middle
    have ho : OutsideGuards s
      { s with guardList := pre ++ post, mem := s.mem.munmap g.node.addr sizeofGuardEntry } :=
      ⟨rfl, rfl, rfl, rfl, rfl, rfl⟩
    obtain ⟨h', hf⟩ := h.dropGuard hperm ho rfl rfl (h.tables.of_guards ho
      (fun x hx => h.tables.listed x (hsub x hx)) (fun x hx =>
        h.tables.based x (hsub x hx)) h.tables.detached h.tables.times)
    exact ⟨h', hf, ho, rfl, hsub⟩
  · subst hs
    have hL : L := (h.tables.listed g hg).2.resolve_right hmore
    have hperm : (guardNodes { s with guardList := pre ++ post, detached :=
        { g with removed := true, ref := g.ref - 1 } :: s.detached }).Perm (guardNodes s) := by
      simp only [guardNodes, hl, map_append, append_assoc]
      exact Perm.append_left _ perm_middle
    refine ⟨⟨?_, h.tables.of_guards ⟨rfl, rfl, rfl, rfl, rfl, rfl⟩ ?_ ?_ (.inl hL)
      h.tables.times⟩, .refl _ _, ⟨rfl, rfl, rfl, rfl, rfl, rfl⟩, rfl, hsub⟩
    · have heq : owners { s with guardList := pre ++ post, detached :=
          { g with removed := true, ref := g.ref - 1 } :: s.detached } X =
            owners s X := owners_perm X rfl rfl hperm
      rw [heq]
      exact h.owned
    · exact fun x hx => h.tables.listed x (hsub x hx)
    · exact fun x hx => h.tables.based x (hsub x hx)

/-- **An entry leaves the guard list.**  The call stops only where a count is exhausted. -/
theorem removeGuardEntry_owned (hE : ¬RefsPos s → ∀ e s', E e s') :
    (removeGuardEntry base s).Sat (fun _ s' => HeapOwned T L s' X ∧
      Frame T.regionOf s.mem s'.mem X ∧ OutsideGuards s s' ∧ s'.guardQ = s.guardQ ∧
      ∀ g ∈ s'.guardList, g ∈ s.guardList) E := by
  refine (removeGuardEntry_spec h.nodesDistinct h.guardNodeOk ?_).imp fun r s' hr => h.removed hr
  rintro ⟨g, hg, _, hneg⟩
  exact hE fun hpos => hneg (hpos g hg)

/-! ### The quarantine -/

end

/-- Nothing but the quarantine, the clock, memory and trace differs. -/
structure OutsideQuarantine (s s' : Heap) : Prop where
  opts : s'.opts = s.opts
  secret : s'.secret = s.secret
  delayed : s'.delayed = s.delayed
  guardList : s'.guardList = s.guardList
  detached : s'.detached = s.detached
  heads : s'.heads = s.heads
  cacheBytes : s'.cacheBytes = s.cacheBytes

section

variable (h : HeapOwned T L s (w ::ₘ X)) (hreg : T.regionOf w = ⟨base, pagesOf total⟩)
  (hk : T.kept true s.mem ⟨base, pagesOf total⟩) (hpos : 0 < total) (hwhole : total % 4096 = 0)

include h hreg hk hpos hwhole

lemma HeapOwned.pushQuar (hpl : s.mem.placeable a sizeofGuardQuarantine = true)
    (hs : OutsideQuarantine s s') (hc :
    s'.clock = s.clock + d) (hm : s'.mem = s.mem.mmapAt a sizeofGuardQuarantine)
    (hq : s'.guardQ = ⟨⟨a, s.mem.next⟩, base, total, s.clock + d⟩ :: s.guardQ) :
    HeapOwned T L s' X ∧ Frame T.regionOf s.mem s'.mem X := by
  obtain ⟨ho, hf⟩ := h.park hreg hk hpl rfl
    (show T.regionOf (.quar ⟨⟨a, s.mem.next⟩, base, total, s.clock + d⟩) = _ from rfl) fun m hm =>
      ⟨hpos, hwhole, hm⟩
  refine ⟨⟨?_, h.tables.toCacheTable.congr hs.opts hs.heads hs.cacheBytes, ⟨?_, ?_, ?_, ?_⟩⟩, hm ▸ hf⟩
  · rw [owners_quar X (Perm.of_eq hq) hs.heads (by unfold guardNodes; rw [hs.guardList, hs.detached]), hm]
    exact ho
  · rw [hs.guardList]; exact h.tables.listed
  · rw [hs.guardList]; exact h.tables.based
  · rw [hs.detached]; exact h.tables.detached
  · rw [hq, hc]
    exact forall_mem_cons.2 ⟨le_rfl, fun q hq => (h.tables.times q hq).trans (le_add_right _ _)⟩

/-- **A guarded mapping is parked**, or lost when there is no page for the node. -/
theorem guardQuarantineAdd_owned : (guardQuarantineAdd place d base total s).Sat (fun _ s' =>
      OutsideQuarantine s s' ∧ Frame T.regionOf s.mem s'.mem X ∧
      ((HeapOwned T L s' X ∧ s'.clock = s.clock + d ∧ ∃ nd,
          s'.guardQ = ⟨nd, base, total, s.clock + d⟩ :: s.guardQ) ∨
        (HeapOwned T L s' (w ::ₘ X) ∧ s'.clock = s.clock ∧ s'.guardQ = s.guardQ ∧
          .mapFailed ∈ s'.trace))) E := by
  rw [guardQuarantineAdd, sat_bind]
  refine sat_mmapNode (fun a _ hpl => ?_) ?_
  · obtain ⟨h', hf⟩ := h.pushQuar hreg hk hpos hwhole hpl
      (show OutsideQuarantine s { s with
        mem := s.mem.mmapAt a sizeofGuardQuarantine, trace := .map a sizeofGuardQuarantine :: s.trace,
        clock := s.clock + d, guardQ := ⟨⟨a, s.mem.next⟩, base, total, s.clock + d⟩ :: s.guardQ } from
        ⟨rfl, rfl, rfl, rfl, rfl, rfl, rfl⟩) rfl rfl rfl
    exact ⟨⟨rfl, rfl, rfl, rfl, rfl, rfl, rfl⟩, hf, .inl ⟨h', rfl, _, rfl⟩⟩
  · refine ⟨⟨rfl, rfl, rfl, rfl, rfl, rfl, rfl⟩, .refl _ _, .inr ⟨?_, rfl, rfl, ?_⟩⟩
    · exact h.of_same (.mem _ _ _) rfl
    · exact mem_cons_self

end

/-- What a sweep leaves: mappings go, and those quarantined just now stay. -/
structure Swept (T : Tenants Ω) (L : Prop) (X : Multiset (Owner Ω)) (now : ℕ) (s s' : Heap) :
    Prop where
  owned : HeapOwned T L s' X
  frame : Frame T.regionOf s.mem s'.mem X
  outside : OutsideGuards s s'
  listed : ∀ g ∈ s'.guardList, g ∈ s.guardList
  fewer : ∀ q ∈ s'.guardQ, q ∈ s.guardQ
  fresh : ∀ q ∈ s.guardQ, q.when = now → q ∈ s'.guardQ

lemma Swept.trans {s1 : Heap} (h : Swept T L X now s s1) (h' : Swept T L X now s1 s') :
    Swept T L X now s s' where
  owned := h'.owned
  frame := h.frame.trans h'.frame
  outside := h.outside.trans h'.outside
  listed := fun g hg => h.listed g (h'.listed g hg)
  fewer := fun q hq => h.fewer q (h'.fewer q hq)
  fresh := fun q hq hw => h'.fresh q (h.fresh q hq hw) hw

/-- One quarantined mapping that is due is unmapped. -/
lemma sweepOne_owned {q : GuardQuarantine} {pre rest : List GuardQuarantine} (h : HeapOwned T L s X)
    (hq : s.guardQ = pre ++ q :: rest) (hdue : q.when ≠ now) (hE : ¬RefsPos s → ∀ e s', E e s')
    {k : Alloc Unit} {Q : Unit → Heap → Prop}
    (hk : ∀ s', Swept T L X now s s' → s'.guardQ = pre ++ rest → (k s').Sat Q E) : ((do
      Prog.modify fun s => { s with guardQ := pre ++ rest }
      let _ ← removeGuardEntry q.base
      crashIf (q.total = 0 ∨ sizeMax / 2 < q.total ∨ q.total % 4096 ≠ 0)
        "free() [guard_quarantine_sweep]: corrupted guard quarantine size\n"
      munmap q.base q.total
      munmapNode q.node sizeofGuardQuarantine
      k : Alloc Unit) s).Sat Q E := by
  have hsub : ∀ x ∈ pre ++ rest, x ∈ s.guardQ := hq ▸ ((sublist_cons_self q rest).append_left pre).subset
  -- the mapping and its node are beside the tables once the entry is unlinked
  have h1 : HeapOwned T L { s with guardQ := pre ++ rest } (.quar q ::ₘ .node q.node ::ₘ X) := by
    refine ⟨?_, ?_⟩
    · have hp : s.guardQ.Perm (q :: (pre ++ rest)) := by rw [hq]; exact perm_middle
      have heq : owners s X = .quar q ::ₘ .node q.node ::ₘ
          owners { s with guardQ := pre ++ rest } X := owners_quar X hp rfl rfl
      rw [owners_cons, owners_cons, ← heq]
      exact h.owned
    · exact ⟨h.tables.toCacheTable.congr rfl rfl rfl,
        { h.tables.toGuardTable.congr rfl rfl rfl rfl with
          times := fun x hx => h.tables.times x (hsub x hx) }⟩
  refine (removeGuardEntry_owned h1 hE).bind ?_
  rintro _ s2 ⟨h2, hf2, ho2, hq2, hl2⟩
  obtain ⟨hpos, hwhole, _⟩ := h2.ok (Multiset.mem_cons_self _ _)
  have hhigh : q.base + pagesOf q.total * 4096 ≤ 2 ^ 47 :=
    (h2.whole (Multiset.mem_cons_self _ _)).high
  have hle := le_pagesOf q.total
  rw [sat_bind, crashIf, sat_stopIf]
  refine ⟨fun hbad => ?_, fun _ => ?_⟩
  · unfold sizeMax at hbad
    omega
  refine (munmap_owned h2 rfl).bind ?_
  rintro _ s3 ⟨h3, hf3, hs3, _, _⟩
  obtain ⟨h4, hf4⟩ := h3.munmap
    rfl
    (show SameTables s3 { s3 with mem := s3.mem.munmap q.node.addr sizeofGuardQuarantine } from
      (.mem _ _ _)) rfl
  have hq4 : s3.guardQ = pre ++ rest := hs3.guardQ.trans hq2
  refine hk _ ⟨h4, ?_, ?_, ?_, ?_, ?_⟩ hq4
  · exact (hf2.of_cons.of_cons.trans hf3.of_cons).trans hf4
  · have ho : OutsideGuards s s2 :=
      ⟨ho2.opts, ho2.secret, ho2.clock, ho2.delayed, ho2.heads, ho2.cacheBytes⟩
    exact ho.trans (hs3.trans (.mem _ _ _)).outsideGuards
  · intro g hg
    have hg' : g ∈ s3.guardList := hg
    rw [hs3.guardList] at hg'
    exact hl2 g hg'
  · intro x hx
    have hx' : x ∈ s3.guardQ := hx
    rw [hq4] at hx'
    exact hsub x hx'
  · intro x hx hw
    have hne : x ≠ q := fun heq => hdue (heq ▸ hw)
    simpa [hq4, hq, hne] using hx

/-- **The sweep.** -/
theorem sweepFrom_owned : ∀ (rest pre : List GuardQuarantine) (s : Heap),
    HeapOwned T L s X → s.guardQ = pre ++ rest → (¬RefsPos s → ∀ e s', E e s') →
    (∀ q ∈ s.guardQ, q.when ≤ now) →
    (sweepFrom now pre rest s).Sat (fun _ s' => Swept T L X now s s') E := by
  intro rest
  induction rest with
  | nil =>
    intro pre s h _ _ _
    exact ⟨h, .refl _ _, OutsideGuards.refl s, fun _ hg => hg, fun _ hq => hq, fun _ hq _ => hq⟩
  | cons q rest ih =>
    intro pre s h hq hE hle
    have hmem : q ∈ s.guardQ := by rw [hq]; simp
    have hnode : NodeOk s.mem q.node := by
      refine h.nodeOk ?_
      exact mem_append_left _ (mem_append_left _
        (mem_append_right _ (mem_map_of_mem hmem)))
    rw [sweepFrom, sat_bind, touch_ok hnode]
    simp only [Outcome.sat_ok]
    rw [sat_ite]
    refine ⟨fun hdue => ?_, fun _ => ?_⟩
    · have hne : q.when ≠ now := by
        intro hw
        rw [wrap] at hdue
        omega
      refine sweepOne_owned h hq hne hE ?_
      intro s1 hs1 hq1
      refine (ih pre s1 hs1.owned hq1 ?_ ?_).imp fun _ s' hs' => hs1.trans hs'
      · intro hneg
        exact hE fun hpos => hneg (hpos.of_subset hs1.listed)
      · exact fun x hx => hle x (hs1.fewer x hx)
    · exact ih (pre ++ [q]) s h (by rw [hq, append_assoc]; rfl) hE hle

/-! ### Guarded mappings -/

lemma mprotect_owned (h : HeapOwned T L s (.raw r ::ₘ X)) (a len : ℕ) (p : Prot) (h1 : r.base ≤ a)
    (h2 : a + pagesOf len * 4096 ≤ r.stop) :
    HeapOwned T L ({ s with mem := s.mem.mprotect a len p }.log (.protect a len)) (.raw r ::ₘ X) ∧
      Frame T.regionOf s.mem (s.mem.mprotect a len p) X :=
  h.change (SameTables.mem _ _ _) (tagAt_mprotect _ _ _ _) (next_mprotect _ _ _ _)
    ((sameOutside_mprotect a len p).widen h1 h2)
    (show T.regionOf (.raw r) = T.regionOf (.raw r) from rfl) trivial

lemma memcpy_owned (h : HeapOwned T L s (.raw r ::ₘ X)) (d a n : ℕ) (h1 : r.base ≤ d)
    (h2 : d + n ≤ r.stop) :
    HeapOwned T L (({ s with mem := s.mem.copy d a n }.log (.read a n)).log (.write d n)) (.raw r ::ₘ X) ∧
      Frame T.regionOf s.mem (s.mem.copy d a n) X :=
  h.write (SameTables.mem _ _ _) rfl rfl ((sameOutside_copy d a n).widen h1 h2)
    (show T.regionOf (.raw r) = T.regionOf (.raw r) from rfl) trivial

/-- The mapping `[guard | interior | guard]` at `base`. -/
def guardedRegion (base aligned : ℕ) : Region := ⟨base, pagesOf (aligned + 8192)⟩

lemma guardedRegion_stop (base : ℕ) (hal : aligned % 4096 = 0) :
    (guardedRegion base aligned).stop = base + aligned + 8192 := by
  unfold guardedRegion Region.stop pagesOf
  simp only
  omega

lemma protectGuards_owned {frontOk rearOk : Bool}
    (h : HeapOwned T L s (.raw (guardedRegion base aligned) ::ₘ X)) (hal : aligned % 4096 = 0) :
    (protectGuards frontOk rearOk base aligned s).Sat (fun r s' => SameTables s s' ∧
      HeapOwned T L s' (.raw (guardedRegion base aligned) ::ₘ X) ∧ Frame T.regionOf s.mem s'.mem X ∧
      (r = true → Same s.mem s'.mem (base + 4096) (base + 4096 + aligned) ∧
        s'.mem.rwPage (base / 4096) = false) ∧
      (r = false → ¬(frontOk = true ∧ rearOk = true))) E := by
  have hbase : base % 4096 = 0 :=
    (h.whole (Multiset.mem_cons_self _ _)).aligned
  have hstop := guardedRegion_stop base hal
  have hone : pagesOf 4096 * 4096 = 4096 := rfl
  rw [protectGuards, sat_bind, tryMprotect, sat_bind]
  cases frontOk with
  | false =>
    rw [sat_exec]
    refine ⟨fun hf => (nomatch hf), fun _ => ?_⟩
    exact ⟨.refl s, h, .refl _ _, fun hr => (nomatch hr), fun _ => by simp⟩
  | true =>
    rw [sat_exec]
    refine ⟨fun _ => ?_, fun hf => absurd rfl hf⟩
    obtain ⟨h1, hf1⟩ := mprotect_owned h base 4096 .none le_rfl (by rw [hone]; omega)
    have hs1 : SameTables s ({ s with mem := s.mem.mprotect base 4096 .none }.log
        (.protect base 4096)) := (.mem _ _ _)
    show ((tryMprotect rearOk (base + 4096 + aligned) 4096 .none) _).Sat _ _
    rw [tryMprotect, sat_bind]
    cases rearOk with
    | false =>
      rw [sat_exec]
      refine ⟨fun hf => (nomatch hf), fun _ => ?_⟩
      exact ⟨hs1, h1, hf1, fun hr => (nomatch hr), fun _ => by simp⟩
    | true =>
      rw [sat_exec]
      refine ⟨fun _ => ?_, fun hf => absurd rfl hf⟩
      obtain ⟨h2, hf2⟩ := mprotect_owned h1 (base + 4096 + aligned) 4096 .none
        (by show base ≤ _; omega) (by rw [hone]; omega)
      refine ⟨hs1.trans (.mem _ _ _), h2, hf1.trans hf2, fun _ => ⟨?_, ?_⟩, fun hr => (nomatch hr)⟩
      · refine Same.trans ((sameOutside_mprotect base 4096 .none).same ?_)
          ((sameOutside_mprotect (base + 4096 + aligned) 4096 .none).same ?_)
        · rw [hone]; omega
        · rw [hone]; omega
      · -- the second call is about another page
        have hout : Same (s.mem.mprotect base 4096 .none)
            ((s.mem.mprotect base 4096 .none).mprotect (base + 4096 + aligned) 4096 .none)
            base (base + 4096) :=
          (sameOutside_mprotect (base + 4096 + aligned) 4096 .none).same (.inl (by omega))
        show rwPage ((s.mem.mprotect base 4096 .none).mprotect (base + 4096 + aligned) 4096 .none)
          (base / 4096) = false
        rw [hout.rwPage le_rfl (by omega)]
        exact mprotect_none_rwPage hbase

/-- What the preparation of a guarded mapping leaves. -/
structure ArmResult (T : Tenants Ω) (L : Prop) (X : Multiset (Owner Ω)) (env : MguardEnv)
    (base aligned : ℕ) (s : Heap) (r : Armed) (s' : Heap) : Prop where
  outside : OutsideGuards s s'
  guardQ : s'.guardQ = s.guardQ
  detached : s'.detached = s.detached
  frame : Frame T.regionOf s.mem s'.mem X
  done : r = .done → HeapOwned T L s' (.raw (guardedRegion base aligned) ::ₘ X) ∧
    Same s.mem s'.mem (base + 4096) (base + 4096 + aligned) ∧
    s'.mem.rwPage (base / 4096) = false ∧
    ∃ nd, s'.guardList = ⟨nd, base, aligned + 8192, 1, false⟩ :: s.guardList
  failed : r ≠ .done → HeapOwned T L s' X ∧ s'.guardList = s.guardList ∧
    (¬(env.frontOk = true ∧ env.rearOk = true) ∨ .mapFailed ∈ s'.trace)
  /-- A failure to protect is told from a failure to register. -/
  told : r = .protectFailed → ¬(env.frontOk = true ∧ env.rearOk = true)
  registered : r = .entryFailed → .mapFailed ∈ s'.trace

/-- **Guard pages and list entry**, or the mapping is gone. -/
theorem armGuards_owned (h : HeapOwned T L s (.raw (guardedRegion base aligned) ::ₘ X))
    (hal : aligned % 4096 = 0) :
    (armGuards env base aligned s).Sat (ArmResult T L X env base aligned s) E := by
  have hw := h.whole (Multiset.mem_cons_self _ _)
  have hlow : 4096 ≤ base := hw.low
  have hhigh : base + pagesOf (aligned + 8192) * 4096 ≤ 2 ^ 47 := hw.high
  have hpos : 0 < pagesOf (aligned + 8192) := hw.pos
  have hstop := guardedRegion_stop base hal
  have hone : pagesOf 4096 * 4096 = 4096 := rfl
  refine (protectGuards_owned h hal).bind ?_
  rintro r s1 ⟨hs1, h1, hf1, hyes, hno⟩
  cases r with
  | false =>
    refine (munmap_owned h1 rfl).bind ?_
    rintro _ s2 ⟨h2, hf2, hs2, _, _⟩
    have hs := hs1.trans hs2
    exact ⟨hs.outsideGuards, hs.guardQ, hs.detached, hf1.trans hf2, fun hr => (nomatch hr),
      fun _ => ⟨h2, hs.guardList, .inl (hno rfl)⟩, fun _ => hno rfl, fun hr => (nomatch hr)⟩
  | true =>
    obtain ⟨hsame, hfront⟩ := hyes rfl
    refine (addGuardEntry_owned h1 ⟨by omega, by omega⟩).bind ?_
    rintro ok s2 ⟨h2, hf2, ho2, hq2, hd2, hcase⟩
    have ho : OutsideGuards s s2 := hs1.outsideGuards.trans ho2
    rcases hcase with ⟨hok, hl2, hmf⟩ | ⟨hok, nd, hl2⟩
    · -- no page for the entry: the guard pages are relaxed and the mapping goes
      subst hok
      simp only [Bool.false_eq_true, if_false]
      rw [sat_bind, relaxGuards, sat_bind, mprotect, sat_modify, mprotect, sat_modify, sat_bind]
      obtain ⟨h3, hf3⟩ := mprotect_owned h2 base 4096 .rw le_rfl (by rw [hone]; omega)
      obtain ⟨h4, hf4⟩ := mprotect_owned h3 (base + 4096 + aligned) 4096 .rw
        (by show base ≤ _; omega) (by rw [hone]; omega)
      refine (munmap_owned h4 rfl).imp ?_
      rintro _ s5 ⟨h5, hf5, hs5, htr, _⟩
      have hmf' : Access.mapFailed ∈ s5.trace :=
        htr (mem_cons_of_mem _ (mem_cons_of_mem _ hmf))
      refine ⟨ho.trans ⟨hs5.opts, hs5.secret, hs5.clock, hs5.delayed, hs5.heads, hs5.cacheBytes⟩,
        ?_, ?_, ?_, fun hr => (nomatch hr), fun _ => ⟨h5, ?_, .inr hmf'⟩, fun hr => (nomatch hr),
        fun _ => hmf'⟩
      · exact (hs5.guardQ.trans hq2).trans hs1.guardQ
      · exact (hs5.detached.trans hd2).trans hs1.detached
      · exact (((hf1.trans hf2.of_cons).trans hf3).trans hf4).trans hf5
      · exact (hs5.guardList.trans hl2).trans hs1.guardList
    · subst hok
      have hraw : Same s1.mem s2.mem base (guardedRegion base aligned).stop :=
        hf2 (.raw (guardedRegion base aligned)) (Multiset.mem_cons_self _ _)
      refine ⟨ho, hq2.trans hs1.guardQ, hd2.trans hs1.detached, hf1.trans hf2.of_cons,
        fun _ => ⟨h2, ?_, ?_, nd, by rw [hl2, hs1.guardList]⟩, fun hr => absurd rfl hr,
        fun hr => (nomatch hr), fun hr => (nomatch hr)⟩
      · exact hsame.trans (hraw.sub (by omega) (by rw [hstop]; omega))
      · rw [hraw.rwPage le_rfl (by rw [hstop]; omega)]
        exact hfront

/-- What `mguard` leaves when it answers an address. -/
structure Guarded (T : Tenants Ω) (L : Prop) (X : Multiset (Owner Ω)) (aligned : ℕ) (s : Heap)
    (base : ℕ) (s' : Heap) : Prop where
  owned : HeapOwned T L s' (.raw (guardedRegion base aligned) ::ₘ X)
  outside : OutsideGuards s s'
  guardQ : s'.guardQ = s.guardQ
  frame : Frame T.regionOf s.mem s'.mem X
  interior : ∀ x, base + 4096 ≤ x → x < base + 4096 + aligned →
    s'.mem.rwPage (x / 4096) = true ∧ s'.mem.byte x = 0

lemma roundPage_mod (x : ℕ) : roundPage x % 4096 = 0 := by
  exact mul_mod_left _ _

lemma guardAligned_mod (size : ℕ) : guardAligned size % 4096 = 0 := by
  unfold guardAligned
  split
  · exact roundPage_mod size
  · omega

/-- **A guarded mapping.** -/
theorem mguard_owned (h : HeapOwned T L s X) (hg : s.opts.guard = true) (hpos : 0 < size) :
    (mguard env size s).Sat (fun r s' =>
      (∃ base, r = some (base + 4096) ∧ Guarded T L X (guardAligned size) s base s') ∨
      (r = none ∧ HeapOwned T L s' X ∧ OutsideGuards s s' ∧ s'.guardQ = s.guardQ ∧
        Frame T.regionOf s.mem s'.mem X ∧
        (sizeMax - 8192 < guardAligned size ∨ ¬(env.frontOk = true ∧ env.rearOk = true) ∨
          .mapFailed ∈ s'.trace))) E := by
  have hal := guardAligned_mod size
  unfold mguard
  generalize guardAligned size = aligned at hal ⊢
  rw [sat_bind, sat_get, if_neg (by omega), if_neg (by rw [hg]; simp), sat_ite]
  refine ⟨fun hbig => ?_, fun _ => ?_⟩
  · exact .inr ⟨rfl, h, OutsideGuards.refl s, rfl, .refl _ _, .inl hbig⟩
  rw [sat_bind]
  refine sat_mmap (fun base _ hpl => ?_) ?_
  · have hs := SameTables.mem s (s.mem.mmapAt base (aligned + 8192))
      (.map base (aligned + 8192) :: s.trace)
    obtain ⟨h₁, hf1⟩ := h.mmapAt hpl hs rfl
      (show T.regionOf (.raw (guardedRegion base aligned)) = _ from rfl) trivial
    obtain ⟨⟨hbase, _, _, _⟩, _⟩ := placeable_iff.1 hpl
    refine (armGuards_owned h₁ hal).bind ?_
    intro r s2 hr
    have ho := hs.outsideGuards.trans hr.outside
    by_cases hdone : r = .done
    · obtain ⟨h₂, hsame, _, _⟩ := hr.done hdone
      rw [if_pos hdone]
      refine .inl ⟨base, rfl, h₂, ho, hr.guardQ, hf1.trans hr.frame, fun x h1 h2 => ?_⟩
      have hle := le_pagesOf (aligned + 8192)
      rw [hsame.rwPage h1 h2, (hsame x h1 h2).2]
      exact ⟨mmapAt_rwPage hbase (by omega) (by omega), mmapAt_byte (by omega) (by omega)⟩
    · obtain ⟨h₂, _, hwhy⟩ := hr.failed hdone
      rw [if_neg hdone]
      exact .inr ⟨rfl, h₂, ho, hr.guardQ, hf1.trans hr.frame, .inr hwhy⟩
  · have hs : SameTables s (s.log .mapFailed) := .mem _ _ _
    exact .inr ⟨rfl, h.of_same hs rfl, hs.outsideGuards, rfl, .refl _ _, .inr (.inr mem_cons_self)⟩

lemma HeapOwned.tick (h : HeapOwned T L s X) (d : ℕ) : HeapOwned T L { s with clock := s.clock + d } X :=
  ⟨h.owned, h.tables.toCacheTable.congr rfl rfl rfl,
    { h.tables.toGuardTable with times := fun q hq => (h.tables.times q hq).trans (le_add_right _ _) }⟩

end Musl.Malloc
