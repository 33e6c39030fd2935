import Musl.Lib.RegionOwners
import Musl.Malloc.GuardRefs
import Musl.Malloc.PageCache

/-!
# Who owns the mappings of the allocator

Every mapping the allocator made is cached, quarantined, the page of a list node, or held by someone
else: a live block, a block that is being freed, a mapping that was lost.  `Tenants` says who these
others are and what is known about the mappings they hold, and `HeapOwned T L s X` is the invariant
of the allocator's tables with the owners `X` beside them:

* all mappings are whole and apart, the nodes are intact, parked mappings are as they were left;
* the page cache counts its bytes, and the entries of the guard list are unremoved.

`L` tells whether reference counts may have leaked: with `L := False` every listed entry has count
one and nothing is detached.

The lemmas here are the rules for the table operations; each says which owners come and go and that
the mappings of all others are left alone (`Frame`).
-/

namespace Musl.Malloc

open Musl.Lib Musl.Lib.Space Multiset

/-- Those who hold mappings beside the tables of the allocator. -/
structure Tenants (Ω : Type) where
  region : Ω → Region
  Ok : Space → Ω → Prop
  /-- What is known of a mapping that is cached (`false`) or quarantined (`true`). -/
  kept : Bool → Space → Region → Prop
  ok_local : Local region Ok
  kept_local : ∀ g, Local id (kept g)

/-- A holder of a mapping; nothing is known of a raw one, which is being made or was lost. -/
inductive Owner (Ω : Type) where
  | cached (e : CacheEntry)
  | quar (q : GuardQuarantine)
  | node (nd : Node)
  | raw (r : Region)
  | tenant (w : Ω)

variable {Ω : Type}

namespace Tenants

variable (T : Tenants Ω)

def regionOf : Owner Ω → Region
  | .cached e => ⟨e.ptr, pagesOf e.len⟩
  | .quar q => ⟨q.base, pagesOf q.total⟩
  | .node nd => ⟨nd.addr, 1⟩
  | .raw r => r
  | .tenant w => T.region w

def OwnerOk (m : Space) : Owner Ω → Prop
  | .cached e => 0 < e.len ∧ e.len % 4096 = 0 ∧ T.kept false m ⟨e.ptr, pagesOf e.len⟩
  | .quar q => 0 < q.total ∧ q.total % 4096 = 0 ∧ T.kept true m ⟨q.base, pagesOf q.total⟩
  | .node nd => NodeOk m nd
  | .raw _ => True
  | .tenant w => T.Ok m w

lemma ownerOk_local : Local T.regionOf T.OwnerOk := by
  intro m m' w hsame hok
  cases w with
  | cached e => exact ⟨hok.1, hok.2.1, T.kept_local false m m' _ hsame hok.2.2⟩
  | quar q => exact ⟨hok.1, hok.2.1, T.kept_local true m m' _ hsame hok.2.2⟩
  | node nd =>
    have hpage := (hsame nd.addr le_rfl (by show nd.addr < nd.addr + 1 * 4096; omega)).1
    show m'.page (nd.addr / 4096) = _
    rw [hpage]
    exact hok
  | raw r => trivial
  | tenant w => exact T.ok_local m m' w hsame hok

end Tenants

def guardNodes (s : Heap) : List Node := s.guardList.map GuardEntry.node ++ s.detached.map GuardEntry.node

def nodeList (s : Heap) : List Node :=
  (cachedEntries s).map CacheEntry.node ++ s.guardQ.map GuardQuarantine.node ++
    s.guardList.map GuardEntry.node ++ s.detached.map GuardEntry.node

def owners (s : Heap) (X : Multiset (Owner Ω)) : Multiset (Owner Ω) :=
  Multiset.ofList ((cachedEntries s).map Owner.cached) +
    Multiset.ofList (s.guardQ.map Owner.quar) + Multiset.ofList ((nodeList s).map Owner.node) + X

structure CacheTable (s : Heap) : Prop where
  buckets : ∀ b, pageCacheBucketCount s.opts ≤ b → s.heads b = []
  bytes : s.cacheBytes = ((cachedEntries s).map CacheEntry.len).sum
  within : s.cacheBytes ≤ pageCacheCapacity s.opts

structure GuardTable (L : Prop) (s : Heap) : Prop where
  listed : ∀ g ∈ s.guardList, g.removed = false ∧ (L ∨ g.ref = 1)
  based : ∀ g ∈ s.guardList, 0 < g.base ∧ g.base < 2 ^ 47
  detached : L ∨ s.detached = []
  times : ∀ q ∈ s.guardQ, q.when ≤ s.clock

structure Tables (L : Prop) (s : Heap) : Prop extends CacheTable s, GuardTable L s

/-- **The invariant of the allocator's tables**, beside the owners `X`. -/
structure HeapOwned (T : Tenants Ω) (L : Prop) (s : Heap) (X : Multiset (Owner Ω)) : Prop where
  owned : Owned T.regionOf T.OwnerOk s.mem (owners s X)
  tables : Tables L s

/-! ### Bookkeeping of the owners -/

lemma owners_cons (s : Heap) (w : Owner Ω) (X : Multiset (Owner Ω)) :
    owners s (w ::ₘ X) = w ::ₘ owners s X := by
  simp [owners]

variable {s s' : Heap}

lemma owners_add (X : Multiset (Owner Ω)) (es : List CacheEntry) (qs : List GuardQuarantine)
    (nds : List Node)
    (hc : (cachedEntries s').Perm (es ++ cachedEntries s)) (hq : s'.guardQ.Perm (qs ++ s.guardQ))
    (hg : (guardNodes s').Perm (nds ++ guardNodes s)) :
    owners s' X = ofList (es.map Owner.cached) + ofList (qs.map Owner.quar) +
      ofList ((es.map CacheEntry.node ++ qs.map GuardQuarantine.node ++
        nds).map Owner.node) + owners s X := by
  have hnodes : (nodeList s').Perm (es.map CacheEntry.node ++ qs.map GuardQuarantine.node ++ nds ++
      nodeList s) := by
    refine List.perm_iff_count.2 fun nd => ?_
    have h1 := (hc.map CacheEntry.node).count_eq nd
    have h2 := (hq.map GuardQuarantine.node).count_eq nd
    have h3 := hg.count_eq nd
    simp only [nodeList, guardNodes, List.map_append, List.count_append] at h1 h2 h3 ⊢
    omega
  unfold owners
  rw [coe_eq_coe.2 (hc.map Owner.cached), coe_eq_coe.2 (hq.map Owner.quar),
    coe_eq_coe.2 (hnodes.map Owner.node),
    List.map_append, List.map_append, List.map_append, ← coe_add, ← coe_add, ← coe_add]
  abel

variable {e : CacheEntry} {q : GuardQuarantine} {nd : Node}

lemma cachedEntries_congr (h : s'.heads = s.heads) : cachedEntries s' = cachedEntries s := by
  unfold cachedEntries
  rw [h]

section

variable (X : Multiset (Owner Ω))

include X

lemma owners_perm (hc : s'.heads = s.heads) (hq : s'.guardQ = s.guardQ)
    (hg : (guardNodes s').Perm (guardNodes s)) : owners s' X = owners s X := by
  rw [owners_add X [] [] [] (.of_eq (cachedEntries_congr hc)) (.of_eq hq) hg]
  simp

lemma owners_cached (hp : (cachedEntries s').Perm (e :: cachedEntries s))
    (hq : s'.guardQ = s.guardQ) (hg : guardNodes s' = guardNodes s) :
    owners s' X = Owner.cached e ::ₘ Owner.node e.node ::ₘ owners s X := by
  rw [owners_add X [e] [] [] hp (.of_eq hq) (.of_eq hg)]
  simp

lemma owners_quar (hp : s'.guardQ.Perm (q :: s.guardQ)) (hc : s'.heads = s.heads)
    (hg : guardNodes s' = guardNodes s) :
    owners s' X = Owner.quar q ::ₘ Owner.node q.node ::ₘ owners s X := by
  rw [owners_add X [] [q] [] (.of_eq (cachedEntries_congr hc)) hp (.of_eq hg)]
  simp

lemma owners_guard (hp : (guardNodes s').Perm (nd :: guardNodes s)) (hc : s'.heads = s.heads)
    (hq : s'.guardQ = s.guardQ) : owners s' X = Owner.node nd ::ₘ owners s X := by
  rw [owners_add X [] [] [nd] (.of_eq (cachedEntries_congr hc)) (.of_eq hq) hp]
  simp

/-! ### Memory changes under unchanged tables -/

end

structure SameTables (s s' : Heap) : Prop where
  opts : s'.opts = s.opts
  secret : s'.secret = s.secret
  clock : s'.clock = s.clock
  delayed : s'.delayed = s.delayed
  guardList : s'.guardList = s.guardList
  detached : s'.detached = s.detached
  guardQ : s'.guardQ = s.guardQ
  heads : s'.heads = s.heads
  cacheBytes : s'.cacheBytes = s.cacheBytes

lemma SameTables.mem (s : Heap) (m : Space) (tr : List Access) :
    SameTables s { s with mem := m, trace := tr } :=
  ⟨rfl, rfl, rfl, rfl, rfl, rfl, rfl, rfl, rfl⟩

lemma SameTables.refl (s : Heap) : SameTables s s := SameTables.mem s s.mem s.trace

lemma SameTables.trans {s'' : Heap} (h : SameTables s s') (h' : SameTables s' s'') : SameTables s s'' :=
  ⟨h'.opts.trans h.opts, h'.secret.trans h.secret, h'.clock.trans h.clock,
    h'.delayed.trans h.delayed, h'.guardList.trans h.guardList, h'.detached.trans h.detached,
    h'.guardQ.trans h.guardQ, h'.heads.trans h.heads, h'.cacheBytes.trans h.cacheBytes⟩

lemma SameTables.cachedEntries (h : SameTables s s') : cachedEntries s' = cachedEntries s :=
  cachedEntries_congr h.heads

lemma SameTables.owners (h : SameTables s s') (X : Multiset (Owner Ω)) : owners s' X = owners s X :=
  owners_perm X h.heads h.guardQ (by rw [guardNodes, h.guardList, h.detached]; rfl)

lemma CacheTable.congr (h : CacheTable s) (ho : s'.opts = s.opts) (hh : s'.heads = s.heads)
    (hb : s'.cacheBytes = s.cacheBytes) : CacheTable s' := by
  refine ⟨?_, ?_, ?_⟩
  · rw [ho, hh]; exact h.buckets
  · rw [hb, cachedEntries_congr hh]; exact h.bytes
  · rw [hb, ho]; exact h.within

lemma GuardTable.congr {L : Prop} (h : GuardTable L s) (hl : s'.guardList = s.guardList)
    (hd : s'.detached = s.detached) (hq : s'.guardQ = s.guardQ) (hc : s'.clock = s.clock) :
    GuardTable L s' := by
  refine ⟨?_, ?_, ?_, ?_⟩
  · rw [hl]; exact h.listed
  · rw [hl]; exact h.based
  · rw [hd]; exact h.detached
  · rw [hq, hc]; exact h.times

lemma Tables.of_same {L : Prop} (h : Tables L s) (hs : SameTables s s') : Tables L s' :=
  ⟨h.toCacheTable.congr hs.opts hs.heads hs.cacheBytes,
    h.toGuardTable.congr hs.guardList hs.detached hs.guardQ hs.clock⟩

section Rules

variable {T : Tenants Ω} {L : Prop} {s s' : Heap} {X : Multiset (Owner Ω)} {w w' : Owner Ω}
  {E : Stop → Heap → Prop}

lemma mem_owners {v : Owner Ω} (hv : v ∈ X) : v ∈ owners s X :=
  mem_add.2 (.inr hv)

lemma mem_owners_cached (he : e ∈ cachedEntries s) : .cached e ∈ owners s X :=
  mem_add.2 (.inl (mem_add.2 (.inl (mem_add.2 (.inl (mem_coe.2 (List.mem_map_of_mem he)))))))

lemma mem_owners_quar (hq : q ∈ s.guardQ) : .quar q ∈ owners s X :=
  mem_add.2 (.inl (mem_add.2 (.inl (mem_add.2 (.inr (mem_coe.2 (List.mem_map_of_mem hq)))))))

variable {m : Space} {len : ℕ}

lemma frame_beside {m' : Space} (h : Frame T.regionOf m m' (owners s X)) : Frame T.regionOf m m' X :=
  fun v hv => h v (mem_owners hv)

section

variable (h : HeapOwned T L s X)

include h

lemma HeapOwned.of_same (hs : SameTables s s') (hm : s'.mem = s.mem) : HeapOwned T L s' X := by
  refine ⟨?_, h.tables.of_same hs⟩
  rw [hs.owners, hm]
  exact h.owned

lemma HeapOwned.whole (hw : w ∈ X) : Whole s.mem (T.regionOf w) :=
  h.owned.whole (mem_owners hw)

lemma HeapOwned.ok (hw : w ∈ X) : T.OwnerOk s.mem w :=
  h.owned.ok w (mem_owners hw)

/-- **A new owner** of a fresh mapping. -/
theorem HeapOwned.mmapAt {a : ℕ} (hp : s.mem.placeable a len = true) (hs : SameTables s s')
    (hm : s'.mem = s.mem.mmapAt a len) (hreg : T.regionOf w = ⟨a, pagesOf len⟩)
    (hok : T.OwnerOk s'.mem w) :
    HeapOwned T L s' (w ::ₘ X) ∧ Frame T.regionOf s.mem s'.mem X := by
  rw [hm] at hok
  obtain ⟨ho, hf⟩ := h.owned.mmapAt T.ownerOk_local hp hreg hok
  refine ⟨⟨?_, h.tables.of_same hs⟩, ?_⟩
  · rw [owners_cons, hs.owners, hm]
    exact ho
  · rw [hm]
    exact frame_beside hf

end

section

variable (h : HeapOwned T L s (w ::ₘ X))

include h

/-- **An owner leaves** with its mapping. -/
theorem HeapOwned.munmap (hlen : pagesOf len = (T.regionOf w).pages)
    (hs : SameTables s s') (hm : s'.mem = s.mem.munmap (T.regionOf w).base len) :
    HeapOwned T L s' X ∧ Frame T.regionOf s.mem s'.mem X := by
  have ho := h.owned
  rw [owners_cons] at ho
  obtain ⟨ho', hf⟩ := ho.munmap T.ownerOk_local hlen
  refine ⟨⟨?_, h.tables.of_same hs⟩, ?_⟩
  · rw [hs.owners, hm]
    exact ho'
  · rw [hm]
    exact frame_beside hf

/-- **An owner changes** bytes and rights of its mapping. -/
theorem HeapOwned.change (hs : SameTables s s') (htag : s'.mem.tagAt = s.mem.tagAt)
    (hnext : s'.mem.next = s.mem.next)
    (hout : SameOutside s.mem s'.mem (T.regionOf w).base (T.regionOf w).stop)
    (hreg : T.regionOf w' = T.regionOf w) (hok : T.OwnerOk s'.mem w') :
    HeapOwned T L s' (w' ::ₘ X) ∧ Frame T.regionOf s.mem s'.mem X := by
  have ho := h.owned
  rw [owners_cons] at ho
  obtain ⟨ho', hf⟩ := ho.change T.ownerOk_local htag hnext hout hreg hok
  refine ⟨⟨?_, h.tables.of_same hs⟩, frame_beside hf⟩
  rw [owners_cons, hs.owners]
  exact ho'

/-- **An owner writes** to its mapping. -/
theorem HeapOwned.write (hs : SameTables s s') (hpage : s'.mem.page = s.mem.page)
    (hnext : s'.mem.next = s.mem.next)
    (hout : SameOutside s.mem s'.mem (T.regionOf w).base (T.regionOf w).stop)
    (hreg : T.regionOf w' = T.regionOf w) (hok : T.OwnerOk s'.mem w') :
    HeapOwned T L s' (w' ::ₘ X) ∧ Frame T.regionOf s.mem s'.mem X :=
  h.change hs (tagAt_of_page hpage) hnext hout hreg hok

/-- **A mapping is moved or resized.** -/
theorem HeapOwned.mremapTo {b len' : ℕ} (hlen : pagesOf len = (T.regionOf w).pages)
    (hrem : s.mem.remappable (T.regionOf w).base len b len' = true) (hs : SameTables s s')
    (hm : s'.mem = s.mem.mremapTo (T.regionOf w).base len b len')
    (hreg : T.regionOf w' = ⟨b, pagesOf len'⟩)
    (hok : T.OwnerOk s'.mem w') : HeapOwned T L s' (w' ::ₘ X) ∧ Frame T.regionOf s.mem s'.mem X := by
  rw [hm] at hok
  have ho := h.owned
  rw [owners_cons] at ho
  obtain ⟨ho', hf⟩ := ho.mremapTo T.ownerOk_local hlen hrem hreg hok
  refine ⟨⟨?_, h.tables.of_same hs⟩, ?_⟩
  · rw [owners_cons, hs.owners, hm]
    exact ho'
  · rw [hm]
    exact frame_beside hf

end

section

variable (o : MallocOpts) (secret : UInt64)

lemma tables_start (m : Space) : Tables L (Heap.start o secret m) := by
  refine ⟨⟨fun _ _ => rfl, ?_, Nat.zero_le _⟩, ⟨?_, ?_, .inr rfl, ?_⟩⟩
  · rfl
  all_goals
    intro g hg
    cases hg

lemma heapOwned_start (hm : m.TagsUsed) : HeapOwned T L (Heap.start o secret m) 0 := by
  have ho : owners (Heap.start o secret m) (0 : Multiset (Owner Ω)) = 0 := by
    rfl
  refine ⟨?_, tables_start o secret m⟩
  exact ⟨⟨fun r hr => absurd hr (notMem_zero r), nodup_zero, hm⟩, fun w hw => absurd hw (notMem_zero w)⟩

end

section

variable (h : HeapOwned T L s X)

include h

lemma HeapOwned.nodeOk {nd : Node} (hnd : nd ∈ nodeList s) : NodeOk s.mem nd := by
  refine h.owned.ok (.node nd) ?_
  exact mem_add.2 (.inl (mem_add.2 (.inr
    (mem_coe.2 (List.mem_map_of_mem hnd)))))

lemma HeapOwned.guardNodeOk : ∀ g ∈ s.guardList, NodeOk s.mem g.node := by
  intro g hg
  refine h.nodeOk ?_
  exact List.mem_append_left _ (List.mem_append_right _ (List.mem_map_of_mem hg))

lemma HeapOwned.nodesDistinct : NodesDistinct s := by
  have hnd := h.owned.layout.nodup
  rw [map_map] at hnd
  have hle : ofList ((nodeList s).map Owner.node) ≤ owners s X :=
    (le_add_left _ _).trans (le_add_right _ _)
  have hnodes := nodup_of_le (map_le_map hle) hnd
  rw [map_coe, List.map_map] at hnodes
  have hlist : (nodeList s).Nodup := List.Nodup.of_map _ hnodes
  unfold nodeList at hlist
  rw [List.append_assoc] at hlist
  exact (List.nodup_append.1 hlist).2.1

end

end Rules

end Musl.Malloc
