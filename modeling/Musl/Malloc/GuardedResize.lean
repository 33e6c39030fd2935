import Musl.Malloc.DelayedChecks
import Musl.Malloc.GuardRuns

/-!
# Resizing a guarded mapping, whatever the counts

`mreguard` from any state of the tables, with reference counts that may have leaked.  Two things are
needed of it by `realloc_chunk`, which calls it to grow a guarded block:

* when it answers `MAP_FAILED` all mappings are as before, up to counts of the guard list;
* when it answers an address, the page in front of that address is the guard page it has just
  protected (`mreguard_loose`).  The header of a chunk would be on that page.
-/

namespace Musl.Malloc

open Musl.Lib Musl.Lib.Space List Option Prog

section Counts

def GuardEntry.bare (g : GuardEntry) : GuardEntry := { g with ref := 0 }

structure OnlyRefs (s s' : Heap) : Prop where
  eq : s' = { s with guardList := s'.guardList, detached := s'.detached }
  listed : s'.guardList.map GuardEntry.bare = s.guardList.map GuardEntry.bare
  detached : s'.detached.map GuardEntry.bare = s.detached.map GuardEntry.bare

lemma OnlyRefs.refl (s : Heap) : OnlyRefs s s := ⟨rfl, rfl, rfl⟩

variable {s s' : Heap} {nd : Node}

lemma OnlyRefs.trans {s'' : Heap} (h : OnlyRefs s s') (h' : OnlyRefs s' s'') : OnlyRefs s s'' := by
  refine ⟨?_, h'.listed.trans h.listed, h'.detached.trans h.detached⟩
  rw [h'.eq, h.eq]

lemma map_withRef_bare (nd : Node) (f : Int32 → Int32) (l : List GuardEntry) :
    (l.map (GuardEntry.withRef nd f)).map GuardEntry.bare = l.map GuardEntry.bare := by
  rw [List.map_map]
  refine map_congr_left fun g _ => ?_
  show (GuardEntry.withRef nd f g).bare = g.bare
  unfold GuardEntry.withRef
  split
  · rfl
  · rfl

lemma onlyRefs_mapRef (s : Heap) (nd : Node) (f : Int32 → Int32) : OnlyRefs s (s.mapRef nd f) :=
  ⟨rfl, map_withRef_bare nd f s.guardList, map_withRef_bare nd f s.detached⟩

lemma OnlyRefs.mem (h : OnlyRefs s s') {g : GuardEntry} (hg : g ∈ s'.guardList) :
    ∃ g0 ∈ s.guardList, g0.bare = g.bare := by
  have hmem : g.bare ∈ s.guardList.map .bare := by
    rw [← h.listed]
    exact mem_map_of_mem hg
  obtain ⟨g0, hg0, heq⟩ := mem_map.1 hmem
  exact ⟨g0, hg0, heq⟩

lemma bare_nodes {l l' : List GuardEntry} (h : l'.map GuardEntry.bare = l.map GuardEntry.bare) :
    l'.map GuardEntry.node = l.map GuardEntry.node := by
  have hcomp : GuardEntry.node = GuardEntry.node ∘ .bare := rfl
  rw [hcomp, ← List.map_map, ← List.map_map, h]

variable {Ω : Type} {T : Tenants Ω} {s s' : Heap} {X : Multiset (Owner Ω)}

lemma OnlyRefs.outside (h : OnlyRefs s s') : OutsideGuards s s' := by
  rw [h.eq]
  exact ⟨rfl, rfl, rfl, rfl, rfl, rfl⟩

lemma OnlyRefs.mem_eq (h : OnlyRefs s s') : s'.mem = s.mem := by rw [h.eq]

lemma OnlyRefs.guardQ (h : OnlyRefs s s') : s'.guardQ = s.guardQ := by rw [h.eq]

lemma HeapOwned.of_refs (h : HeapOwned T True s X) (hr : OnlyRefs s s') : HeapOwned T True s' X := by
  refine ⟨?_, h.tables.of_guards hr.outside (fun g hg => ?_) (fun g hg => ?_) (.inl trivial) ?_⟩
  · have heq : owners s' X = owners s X := by
      refine owners_perm X hr.outside.heads hr.guardQ ?_
      rw [guardNodes, bare_nodes hr.listed, bare_nodes hr.detached]
      rfl
    rw [heq, hr.mem_eq]
    exact h.owned
  · obtain ⟨g0, hg0, heq⟩ := hr.mem hg
    have hrem : g0.bare.removed = g.bare.removed := by rw [heq]
    exact ⟨hrem.symm.trans (h.tables.listed g0 hg0).1, .inl trivial⟩
  · obtain ⟨g0, hg0, heq⟩ := hr.mem hg
    have hbase : g0.bare.base = g.bare.base := by rw [heq]
    rw [show g.base = g0.base from hbase.symm]
    exact h.tables.based g0 hg0
  · rw [hr.guardQ]
    exact h.tables.times

lemma HeapOwned.entryOf_listed (h : HeapOwned T True s X) (hnd : nd ∈ s.guardList.map GuardEntry.node) :
    ∃ g ∈ s.guardList, s.entryOf nd = some g ∧ g.removed = false := by
  obtain ⟨g, hg, hn⟩ := mem_map.1 hnd
  unfold Heap.entryOf
  rw [find?_append]
  cases hf : s.guardList.find? fun g => decide (g.node = nd) with
  | none =>
    have hno := find?_eq_none.1 hf g hg
    rw [decide_eq_true_iff] at hno
    exact absurd hn hno
  | some g' =>
    have hg' := mem_of_find?_eq_some hf
    exact ⟨g', hg', rfl, (h.tables.listed g' hg').1⟩

lemma guardHold_loose (nd : Node) (s : Heap) : (guardHold nd s).Sat (fun _ s' => OnlyRefs s s')
    (fun _ _ => True) := by
  refine (touch_same nd s).bind ?_
  rintro _ s1 rfl
  exact onlyRefs_mapRef s1 nd _

lemma guardRelease_loose (h : HeapOwned T True s X) (hnd : nd ∈ s.guardList.map GuardEntry.node) :
    (guardRelease nd s).Sat (fun _ s' => OnlyRefs s s') (fun _ _ => True) := by
  obtain ⟨g, _, hent, hrem⟩ := h.entryOf_listed hnd
  refine (touch_same nd s).bind ?_
  rintro _ s1 rfl
  rw [sat_bind, sat_get, hent]
  show (dropRef nd g s1).Sat _ _
  refine sat_crashIf (fun _ => trivial) fun _ => ?_
  rw [sat_exec]
  refine ⟨fun hlast => ?_, fun _ => onlyRefs_mapRef s1 nd _⟩
  rw [hrem] at hlast
  exact absurd hlast.2 (by decide)

/-- **The walk of `find_guard_by_ptr`** changes counts and answers a listed entry. -/
theorem findFrom_loose (p : ℕ) : ∀ (rest : List GuardEntry) (s : Heap),
    HeapOwned T True s X → (∀ g ∈ rest, g.node ∈ s.guardList.map GuardEntry.node) →
    (findFrom p rest s).Sat (fun r s' => OnlyRefs s s' ∧ ∀ g, r = some g → g ∈ rest)
    (fun _ _ => True) := by
  intro rest
  induction rest with
  | nil =>
    intro s _ _
    exact ⟨OnlyRefs.refl s, fun g hg => absurd hg.symm (some_ne_none g)⟩
  | cons g rest ih =>
    intro s h hin
    have htail : ∀ s1, OnlyRefs s s1 →
        (findFrom p rest s1).Sat (fun r s' => OnlyRefs s s' ∧ ∀ x, r = some x → x ∈ g :: rest)
          (fun _ _ => True) := by
      intro s1 h1
      refine (ih s1 (h.of_refs h1) fun x hx => ?_).imp ?_
      · rw [bare_nodes h1.listed]
        exact hin x (mem_cons_of_mem g hx)
      · exact fun r s' hr => ⟨h1.trans hr.1, fun x hx => mem_cons_of_mem g (hr.2 x hx)⟩
    refine (touch_same g.node s).bind ?_
    rintro _ s0 rfl
    rw [sat_ite]
    refine ⟨fun _ => htail s0 (OnlyRefs.refl s0), fun _ => ?_⟩
    refine (guardHold_loose g.node s0).bind ?_
    intro _ s1 h1
    rw [sat_ite]
    refine ⟨fun _ => ⟨h1, fun x hx => ?_⟩, fun _ => ?_⟩
    · rw [← some.inj hx]
      exact mem_cons_self
    rw [sat_bind]
    have hnext : (holdNext rest s1).Sat (fun _ s' => OnlyRefs s0 s') (fun _ _ => True) := by
      cases rest with
      | nil => exact h1
      | cons n rest => exact (guardHold_loose n.node s1).imp fun _ _ h2 => h1.trans h2
    refine hnext.imp ?_
    intro _ s2 h2
    refine (guardRelease_loose (h.of_refs h2) ?_).bind ?_
    · rw [bare_nodes h2.listed]
      exact hin g mem_cons_self
    · exact fun _ s3 h3 => htail s3 (h2.trans h3)

/-- **`find_guard_by_ptr`.** -/
theorem findGuardByPtr_loose (p : ℕ) (h : HeapOwned T True s X) :
    (findGuardByPtr p s).Sat (fun r s' => OnlyRefs s s' ∧ ∀ g, r = some g → g ∈ s.guardList)
    (fun _ _ => True) := by
  rw [findGuardByPtr, sat_bind, sat_get, sat_ite]
  refine ⟨fun _ => ⟨OnlyRefs.refl s, fun g hg => absurd hg.symm (some_ne_none g)⟩, fun _ => ?_⟩
  exact findFrom_loose p s.guardList s h fun g hg => mem_map_of_mem hg

end Counts

/-! ### The guard page stays -/

section Dark

variable {s : Heap} {k : ℕ} {E : Stop → Heap → Prop}

def Shut (m : Space) (k : ℕ) : Prop := ∃ t, m.page k = some ⟨.none, t⟩

variable {m : Space} {a : ℕ}

lemma Shut.dark (h : Shut m k) : m.rwPage k = false := by
  obtain ⟨t, ht⟩ := h
  unfold rwPage
  rw [ht]

lemma shut_mprotect (ha : a % 4096 = 0) (hm : (m.page (a / 4096)).isSome = true) :
    Shut (m.mprotect a 4096 .none) (a / 4096) := by
  have hone : pagesOf 4096 = 1 := rfl
  have hmapped : Mapped m a 4096 := by
    intro j h1 h2
    rw [show j = a / 4096 by omega]
    exact hm
  obtain ⟨q, hq⟩ := isSome_iff_exists.1 hm
  refine ⟨q.tag, ?_⟩
  rw [mprotect_page ha hmapped, if_pos ⟨le_rfl, by omega⟩, hq]
  rfl

lemma Shut.mprotect (h : Shut m k) (a len : ℕ) : Shut (m.mprotect a len .none) k := by
  obtain ⟨t, ht⟩ := h
  by_cases hg : a % 4096 = 0 ∧ Mapped m a len
  · refine ⟨t, ?_⟩
    rw [mprotect_page hg.1 hg.2, ht]
    split
    · rfl
    · rfl
  · rw [mprotect_refused hg]
    exact ⟨t, ht⟩

lemma Shut.mmapAt (h : Shut m k) {len : ℕ} (hp : m.placeable a len = true) : Shut (m.mmapAt a len) k := by
  obtain ⟨t, ht⟩ := h
  refine ⟨t, ?_⟩
  show (if a / 4096 ≤ k ∧ k < a / 4096 + pagesOf len then _ else m.page k) = _
  rw [if_neg]
  · exact ht
  · intro hk
    rw [(placeable_iff.1 hp).2 k hk.1 hk.2] at ht
    cases ht

lemma addGuardEntry_shut {place : Option ℕ} {base total : ℕ} (h : Shut s.mem k) :
    (addGuardEntry place base total s).Sat (fun _ s' => Shut s'.mem k) E := by
  rw [addGuardEntry, sat_bind]
  exact sat_mmapNode (fun _ _ hpl => h.mmapAt hpl) h

end Dark

section Resize

variable {Ω : Type} {T : Tenants Ω} {s : Heap} {X : Multiset (Owner Ω)}

/-- What `mreguard` leaves: an address behind its guard page, or everything as before. -/
def LooseResize (T : Tenants Ω) (X : Multiset (Owner Ω)) (s : Heap) (r : Option ℕ) (s' : Heap) : Prop :=
  (∃ nb, r = some (nb + 4096) ∧ nb % 4096 = 0 ∧ 4096 ≤ nb ∧ nb < 2 ^ 47 ∧
    s'.mem.rwPage (nb / 4096) = false) ∨
  (r = none ∧ HeapOwned T True s' X ∧ Frame T.regionOf s.mem s'.mem X ∧ OutsideGuards s s' ∧
    s'.guardQ = s.guardQ)

variable {env : MreguardEnv} {g : GuardEntry} {nb newAligned newSize oldSize p : ℕ}

lemma mreguardMoved_loose (hal : nb % 4096 = 0) (hlow : 4096 ≤ nb) (hhigh : nb < 2 ^ 47)
    (hm : (s.mem.page (nb / 4096)).isSome = true) (s0 : Heap) :
    (mreguardMoved env g nb newAligned s).Sat (LooseResize T X s0) (fun _ _ => True) := by
  refine (addGuardEntry_shut (((shut_mprotect hal hm).mprotect _ _))).bind ?_
  intro ok s1 h1
  refine sat_crashIf (fun _ => trivial) fun _ => ?_
  refine (removeGuardEntry_dark g.base h1.dark).bind ?_
  intro r s2 h2
  refine sat_crashIf (fun _ => trivial) fun _ => ?_
  exact (guardRelease_dark g.node h2).bind fun _ s3 h3 => .inl ⟨nb, rfl, hal, hlow, hhigh, h3⟩

lemma mreguardReplace_loose (h : HeapOwned T True s X) (hg : ∃ x ∈ s.guardList, x.base = g.base)
    (hal : nb % 4096 = 0)
    (hlow : 4096 ≤ nb) (hhigh : nb < 2 ^ 47) (hdark : s.mem.rwPage (nb / 4096) = false) (s0 : Heap)
    (Y : Multiset (Owner Ω)) : (mreguardReplace g nb newAligned s).Sat (LooseResize T Y s0)
    (fun _ _ => True) := by
  obtain ⟨x, hx, hxb⟩ := hg
  refine (removeGuardEntry_spec h.nodesDistinct h.guardNodeOk fun _ _ _ => trivial).bind ?_
  intro r s1 hr
  have hyes : r = true := by
    rcases hr with ⟨_, _, h0 | hnone⟩ | ⟨hr, _⟩
    · have hb := (h.tables.based x hx).1
      omega
    · exact absurd hxb (hnone x hx)
    · exact hr
  have hd1 : s1.mem.rwPage (nb / 4096) = false := by
    rcases hr with ⟨_, hs, _⟩ | ⟨_, _, _, _, _, _, _, ⟨_, hs⟩ | ⟨_, hs⟩⟩
    · rw [hs]; exact hdark
    · rw [hs]; exact munmap_dark hdark
    · rw [hs]; exact hdark
  subst hyes
  simp only [if_true]
  rw [sat_bind]
  refine sat_munmap fun tr _ => ?_
  refine (guardRelease_dark g.node (by exact munmap_dark hd1)).bind ?_
  exact fun _ s3 h3 => .inl ⟨nb, rfl, hal, hlow, hhigh, h3⟩

lemma mreguardCopied_loose (h : HeapOwned T True s X) (hg : ∃ x ∈ s.guardList, x.bare = g.bare)
    (hal : newAligned % 4096 = 0) (hfit : newSize ≤ newAligned) :
    (mreguardCopied env g p oldSize newSize newAligned s).Sat (LooseResize T X s) (fun _ _ => True) := by
  rw [mreguardCopied, sat_bind]
  refine sat_mmap (fun nb _ hpl => ?_) ?_
  · have hs1 := SameTables.mem s (s.mem.mmapAt nb (newAligned + 8192))
      (.map nb (newAligned + 8192) :: s.trace)
    obtain ⟨h1, hf1⟩ := h.mmapAt hpl hs1 rfl
      (show T.regionOf (.raw (guardedRegion nb newAligned)) = _ from rfl) trivial
    obtain ⟨⟨hnb, hlow, hpos, hhigh⟩, _⟩ := placeable_iff.1 hpl
    have hpages := pagesOf_pos hpos
    rw [sat_bind]
    refine sat_memcpy (fun _ _ => ?_) fun _ => trivial
    have hstop := guardedRegion_stop nb hal
    obtain ⟨h2, hf2⟩ := memcpy_owned h1 (nb + 4096) p (min newSize oldSize)
      (show nb ≤ _ by omega) (by rw [hstop]; omega)
    refine (armGuards_owned h2 hal).bind ?_
    intro r s3 hr
    have ho3 : OutsideGuards s s3 := ⟨hr.outside.opts, hr.outside.secret, hr.outside.clock,
      hr.outside.delayed, hr.outside.heads, hr.outside.cacheBytes⟩
    have hq3 : s3.guardQ = s.guardQ := hr.guardQ
    have hf3 := (hf1.trans hf2).trans hr.frame
    cases r with
    | protectFailed =>
      obtain ⟨h3, _, _⟩ := hr.failed (by decide)
      exact .inr ⟨rfl, h3, hf3, ho3, hq3⟩
    | entryFailed =>
      obtain ⟨h3, hl3, _⟩ := hr.failed (by decide)
      obtain ⟨x, hx, hxg⟩ := hg
      have hnode : x.bare.node = g.bare.node := by rw [hxg]
      refine (guardRelease_loose h3 ?_).bind ?_
      · rw [hl3, show g.node = x.node from hnode.symm]
        exact mem_map_of_mem hx
      · intro _ s4 h4
        refine .inr ⟨rfl, h3.of_refs h4, ?_, ho3.trans h4.outside, h4.guardQ.trans hq3⟩
        rw [h4.mem_eq]
        exact hf3
    | done =>
      obtain ⟨h3, _, hdark, nd, hl3⟩ := hr.done rfl
      obtain ⟨x, hx, hxg⟩ := hg
      have hbase : x.bare.base = g.bare.base := by rw [hxg]
      refine mreguardReplace_loose h3 ⟨x, ?_, hbase⟩ hnb hlow (by omega) hdark s X
      rw [hl3]
      exact mem_cons_of_mem _ hx
  · have hs : SameTables s (s.log .mapFailed) := .mem _ _ _
    exact .inr ⟨rfl, h.of_same hs rfl, .refl _ _, hs.outsideGuards, rfl⟩

lemma mremapTo_first {m : Space} {a len b len' : ℕ} (h : m.remappable a len b len' = true) :
    ((m.mremapTo a len b len').page (b / 4096)).isSome = true := by
  obtain ⟨⟨_, _, _, hlen, hlen', _⟩, hmapped, _⟩ := remappable_iff.1 h
  have hpos := pagesOf_pos hlen
  have hpos' := pagesOf_pos hlen'
  show (if b / 4096 ≤ b / 4096 ∧ b / 4096 < b / 4096 + pagesOf len' then _ else _ : Option Page).isSome
    = true
  rw [if_pos ⟨le_rfl, by omega⟩, Nat.sub_self, if_pos hpos, isSome_map]
  exact hmapped (a / 4096 + 0) (by omega) (by omega)

/-- **`mreguard`**, whatever the counts. -/
theorem mreguard_loose (h : HeapOwned T True s X) (hguard : s.opts.guard = true)
    (hfit : newSize ≤ roundPage newSize) :
    (mreguard env p oldSize newSize s).Sat (LooseResize T X s) (fun _ _ => True) := by
  refine sat_crashIf (fun _ => trivial) fun _ => ?_
  rw [if_neg (by rw [hguard]; decide), sat_bind]
  refine (findGuardByPtr_loose p h).imp ?_
  rintro r s1 ⟨h1, hr⟩
  have hown1 := h.of_refs h1
  -- a result about the rest of the call is one about the call
  have hback : ∀ {r s'}, LooseResize T X s1 r s' → LooseResize T X s r s' := by
    rintro r s' (hsome | ⟨hr, h', hf, ho, hq⟩)
    · exact .inl hsome
    · refine .inr ⟨hr, h', ?_, h1.outside.trans ho, hq.trans h1.guardQ⟩
      rw [← h1.mem_eq]
      exact hf
  cases r with
  | none =>
    exact hback (.inr ⟨rfl, hown1, .refl _ _, OutsideGuards.refl _, rfl⟩)
  | some g =>
    have hg : ∃ x ∈ s1.guardList, x.bare = g.bare := by
      have hmem : g.bare ∈ s1.guardList.map .bare := by
        rw [h1.listed]
        exact mem_map_of_mem (hr g rfl)
      obtain ⟨x, hx, heq⟩ := mem_map.1 hmem
      exact ⟨x, hx, heq⟩
    have hmod := roundPage_mod newSize
    unfold mreguardEntry
    rw [sat_ite]
    refine ⟨fun _ => ?_, fun _ => ?_⟩
    · exact hback (.inr ⟨rfl, hown1, .refl _ _, OutsideGuards.refl _, rfl⟩)
    rw [sat_bind]
    refine sat_mremap (fun b _ hrem => ?_) ?_
    · obtain ⟨⟨_, hal, hlow, _, hlen', hhigh⟩, _, _⟩ := remappable_iff.1 hrem
      have hpos := pagesOf_pos hlen'
      exact mreguardMoved_loose hal hlow (by omega) (mremapTo_first hrem) s
    · exact (mreguardCopied_loose hown1 hg hmod hfit).imp fun _ _ => hback

end Resize

end Musl.Malloc
