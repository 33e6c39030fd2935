import Musl.Malloc.HeapTables

/-!
# Runs of the guarded mappings

Any sequence of guarded allocations (`mguard`), resizes (`mreguard`, succeeding or failing at any
step), retirements into the quarantine and sweeps.

Between two calls every entry of `__guard_list` should have count one and be unremoved, and every
entry off the list should be unmapped (`Balanced`).  `find_guard_by_ptr` breaks this: each entry it
visits beyond the head keeps a reference (`walk_exact_iff`), and `mreguard` returns from three of its
failures without dropping the reference it was given.  `guard_refs_balanced` says that nothing else
breaks it: the counts are balanced over every run whose resizes ask for the head of the list (or find
nothing in a list of at most one entry) and do not fail in those three places.
-/

namespace Musl.Malloc

open Musl.Lib Musl.Lib.Space List Prog

section Resize

variable {Ω : Type} {T : Tenants Ω} {L : Prop} {s s' : Heap} {X : Multiset (Owner Ω)}
  {E : Stop → Heap → Prop}

lemma HeapOwned.withRefs (h : HeapOwned T L s X) {l : List GuardEntry} (hL : L ∨ ∀ g ∈ l, g.ref = 1)
    (hn : l.map GuardEntry.node = s.guardList.map GuardEntry.node)
    (hl : ∀ g ∈ l, g.removed = false ∧ 0 < g.base ∧ g.base < 2 ^ 47) :
    HeapOwned T L { s with guardList := l } X := by
  refine ⟨?_, h.tables.of_guards ⟨rfl, rfl, rfl, rfl, rfl, rfl⟩ (fun g hg => ?_)
    (fun g hg => (hl g hg).2) h.tables.detached h.tables.times⟩
  · have heq : owners { s with guardList := l } X = owners s X :=
      owners_perm X rfl rfl (by unfold guardNodes; rw [hn])
    rw [heq]
    exact h.owned
  · rcases hL with hL | hL
    · exact ⟨(hl g hg).1, .inl hL⟩
    · exact ⟨(hl g hg).1, .inr (hL g hg)⟩

lemma HeapOwned.loosen (h : HeapOwned T False s X) : HeapOwned T True s X :=
  ⟨h.owned, h.tables.toCacheTable,
    ⟨fun g hg => ⟨(h.tables.listed g hg).1, .inl trivial⟩, h.tables.based, .inl trivial, h.tables.times⟩⟩

lemma HeapOwned.tighten (h : HeapOwned T True s X) (hone : ∀ g ∈ s.guardList, g.ref = 1)
    (hd : s.detached = []) : HeapOwned T False s X :=
  ⟨h.owned, h.tables.toCacheTable,
    ⟨fun g hg => ⟨(h.tables.listed g hg).1, .inr (hone g hg)⟩, h.tables.based, .inr hd, h.tables.times⟩⟩

/-- All that is left to do is to drop the reference that the caller of `find_guard_by_ptr` holds on
the entry of the node `nd`: the entry is the head of the list with two references, or detached with
its last one. -/
def Pending (nd : Node) (s : Heap) : Prop :=
  (∃ g rest, s.guardList = g :: rest ∧ g.node = nd ∧ g.ref = 2 ∧ (∀ x ∈ rest, x.ref = 1) ∧
    s.detached = []) ∨
  ((∀ x ∈ s.guardList, x.ref = 1) ∧ ∃ g, s.detached = [g] ∧ g.node = nd ∧ g.ref = 1 ∧
    g.removed = true)

variable {nd : Node} {e g : GuardEntry} {env : MreguardEnv} {newAligned newBase newSize oldSize p : ℕ}

/-- The last reference is dropped: the entry is unmapped, and all counts are one again. -/
lemma guardRelease_pending (h : HeapOwned T True s X) (hp : Pending nd s) :
    (guardRelease nd s).Sat (fun _ s' => HeapOwned T False s' X ∧
      Frame T.regionOf s.mem s'.mem X ∧ OutsideGuards s s' ∧ s'.guardQ = s.guardQ) E := by
  rcases hp with ⟨g, rest, hl, rfl, htwo, hone, hd⟩ | ⟨hone, g, hd, rfl, hlast, hrem⟩
  · have hmem : g ∈ s.guardList := by rw [hl]; exact mem_cons_self
    have hrem : g.removed = false := (h.tables.listed g hmem).1
    rw [guardRelease_listed (hl.trans (nil_append _).symm) h.nodesDistinct
      (h.guardNodeOk g hmem) (by rw [htwo]; decide) hrem]
    have hnow : ∀ x ∈ { g with ref := g.ref - 1 } :: rest, x.ref = 1 := by
      intro x hx
      rcases mem_cons.1 hx with rfl | hx
      · show g.ref - 1 = 1
        rw [htwo]
        decide
      · exact hone x hx
    have h' : HeapOwned T True { s with guardList := { g with ref := g.ref - 1 } :: rest } X := by
      refine h.withRefs (.inl trivial) (by rw [hl]; rfl) fun x hx => ?_
      rcases mem_cons.1 hx with rfl | hx
      · exact ⟨hrem, h.tables.based g hmem⟩
      · have hx' : x ∈ s.guardList := by rw [hl]; exact mem_cons_of_mem _ hx
        exact ⟨(h.tables.listed x hx').1, h.tables.based x hx'⟩
    exact ⟨h'.tighten hnow hd, .refl _ _, ⟨rfl, rfl, rfl, rfl, rfl, rfl⟩, rfl⟩
  · have hnode : NodeOk s.mem g.node := by
      refine h.nodeOk ?_
      refine mem_append_right _ ?_
      rw [hd]
      exact mem_singleton.2 rfl
    rw [guardRelease_last hd h.nodesDistinct hnode hlast hrem]
    have ho : OutsideGuards s
      { s with detached := [], mem := s.mem.munmap g.node.addr sizeofGuardEntry } :=
      ⟨rfl, rfl, rfl, rfl, rfl, rfl⟩
    have hperm : (guardNodes s).Perm (g.node :: guardNodes
        { s with detached := [], mem := s.mem.munmap g.node.addr sizeofGuardEntry }) := by
      unfold guardNodes
      rw [hd]
      exact perm_middle
    obtain ⟨h', hf⟩ := h.dropGuard hperm ho rfl rfl
      (h.tables.of_guards ho h.tables.listed h.tables.based (.inl trivial) h.tables.times)
    exact ⟨h'.tighten hone rfl, hf, ho, rfl⟩

/-- An entry that is still referenced is taken off the list, not unmapped. -/
lemma removeGuardEntry_pending {rest : List GuardEntry} (h : HeapOwned T True s X)
    (hl : s.guardList = e :: g :: rest)
    (he : e.ref = 1) (hg : g.ref = 2) (hone : ∀ x ∈ rest, x.ref = 1) (hd : s.detached = []) :
    (removeGuardEntry g.base s).Sat (fun r s' => r = true ∧ HeapOwned T True s' X ∧
      Frame T.regionOf s.mem s'.mem X ∧ OutsideGuards s s' ∧ s'.guardQ = s.guardQ ∧
      Pending g.node s') E := by
  have hmem : g ∈ s.guardList := by rw [hl]; simp
  have hpos : ∀ x ∈ s.guardList, 0 < x.ref := by
    rw [hl]
    intro x hx
    rcases mem_cons.1 hx with rfl | hx
    · rw [he]; decide
    rcases mem_cons.1 hx with rfl | hx
    · rw [hg]; decide
    · rw [hone x hx]; decide
  refine (removeGuardEntry_spec h.nodesDistinct h.guardNodeOk ?_).imp ?_
  · rintro ⟨x, hx, _, hneg⟩
    exact absurd (hpos x hx) hneg
  intro r s1 hr
  obtain ⟨h1, hf, ho, hq, _⟩ := h.removed hr
  rcases hr with ⟨_, _, hnone⟩ | ⟨hr, pre, x, post, hsplit, -, hpre, hcase⟩
  · rcases hnone with h0 | hnone
    · have hb := (h.tables.based g hmem).1
      omega
    · exact absurd rfl (hnone g hmem)
  refine ⟨hr, h1, hf, ho, hq, ?_⟩
  rw [hl] at hsplit
  cases pre with
  | nil =>
    -- the new entry has the base of the old one: the mapping was resized in place
    obtain ⟨hx, hpost⟩ := cons.inj hsplit
    rw [← hx, ← hpost] at hcase
    rcases hcase with ⟨_, hs⟩ | ⟨hne, _⟩
    · rw [hs]
      exact .inl ⟨g, rest, rfl, rfl, hg, hone, hd⟩
    · exact absurd he hne
  | cons y pre =>
    obtain ⟨hy, hsplit⟩ := cons.inj hsplit
    cases pre with
    | nil =>
      obtain ⟨hx, hpost⟩ := cons.inj hsplit
      rw [← hx, ← hpost, ← hy] at hcase
      rcases hcase with ⟨h2, _⟩ | ⟨_, hs⟩
      · rw [hg] at h2
        exact absurd h2 (by decide)
      · rw [hs]
        refine .inr ⟨?_, { g with removed := true, ref := g.ref - 1 }, by rw [hd], rfl, ?_, rfl⟩
        · intro z hz
          rcases mem_cons.1 hz with rfl | hz
          · exact he
          · exact hone z hz
        · show g.ref - 1 = 1
          rw [hg]
          decide
    | cons z pre =>
      -- the old entry comes before any other with its base
      obtain ⟨hz, _⟩ := cons.inj hsplit
      have hne := hpre z (mem_cons_of_mem y mem_cons_self)
      rw [← hz] at hne
      exact absurd rfl hne

lemma Pending.of_same (hp : Pending nd s) (hs : SameTables s s') : Pending nd s' := by
  unfold Pending at hp ⊢
  rw [hs.guardList, hs.detached]
  exact hp

/-- What a resize of the mapping of `g` leaves: a new mapping in the place of the old one, or the old
one; and balanced counts. -/
structure Resized (T : Tenants Ω) (X : Multiset (Owner Ω)) (g : GuardEntry) (newAligned : ℕ)
    (s : Heap) (r : Option ℕ) (s' : Heap) : Prop where
  outside : OutsideGuards s s'
  guardQ : s'.guardQ = s.guardQ
  owned : (∃ newBase, r = some (newBase + 4096) ∧
      HeapOwned T False s' (.raw (guardedRegion newBase newAligned) ::ₘ X)) ∨
    (r = none ∧ HeapOwned T False s' (.raw ⟨g.base, pagesOf g.total⟩ ::ₘ X))

/-- The caller of `find_guard_by_ptr` holds the head of the list, and the other counts are one. -/
structure Held (g : GuardEntry) (s : Heap) : Prop where
  head : ∃ g' rest, s.guardList = g' :: rest ∧ g'.node = g.node ∧ g'.base = g.base ∧ g'.ref = 2 ∧
    ∀ x ∈ rest, x.ref = 1
  detached : s.detached = []

lemma Held.of_same (h : Held g s) (hs : SameTables s s') : Held g s' := by
  refine ⟨?_, hs.detached.trans h.detached⟩
  rw [hs.guardList]
  exact h.head

lemma Held.pending (h : Held g s) : Pending g.node s := by
  obtain ⟨g', rest, hl, hn, _, htwo, hone⟩ := h.head
  exact .inl ⟨g', rest, hl, hn, htwo, hone, h.detached⟩

/-- The entry that a resize holds is removed behind the new head. -/
lemma Held.remove (hh : Held g s) {s1 : Heap} (h : HeapOwned T True s1 X)
    (hl : s1.guardList = e :: s.guardList) (he : e.ref = 1) (hd : s1.detached = s.detached) :
    (removeGuardEntry g.base s1).Sat (fun r s' => r = true ∧ HeapOwned T True s' X ∧
      Frame T.regionOf s1.mem s'.mem X ∧ OutsideGuards s1 s' ∧ s'.guardQ = s1.guardQ ∧
      Pending g.node s') E := by
  obtain ⟨g', rest, hl', hn, hb, htwo, hone⟩ := hh.head
  rw [hl'] at hl
  rw [← hb, ← hn]
  exact removeGuardEntry_pending h hl he htwo hone (hd.trans hh.detached)

/-- `mremap` has moved the mapping: a new entry for it, the old one removed and released. -/
lemma mreguardMoved_balanced
    (h : HeapOwned T True s (.raw (guardedRegion newBase newAligned) ::ₘ X)) (hh : Held g s)
    (hal : newAligned % 4096 = 0) (hE : ∀ e s', E e s') :
    (mreguardMoved env g newBase newAligned s).Sat (Resized T X g newAligned s) E := by
  have hw := h.whole (Multiset.mem_cons_self _ _)
  have hlow : 4096 ≤ newBase := hw.low
  have hhigh : newBase + pagesOf (newAligned + 8192) * 4096 ≤ 2 ^ 47 := hw.high
  have hpos : 0 < pagesOf (newAligned + 8192) := hw.pos
  have hstop := guardedRegion_stop newBase hal
  have hone : pagesOf 4096 * 4096 = 4096 := rfl
  rw [mreguardMoved, sat_bind, mprotect, sat_modify, sat_bind, mprotect,
    sat_modify, sat_bind]
  obtain ⟨h1, _⟩ := mprotect_owned h newBase 4096 .none le_rfl (by rw [hone]; omega)
  obtain ⟨h2, _⟩ := mprotect_owned h1 (newBase + 4096 + newAligned) 4096 .none
    (by show newBase ≤ _; omega) (by rw [hone]; omega)
  refine (addGuardEntry_owned h2 ⟨by omega, by omega⟩).imp ?_
  rintro ok s3 ⟨h3, _, ho3, hq3, hd3, hcase⟩
  refine sat_crashIf (fun _ => hE _ _) fun hok => ?_
  rcases hcase with ⟨hno, _⟩ | ⟨_, nd, hl3⟩
  · exact absurd hno hok
  refine (hh.remove h3 hl3 rfl hd3).bind ?_
  rintro r s4 ⟨-, h4, _, ho4, hq4, hp4⟩
  refine sat_crashIf (fun _ => hE _ _) fun _ => ?_
  refine (guardRelease_pending h4 hp4).bind ?_
  rintro _ s5 ⟨h5, _, ho5, hq5⟩
  have ho : OutsideGuards s s3 :=
    ⟨ho3.opts, ho3.secret, ho3.clock, ho3.delayed, ho3.heads, ho3.cacheBytes⟩
  exact ⟨(ho.trans ho4).trans ho5, (hq5.trans hq4).trans hq3, .inl ⟨newBase, rfl, h5⟩⟩

/-- The new mapping has its entry; the old one is given up. -/
lemma mreguardReplace_balanced {s0 : Heap}
    (h : HeapOwned T True s
      (.raw (guardedRegion newBase newAligned) ::ₘ .raw ⟨g.base, pagesOf g.total⟩ ::ₘ X))
    (hh : Held g s0) (hl : s.guardList = e :: s0.guardList) (he : e.ref = 1)
    (hd : s.detached = s0.detached) :
    (mreguardReplace g newBase newAligned s).Sat (Resized T X g newAligned s) E := by
  refine (hh.remove h hl he hd).bind ?_
  rintro r s1 ⟨hr, h1, _, ho1, hq1, hp1⟩
  subst hr
  rw [Multiset.cons_swap] at h1
  refine (munmap_owned h1 rfl).bind ?_
  rintro _ s2 ⟨h2, _, hs2, _, _⟩
  refine (guardRelease_pending h2 (hp1.of_same hs2)).bind ?_
  rintro _ s3 ⟨h3, _, ho3, hq3⟩
  exact ⟨(ho1.trans hs2.outsideGuards).trans ho3, (hq3.trans hs2.guardQ).trans hq1,
    .inl ⟨newBase, rfl, h3⟩⟩

/-- The fallback of `mreguard`: a fresh mapping, a copy, and the old one given up. -/
lemma mreguardCopied_balanced (h : HeapOwned T True s (.raw ⟨g.base, pagesOf g.total⟩ ::ₘ X))
    (hh : Held g s) (hal : newAligned % 4096 = 0) (hfit : newSize ≤ newAligned)
    (hmap : ∃ a, env.fresh.map = some a ∧ s.mem.placeable a (newAligned + 8192) = true)
    (hprot : env.fresh.frontOk = true ∧ env.fresh.rearOk = true) (hE : ∀ e s', E e s') :
    (mreguardCopied env g p oldSize newSize newAligned s).Sat (Resized T X g newAligned s) E := by
  obtain ⟨newBase, hplace, hpl⟩ := hmap
  rw [mreguardCopied, sat_bind, hplace, mmap, if_pos hpl, Outcome.sat_ok]
  have hs1 := SameTables.mem s (s.mem.mmapAt newBase (newAligned + 8192))
    (.map newBase (newAligned + 8192) :: s.trace)
  obtain ⟨h1, _⟩ := h.mmapAt hpl hs1 rfl
    (show T.regionOf (.raw (guardedRegion newBase newAligned)) = _ from rfl) trivial
  rw [sat_bind]
  refine sat_memcpy (fun _ _ => ?_) fun _ => hE _ _
  -- the copy stays inside the new mapping
  have hstop := guardedRegion_stop newBase hal
  obtain ⟨h2, _⟩ := memcpy_owned h1 (newBase + 4096) p (min newSize oldSize)
    (show newBase ≤ _ by omega) (by rw [hstop]; omega)
  have hs2 := hs1.trans (.mem { s with
    mem := s.mem.mmapAt newBase (newAligned + 8192)
    trace := .map newBase (newAligned + 8192) :: s.trace }
    ((s.mem.mmapAt newBase (newAligned + 8192)).copy (newBase + 4096) p (min newSize oldSize))
    (.write (newBase + 4096) (min newSize oldSize) :: .read p (min newSize oldSize) ::
      .map newBase (newAligned + 8192) :: s.trace))
  refine (armGuards_owned h2 hal).bind ?_
  intro r s3 hr
  have ho3 := hs2.outsideGuards.trans hr.outside
  have hq3 := hr.guardQ.trans hs2.guardQ
  cases r with
  | protectFailed => exact absurd hprot (hr.told rfl)
  | entryFailed =>
    -- the list is as before, and the reference of the caller is dropped
    obtain ⟨h3, hl3, _⟩ := hr.failed (by decide)
    have hheld : Held g s3 := by
      refine ⟨?_, hr.detached.trans hh.detached⟩
      rw [hl3]
      exact hh.head
    refine (guardRelease_pending h3 hheld.pending).bind ?_
    rintro _ s4 ⟨h4, _, ho4, hq4⟩
    exact ⟨ho3.trans ho4, hq4.trans hq3, .inr ⟨rfl, h4⟩⟩
  | done =>
    obtain ⟨h3, _, _, nd, hl3⟩ := hr.done rfl
    refine (mreguardReplace_balanced h3 hh hl3 rfl hr.detached).imp ?_
    intro r' s4 hr'
    exact ⟨ho3.trans hr'.outside, hr'.guardQ.trans hq3, hr'.owned⟩

/-- The kernel grants the resize: `mremap` succeeds, or the fallback can map and protect. -/
def ResizeGranted (s : Heap) (env : MreguardEnv) (g : GuardEntry) (newAligned : ℕ) : Prop :=
  (∃ b, env.remap = some b ∧ s.mem.remappable g.base g.total b (newAligned + 8192) = true) ∨
  ((∃ a, env.fresh.map = some a ∧ s.mem.placeable a (newAligned + 8192) = true) ∧
    env.fresh.frontOk = true ∧ env.fresh.rearOk = true)

/-- **A resize of the head of the list** keeps the counts balanced. -/
theorem mreguardEntry_balanced (h : HeapOwned T True s (.raw ⟨g.base, pagesOf g.total⟩ ::ₘ X))
    (hh : Held g s)
    (hal : newAligned % 4096 = 0) (hfit : newSize ≤ newAligned) (hbig : newAligned ≤ sizeMax - 8192)
    (hgrant : ResizeGranted s env g newAligned) (hE : ∀ e s', E e s') :
    (mreguardEntry env g p oldSize newSize newAligned s).Sat (Resized T X g newAligned s) E := by
  unfold mreguardEntry
  rw [if_neg (not_lt.2 hbig), sat_bind]
  by_cases hrem : ∃ b, env.remap = some b ∧
      s.mem.remappable g.base g.total b (newAligned + 8192) = true
  · obtain ⟨b, hb, hok⟩ := hrem
    rw [hb, mremap, if_pos hok]
    have hs1 := SameTables.mem s (s.mem.mremapTo g.base g.total b (newAligned + 8192))
      (.remap g.base g.total b (newAligned + 8192) :: s.trace)
    have hreg : T.regionOf (.raw (guardedRegion b newAligned)) =
        ⟨b, pagesOf (newAligned + 8192)⟩ := rfl
    obtain ⟨h1, _⟩ := h.mremapTo rfl hok hs1 rfl hreg trivial
    refine (mreguardMoved_balanced h1 (hh.of_same hs1) hal hE).imp ?_
    intro r s2 hr
    exact ⟨hs1.outsideGuards.trans hr.outside, hr.guardQ.trans hs1.guardQ, hr.owned⟩
  · obtain ⟨hmap, hprot⟩ := hgrant.resolve_left hrem
    refine sat_mremap (fun b hb hok => absurd ⟨b, hb, hok⟩ hrem) ?_
    exact mreguardCopied_balanced h hh hal hfit hmap hprot hE

end Resize

/-! ### The operations -/

/-- A call of the program on guarded mappings, with the answers of the kernel. -/
inductive GuardOp where
  | alloc (env : MguardEnv) (size : ℕ)
  | resize (env : MreguardEnv) (p oldSize newSize : ℕ)
  | retire (place : Option ℕ) (d base total : ℕ)
  | sweep (d : ℕ)

/-- The guarded mappings in use: base and size of each. -/
abbrev InUse : Type := List (ℕ × ℕ)

/-- The mapping in use that contains the address `p` is gone. -/
def InUse.without (l : InUse) (p : ℕ) : InUse :=
  match l.find? fun b => decide (b.1 ≤ p ∧ p < b.1 + b.2) with
  | some b => l.erase b
  | none => l

def guardStep : GuardOp → Prog Stop (Heap × InUse) Unit
  | .alloc env size => do
      match ← Prog.beside (mguard env size) with
      | none => pure ()
      | some map => Prog.modify fun st => (st.1, (map - 4096, guardAligned size + 8192) :: st.2)
  | .resize env p oldSize newSize => do
      match ← Prog.beside (mreguard env p oldSize newSize) with
      | none => pure ()
      | some q => Prog.modify fun st =>
          (st.1, (q - 4096, roundPage newSize + 8192) :: st.2.without p)
  | .retire place d base total => do
      Prog.beside (guardQuarantineAdd place d base total)
      Prog.modify fun st => (st.1, st.2.erase (base, total))
  | .sweep d => do
      let now ← Prog.beside (monotonicSeconds d)
      Prog.beside (guardQuarantineSweep now)

/-- Between two calls: every listed entry has count one and is not removed, and every entry taken off
the list has been unmapped. -/
def Balanced (s : Heap) : Prop :=
  (∀ g ∈ s.guardList, g.ref = 1 ∧ g.removed = false) ∧ s.detached = []

/-- `find_guard_by_ptr(p)` answers an entry whose interior contains `p` whenever there is one, and
adds one reference to it and none to any other. -/
def FindExact (s : Heap) (p : ℕ) : Prop :=
  ∃ r, findGuardByPtr p s = .ok r { s with guardList := s.guardList.map (addOne r) } ∧
    (r = none ↔ ∀ g ∈ s.guardList, g.holds p = false) ∧
    ∀ g, r = some g → g ∈ s.guardList ∧ g.holds p = true

def HeadOnly (s : Heap) (p : ℕ) : Prop :=
  s.guardList.length ≤ 1 ∨ ∃ g rest, s.guardList = g :: rest ∧ g.holds p = true

/-- The calls are made as `malloc.c` makes them, and a resize visits only the head of the list and
does not fail where `mreguard` keeps a reference. -/
def GuardUse (st : Heap × InUse) : GuardOp → Prop
  | .resize env p _ newSize => HeadOnly st.1 p ∧
      ∀ g rest, st.1.guardList = g :: rest → g.holds p = true →
        (g.base, g.total) ∈ st.2 ∧ newSize ≤ roundPage newSize ∧ roundPage newSize ≤ sizeMax - 8192 ∧
        ResizeGranted st.1 env g (roundPage newSize)
  | .retire _ _ base total => (base, total) ∈ st.2
  | _ => True

/-! ### The run -/

def plainTenants : Tenants Empty where
  region := fun w => nomatch w
  Ok := fun _ w => nomatch w
  kept := fun _ _ _ => True
  ok_local := fun _ _ w => nomatch w
  kept_local := fun _ _ _ _ _ _ => trivial

def inUseOwners (l : InUse) : Multiset (Owner Empty) :=
  Multiset.ofList (l.map fun b => .raw ⟨b.1, pagesOf b.2⟩)

/-- The invariant of the runs; `Y` are mappings that were lost. -/
structure GuardInv (st : Heap × InUse) : Prop where
  guard : st.1.opts.guard = true
  owned : ∃ Y, HeapOwned plainTenants False st.1 (inUseOwners st.2 + Y)
  sizes : ∀ b ∈ st.2, b.2 % 4096 = 0 ∧ 8192 ≤ b.2

lemma inUseOwners_cons (b : ℕ × ℕ) (l : InUse) :
    inUseOwners (b :: l) = .raw ⟨b.1, pagesOf b.2⟩ ::ₘ inUseOwners l := rfl

variable {b : ℕ × ℕ} {l : InUse} {st : Heap × InUse} {g : GuardEntry} {p : ℕ}
    {X : Multiset (Owner Empty)} {s : Heap}

lemma inUseOwners_erase (hb : b ∈ l) :
    inUseOwners l = .raw ⟨b.1, pagesOf b.2⟩ ::ₘ inUseOwners (l.erase b) := by
  have hp := (perm_cons_erase hb).map fun b => (Owner.raw ⟨b.1, pagesOf b.2⟩ : Owner Empty)
  exact Multiset.coe_eq_coe.2 hp

lemma GuardInv.balanced (h : GuardInv st) : Balanced st.1 := by
  obtain ⟨Y, hY⟩ := h.owned
  refine ⟨fun g hg => ?_, hY.tables.detached.resolve_left id⟩
  obtain ⟨hrem, hone⟩ := hY.tables.listed g hg
  exact ⟨hone.resolve_left id, hrem⟩

lemma holds_range (hp : g.holds p = true) (hb : g.base + g.total ≤ 2 ^ 47) (ht : 8192 ≤ g.total) :
    g.base + 4096 ≤ p ∧ p + 4096 < g.base + g.total := by
  unfold GuardEntry.holds at hp
  have h1 : wrap (g.base + 4096) = g.base + 4096 := wrap_of_lt (by omega)
  have h2 : wrap (g.total + 2 ^ 64 - 8192) = g.total - 8192 := wrap_sub ht (by omega)
  simp only [h1, h2] at hp
  rw [wrap_of_lt (by omega)] at hp
  rw [decide_eq_true_iff] at hp
  omega

/-- What `find_guard_by_ptr` answers, and the counts it leaves. -/
lemma HeapOwned.find (h : HeapOwned plainTenants False s X) (hp : p ≠ 0) :
    findGuardByPtr p s = .ok (s.guardList.find? fun g => g.holds p)
      { s with guardList := (walk (·.holds p) 0 s.guardList).2 } := by
  refine findGuardByPtr_eq hp h.nodesDistinct fun g hg => ?_
  obtain ⟨hrem, hone⟩ := h.tables.listed g hg
  exact ⟨h.guardNodeOk g hg, hone.resolve_left id, hrem⟩

lemma holds_null (hb : g.base < 2 ^ 47) : g.holds 0 = false := by
  unfold GuardEntry.holds
  have h1 : wrap (g.base + 4096) = g.base + 4096 := wrap_of_lt (by omega)
  rw [decide_eq_false_iff_not]
  omega

/-- **When `find_guard_by_ptr` is exact.** -/
theorem GuardInv.findExact_iff (h : GuardInv st) (p : ℕ) :
    FindExact st.1 p ↔ p = 0 ∨ HeadOnly st.1 p := by
  obtain ⟨Y, hY⟩ := h.owned
  by_cases hp : p = 0
  · subst hp
    refine ⟨fun _ => .inl rfl, fun _ => ⟨none, ?_, ⟨fun _ g hg => ?_, fun _ => rfl⟩, ?_⟩⟩
    · have hid : st.1.guardList.map (addOne none) = st.1.guardList := by
        refine (map_congr_left fun g _ => ?_).trans (map_id _)
        rfl
      rw [hid]
      rfl
    · exact holds_null (hY.tables.based g hg).2
    · intro g hg
      cases hg
  have hfind := hY.find hp
  have hone : ∀ g ∈ st.1.guardList, g.ref = 1 := fun g hg => (h.balanced.1 g hg).1
  have hnodes : (st.1.guardList.map GuardEntry.node).Nodup :=
    (nodup_append.1 hY.nodesDistinct).1
  have hexact := walk_exact_iff (·.holds p) st.1.guardList hone hnodes
  rw [walk_fst] at hexact
  constructor
  · rintro ⟨r, hr, _, _⟩
    rw [hfind] at hr
    obtain ⟨hr1, hr2⟩ := Outcome.ok.inj hr
    rw [← hr1] at hr2
    exact .inr (hexact.1 (congrArg Heap.guardList hr2))
  · intro hhead
    have hlist := hexact.2 (hhead.resolve_left hp)
    refine ⟨st.1.guardList.find? fun g => g.holds p, ?_, ?_, fun g hg => ?_⟩
    · rw [hfind, hlist]
    · rw [find?_eq_none]
      simp
    · have hfound := find?_some hg
      exact ⟨mem_of_find?_eq_some hg, hfound⟩

/-- A pointer into the head: only its count goes up. -/
lemma HeapOwned.findHead {rest : List GuardEntry} (h : HeapOwned plainTenants False s X) (hp : p ≠ 0)
    (hl : s.guardList = g :: rest) (hg : g.holds p = true) :
    ∃ s', findGuardByPtr p s = .ok (some g) s' ∧ HeapOwned plainTenants True s' X ∧ Held g s' ∧
      OutsideGuards s s' ∧ s'.guardQ = s.guardQ ∧ s'.mem = s.mem := by
  have hmem : g ∈ s.guardList := by rw [hl]; exact mem_cons_self
  have hone : ∀ x ∈ s.guardList, x.ref = 1 := fun x hx =>
    ((h.tables.listed x hx).2).resolve_left id
  refine ⟨{ s with guardList := { g with ref := g.ref + 0 + 1 } :: rest }, ?_, ?_, ?_,
    ⟨rfl, rfl, rfl, rfl, rfl, rfl⟩, rfl, rfl⟩
  · rw [h.find hp, hl, walk, if_pos hg, find?_cons]
    simp [hg]
  · refine h.loosen.withRefs (.inl trivial) (by rw [hl]; rfl) fun x hx => ?_
    rcases mem_cons.1 hx with rfl | hx
    · exact ⟨(h.tables.listed g hmem).1, h.tables.based g hmem⟩
    · have hx' : x ∈ s.guardList := by rw [hl]; exact mem_cons_of_mem _ hx
      exact ⟨(h.tables.listed x hx').1, h.tables.based x hx'⟩
  · refine ⟨⟨_, rest, rfl, rfl, rfl, ?_, fun x hx => ?_⟩, h.tables.detached.resolve_left id⟩
    · show g.ref + 0 + 1 = 2
      rw [hone g hmem]
      decide
    · exact hone x (by rw [hl]; exact mem_cons_of_mem _ hx)

lemma inUse_without {Y : Multiset (Owner Empty)}
    (h : HeapOwned plainTenants False s (inUseOwners l + Y)) (hb : b ∈ l)
    (h1 : b.1 ≤ p) (h2 : p < b.1 + b.2) : l.without p = l.erase b := by
  unfold InUse.without
  cases hf : l.find? fun b => decide (b.1 ≤ p ∧ p < b.1 + b.2) with
  | none =>
    rw [find?_eq_none] at hf
    have hno := hf b hb
    rw [decide_eq_true_iff] at hno
    exact absurd ⟨h1, h2⟩ hno
  | some c =>
    have hc := mem_of_find?_eq_some hf
    have hcp := find?_some hf
    rw [decide_eq_true_iff] at hcp
    by_cases hcb : c = b
    · rw [hcb]
    · -- two mappings in use would share the address
      have hbe : b ∈ l.erase c := (mem_erase_of_ne (Ne.symm hcb)).2 hb
      have ho := h.owned
      rw [inUseOwners_erase hc, Multiset.cons_add, owners_cons] at ho
      have hin : (.raw ⟨b.1, pagesOf b.2⟩ : Owner Empty) ∈
          owners s (inUseOwners (l.erase c) + Y) :=
        mem_owners (Multiset.mem_add.2 (.inl (Multiset.mem_coe.2
          (mem_map.2 ⟨b, hbe, rfl⟩))))
      have hapart := ho.apart hin
      have hl1 := le_pagesOf b.2
      have hl2 := le_pagesOf c.2
      simp only [Tenants.regionOf, Region.stop] at hapart
      omega

/-- A resize that meets its condition keeps the invariant. -/
lemma guardResize_sat {env : MreguardEnv} {oldSize newSize : ℕ} (h : GuardInv st)
    (hu : GuardUse st (.resize env p oldSize newSize)) :
    (guardStep (.resize env p oldSize newSize) st).Sat (fun _ st' => GuardInv st') (fun _ _ => True) := by
  obtain ⟨Y, hY⟩ := h.owned
  obtain ⟨hhead, hhit⟩ := hu
  rw [guardStep, sat_bind, sat_beside, mreguard, sat_bind, sat_get,
    sat_bind, crashIf, sat_stopIf]
  refine ⟨fun _ => trivial, fun hargs => ?_⟩
  have hp : p ≠ 0 := fun h0 => hargs (.inl h0)
  rw [if_neg (by rw [h.guard]; simp), sat_bind]
  by_cases hfound : ∃ g rest, st.1.guardList = g :: rest ∧ g.holds p = true
  · obtain ⟨g, rest, hl, hg⟩ := hfound
    obtain ⟨hlive, hfit, hbig, hgrant⟩ := hhit g rest hl hg
    obtain ⟨hmod, hmin⟩ := h.sizes _ hlive
    have hsplit := inUseOwners_erase hlive
    obtain ⟨s1, hfind, h1, hheld, ho1, -, hm1⟩ := hY.findHead hp hl hg
    rw [hsplit, Multiset.cons_add] at h1
    have hhigh : g.base + pagesOf g.total * 4096 ≤ 2 ^ 47 :=
      (h1.whole (Multiset.mem_cons_self _ _)).high
    have hle := le_pagesOf g.total
    obtain ⟨hp1, hp2⟩ := holds_range hg (by omega) hmin
    have hwithout := inUse_without hY hlive (show g.base ≤ p by omega)
      (by omega)
    have hgrant1 : ResizeGranted s1 env g (roundPage newSize) := by
      unfold ResizeGranted at hgrant ⊢
      rw [hm1]
      exact hgrant
    rw [hfind]
    refine (mreguardEntry_balanced h1 hheld (roundPage_mod newSize) hfit hbig hgrant1
      fun _ _ => trivial).imp ?_
    intro r s2 hr
    have hg2 : s2.opts.guard = true := by
      rw [hr.outside.opts, ho1.opts]
      exact h.guard
    rcases hr.owned with ⟨newBase, hr, h2⟩ | ⟨hr, h2⟩
    · subst hr
      refine ⟨hg2, ⟨Y, ?_⟩, fun b hb => ?_⟩
      · rw [inUseOwners_cons, hwithout, Multiset.cons_add, Nat.add_sub_cancel]
        exact h2
      · rcases mem_cons.1 hb with rfl | hb
        · have hmod := roundPage_mod newSize
          omega
        · rw [hwithout] at hb
          exact h.sizes b (mem_of_mem_erase hb)
    · subst hr
      refine ⟨hg2, ⟨Y, ?_⟩, h.sizes⟩
      rw [hsplit, Multiset.cons_add]
      exact h2
  · -- nothing is found in a list of at most one entry
    have hexact := (h.findExact_iff p).2 (.inr hhead)
    obtain ⟨r, hr, _, hsome⟩ := hexact
    have hlen := hhead.resolve_right hfound
    cases r with
    | none =>
      have hid : st.1.guardList.map (addOne none) = st.1.guardList := by
        refine (map_congr_left fun g _ => ?_).trans (map_id _)
        rfl
      rw [hr, hid]
      exact h
    | some g =>
      obtain ⟨hmem, hg⟩ := hsome g rfl
      refine absurd ?_ hfound
      cases hlist : st.1.guardList with
      | nil => rw [hlist] at hmem; cases hmem
      | cons x rest =>
        cases rest with
        | nil =>
          rw [hlist, mem_singleton] at hmem
          exact ⟨x, [], rfl, hmem ▸ hg⟩
        | cons y rest => rw [hlist] at hlen; simp at hlen

/-- **One call keeps the invariant.** -/
theorem guardStep_sat (st : Heap × InUse) (op : GuardOp) (h : GuardInv st) (hu : GuardUse st op) :
    (guardStep op st).Sat (fun _ st' => GuardInv st') (fun _ _ => True) := by
  obtain ⟨Y, hY⟩ := h.owned
  cases op with
  | alloc env size =>
    rw [guardStep, sat_bind, sat_beside]
    rcases eq_zero_or_pos size with h0 | hpos
    · rw [mguard, sat_bind, sat_get, if_pos h0, sat_bind, crashIf, sat_stopIf]
      exact ⟨fun _ => trivial, fun _ => h⟩
    refine (mguard_owned hY h.guard hpos).imp ?_
    rintro r s1 (⟨base, rfl, hr⟩ | ⟨rfl, h1, ho, _⟩)
    · refine ⟨by rw [← h.guard]; exact congrArg _ hr.outside.opts, ⟨Y, ?_⟩, fun b hb => ?_⟩
      · rw [inUseOwners_cons, Multiset.cons_add, Nat.add_sub_cancel]
        exact hr.owned
      · rcases mem_cons.1 hb with rfl | hb
        · have hmod := guardAligned_mod size
          omega
        · exact h.sizes b hb
    · exact ⟨by rw [← h.guard]; exact congrArg _ ho.opts, ⟨Y, h1⟩, h.sizes⟩
  | resize env p oldSize newSize => exact guardResize_sat h hu
  | retire place d base total =>
    have hb : (base, total) ∈ st.2 := hu
    obtain ⟨hmod, hmin⟩ := h.sizes _ hb
    rw [guardStep, sat_bind, sat_beside]
    rw [inUseOwners_erase hb, Multiset.cons_add] at hY
    refine (guardQuarantineAdd_owned hY rfl trivial (by omega) hmod).imp ?_
    rintro _ s1 ⟨ho, _, hcase⟩
    refine ⟨by rw [← h.guard]; exact congrArg _ ho.opts, ?_,
      fun b hb' => h.sizes b (mem_of_mem_erase hb')⟩
    rcases hcase with ⟨h1, _⟩ | ⟨h1, _⟩
    · exact ⟨Y, h1⟩
    · refine ⟨.raw ⟨base, pagesOf total⟩ ::ₘ Y, ?_⟩
      rw [Multiset.add_cons]
      exact h1
  | sweep d =>
    rw [guardStep, sat_bind, sat_beside, monotonicSeconds, Outcome.sat_ok,
      sat_beside, guardQuarantineSweep, sat_bind]
    have h1 := hY.tick d
    refine (sweepFrom_owned _ [] _ h1 rfl (fun hneg => absurd (h1.tables.refsPos not_false) hneg)
      h1.tables.times).imp ?_
    intro _ s2 hs2
    exact ⟨by rw [← h.guard]; exact congrArg _ hs2.outside.opts, ⟨Y, hs2.owned⟩, h.sizes⟩

/-- **Guard metadata over whole runs.**  In every run whose resizes visit only the head of the list
and do not fail where `mreguard` keeps a reference, the counts are balanced after every call; and in
every state such a run reaches, `find_guard_by_ptr` is exact for the head of the list, for a list of
at most one entry and for the null pointer, and for no other argument. -/
theorem guard_refs_balanced (o : MallocOpts) (hg : o.guard = true) (secret : UInt64) (m : Space)
    (hm : m.TagsUsed) (ops : List GuardOp)
    (hops : RunMeets guardStep GuardUse (Heap.start o secret m, []) ops) :
    (runList guardStep ops (Heap.start o secret m, [])).Sat
      (fun _ st => Balanced st.1 ∧ ∀ p, FindExact st.1 p ↔ p = 0 ∨ HeadOnly st.1 p)
      (fun _ _ => True) := by
  have hstart : GuardInv (Heap.start o secret m, []) := by
    refine ⟨hg, ⟨0, ?_⟩, fun b hb => by cases hb⟩
    exact heapOwned_start o secret hm
  exact (runList_sat guardStep_sat ops _ hstart hops).imp
    fun _ st h => ⟨h.balanced, h.findExact_iff⟩

/-- Option `G` on top of the defaults. -/
def guardOpts : MallocOpts := { MallocOpts.initial with guard := true }

/-- A guarded mapping of one page at `base`, with its list entry at `node`. -/
def allocAt (base node : ℕ) : GuardOp := .alloc ⟨some base, true, true, some node⟩ 4096

/-- Growing the mapping that contains `p` to two pages; `mremap` moves it to `base`. -/
def growTo (p base node : ℕ) : GuardOp :=
  .resize ⟨some base, ⟨none, true, true, some node⟩⟩ p 100 8192

/-- Two mappings are made; the newer one, the head of the list, is grown, retired and swept. -/
def growRetireSweep : List GuardOp :=
  [allocAt 65536 131072, allocAt 262144 327680, growTo 266240 524288 589824,
    .retire (some 655360) 0 524288 16384, .sweep 1]

theorem guard_refs_balanced_grow :
    let r := runList guardStep growRetireSweep (Heap.start guardOpts 7 Space.empty, [])
    r.isOk = true ∧ r.state.1.guardList = [⟨⟨131072, 1⟩, 65536, 12288, 1, false⟩] ∧
      r.Sat (fun _ st => Balanced st.1 ∧ ∀ p, FindExact st.1 p ↔ p = 0 ∨ HeadOnly st.1 p)
      (fun _ _ => True) := by
  refine ⟨by decide +kernel, by decide +kernel,
    guard_refs_balanced guardOpts rfl 7 .empty Space.empty_tagsUsed _ ?_⟩
  refine ⟨trivial, fun st1 h1 => ⟨trivial, fun st2 h2 => ⟨?_, fun st3 h3 =>
    ⟨?_, fun _ _ => ⟨trivial, fun _ _ => trivial⟩⟩⟩⟩⟩
  · have hst : st2 = _ := (congrArg Outcome.state h2).symm
    have hst1 : st1 = _ := (congrArg Outcome.state h1).symm
    have hl : st2.1.guardList = [⟨⟨327680, 3⟩, 262144, 12288, 1, false⟩,
        ⟨⟨131072, 1⟩, 65536, 12288, 1, false⟩] := by
      rw [hst, hst1]
      decide +kernel
    have hin : ((262144, 12288) : ℕ × ℕ) ∈ st2.2 := by
      rw [hst, hst1]
      decide +kernel
    refine ⟨.inr ⟨_, _, hl, by decide +kernel⟩, fun g rest hg _ => ?_⟩
    rw [hl] at hg
    obtain ⟨rfl, _⟩ := cons.inj hg
    refine ⟨hin, by decide +kernel, by decide +kernel, .inl ⟨524288, rfl, ?_⟩⟩
    rw [hst, hst1]
    decide +kernel
  · change _ ∈ st3.2
    rw [show st3 = _ from (congrArg Outcome.state h3).symm,
      show st2 = _ from (congrArg Outcome.state h2).symm,
      show st1 = _ from (congrArg Outcome.state h1).symm]
    decide +kernel

/-- Two mappings are made and the older one, second in the list, is grown: its entry leaves the list
with a reference that nobody drops. -/
theorem guard_refs_leak :
    let r := runList guardStep
      [allocAt 65536 131072, allocAt 262144 327680, growTo 69632 524288 589824]
      (Heap.start guardOpts 7 Space.empty, [])
    r.isOk = true ∧ ¬Balanced r.state.1 ∧ r.state.1.detached.map GuardEntry.ref = [1] := by
  refine ⟨by decide +kernel, fun h => ?_, by decide +kernel⟩
  have hd := congrArg length h.2
  revert hd
  decide +kernel

end Musl.Malloc
