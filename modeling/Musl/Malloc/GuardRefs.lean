import Musl.Malloc.GuardList

/-!
# Reference counts of the guard list

What the functions on `__guard_list` do to the counts, exactly.
-/

namespace Musl.Malloc

open Musl.Lib List Prog

/-! ### Entries told apart by their nodes -/

/-- The nodes of the listed and of the detached entries are distinct. -/
def NodesDistinct (s : Heap) : Prop :=
  (s.guardList.map GuardEntry.node ++ s.detached.map GuardEntry.node).Nodup

variable {l post pre rest : List GuardEntry} {nd : Node} {g : GuardEntry} {s : Heap}
    {E : Stop → Heap → Prop} {base : ℕ}

section

variable (h : nd ∉ l.map GuardEntry.node)

include h

lemma map_withRef_of_not_mem {f : Int32 → Int32} : l.map (GuardEntry.withRef nd f) = l := by
  induction l with
  | nil => rfl
  | cons g l ih =>
    rw [map_cons, mem_cons, not_or] at h
    rw [map_cons, ih h.2, GuardEntry.withRef, if_neg (Ne.symm h.1)]

lemma filter_of_not_mem : l.filter (fun g => decide (g.node ≠ nd)) = l := by
  rw [filter_eq_self]
  intro g hg
  rw [decide_eq_true_iff]
  rintro rfl
  exact h (mem_map_of_mem hg)

lemma find?_of_not_mem : l.find? (fun g => decide (g.node = nd)) = none := by
  rw [find?_eq_none]
  intro g hg hgn
  rw [decide_eq_true_iff] at hgn
  exact h (hgn ▸ mem_map_of_mem hg)

end

lemma NodesDistinct.listed (hd : NodesDistinct s) (hl : s.guardList = pre ++ g :: post) :
    g.node ∉ pre.map GuardEntry.node ∧ g.node ∉ post.map GuardEntry.node ∧
    g.node ∉ s.detached.map GuardEntry.node := by
  unfold NodesDistinct at hd
  rw [hl, map_append, map_cons, append_assoc, cons_append] at hd
  have hnd := nodup_middle.1 hd
  rw [nodup_cons, mem_append, mem_append, not_or, not_or] at hnd
  exact hnd.1

lemma NodesDistinct.detached (hd : NodesDistinct s) (hl : s.detached = g :: rest) :
    g.node ∉ s.guardList.map GuardEntry.node ∧ g.node ∉ rest.map GuardEntry.node := by
  unfold NodesDistinct at hd
  rw [hl] at hd
  have hnd := nodup_middle.1 hd
  rw [nodup_cons, mem_append, not_or] at hnd
  exact hnd.1

section

variable (hl : s.guardList = pre ++ g :: post) (hd : NodesDistinct s)

include hl hd

lemma mapRef_listed (f : Int32 → Int32) :
    s.mapRef g.node f = { s with guardList := pre ++ { g with ref := f g.ref } :: post } := by
  obtain ⟨hpre, hpost, hdet⟩ := hd.listed hl
  unfold Heap.mapRef
  rw [hl, map_append, map_cons, map_withRef_of_not_mem hpre, map_withRef_of_not_mem hpost,
    map_withRef_of_not_mem hdet,
    GuardEntry.withRef, if_pos rfl]

lemma entryOf_listed : s.entryOf g.node = some g := by
  unfold Heap.entryOf
  rw [hl, append_assoc, find?_append, find?_of_not_mem (hd.listed hl).1, Option.none_or,
    cons_append, find?_cons_of_pos (by simp)]

end

lemma entryOf_detached (hl : s.detached = g :: rest) (hd : NodesDistinct s) :
    s.entryOf g.node = some g := by
  unfold Heap.entryOf
  rw [hl, find?_append, find?_of_not_mem (hd.detached hl).1, Option.none_or, find?_cons_of_pos (by simp)]

/-! ### Taking and dropping a reference -/

lemma guardHold_ok (h : NodeOk s.mem nd) : guardHold nd s = .ok () (s.mapRef nd (· + 1)) := by
  rw [guardHold, bind_ok (touch_ok h)]
  rfl

section

variable (hn : NodeOk s.mem nd) (he : s.entryOf nd = some g)

include hn he

/-- A reference is dropped; the last one of a removed entry unmaps it. -/
lemma guardRelease_eq (hpos : 0 < g.ref) :
    guardRelease nd s = .ok () (if g.ref = 1 ∧ g.removed = true then
      { (s.mapRef nd (· - 1)).dropEntry nd with mem := s.mem.munmap nd.addr sizeofGuardEntry }
    else s.mapRef nd (· - 1)) := by
  have hcrash : ¬g.ref ≤ 0 := Int32.not_le.2 hpos
  rw [guardRelease, bind_ok (touch_ok hn)]
  simp only [bind_apply, Prog.get, he, dropRef, Prog.modify, crashIf, stopIf, if_neg hcrash, exec]
  by_cases hlast : g.ref = 1 ∧ g.removed = true
  · rw [if_pos hlast, if_pos hlast]
    rfl
  · rw [if_neg hlast, if_neg hlast]

/-- A count that is exhausted is a crash. -/
lemma guardRelease_stop (hneg : ¬0 < g.ref) :
    guardRelease nd s =
    .stop (.crash "malloc [guard_release]: the reference of guard is zero or negative\n")
      (s.mapRef nd (· - 1)) := by
  have hcrash : g.ref ≤ 0 := Int32.not_lt.1 hneg
  rw [guardRelease, bind_ok (touch_ok hn)]
  simp [bind_apply, Prog.get, he, dropRef, Prog.modify, crashIf, stopIf, if_pos hcrash]

end

lemma guardRelease_listed (hl : s.guardList = pre ++ g :: post) (hd : NodesDistinct s)
    (hn : NodeOk s.mem g.node) (hpos : 0 < g.ref) (hrem : g.removed = false) :
    guardRelease g.node s = .ok ()
    { s with guardList := pre ++ { g with ref := g.ref - 1 } :: post } := by
  rw [guardRelease_eq hn (entryOf_listed hl hd) hpos, if_neg (by rw [hrem]; simp), mapRef_listed hl hd]

section

variable (hl : s.detached = g :: rest) (hd : NodesDistinct s) (hn : NodeOk s.mem g.node)

include hl hd hn

lemma guardRelease_last (hone : g.ref = 1) (hrem : g.removed = true) :
    guardRelease g.node s = .ok ()
    { s with detached := rest, mem := s.mem.munmap g.node.addr sizeofGuardEntry } := by
  have hpos : 0 < g.ref := by rw [hone]; decide
  rw [guardRelease_eq hn (entryOf_detached hl hd) hpos, if_pos ⟨hone, hrem⟩]
  obtain ⟨hlist, hrest⟩ := hd.detached hl
  unfold Heap.mapRef Heap.dropEntry
  simp only [hl, map_cons, map_withRef_of_not_mem hlist, map_withRef_of_not_mem hrest,
    filter_of_not_mem hlist]
  rw [filter_cons_of_neg (by simp [GuardEntry.withRef]), filter_of_not_mem hrest]

lemma guardRelease_detached (hpos : 0 < g.ref) (hmore : g.ref ≠ 1) :
    guardRelease g.node s = .ok () { s with detached := { g with ref := g.ref - 1 } :: rest } := by
  rw [guardRelease_eq hn (entryOf_detached hl hd) hpos, if_neg (fun h => hmore h.1)]
  obtain ⟨hlist, hrest⟩ := hd.detached hl
  unfold Heap.mapRef
  simp only [hl, map_cons, map_withRef_of_not_mem hlist, map_withRef_of_not_mem hrest]
  rw [GuardEntry.withRef, if_pos rfl]

end

/-! ### Removal -/

/-- What `remove_guard_entry` leaves: no entry had the base, or the first one that had it is off the
list, and unmapped if the list held its only reference. -/
def Removed (base : ℕ) (s : Heap) (r : Bool) (s' : Heap) : Prop :=
  (r = false ∧ s' = s ∧ (base = 0 ∨ ∀ g ∈ s.guardList, g.base ≠ base)) ∨
  (r = true ∧ ∃ pre g post, s.guardList = pre ++ g :: post ∧ g.base = base ∧
    (∀ x ∈ pre, x.base ≠ base) ∧
    ((g.ref = 1 ∧ s' = { s with
        guardList := pre ++ post, mem := s.mem.munmap g.node.addr sizeofGuardEntry }) ∨
      (g.ref ≠ 1 ∧ s' = { s with
        guardList := pre ++ post, detached :=
          { g with removed := true, ref := g.ref - 1 } :: s.detached })))

/-- The loop of `remove_guard_entry` finds the first entry with that base. -/
lemma removeFrom_spec (hd : NodesDistinct s)
    (hE : (∃ g ∈ s.guardList, g.base = base ∧ ¬0 < g.ref) → ∀ e s', E e s') :
    ∀ (rest pre : List GuardEntry), s.guardList = pre ++ rest →
      (∀ g ∈ rest, NodeOk s.mem g.node) → (∀ x ∈ pre, x.base ≠ base) →
      (removeFrom base pre rest s).Sat (Removed base s) E := by
  intro rest
  induction rest with
  | nil =>
    intro pre hl _ hpre
    rw [append_nil] at hl
    exact .inl ⟨rfl, rfl, .inr (by rw [hl]; exact hpre)⟩
  | cons g rest ih =>
    intro pre hl hn hpre
    have hng := hn g mem_cons_self
    rw [removeFrom, sat_bind, touch_ok hng]
    simp only [Outcome.sat_ok]
    rw [sat_ite]
    refine ⟨fun hbase => ?_, fun hbase => ?_⟩
    · -- the entry is moved to the detached ones, and the reference of the list is dropped
      rw [sat_bind, sat_modify, sat_bind]
      have hd' : NodesDistinct { s with
          guardList := pre ++ rest, detached := { g with removed := true } :: s.detached } := by
        unfold NodesDistinct at hd ⊢
        rw [hl, map_append, map_cons, append_assoc] at hd
        simp only [map_append]
        rw [append_assoc]
        have hp : (map GuardEntry.node pre ++ (map GuardEntry.node rest ++
            g.node :: map GuardEntry.node s.detached)).Perm
            (map GuardEntry.node pre ++ g.node ::
              (map GuardEntry.node rest ++ map GuardEntry.node s.detached)) :=
          Perm.append_left _ perm_middle
        exact hp.nodup_iff.2 hd
      by_cases hpos : 0 < g.ref
      · by_cases hone : g.ref = 1
        · rw [guardRelease_last (g := { g with removed := true }) rfl hd' hng hone rfl]
          exact .inr ⟨rfl, pre, g, rest, hl, hbase, hpre, .inl ⟨hone, rfl⟩⟩
        · rw [guardRelease_detached (g := { g with removed := true }) rfl hd' hng hpos hone]
          exact .inr ⟨rfl, pre, g, rest, hl, hbase, hpre, .inr ⟨hone, rfl⟩⟩
      · have hstop := guardRelease_stop (s := { s with
          guardList := pre ++ rest, detached := { g with removed := true } :: s.detached })
          (g := { g with removed := true }) hng (entryOf_detached rfl hd') hpos
        rw [hstop]
        exact hE ⟨g, by rw [hl]; simp, hbase, hpos⟩ _ _
    · refine ih (pre ++ [g]) (by rw [hl, append_assoc]; rfl)
        (forall_mem_cons.1 hn).2 ?_
      intro x hx
      rcases mem_append.1 hx with hx | hx
      · exact hpre x hx
      · rw [mem_singleton.1 hx]
        exact hbase

/-- **Removal.** -/
theorem removeGuardEntry_spec (hd : NodesDistinct s) (hn : ∀ g ∈ s.guardList, NodeOk s.mem g.node)
    (hE : (∃ g ∈ s.guardList, g.base = base ∧ ¬0 < g.ref) → ∀ e s', E e s') :
    (removeGuardEntry base s).Sat (Removed base s) E := by
  rw [removeGuardEntry, sat_bind, sat_get, sat_ite]
  refine ⟨fun h0 => ?_, fun _ => ?_⟩
  · exact .inl ⟨rfl, rfl, .inl h0⟩
  · exact removeFrom_spec hd hE s.guardList [] rfl hn (fun x hx => by cases hx)

/-! ### The walk of `find_guard_by_ptr` -/

def bump (extra : Int32) : List GuardEntry → List GuardEntry
  | [] => []
  | g :: rest => { g with ref := g.ref + extra } :: rest

/-- The walk as a function on the list: the entry found and the counts left, when the first entry
already carries `extra` references of the walk. -/
def walk (hit : GuardEntry → Bool) : Int32 → List GuardEntry → Option GuardEntry × List GuardEntry
  | _, [] => (none, [])
  | extra, g :: rest =>
    if hit g = true then (some g, { g with ref := g.ref + extra + 1 } :: rest)
    else ((walk hit 1 rest).1, { g with ref := g.ref + extra } :: (walk hit 1 rest).2)

/-- The walk answers the first entry that is hit. -/
lemma walk_fst (hit : GuardEntry → Bool) : ∀ (l : List GuardEntry) (extra : Int32),
    (walk hit extra l).1 = l.find? hit := by
  intro l
  induction l with
  | nil => intro _; rfl
  | cons g rest ih =>
    intro extra
    by_cases hg : hit g = true
    · rw [walk, if_pos hg, find?_cons_of_pos hg]
    · rw [walk, if_neg hg, find?_cons_of_neg hg]
      exact ih 1

lemma holdNext_eq (s : Heap) (pre rest : List GuardEntry) (hl : s.guardList = pre ++ rest)
    (hd : NodesDistinct s) (hn : ∀ g ∈ rest, NodeOk s.mem g.node) :
    holdNext rest s = .ok () { s with guardList := pre ++ bump 1 rest } := by
  cases rest with
  | nil =>
    show Outcome.ok () s = .ok () { s with guardList := pre ++ [] }
    rw [← hl]
  | cons n rest =>
    rw [holdNext, guardHold_ok (hn n mem_cons_self), mapRef_listed hl hd]
    rfl

lemma NodesDistinct.of_nodes {s' : Heap} (h : NodesDistinct s)
    (hg : s'.guardList.map GuardEntry.node = s.guardList.map GuardEntry.node)
    (hd : s'.detached = s.detached) :
    NodesDistinct s' := by
  unfold NodesDistinct at h ⊢
  rw [hg, hd]
  exact h

lemma bump_nodes (extra : Int32) (l : List GuardEntry) :
    (bump extra l).map GuardEntry.node = l.map GuardEntry.node := by
  cases l with
  | nil => rfl
  | cons g l => rfl

/-- **The walk.**  From a list with count one everywhere, except for the references `extra` that the
walk itself holds on the entry it stands at. -/
theorem findFrom_eq (p : ℕ) : ∀ (rest pre : List GuardEntry) (extra : Int32) (s : Heap),
    extra = 0 ∨ extra = 1 → s.guardList = pre ++ bump extra rest → NodesDistinct s →
    (∀ g ∈ rest, NodeOk s.mem g.node ∧ g.ref = 1 ∧ g.removed = false) → findFrom p rest s =
      .ok (walk (·.holds p) extra rest).1
      { s with guardList := pre ++ (walk (·.holds p) extra rest).2 } := by
  intro rest
  induction rest with
  | nil =>
    intro pre extra s _ hl _ _
    show Outcome.ok none s = .ok none { s with guardList := pre ++ [] }
    rw [show pre ++ [] = s.guardList from hl.symm]
  | cons g rest ih =>
    intro pre extra s hex hl hd hn
    obtain ⟨hng, hone, hrem⟩ := hn g mem_cons_self
    have hpos : 0 < g.ref + extra + 1 := by
      rw [hone]
      rcases hex with rfl | rfl
      · decide
      · decide
    have hback : g.ref + extra + 1 - 1 = g.ref + extra := by
      rw [hone]
      rcases hex with rfl | rfl
      · decide
      · decide
    -- the walk holds `g` in the state `s1`
    have hl' : s.guardList = pre ++ { g with ref := g.ref + extra } :: rest := hl
    have hhold : guardHold g.node s =
        .ok () { s with guardList := pre ++ { g with ref := g.ref + extra + 1 } :: rest } := by
      rw [guardHold_ok hng]
      exact congrArg _ (mapRef_listed hl' hd (· + 1))
    have hd1 : NodesDistinct
        { s with guardList := pre ++ { g with ref := g.ref + extra + 1 } :: rest } :=
      hd.of_nodes (by rw [hl']; simp) rfl
    rw [findFrom, bind_ok (touch_ok hng), if_neg (by rw [hrem]; simp), bind_ok hhold]
    by_cases hg : g.holds p = true
    · rw [if_pos hg, walk, if_pos hg]
      rfl
    · rw [if_neg hg, walk, if_neg hg]
      let g1 : GuardEntry := { g with ref := g.ref + extra + 1 }
      have hnext : holdNext rest { s with guardList := pre ++ g1 :: rest } =
          .ok () { s with guardList := pre ++ g1 :: bump 1 rest } := by
        have h := holdNext_eq { s with guardList := pre ++ g1 :: rest } (pre ++ [g1]) rest
          (by simp) hd1
          (fun x hx => (hn x (mem_cons_of_mem g hx)).1)
        rw [h]
        simp
      have hd2 : NodesDistinct { s with guardList := pre ++ g1 :: bump 1 rest } :=
        hd1.of_nodes (by simp only [map_append, map_cons, bump_nodes]; rfl) rfl
      have hrel : guardRelease g.node { s with guardList := pre ++ g1 :: bump 1 rest } =
          .ok () { s with guardList := pre ++ { g with ref := g.ref + extra } :: bump 1 rest } := by
        have h := guardRelease_listed (g := g1) rfl hd2 hng hpos hrem
        rw [show g1.ref - 1 = g.ref + extra from hback] at h
        exact h
      have hd3 : NodesDistinct
          { s with guardList := pre ++ { g with ref := g.ref + extra } :: bump 1 rest } :=
        hd2.of_nodes (by simp only [map_append]; rfl) rfl
      have hrec := ih (pre ++ [{ g with ref := g.ref + extra }]) 1
        { s with guardList := pre ++ { g with ref := g.ref + extra } :: bump 1 rest } (.inr rfl)
        (by simp) hd3
        (forall_mem_cons.1 hn).2
      rw [bind_ok hnext, bind_ok hrel, hrec]
      simp

/-- **`find_guard_by_ptr`**, from balanced counts. -/
theorem findGuardByPtr_eq {p : ℕ} (hp : p ≠ 0) (hd : NodesDistinct s)
    (hn : ∀ g ∈ s.guardList, NodeOk s.mem g.node ∧ g.ref = 1 ∧ g.removed = false) :
    findGuardByPtr p s = .ok (s.guardList.find? fun g => g.holds p)
      { s with guardList := (walk (·.holds p) 0 s.guardList).2 } := by
  have hb : s.guardList = [] ++ bump 0 s.guardList := by
    cases hg : s.guardList with
    | nil => rfl
    | cons g rest =>
      have hone := (hn g (by rw [hg]; exact mem_cons_self)).2.1
      rw [nil_append, bump, show g.ref + 0 = g.ref by rw [hone]; decide]
  have h := findFrom_eq p s.guardList [] 0 s (.inl rfl) hb hd hn
  rw [nil_append, walk_fst] at h
  rw [findGuardByPtr, bind_ok (show get s = .ok s s from rfl), if_neg hp, h]

/-- One more reference on the entry `r`, if there is one. -/
def addOne (r : Option GuardEntry) (g : GuardEntry) : GuardEntry :=
  if r = some g then { g with ref := g.ref + 1 } else g

/-- An entry behind the head gets a reference too many. -/
lemma walk_leaks (hit : GuardEntry → Bool) (g : GuardEntry) (rest : List GuardEntry)
    (r : Option GuardEntry) (hone : g.ref = 1) :
    (walk hit 1 (g :: rest)).2 ≠ (g :: rest).map (addOne r) ∨ r ≠ (walk hit 1 (g :: rest)).1 := by
  by_cases hr : r = (walk hit 1 (g :: rest)).1
  · refine .inl fun heq => ?_
    rw [walk] at heq hr
    by_cases hg : hit g = true
    · rw [if_pos hg] at heq hr
      rw [map_cons, addOne, if_pos hr] at heq
      have href := congrArg GuardEntry.ref (cons.inj heq).1
      simp only [hone] at href
      exact absurd href (by decide)
    · rw [if_neg hg] at heq hr
      -- the entry is not the one found, so its count should be unchanged
      have hne : r ≠ some g := by
        intro hrg
        rw [hr, walk_fst] at hrg
        have hfound := find?_some hrg
        exact hg hfound
      rw [map_cons, addOne, if_neg hne] at heq
      have href := congrArg GuardEntry.ref (cons.inj heq).1
      simp only [hone] at href
      exact absurd href (by decide)
  · exact .inr hr

/-- **When the walk is exact.**  The counts are as they should be exactly when the walk visits no
entry but the head: the list has at most one entry, or the head is the one asked for. -/
theorem walk_exact_iff (hit : GuardEntry → Bool) (l : List GuardEntry) (hone : ∀ g ∈ l, g.ref = 1)
    (hnd : (l.map GuardEntry.node).Nodup) : (walk hit 0 l).2 = l.map (addOne (walk hit 0 l).1) ↔
      l.length ≤ 1 ∨ ∃ g rest, l = g :: rest ∧ hit g = true := by
  cases l with
  | nil => simp [walk]
  | cons g rest =>
    have hg1 := hone g mem_cons_self
    rw [map_cons, nodup_cons] at hnd
    have hplain : ∀ x : GuardEntry, x.ref = 1 → { x with ref := x.ref + 0 } = x := by
      intro x hx
      rw [show x.ref + 0 = x.ref by rw [hx]; decide]
    by_cases hg : hit g = true
    · constructor
      · intro _
        exact .inr ⟨g, rest, rfl, hg⟩
      intro _
      have hrest : rest.map (addOne (some g)) = rest := by
        refine (map_congr_left fun x hx => ?_).trans (map_id rest)
        rw [addOne, if_neg]
        · rfl
        · rintro h
          rw [← Option.some.inj h] at hx
          exact hnd.1 (mem_map_of_mem hx)
      rw [walk, if_pos hg, map_cons, hrest, addOne, if_pos rfl, hg1]
      rfl
    · cases rest with
      | nil =>
        refine ⟨fun _ => .inl (by simp), fun _ => ?_⟩
        rw [walk, if_neg hg]
        simp only [walk, hplain g hg1]
        rfl
      | cons n rest =>
        constructor
        · intro heq
          rw [walk, if_neg hg] at heq
          have htail := (cons.inj heq).2
          rcases walk_leaks hit n rest (walk hit 1 (n :: rest)).1
            (hone n (mem_cons_of_mem g mem_cons_self)) with h | h
          · exact absurd htail h
          · exact absurd rfl h
        · rintro (h | ⟨x, r, hx, hxp⟩)
          · simp at h
          · rw [(cons.inj hx).1] at hg
            exact absurd hxp hg

end Musl.Malloc
