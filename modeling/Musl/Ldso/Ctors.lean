import Musl.Lib.PostOrder
import Musl.Ldso.State

/-!
# The order of constructors

`queue_ctors` lists the objects whose constructors must run before and with those of `dso`, by a
depth-first search without recursion.  Its output queue and its stack share one buffer, whose size it
takes from the dependency list that `extend_bfs_deps` made, or from the list of all objects.
-/

namespace Musl.Ldso

open Musl.Lib Musl.Lib.PostOrder List Option Prog Nat Bool

/-! ### The code -/

/-- The marks of the objects `ps`. -/
def Ld.setMarks (s : Ld) (ps : List ℕ) (b : Bool) : Ld := s.updAll ps fun d => { d with mark := b }

/-- `for (j=0; j<dep->ndeps_direct; j++)` the loop that appends the dependencies without a mark to
`p->deps`. -/
def addDeps (p : ℕ) : List ℕ → Ld → Ld
  | [], s => s
  | d :: ds, s =>
    if (s.dso d).mark then addDeps p ds s
    else
      let s := s.upd d fun x => { x with mark := true }
      addDeps p ds (s.upd p fun x => { x with deps := some (x.deps.getD [] ++ [d]) })

/-- The loop of `extend_bfs_deps` over the list that grows. -/
def bfsLoop (p : ℕ) : ℕ → ℕ → Prog LdStop Ld Unit
  | 0, _ => Prog.stopWith .stuck
  | fuel + 1, i => do
    let s ← Prog.get
    match (s.depList p)[i]? with
    | none => pure ()
    | some dep => do
      let tmp ← takeAlloc
      if tmp then do
        Prog.modify (addDeps p (s.direct dep))
        bfsLoop p fuel (i + 1)
      else if s.runtime then Prog.stopWith .jump
      else bfsLoop p fuel (i + 1)

def extendBfsDeps (fuel p : ℕ) : Prog LdStop Ld Unit := do
  let s ← Prog.get
  if (s.dso p).bfsBuilt then pure ()
  else do
    Prog.modify fun s => s.setMarks (s.depList p) true
    bfsLoop p fuel 0
    Prog.modify fun s => (s.upd p fun x => { x with bfsBuilt := true }).setMarks s.dsos false

/-- `p->next_dep++` -/
def Dso.advance (x : Dso) : Dso := { x with nextDep := x.nextDep + 1 }

/-- `p->next_dep = 0; p->mark = 1;` -/
def Dso.visit (x : Dso) : Dso := { x with nextDep := 0, mark := true }

/-- The variables of the search of `queue_ctors`; `cur` is `p` within the inner loop. -/
structure Walk where
  ld : Ld
  buf : List (Option ℕ)
  qpos : ℕ
  spos : ℕ
  cur : Option ℕ

/-- What a step of the search comes to; `fault` is a step out of an array. -/
inductive Turn where
  | next (w : Walk)
  | done
  | fault

def Walk.step (w : Walk) : Turn :=
  match w.cur with
  | none =>
    if w.spos < w.buf.length then
      match w.buf[w.spos]? with
      | some (some p) => .next { w with spos := w.spos + 1, cur := some p }
      | _ => .fault
    else .done
  | some p =>
    if (w.ld.dso p).nextDep < (w.ld.dso p).ndepsDirect then
      match (w.ld.depList p)[(w.ld.dso p).nextDep]? with
      | none => .fault
      | some d =>
        if (w.ld.dso d).mark then
          .next { w with ld := w.ld.upd p Dso.advance }
        else if w.spos = 0 then .fault
        else .next
          { w with
            ld := w.ld.upd d Dso.visit
            buf := w.buf.set (w.spos - 1) (some p)
            spos := w.spos - 1
            cur := some d }
    else if w.qpos < w.buf.length then
      .next { w with buf := w.buf.set w.qpos (some p), qpos := w.qpos + 1, cur := none }
    else .fault

def Walk.run : ℕ → Walk → Option Walk
  | 0, _ => none
  | fuel + 1, w =>
    match w.step with
    | .next w' => w'.run fuel
    | .done => some w
    | .fault => none

/-- The marks that `queue_ctors` clears, and `cnt`. -/
def ctorRoom (s : Ld) (dso : ℕ) : List ℕ × ℕ :=
  if (s.dso dso).bfsBuilt then (s.depList dso, (s.depList dso).length + 1 + 1)
  else (s.dsos, s.dsos.length + 1)

def Walk.start (s : Ld) (dso cnt : ℕ) : Walk where
  ld := s.upd dso Dso.visit
  buf := (List.replicate cnt none).set (cnt - 1) (some dso)
  qpos := 0
  spos := cnt - 1
  cur := none

def entries (buf : List (Option ℕ)) : List ℕ := (buf.takeWhile Option.isSome).filterMap id

/-- The buffer: `builtin_ctor_queue`, which has four slots, for the program itself, or an array from
`calloc`. -/
def allocQueue (dso cnt : ℕ) : Prog LdStop Ld Bool := fun s =>
  if s.dsos.head? = some dso ∧ cnt ≤ 4 then .ok true s else takeAlloc s

/-- The search, and what comes after it.  Where a thread that ran constructors was lost in a `fork`,
the queue is freed, and only a `longjmp` keeps it from being used. -/
def sortCtors (fuel dso cnt : ℕ) : Prog LdStop Ld (Option (List ℕ)) := do
  let s ← Prog.get
  match (Walk.start s dso cnt).run fuel with
  | none => Prog.stopWith .stuck
  | some w =>
    if w.qpos < w.buf.length then do
      let q := entries (w.buf.set w.qpos none)
      Prog.modify fun _ => w.ld.setMarks q false
      if q.any fun p => (w.ld.dso p).ctorVisitor.any (· < 0) then
        Prog.stopWith (if s.runtime then .jump else .stuck)
      else pure (some q)
    else Prog.stopWith .stuck

/-- `queue_ctors`; the result is `none` for a null pointer. -/
def queueCtors (fuel dso : ℕ) : Prog LdStop Ld (Option (List ℕ)) := do
  let s ← Prog.get
  if s.lddMode then pure none
  else do
    let room := ctorRoom s dso
    Prog.modify fun s => s.setMarks room.1 false
    let queue ← allocQueue dso room.2
    if queue then sortCtors fuel dso room.2
    else if s.runtime then Prog.stopWith .jump
    else pure none

/-! ### Marks -/

/-- The linker `s'` is `s` but for the objects themselves and the allocations that are left. -/
structure Ld.SameLists (s s' : Ld) : Prop where
  eq : s' = { s with dso := s'.dso, allocs := s'.allocs }
  allocs : s'.allocs <:+ s.allocs

lemma Ld.SameLists.refl (s : Ld) : s.SameLists s := ⟨rfl, suffix_rfl⟩

variable {s t u s' : Ld} {buf : List (Option ℕ)} {n p d fuel cnt root v : ℕ} {w' : Walk}
    {extra all : List ℕ}

lemma Ld.SameLists.trans (h : s.SameLists t) (h' : t.SameLists u) : s.SameLists u :=
  ⟨by rw [h'.eq, h.eq], h'.allocs.trans h.allocs⟩

lemma Ld.SameLists.upd (s : Ld) (p : ℕ) (f : Dso → Dso) : s.SameLists (s.upd p f) := ⟨rfl, suffix_rfl⟩

lemma Ld.SameLists.dsos (h : s.SameLists s') : s'.dsos = s.dsos := by rw [h.eq]

lemma Ld.SameLists.lddMode (h : s.SameLists s') : s'.lddMode = s.lddMode := by rw [h.eq]

lemma Ld.SameLists.runtime (h : s.SameLists s') : s'.runtime = s.runtime := by rw [h.eq]

/-- The linker `s'` is `s` but for marks and cursors. -/
structure Ld.Remarked (s s' : Ld) : Prop where
  lists : s.SameLists s'
  dso : ∀ v, s'.dso v = { s.dso v with mark := (s'.dso v).mark, nextDep := (s'.dso v).nextDep }

lemma Ld.Remarked.refl (s : Ld) : s.Remarked s := ⟨.refl s, fun _ => rfl⟩

lemma Ld.Remarked.trans (h : s.Remarked t) (h' : t.Remarked u) : s.Remarked u where
  lists := h.lists.trans h'.lists
  dso v := by
    rw [h'.dso v, h.dso v]

lemma Ld.Remarked.upd (s : Ld) (p : ℕ) {f : Dso → Dso}
    (hf : ∀ x, f x = { x with mark := (f x).mark, nextDep := (f x).nextDep }) :
    s.Remarked (s.upd p f) where
  lists := .upd s p f
  dso v := by
    by_cases h : v = p
    · rw [h, upd_dso_self]
      exact hf _
    · rw [upd_dso_of_ne s f h]

lemma Ld.Remarked.depList (h : s.Remarked s') (v : ℕ) : s'.depList v = s.depList v := by
  rw [Ld.depList, h.dso v, Ld.depList]

lemma Ld.Remarked.ndepsDirect (h : s.Remarked s') (v : ℕ) :
    (s'.dso v).ndepsDirect = (s.dso v).ndepsDirect := by
  rw [h.dso v]

lemma Ld.Remarked.direct (h : s.Remarked s') : s'.direct = s.direct := by
  funext v
  rw [Ld.direct, h.depList, h.ndepsDirect, Ld.direct]

section

variable (s : Ld) (ps : List ℕ) (b : Bool)

lemma setMarks_dso (v : ℕ) :
    (s.setMarks ps b).dso v = if v ∈ ps then { s.dso v with mark := b } else s.dso v := by
  induction ps generalizing s with
  | nil => simp [Ld.setMarks, Ld.updAll]
  | cons p ps ih =>
    have hcons : s.setMarks (p :: ps) b = (s.upd p fun d => { d with mark := b }).setMarks ps b := rfl
    rw [hcons, ih]
    by_cases hv : v = p
    · subst hv
      simp
    · simp [upd_dso_of_ne _ _ hv, hv]

lemma setMarks_lists : s.SameLists (s.setMarks ps b) := by
  induction ps generalizing s with
  | nil => exact .refl s
  | cons p ps ih =>
    have hcons : s.setMarks (p :: ps) b = (s.upd p fun d => { d with mark := b }).setMarks ps b := rfl
    exact .trans (.upd s p _) (ih _)

lemma Ld.Remarked.setMarks : s.Remarked (s.setMarks ps b) where
  lists := setMarks_lists s ps b
  dso v := by
    rw [setMarks_dso]
    split <;> rfl

end

/-! ### The search -/

def Ld.cursor (s : Ld) (v : ℕ) : ℕ := (s.dso v).nextDep

section

variable (s : Ld) (p : ℕ)

lemma cursor_advance : (s.upd p Dso.advance).cursor p = s.cursor p + 1 := by
  simp [Ld.cursor, Dso.advance]

lemma cursor_visit : (s.upd p Dso.visit).cursor p = 0 := by
  simp [Ld.cursor, Dso.visit]

lemma cursor_upd_of_ne (f : Dso → Dso) (v : ℕ) (h : v ≠ p) : (s.upd p f).cursor v = s.cursor v := by
  rw [Ld.cursor, upd_dso_of_ne s f h, Ld.cursor]

end

/-- **The invariant of the search** from `root` over the dependencies of `s`: `out` has been put
out, `below` is the stack.  The queue lies at the start of the buffer, the stack at its end, and the
marks tell what was visited. -/
structure Walk.Inv (s : Ld) (root : ℕ) (w : Walk) (out below : List ℕ) : Prop where
  search : Search s.direct root out (w.cur.toList ++ below) w.ld.cursor
  marks : ∀ v, Reach s.direct root v → ((w.ld.dso v).mark = true ↔ v ∈ out ++ (w.cur.toList ++ below))
  others : ∀ v, ¬Reach s.direct root v → (w.ld.dso v).mark = (s.dso v).mark
  same : s.Remarked w.ld
  qpos : w.qpos = out.length
  spos : w.spos + below.length = w.buf.length
  queue : w.buf.take w.qpos = out.map some
  stack : w.buf.drop w.spos = below.map some

def Ld.DepsLoaded (s : Ld) (p : ℕ) : Prop := (s.dso p).ndepsDirect ≤ (s.depList p).length

def Walk.left (s : Ld) (w : Walk) (out below : List ℕ) : ℕ :=
  2 * potential s.direct s.dsos.toFinset out (w.cur.toList ++ below) w.ld.cursor +
    if w.cur.isNone then 1 else 0

variable {s : Ld} {root : ℕ} {w : Walk} {out below all : List ℕ}

lemma Walk.Inv.room (h : w.Inv s root out below) (hall : ∀ v, Reach s.direct root v → v ∈ all)
    (hcnt : all.length < w.buf.length) :
    w.qpos ≤ w.spos ∧ (w.cur.isSome → w.qpos < w.spos) ∧ w.qpos < w.buf.length := by
  have hlen := h.search.length_le hall
  have hq := h.qpos
  have hs := h.spos
  rw [length_append] at hlen
  cases hcur : w.cur with
  | none =>
    exact ⟨by omega, fun h => by simp at h, by omega⟩
  | some p =>
    exact ⟨by omega, fun _ => by omega, by omega⟩

lemma drop_set_pred (hn : 0 < n) (hlen : n ≤ buf.length) (x : Option ℕ) :
    (buf.set (n - 1) x).drop (n - 1) = x :: buf.drop n := by
  obtain ⟨k, rfl⟩ := Nat.exists_eq_add_of_le' hn
  rw [drop_eq_getElem_cons (by rw [length_set]; omega), getElem_set_self]
  congr 1
  exact drop_set_of_lt (by omega)

lemma take_set_succ (hlen : n < buf.length) (x : Option ℕ) :
    (buf.set n x).take (n + 1) = buf.take n ++ [x] := by
  rw [take_add_one, getElem?_set_self (by omega), take_set_of_le (le_refl n)]
  rfl

/-- What a step needs to know: the reachable objects are loaded, and the buffer has a slot for each
of `all`, and one more. -/
structure Ready (s : Ld) (root cnt : ℕ) (all : List ℕ) : Prop where
  mem_all : ∀ v, Reach s.direct root v → v ∈ all
  cnt : all.length < cnt
  loaded : ∀ v, Reach s.direct root v → s.DepsLoaded v
  mem_dsos : ∀ v, Reach s.direct root v → v ∈ s.dsos

lemma Walk.Inv.pop (h : w.Inv s root out (p :: below)) (hcur : w.cur = none) :
    w.step = .next { w with spos := w.spos + 1, cur := some p } ∧
      Walk.Inv s root { w with spos := w.spos + 1, cur := some p } out below := by
  have hspos := h.spos
  rw [length_cons] at hspos
  have hlt : w.spos < w.buf.length := by omega
  have hstack := h.stack
  rw [drop_eq_getElem_cons hlt] at hstack
  obtain ⟨htop, hrest⟩ := cons.inj hstack
  constructor
  · have hget : w.buf[w.spos]? = some (some p) := by rw [getElem?_eq_getElem hlt, htop]
    simp [Walk.step, hcur, if_pos hlt, hget]
  · have hsearch := h.search
    have hmarks := h.marks
    rw [hcur] at hsearch hmarks
    exact ⟨hsearch, hmarks, h.others, h.same, h.qpos, by simp only; omega, h.queue, hrest⟩

section

variable (h : w.Inv s root out below)

include h

section

variable (hcur : w.cur = some p)

include hcur

lemma Walk.Inv.skip (hd : (s.direct p)[w.ld.cursor p]? = some d)
    (hvisited : d ∈ out ++ p :: below) :
    Walk.Inv s root { w with ld := w.ld.upd p Dso.advance } out below := by
  have hsearch := h.search
  have hmarks := h.marks
  simp only [hcur, toList_some, singleton_append] at hsearch hmarks
  have hsame : s.Remarked (w.ld.upd p Dso.advance) := h.same.trans (.upd w.ld p fun _ => rfl)
  have hkeep : ∀ v, ((w.ld.upd p Dso.advance).dso v).mark = (w.ld.dso v).mark := by
    intro v
    by_cases hvp : v = p
    · rw [hvp, upd_dso_self, Dso.advance]
    · rw [upd_dso_of_ne _ _ hvp]
  refine ⟨?_, ?_, fun v hv => (hkeep v).trans (h.others v hv), hsame, h.qpos, h.spos, h.queue, h.stack⟩
  · simp only [hcur]
    exact hsearch.skip hd hvisited (cursor_advance _ p) (cursor_upd_of_ne _ p _)
  · intro v hv
    simp only [hcur, toList_some, singleton_append]
    rw [hkeep, hmarks v hv]

lemma Walk.Inv.push (hd : d ∈ s.direct p)
    (hnew : d ∉ out ++ p :: below) (hroom : w.qpos < w.spos) :
    Walk.Inv s root
      { ld := w.ld.upd d Dso.visit
        buf := w.buf.set (w.spos - 1) (some p)
        qpos := w.qpos
        spos := w.spos - 1
        cur := some d } out (p :: below) := by
  have hsearch := h.search
  have hmarks := h.marks
  have hspos := h.spos
  simp only [hcur] at hsearch hmarks
  have hsame : s.Remarked (w.ld.upd d Dso.visit) := h.same.trans (.upd w.ld d fun _ => rfl)
  have hreach : Reach s.direct root d := (hsearch.reach p (by simp)).tail hd
  refine ⟨?_, ?_, ?_, hsame, h.qpos, ?_, ?_, ?_⟩
  · exact hsearch.push hd hnew (cursor_visit _ d) (cursor_upd_of_ne _ d _)
  · intro v hv
    by_cases hvd : v = d
    · rw [hvd]
      simp [Dso.visit]
    · rw [upd_dso_of_ne _ _ hvd, hmarks v hv]
      simp [hvd]
  · intro v hv
    have hvd : v ≠ d := fun h => hv (h ▸ hreach)
    rw [upd_dso_of_ne _ _ hvd, h.others v hv]
  · simp only [length_set, length_cons]
    omega
  · simp only
    rw [take_set_of_le (by omega), h.queue]
  · rw [drop_set_pred (by omega) (by omega), h.stack, map_cons]

lemma Walk.Inv.finish (hdone : (s.direct p).length ≤ w.ld.cursor p) (hroom : w.qpos < w.spos) :
    Walk.Inv s root { w with buf := w.buf.set w.qpos (some p), qpos := w.qpos + 1, cur := none }
    (out ++ [p]) below := by
  have hsearch := h.search
  have hmarks := h.marks
  have hspos := h.spos
  simp only [hcur] at hsearch hmarks
  refine ⟨hsearch.finish hdone, ?_, h.others, h.same, ?_, ?_, ?_, ?_⟩
  · intro v hv
    rw [hmarks v hv]
    simp
  · simp [h.qpos]
  · simpa using hspos
  · rw [take_set_succ (by omega), h.queue, map_append, map_singleton]
  · rw [drop_set_of_lt hroom, h.stack]

end

variable (hready : Ready s root w.buf.length all)

include hready

/-- **A step keeps the invariant**, stays in the buffer, and leaves fewer rounds. -/
theorem Walk.Inv.step :
    (w.step = .done ∧ w.cur = none ∧ below = []) ∨ ∃ w' out' below', w.step = .next w' ∧
      w'.Inv s root out' below' ∧ w'.buf.length = w.buf.length ∧
      w'.left s out' below' < w.left s out below := by
  have hroom := h.room hready.mem_all hready.cnt
  have hspos := h.spos
  cases hcur : w.cur with
  | none =>
    cases below with
    | nil =>
      rw [length_nil] at hspos
      left
      exact ⟨by simp only [Walk.step, hcur]; rw [if_neg (by omega)], rfl, rfl⟩
    | cons p below =>
      right
      obtain ⟨hstep, hinv⟩ := h.pop hcur
      refine ⟨_, out, below, hstep, hinv, rfl, ?_⟩
      simp [Walk.left, hcur]
  | some p =>
    right
    have hsearch := h.search
    simp only [hcur] at hsearch
    have hp : Reach s.direct root p := hsearch.reach p (by simp)
    have hloaded := hready.loaded p hp
    have hlength : (s.direct p).length = (s.dso p).ndepsDirect := by
      rw [Ld.direct, length_take]
      exact min_eq_left hloaded
    have hlt := hroom.2.1 (by rw [hcur]; rfl)
    have hcursor : w.ld.cursor p = (w.ld.dso p).nextDep := rfl
    by_cases hnext : (w.ld.dso p).nextDep < (s.dso p).ndepsDirect
    · -- the dependency at hand
      obtain ⟨d, hd⟩ : ∃ d, (s.direct p)[(w.ld.dso p).nextDep]? = some d :=
        ⟨_, getElem?_eq_getElem (by omega)⟩
      have hdeps : (s.depList p)[(w.ld.dso p).nextDep]? = some d := by
        rwa [Ld.direct, getElem?_take_of_lt hnext] at hd
      have hmem : d ∈ s.direct p := mem_of_getElem? hd
      have hreach : Reach s.direct root d := hp.tail hmem
      have hmark := h.marks d hreach
      simp only [hcur] at hmark
      by_cases hvisited : (w.ld.dso d).mark = true
      · refine ⟨_, out, below, ?_, h.skip hcur hd (hmark.1 hvisited), rfl, ?_⟩
        · simp [Walk.step, hcur, h.same.ndepsDirect, h.same.depList, if_pos hnext, hdeps, if_pos hvisited]
        · have hpath : p ∉ below := (nodup_cons.1 (nodup_append.1 hsearch.nodup).2.1).1
          have hpot : potential s.direct s.dsos.toFinset out (p :: below)
            (w.ld.upd p Dso.advance).cursor + 1 =
              potential s.direct s.dsos.toFinset out (p :: below) w.ld.cursor :=
            potential_skip hpath (by omega) (cursor_advance _ p) (cursor_upd_of_ne _ p _)
          simp only [Walk.left, hcur, toList_some, singleton_append]
          omega
      · have hnew : d ∉ out ++ p :: below := fun hmem => hvisited (hmark.2 hmem)
        refine ⟨_, out, p :: below, ?_, h.push hcur hmem hnew hlt, by simp, ?_⟩
        · simp only [Walk.step, hcur, h.same.ndepsDirect, h.same.depList, if_pos hnext, hdeps,
            if_neg hvisited]
          rw [if_neg (by omega)]
        · have hpot : potential s.direct s.dsos.toFinset out (d :: p :: below)
            (w.ld.upd d Dso.visit).cursor + 1 =
              potential s.direct s.dsos.toFinset out (p :: below) w.ld.cursor :=
            potential_push (mem_toFinset.2 (hready.mem_dsos d hreach)) hnew (cursor_visit _ d)
              (cursor_upd_of_ne _ d _)
          simp only [Walk.left, hcur, toList_some, singleton_append, isNone_some]
          omega
    · refine ⟨_, out ++ [p], below, ?_, h.finish hcur (by omega) hlt, by simp, ?_⟩
      · simp only [Walk.step, hcur, h.same.ndepsDirect, if_neg hnext]
        rw [if_pos hroom.2.2]
      · have hpot : potential s.direct s.dsos.toFinset (out ++ [p]) below w.ld.cursor + 2 ≤
            potential s.direct s.dsos.toFinset out (p :: below) w.ld.cursor := potential_finish
        simp only [Walk.left, hcur, toList_some, singleton_append, toList_none,
          nil_append, isNone_none, if_true]
        omega

/-- **The search ends.** -/
theorem Walk.Inv.run (hfuel : w.left s out below < fuel) : ∃ w', w.run fuel = some w' := by
  induction fuel generalizing w out below with
  | zero => exact absurd hfuel (not_lt_zero _)
  | succ fuel ih =>
    rw [Walk.run]
    rcases h.step hready with ⟨hstep, -, -⟩ | ⟨w', out', below', hstep, hinv, hlen, hleft⟩
    · rw [hstep]
      exact ⟨w, rfl⟩
    · rw [hstep]
      exact ih hinv (by rw [hlen]; exact hready) (by omega)

lemma Walk.Inv.of_run
    (hrun : w.run fuel = some w') :
    ∃ out', w'.Inv s root out' [] ∧ w'.cur = none ∧ w'.buf.length = w.buf.length := by
  induction fuel generalizing w out below with
  | zero => cases hrun
  | succ fuel ih =>
    rw [Walk.run] at hrun
    rcases h.step hready with ⟨hstep, hcur, rfl⟩ | ⟨w'', out'', below'', hstep, hinv, hlen, -⟩
    · rw [hstep] at hrun
      cases hrun
      exact ⟨out, h, hcur, rfl⟩
    · rw [hstep] at hrun
      obtain ⟨out', hinv', hcur, hlen'⟩ := ih hinv (by rw [hlen]; exact hready) hrun
      exact ⟨out', hinv', hcur, hlen'.trans hlen⟩

end

def Walk.Passes (w w' : Walk) : Prop := Relation.ReflTransGen (fun a b => a.step = .next b) w w'

/-- **The queue and the stack stay apart and in the buffer**, in all states of the search. -/
theorem Walk.Inv.passes (h : w.Inv s root out below) (hready : Ready s root w.buf.length all)
    (hpass : w.Passes w') :
    w'.buf.length = w.buf.length ∧ w'.qpos ≤ w'.spos ∧ w'.spos ≤ w'.buf.length ∧ w'.step ≠ .fault := by
  have hinv : ∃ out' below', w'.Inv s root out' below' ∧ w'.buf.length = w.buf.length := by
    induction hpass with
    | refl => exact ⟨out, below, h, rfl⟩
    | tail _ hstep ih =>
      obtain ⟨out', below', hinv, hlen⟩ := ih
      rcases hinv.step (by rw [hlen]; exact hready) with ⟨hdone, -, -⟩ | ⟨w'', out'', below'',
        hnext, hinv'', hlen'', -⟩
      · rw [hdone] at hstep
        cases hstep
      · rw [hnext] at hstep
        cases hstep
        exact ⟨out'', below'', hinv'', hlen''.trans hlen⟩
  obtain ⟨out', below', hinv, hlen⟩ := hinv
  have hready' : Ready s root w'.buf.length all := by
    rw [hlen]
    exact hready
  have hroom := hinv.room hready'.mem_all hready'.cnt
  have hspos := hinv.spos
  refine ⟨hlen, hroom.1, by omega, ?_⟩
  rcases hinv.step hready' with ⟨hdone, -, -⟩ | ⟨w'', -, -, hnext, -⟩
  · rw [hdone]
    exact Turn.noConfusion
  · rw [hnext]
    exact Turn.noConfusion

lemma Walk.start_inv (hcnt : 0 < cnt)
    (hmarks : ∀ v, Reach s.direct root v → v ≠ root → (s.dso v).mark = false) :
    (Walk.start s root cnt).Inv s root [] [root] where
  search := Search.start root (cursor_visit s root)
  marks := by
    intro v hv
    by_cases hvr : v = root
    · simp [hvr, Walk.start, Dso.visit]
    · simp [hvr, Walk.start, upd_dso_of_ne _ _ hvr, hmarks v hv hvr]
  others := by
    intro v hv
    have hvr : v ≠ root := fun h => hv (h ▸ .refl)
    simp [Walk.start, upd_dso_of_ne _ _ hvr]
  same := .upd s root fun _ => rfl
  qpos := rfl
  spos := by
    simp only [Walk.start, length_set, length_replicate, length_singleton]
    omega
  queue := by simp [Walk.start]
  stack := by
    simp only [Walk.start]
    rw [drop_set_pred hcnt (by simp)]
    simp

lemma Walk.start_left (cnt : ℕ) (hroot : root ∈ s.dsos) :
    (Walk.start s root cnt).left s []
    [root] ≤ 2 * ∑ v ∈ s.dsos.toFinset, ((s.direct v).length + 3) + 1 := by
  have h : potential s.direct s.dsos.toFinset [] [root] (s.upd root Dso.visit).cursor ≤
      ∑ v ∈ s.dsos.toFinset, ((s.direct v).length + 3) := potential_start (mem_toFinset.2 hroot)
  simp only [Walk.left, Walk.start, toList_none, nil_append, isNone_none, if_true]
  omega

lemma entries_queue (hlen : n < buf.length) {out : List ℕ} (h : buf.take n = out.map some) :
    entries (buf.set n none) = out := by
  rw [set_eq_take_append_cons_drop, if_pos hlen, h, entries]
  simp

/-! ### The dependency list -/

/-- Objects that are closed under direct dependencies, whose lists are there. -/
structure Ld.Closed (s : Ld) : Prop where
  closed : ∀ p ∈ s.dsos, ∀ d ∈ s.direct p, d ∈ s.dsos
  loaded : ∀ p ∈ s.dsos, s.DepsLoaded p

lemma Ld.Closed.reach_dsos (h : s.Closed) (hroot : root ∈ s.dsos) (hv : Reach s.direct root v) :
    v ∈ s.dsos := by
  induction hv with
  | refl => exact hroot
  | tail _ hedge ih => exact h.closed _ ih _ hedge

lemma Ld.Closed.finite (h : s.Closed) (hroot : root ∈ s.dsos) : {v | Reach s.direct root v}.Finite :=
  s.dsos.toFinset.finite_toSet.subset fun _ hv => by simpa using h.reach_dsos hroot hv

lemma Ld.Closed.ready (h : s.Closed) (hroot : root ∈ s.dsos) (hall : ∀ v, Reach s.direct root v → v ∈ all)
    (hcnt : all.length < cnt) : Ready s root cnt all :=
  ⟨hall, hcnt, fun v hv => h.loaded v (h.reach_dsos hroot hv), fun _ hv => h.reach_dsos hroot hv⟩

/-- Objects that are closed under direct dependencies, with their lists as `load_deps` and
`extend_bfs_deps` leave them, and no mark set. -/
structure Ld.Loaded (s : Ld) : Prop where
  closed : ∀ p ∈ s.dsos, ∀ d ∈ s.direct p, d ∈ s.dsos
  loaded : ∀ p ∈ s.dsos, s.DepsLoaded p
  unbuilt : ∀ p ∈ s.dsos, (s.dso p).bfsBuilt = false → s.depList p = s.direct p
  built : ∀ p ∈ s.dsos, (s.dso p).bfsBuilt = true → ∀ x ∈ s.depList p, ∀ d ∈ s.direct x, d ∈ s.depList p
  marks : ∀ p ∈ s.dsos, (s.dso p).mark = false

lemma direct_subset (s : Ld) (p : ℕ) : ∀ d ∈ s.direct p, d ∈ s.depList p := fun _ hd => mem_of_mem_take hd

lemma Ld.Loaded.toClosed (h : s.Loaded) : s.Closed := ⟨h.closed, h.loaded⟩

lemma Ld.Loaded.reach_built (h : s.Loaded) (hroot : root ∈ s.dsos) (hbuilt : (s.dso root).bfsBuilt = true)
    (hv : Reach s.direct root v) : v ∈ root :: s.depList root := by
  induction hv with
  | refl => exact mem_cons_self
  | @tail b c _ hedge ih =>
    rcases mem_cons.1 ih with rfl | hb
    · exact mem_cons_of_mem _ (direct_subset s b c hedge)
    · exact mem_cons_of_mem _ (h.built root hroot hbuilt b hb c hedge)

/-- The state of `extend_bfs_deps` for `p`, which has added `extra` to the list. -/
structure Bfs (s : Ld) (p : ℕ) (t : Ld) (extra : List ℕ) : Prop where
  lists : s.SameLists t
  other : ∀ v, v ≠ p → t.dso v = { s.dso v with mark := (t.dso v).mark }
  self : t.dso p = { s.dso p with mark := (t.dso p).mark, deps := some (s.depList p ++ extra) }
  marks : ∀ v ∈ s.dsos, ((t.dso v).mark = true ↔ v ∈ s.depList p ++ extra)
  nodup : extra.Nodup
  subset : ∀ v ∈ extra, v ∈ s.dsos

lemma Bfs.direct (h : Bfs s p t extra) (hloaded : s.DepsLoaded p) : t.direct = s.direct := by
  funext v
  unfold Ld.direct Ld.depList
  by_cases hv : v = p
  · rw [hv, h.self]
    exact take_append_of_le_length hloaded
  · rw [h.other v hv]

lemma Bfs.add (h : Bfs s p t extra) (hd : d ∈ s.dsos) (hnew : (t.dso d).mark = false) :
    Bfs s p ((t.upd d fun x => { x with mark := true }).upd p fun x =>
      { x with deps := some (x.deps.getD [] ++ [d]) })
      (extra ++ [d]) := by
  have hmem : d ∉ s.depList p ++ extra := by
    rw [← h.marks d hd, hnew]
    exact false_ne_true
  have hmark : ∀ v, (((t.upd d fun x => { x with mark := true }).upd p fun x =>
      { x with deps := some (x.deps.getD [] ++ [d]) }).dso v).mark = if v =
        d then true else (t.dso v).mark := by
    intro v
    by_cases hvp : v = p
    · subst hvp
      by_cases hvd : v = d
      · subst hvd
        simp
      · simp [upd_dso_of_ne _ _ hvd, hvd]
    · rw [upd_dso_of_ne _ _ hvp]
      by_cases hvd : v = d
      · subst hvd
        simp
      · simp [upd_dso_of_ne _ _ hvd, hvd]
  refine ⟨h.lists.trans (.trans (.upd _ _ _) (.upd _ _ _)), ?_, ?_, ?_, ?_, ?_⟩
  · intro v hv
    rw [hmark, upd_dso_of_ne _ _ hv]
    by_cases hvd : v = d
    · subst hvd
      rw [upd_dso_self, h.other v hv]
      simp
    · rw [upd_dso_of_ne _ _ hvd, if_neg hvd]
      exact h.other v hv
  · rw [hmark, upd_dso_self]
    by_cases hpd : p = d
    · subst hpd
      rw [upd_dso_self, h.self]
      simp
    · rw [upd_dso_of_ne _ _ hpd, if_neg hpd, h.self]
      simp
  · intro v hv
    rw [hmark, ← append_assoc, mem_append, ← h.marks v hv]
    by_cases hvd : v = d
    · simp [hvd]
    · simp [hvd]
  · rw [nodup_append]
    refine ⟨h.nodup, nodup_singleton d, ?_⟩
    rintro a ha b hb rfl
    rw [mem_singleton.1 hb] at ha
    exact hmem (mem_append_right _ ha)
  · intro v hv
    rcases mem_append.1 hv with hv | hv
    · exact h.subset v hv
    · rw [mem_singleton.1 hv]
      exact hd

/-- **The inner loop** adds the dependencies that are not in the list. -/
theorem Bfs.addDeps {ds : List ℕ} (hds : ∀ d ∈ ds, d ∈ s.dsos) (h : Bfs s p t extra) :
    ∃ more, Bfs s p (addDeps p ds t) (extra ++ more) ∧ ∀ d ∈ ds, d ∈ s.depList p ++ (extra ++ more) := by
  induction ds generalizing t extra with
  | nil => exact ⟨[], by rwa [append_nil], by simp⟩
  | cons d ds ih =>
    obtain ⟨hd, hrest⟩ := forall_mem_cons.1 hds
    rw [Ldso.addDeps]
    by_cases hmark : (t.dso d).mark = true
    · rw [if_pos hmark]
      obtain ⟨more, hbfs, hmem⟩ := ih hrest h
      refine ⟨more, hbfs, forall_mem_cons.2 ⟨?_, hmem⟩⟩
      have hin := (h.marks d hd).1 hmark
      rw [← append_assoc]
      exact mem_append_left _ hin
    · rw [if_neg hmark]
      obtain ⟨more, hbfs, hmem⟩ := ih hrest (h.add hd (by simpa using hmark))
      rw [append_assoc] at hbfs hmem
      refine ⟨[d] ++ more, hbfs, forall_mem_cons.2 ⟨?_, hmem⟩⟩
      simp

lemma takeAlloc_cases (t : Ld) : takeAlloc t = .ok true { t with allocs := t.allocs.tail } ∨
    (takeAlloc t = .ok false { t with allocs := t.allocs.tail } ∧ false ∈ t.allocs) := by
  unfold takeAlloc
  cases hallocs : t.allocs with
  | nil => exact .inl rfl
  | cons b rest =>
    cases b with
    | true => exact .inl rfl
    | false => exact .inr ⟨rfl, mem_cons_self⟩

lemma Ld.SameLists.tail (t : Ld) : t.SameLists { t with allocs := t.allocs.tail } := ⟨rfl, tail_suffix _⟩

lemma Bfs.alloc (h : Bfs s p t extra) : Bfs s p { t with allocs := t.allocs.tail } extra :=
  ⟨h.lists.trans (.tail t), h.other, h.self, h.marks, h.nodup, h.subset⟩

/-- **The outer loop** ends when the list is closed under direct dependencies; an allocation that
fails ends it earlier. -/
theorem Bfs.loop (hs : s.Loaded) (hp : p ∈ s.dsos) (hrt : false ∈ s.allocs → s.runtime = true)
    (hdeps : ∀ d ∈ s.depList p, d ∈ s.dsos) (fuel : ℕ) {i : ℕ} (h : Bfs s p t extra)
    (hi : i ≤ (s.depList p ++ extra).length)
    (hdone : ∀ k < i, ∀ x, (s.depList p ++ extra)[k]? = some x → ∀ d ∈ s.direct x,
      d ∈ s.depList p ++ extra) :
    (bfsLoop p fuel i t).Sat (fun _ u => ∃ extra', Bfs s p u extra' ∧
        ∀ x ∈ s.depList p ++ extra', ∀ d ∈ s.direct x, d ∈ s.depList p ++ extra')
      (fun e u => (e = .stuck ∧ fuel + i ≤ (s.depList p).length + s.dsos.length) ∨
        (e = .jump ∧ false ∈ s.allocs ∧ ∃ extra', Bfs s p u extra')) := by
  induction fuel generalizing i t extra with
  | zero =>
    have hlen := (subperm_of_subset h.nodup h.subset).length_le
    rw [length_append] at hi
    exact .inl ⟨rfl, by omega⟩
  | succ fuel ih =>
    have hlist : t.depList p = s.depList p ++ extra := by rw [Ld.depList, h.self, getD_some]
    rw [bfsLoop, sat_bind, sat_get, hlist]
    cases hget : (s.depList p ++ extra)[i]? with
    | none =>
      refine ⟨extra, h, ?_⟩
      intro x hx
      obtain ⟨k, hk⟩ := mem_iff_getElem?.mp hx
      have hlt := (List.getElem?_eq_some_iff.1 hk).1
      have hle := getElem?_eq_none_iff.1 hget
      exact hdone k (by omega) x hk
    | some dep =>
      have hlt := (List.getElem?_eq_some_iff.1 hget).1
      have hdep : dep ∈ s.dsos := by
        rcases mem_append.1 (mem_of_getElem? hget) with hdep | hdep
        · exact hdeps dep hdep
        · exact h.subset dep hdep
      rw [h.direct (hs.loaded p hp)]
      rcases takeAlloc_cases t with halloc | ⟨halloc, hfails⟩
      · obtain ⟨more, hbfs, hmem⟩ := h.alloc.addDeps (hs.closed dep hdep)
        have hsplit : s.depList p ++ (extra ++ more) = s.depList p ++ extra ++ more := by
          rw [append_assoc]
        -- the entries before `i` keep their dependencies, those of the entry at `i` were added
        have hdone' : ∀ k < i + 1, ∀ x, (s.depList p ++ (extra ++ more))[k]? = some x →
            ∀ d ∈ s.direct x, d ∈ s.depList p ++ (extra ++ more) := by
          intro k hk x hx d hd
          rw [hsplit, getElem?_append_left (by omega)] at hx
          rcases Nat.lt_succ_iff_lt_or_eq.1 hk with hlt' | rfl
          · rw [hsplit]
            exact mem_append_left _ (hdone k hlt' x hx d hd)
          · rw [hget] at hx
            cases hx
            exact hmem d hd
        have hrec := ih hbfs (by rw [hsplit, length_append]; omega) hdone'
        simp only [bind_ok halloc]
        refine hrec.mono (fun _ _ hok => hok) fun e u hstop => ?_
        rcases hstop with ⟨he, hle⟩ | hjump
        · exact .inl ⟨he, by omega⟩
        · exact .inr hjump
      · have hbad : false ∈ s.allocs := h.lists.allocs.subset hfails
        have hruntime : t.runtime = true := h.lists.runtime.trans (hrt hbad)
        simp only [bind_ok halloc, if_pos hruntime]
        exact .inr ⟨rfl, hbad, extra, h.alloc⟩

/-- Nothing but marks, cursors and the dependency lists beyond the direct dependencies has changed. -/
structure Ld.Extended (s u : Ld) : Prop where
  lists : s.SameLists u
  direct : u.direct = s.direct
  dso : ∀ v, u.dso v = { s.dso v with
    deps := (u.dso v).deps, nextDep := (u.dso v).nextDep, mark := (u.dso v).mark, bfsBuilt :=
      (u.dso v).bfsBuilt }
  deps : ∀ v, (s.dso v).deps ≠ none → (u.dso v).deps ≠ none

lemma Ld.Extended.visitor (h : s.Extended u) (v : ℕ) : (u.dso v).ctorVisitor = (s.dso v).ctorVisitor := by
  rw [h.dso v]

lemma Ld.Extended.refl (s : Ld) : s.Extended s := ⟨.refl s, rfl, fun _ => rfl, fun _ h => h⟩

lemma Ld.Remarked.extended (h : s.Remarked u) : s.Extended u :=
  ⟨h.lists, h.direct, fun v => by rw [h.dso v], fun v hv => by rw [h.dso v]; exact hv⟩

lemma Bfs.start (hs : s.Loaded) (hsome : (s.dso p).deps ≠ none) :
    Bfs s p (s.setMarks (s.depList p) true) [] := by
  obtain ⟨l, hl⟩ := ne_none_iff_exists'.1 hsome
  refine ⟨setMarks_lists s _ true, ?_, ?_, ?_, nodup_nil, by simp⟩
  · intro v _
    rw [setMarks_dso]
    split <;> rfl
  · have hdeps : (s.dso p).deps = some (s.depList p ++ []) := by
      rw [append_nil, Ld.depList, hl, getD_some]
    rw [setMarks_dso, ← hdeps]
    split <;> rfl
  · intro v hv
    rw [setMarks_dso]
    split
    · rename_i hmem
      simp [hmem]
    · rename_i hmem
      simp [hmem, hs.marks v hv]

lemma Bfs.finish (hs : s.Loaded) (hp : p ∈ s.dsos) (h : Bfs s p t extra)
    (hclosed : ∀ x ∈ s.depList p ++ extra, ∀ d ∈ s.direct x, d ∈ s.depList p ++ extra) :
    let u := (t.upd p fun x => { x with bfsBuilt := true }).setMarks t.dsos false
    u.Loaded ∧ s.Extended u := by
  intro u
  have hdsos := h.lists.dsos
  have hlists : s.SameLists u := (h.lists.trans (.upd _ _ _)).trans (setMarks_lists _ _ _)
  have hudsos := hlists.dsos
  have hself : u.dso p =
      { s.dso p with mark := false, deps := some (s.depList p ++ extra), bfsBuilt := true } := by
    simp only [u, setMarks_dso, hdsos, if_pos hp, upd_dso_self]
    rw [h.self]
  have hother : ∀ v, v ≠ p → u.dso v = { s.dso v with mark := (u.dso v).mark } := by
    intro v hv
    simp only [u, setMarks_dso, upd_dso_of_ne _ _ hv]
    rw [h.other v hv]
    split <;> rfl
  have hmarks : ∀ v ∈ s.dsos, (u.dso v).mark = false := by
    intro v hv
    simp only [u, setMarks_dso, hdsos, if_pos hv]
  have hdirect : u.direct = s.direct := by
    funext v
    by_cases hv : v = p
    · rw [hv, Ld.direct, Ld.depList, hself]
      exact take_append_of_le_length (hs.loaded p hp)
    · rw [Ld.direct, Ld.depList, hother v hv, Ld.direct, Ld.depList]
  have hlist : ∀ v, v ≠ p → u.depList v = s.depList v := fun v hv => by
    rw [Ld.depList, hother v hv, Ld.depList]
  have hlistp : u.depList p = s.depList p ++ extra := by rw [Ld.depList, hself, getD_some]
  refine ⟨⟨?_, ?_, ?_, ?_, ?_⟩, hlists, hdirect, ?_, ?_⟩
  · rw [hudsos, hdirect]
    exact hs.closed
  · intro q hq
    rw [hudsos] at hq
    by_cases hqp : q = p
    · rw [Ld.DepsLoaded, hqp, hlistp, hself, length_append]
      exact le_add_right (hs.loaded p hp)
    · rw [Ld.DepsLoaded, hlist q hqp, hother q hqp]
      exact hs.loaded q hq
  · intro q hq hnot
    rw [hudsos] at hq
    by_cases hqp : q = p
    · rw [hqp, hself] at hnot
      cases hnot
    · rw [hother q hqp] at hnot
      rw [hlist q hqp, hdirect]
      exact hs.unbuilt q hq hnot
  · intro q hq hyes
    rw [hudsos] at hq
    rw [hdirect]
    by_cases hqp : q = p
    · rw [hqp, hlistp]
      exact hclosed
    · rw [hother q hqp] at hyes
      rw [hlist q hqp]
      exact hs.built q hq hyes
  · rw [hudsos]
    exact hmarks
  · intro v
    by_cases hv : v = p
    · rw [hv, hself]
    · rw [hother v hv]
  · intro v hsome
    by_cases hv : v = p
    · rw [hv, hself]
      exact some_ne_none _
    · rw [hother v hv]
      exact hsome

def Ld.rounds (s : Ld) : ℕ := 2 * ∑ v ∈ s.dsos.toFinset, ((s.direct v).length + 3) + s.dsos.length + 2

/-- **What the queue is**: every object that is reached, once, after its direct dependencies but for
those that reach it. -/
structure CtorOrder (s : Ld) (root : ℕ) (q : List ℕ) : Prop where
  nodup : q.Nodup
  mem_iff : ∀ v, v ∈ q ↔ Reach s.direct root v
  before : ∀ p ∈ q, ∀ d ∈ s.direct p, ¬Reach s.direct d p → Before d p q

/-- The search as `queue_ctors` starts it. -/
def ctorWalk (s : Ld) (dso : ℕ) : Walk :=
  Walk.start (s.setMarks (ctorRoom s dso).1 false) dso (ctorRoom s dso).2

/-- **The buffer**: it has `cnt` slots, and in every state of the search the queue ends before the
stack begins and no step leaves the buffer. -/
def CtorBuffer (s : Ld) (dso : ℕ) : Prop :=
  ∀ w, (ctorWalk s dso).Passes w → w.buf.length = (ctorRoom s dso).2 ∧ w.qpos ≤ w.spos ∧
    w.spos ≤ w.buf.length ∧
    w.step ≠ .fault

def Fresh (s : Ld) (root : ℕ) : Prop := ∀ v, Reach s.direct root v → v ≠ root → (s.dso v).mark = false

/-- **When the buffer is large enough and no mark is in the way.**  If the list of `root` was built,
it has a slot for each object that is reached from `root`, and those that are missing on it have no
mark. -/
def QueueFits (s : Ld) (root : ℕ) : Prop :=
  (s.dso root).bfsBuilt = true → {v | Reach s.direct root v}.ncard ≤ (s.depList root).length + 1 ∧
    ∀ v, Reach s.direct root v → v ≠ root → v ∉ s.depList root → (s.dso v).mark = false

/-- The buffer has room, and the marks that are in the way are cleared. -/
lemma QueueFits.ready (h : QueueFits s root) (hs : s.Closed) (hroot : root ∈ s.dsos) :
    (∃ all, Ready s root (ctorRoom s root).2 all) ∧
    Fresh (s.setMarks (ctorRoom s root).1 false) root := by
  have hdirect := (Ld.Remarked.setMarks s (ctorRoom s root).1 false).direct
  cases hbuilt : (s.dso root).bfsBuilt with
  | true =>
    have hroom : ctorRoom s root = (s.depList root, (s.depList root).length + 1 + 1) := by
      simp [ctorRoom, hbuilt]
    obtain ⟨hcard, hmarks⟩ := h hbuilt
    have hfin := hs.finite hroot
    refine ⟨⟨hfin.toFinset.toList, hs.ready hroot (fun v hv => by simpa using hv) ?_⟩, fun v hv hne => ?_⟩
    · rw [Finset.length_toList, ← Set.ncard_eq_toFinset_card _ hfin, hroom]
      exact lt_succ_of_le hcard
    · rw [hdirect] at hv
      rw [setMarks_dso, hroom]
      split_ifs with hmem
      · rfl
      · exact hmarks v hv hne hmem
  | false =>
    have hroom : ctorRoom s root = (s.dsos, s.dsos.length + 1) := by simp [ctorRoom, hbuilt]
    refine ⟨⟨s.dsos, hs.ready hroot (fun v hv => hs.reach_dsos hroot hv) ?_⟩, fun v hv hne => ?_⟩
    · rw [hroom]
      exact lt_succ_self _
    · rw [hdirect] at hv
      rw [setMarks_dso, hroom, if_pos (hs.reach_dsos hroot hv)]

lemma Ld.Loaded.queueFits (h : s.Loaded) (hroot : root ∈ s.dsos) : QueueFits s root := by
  intro hbuilt
  have hsub : {v | Reach s.direct root v} ⊆ ↑(root :: s.depList root).toFinset := fun v hv => by
    simpa using h.reach_built hroot hbuilt hv
  refine ⟨?_, fun v hv hne hnot => absurd (mem_of_ne_of_mem hne (h.reach_built hroot hbuilt hv)) hnot⟩
  calc {v | Reach s.direct root v}.ncard
      ≤ (root :: s.depList root).toFinset.card := by
        rw [← Set.ncard_coe_finset]
        exact Set.ncard_le_ncard hsub (Finset.finite_toSet _)
    _ ≤ (s.depList root).length + 1 := toFinset_card_le _

/-- The thread that visits an object was not lost. -/
def Ld.VisitorsAlive (s : Ld) : Prop := ∀ v t, (s.dso v).ctorVisitor = some t → 0 ≤ t

lemma start_ready (hready : Ready s root cnt all) :
    Ready s root (Walk.start s root cnt).buf.length all := by
  have hlen : (Walk.start s root cnt).buf.length = cnt := by simp [Walk.start]
  rwa [hlen]

/-- **The search and the queue.** -/
theorem sortCtors_sat (hready : Ready s root cnt all) (hfresh : Fresh s root)
    (hroot : root ∈ s.dsos) (fuel : ℕ) :
    (sortCtors fuel root cnt s).Sat (fun r u => s.Remarked u ∧
      (∀ v, (u.dso v).mark = true → (s.dso v).mark = true) ∧
        ∃ q, r = some q ∧ CtorOrder s root q) (fun e u =>
        (e = .stuck ∧ (fuel < s.rounds ∨ ¬s.VisitorsAlive)) ∨
        (e = .jump ∧ ¬s.VisitorsAlive ∧ s.Remarked u ∧ ∀ v,
          (u.dso v).mark = true → (s.dso v).mark = true)) := by
  have hstart : (Walk.start s root cnt).Inv s root [] [root] :=
    Walk.start_inv (zero_lt_of_lt hready.cnt) hfresh
  have hready' := start_ready hready
  unfold sortCtors
  rw [sat_bind, sat_get]
  cases hrun : (Walk.start s root cnt).run fuel with
  | none =>
    -- enough rounds would have ended the search
    left
    refine ⟨rfl, .inl ?_⟩
    by_contra hfuel
    have hleft := Walk.start_left cnt hroot
    obtain ⟨w, hw⟩ := hstart.run hready' (show _ < fuel by unfold Ld.rounds at hfuel; omega)
    rw [hrun] at hw
    cases hw
  | some w =>
    obtain ⟨out, hinv, hcur, hbuf⟩ := hstart.of_run hready' hrun
    have hsearch := hinv.search
    rw [hcur] at hsearch
    have hroom := hinv.room hready'.mem_all (by rw [hbuf]; exact hready'.cnt)
    have hentries : entries (w.buf.set w.qpos none) = out := entries_queue hroom.2.2 hinv.queue
    have hsame : s.Remarked (w.ld.setMarks out false) := hinv.same.trans (.setMarks _ _ _)
    have hmarks : ∀ v, ((w.ld.setMarks out false).dso v).mark = true → (s.dso v).mark = true := by
      intro v hv
      rw [setMarks_dso] at hv
      split at hv
      · cases hv
      · rename_i hnot
        rwa [hinv.others v fun hreach => hnot ((hsearch.complete v).2 hreach)] at hv
    simp only [if_pos hroom.2.2, hentries]
    rw [sat_bind]
    split
    · rename_i hlost
      -- a visitor that was lost
      obtain ⟨p, -, hp⟩ := any_eq_true.1 hlost
      have hdead : ¬s.VisitorsAlive := by
        intro halive
        cases hv : (w.ld.dso p).ctorVisitor with
        | none =>
          rw [hv] at hp
          cases hp
        | some t =>
          rw [hv, any_some, decide_eq_true_eq] at hp
          have hpos := halive p t (by rw [← hinv.same.extended.visitor p]; exact hv)
          omega
      cases s.runtime with
      | true => exact .inr ⟨rfl, hdead, hsame, hmarks⟩
      | false => exact .inl ⟨rfl, .inr hdead⟩
    · have hnodup := hsearch.nodup
      simp only [toList_none, append_nil] at hnodup
      refine ⟨hsame, hmarks, out, rfl, hnodup, hsearch.complete, ?_⟩
      intro p hp d hd hnot
      exact (hsearch.sorted p hp d hd).resolve_right hnot

lemma allocQueue_cases (dso cnt : ℕ) (t : Ld) :
    ∃ b u, allocQueue dso cnt t = .ok b u ∧ t.Remarked u ∧ u.dso = t.dso ∧
    (b = false → false ∈ t.allocs) := by
  unfold allocQueue
  split
  · exact ⟨true, t, rfl, .refl t, rfl, fun h => by cases h⟩
  · rcases takeAlloc_cases t with halloc | ⟨halloc, hfails⟩
    · exact ⟨true, _, halloc, ⟨.tail t, fun _ => rfl⟩, rfl, fun h => by cases h⟩
    · exact ⟨false, _, halloc, ⟨.tail t, fun _ => rfl⟩, rfl, fun _ => hfails⟩

lemma Ld.Remarked.ready (h : s.Remarked t) (hready : Ready s root cnt all) : Ready t root cnt all := by
  obtain ⟨hall, hcnt, hloaded, hdsos⟩ := hready
  refine ⟨by rwa [h.direct], hcnt, ?_, by rwa [h.direct, h.lists.dsos]⟩
  intro v hv
  rw [h.direct] at hv
  rw [Ld.DepsLoaded, h.ndepsDirect, h.depList]
  exact hloaded v hv

lemma Ld.SameLists.rounds_eq (h : s.SameLists t) (hdirect : t.direct = s.direct) :
    t.rounds = s.rounds := by
  rw [Ld.rounds, h.dsos, hdirect, Ld.rounds]

lemma Ld.Extended.rounds (h : s.Extended u) : u.rounds = s.rounds := h.lists.rounds_eq h.direct

lemma Ld.Extended.alive_iff (h : s.Extended u) : u.VisitorsAlive ↔ s.VisitorsAlive := by
  unfold Ld.VisitorsAlive
  simp [h.visitor]

lemma Ld.Extended.order (h : s.Extended u) {q : List ℕ} (hq : CtorOrder u root q) :
    CtorOrder s root q := by
  obtain ⟨hnodup, hmem, hbefore⟩ := hq
  rw [h.direct] at hmem hbefore
  exact ⟨hnodup, hmem, hbefore⟩

/-- The queue and the stack stay apart if there is room and no mark is in the way. -/
lemma ctorBuffer_of_ready (hready : Ready s root (ctorRoom s root).2 all)
    (hfresh : Fresh (s.setMarks (ctorRoom s root).1 false) root) : CtorBuffer s root := by
  have hsame := Ld.Remarked.setMarks s (ctorRoom s root).1 false
  have hstart : (ctorWalk s root).Inv (s.setMarks (ctorRoom s root).1 false) root [] [root] :=
    Walk.start_inv (zero_lt_of_lt hready.cnt) hfresh
  intro w hpass
  have hall := hstart.passes (start_ready (hsame.ready hready)) hpass
  have hlen : (ctorWalk s root).buf.length = (ctorRoom s root).2 := by simp [ctorWalk, Walk.start]
  rw [hlen] at hall
  exact hall

/-! ### When the queue is right -/

/-- What the search never does: it keeps away from objects that were marked when it began. -/
structure Walk.Avoids (s : Ld) (root : ℕ) (w : Walk) : Prop where
  buf : ∀ x, some x ∈ w.buf → x = root ∨ (s.dso x).mark = false
  cur : ∀ x, w.cur = some x → x = root ∨ (s.dso x).mark = false
  marks : ∀ x, (s.dso x).mark = true → (w.ld.dso x).mark = true

lemma Walk.Avoids.set (h : w.Avoids s root) (hp : w.cur = some p) (k : ℕ) :
    ∀ x, some x ∈ w.buf.set k (some p) → x = root ∨ (s.dso x).mark = false := by
  intro x hx
  rcases mem_or_eq_of_mem_set hx with hmem | heq
  · exact h.buf x hmem
  · rw [some.inj heq]
    exact h.cur p hp

lemma Walk.Avoids.step (h : w.Avoids s root) (hstep : w.step = .next w') :
    w'.Avoids s root ∧ w'.buf.length = w.buf.length := by
  cases hcur : w.cur with
  | none =>
    simp only [Walk.step, hcur] at hstep
    split at hstep
    · split at hstep
      · rename_i p hget
        cases hstep
        refine ⟨⟨h.buf, fun x hx => ?_, h.marks⟩, rfl⟩
        rw [← some.inj hx]
        exact h.buf p (mem_of_getElem? hget)
      · cases hstep
    · cases hstep
  | some p =>
    simp only [Walk.step, hcur] at hstep
    split at hstep
    · split at hstep
      · cases hstep
      · rename_i d _
        split at hstep
        · cases hstep
          refine ⟨⟨h.buf, by simpa [hcur] using h.cur, fun x hx => ?_⟩, rfl⟩
          by_cases hxp : x = p
          · subst hxp
            rw [upd_dso_self]
            exact h.marks x hx
          · rw [upd_dso_of_ne _ _ hxp]
            exact h.marks x hx
        · rename_i hmark
          split at hstep
          · cases hstep
          · cases hstep
            refine ⟨⟨h.set hcur _, fun x hx => .inr ?_, fun x hx => ?_⟩, length_set⟩
            · rw [← some.inj hx, ← not_eq_true]
              exact fun hd => hmark (h.marks d hd)
            · by_cases hxd : x = d
              · subst hxd
                rw [upd_dso_self]
                rfl
              · rw [upd_dso_of_ne _ _ hxd]
                exact h.marks x hx
    · split at hstep
      · cases hstep
        exact ⟨⟨h.set hcur _, fun x hx => absurd hx (by simp), h.marks⟩, length_set⟩
      · cases hstep

lemma Walk.Avoids.run (h : w.Avoids s root) (hrun : w.run fuel = some w') :
    w'.Avoids s root ∧ w'.buf.length = w.buf.length := by
  induction fuel generalizing w with
  | zero => cases hrun
  | succ fuel ih =>
    rw [Walk.run] at hrun
    cases hstep : w.step with
    | next w₁ =>
      rw [hstep] at hrun
      obtain ⟨h₁, hlen⟩ := h.step hstep
      obtain ⟨h', hlen'⟩ := ih h₁ hrun
      exact ⟨h', hlen'.trans hlen⟩
    | done =>
      rw [hstep] at hrun
      cases hrun
      exact ⟨h, rfl⟩
    | fault =>
      rw [hstep] at hrun
      cases hrun

lemma Walk.start_avoids (s : Ld) (root cnt : ℕ) : (Walk.start s root cnt).Avoids s root where
  buf x hx := by
    rcases mem_or_eq_of_mem_set hx with hmem | heq
    · cases eq_of_mem_replicate hmem
    · exact .inl (some.inj heq)
  cur x hx := by cases hx
  marks x hx := by
    by_cases hxr : x = root
    · simp [hxr, Walk.start, Dso.visit]
    · simpa [Walk.start, upd_dso_of_ne _ _ hxr] using hx

lemma length_entries_le (hn : n < buf.length) : (entries (buf.set n none)).length ≤ n := by
  have hsplit : buf.set n none = buf.take n ++ none :: buf.drop (n + 1) := by
    rw [set_eq_take_append_cons_drop, if_pos hn]
  have htake : ((buf.set n none).takeWhile Option.isSome).length ≤ n := by
    rw [hsplit, takeWhile_append]
    split
    · simp
    · exact ( takeWhile_prefix _).length_le.trans (length_take_le n buf)
  exact (length_filterMap_le _ _).trans htake

lemma mem_of_mem_entries {x : ℕ} (hx : x ∈ entries buf) : some x ∈ buf := by
  obtain ⟨y, hy, hyx⟩ := mem_filterMap.1 hx
  rw [id] at hyx
  subst hyx
  exact ( takeWhile_prefix _).subset hy

/-- A queue that is returned fits into the buffer, and nothing in it was marked before. -/
lemma sortCtors_queue (s : Ld) (fuel root cnt : ℕ) :
    (sortCtors fuel root cnt s).Sat (fun r _ => ∀ q, r = some q →
    q.length < cnt ∧ ∀ x ∈ q, x = root ∨ (s.dso x).mark = false) (fun _ _ => True) := by
  unfold sortCtors
  rw [sat_bind, sat_get]
  cases hrun : (Walk.start s root cnt).run fuel with
  | none => trivial
  | some w =>
    obtain ⟨havoids, hlen⟩ := (Walk.start_avoids s root cnt).run hrun
    have hcnt : w.buf.length = cnt := hlen.trans (by simp [Walk.start])
    by_cases hroom : w.qpos < w.buf.length
    swap
    · simp only [if_neg hroom]
      trivial
    simp only [if_pos hroom]
    rw [sat_bind, sat_modify]
    split
    · trivial
    · rintro q hq
      cases hq
      refine ⟨lt_of_le_of_lt (length_entries_le hroom) (by omega), fun x hx => ?_⟩
      rcases mem_or_eq_of_mem_set (mem_of_mem_entries hx) with hmem | heq
      · exact havoids.buf x hmem
      · cases heq

/-- With memory for it, `queue_ctors` makes a buffer of `cnt` slots and sorts. -/
lemma queueCtors_eq (hallocs : s.allocs = []) (hldd : s.lddMode = false) (fuel root : ℕ) :
    ∃ t, (s.setMarks (ctorRoom s root).1 false).Remarked t ∧
    t.dso = (s.setMarks (ctorRoom s root).1 false).dso ∧
      queueCtors fuel root s = sortCtors fuel root (ctorRoom s root).2 t := by
  have hsame := Ld.Remarked.setMarks s (ctorRoom s root).1 false
  obtain ⟨b, t, halloc, ht, htdso, hb⟩ :=
    allocQueue_cases root (ctorRoom s root).2 (s.setMarks (ctorRoom s root).1 false)
  have hb' : b = true := by
    rw [← not_eq_false]
    intro hf
    have hmem := hsame.lists.allocs.subset (hb hf)
    rw [hallocs] at hmem
    cases hmem
  subst hb'
  refine ⟨t, ht, htdso, ?_⟩
  unfold queueCtors
  rw [bind_ok (show Prog.get s = .ok s s from rfl), hldd]
  simp only [false_eq_true, if_false]
  rw [bind_ok (show Prog.modify _ s = .ok () _ from rfl), bind_ok halloc]
  rfl

def plainDso (deps : List ℕ) : Dso where
  lib := ⟨0, [], [], [], false, false, none⟩
  name := []
  shortname := none
  deps := some deps
  ndepsDirect := deps.length
  nextDep := 0
  mark := false
  bfsBuilt := false
  relocated := true
  constructed := false
  ctorVisitor := none
  lazy := none
  lazyNext := none
  tlsId := 0
  tlsOffset := 0

/-- Four objects with a cycle, a self-dependency and a dependency that is listed twice. -/
def cyclicLd : Ld where
  dsos := [0, 1, 2, 3]
  dso p := plainDso (match p with
    | 0 => [1, 1, 2]
    | 1 => [2]
    | 2 => [1, 3]
    | _ => [3])
  fresh := 4
  syms := [0, 1, 2, 3]
  lazyHead := none
  tlsList := []
  tlsCnt := 0
  tlsOffset := 0
  tlsAlign := 1
  staticTlsCnt := 0
  lddMode := false
  runtime := true
  noload := false
  allocs := []

/-- **When the order of constructors is right**: exactly if the buffer is large enough and no mark
is in the way. -/
theorem queueCtors_iff {s : Ld} (hs : s.Closed) (hallocs : s.allocs = []) (hldd : s.lddMode = false)
    (halive : s.VisitorsAlive) {fuel root : ℕ} (hfuel : s.rounds ≤ fuel) (hroot : root ∈ s.dsos) :
    ((∃ q u, queueCtors fuel root s = .ok (some q) u ∧ CtorOrder s root q) ∧ CtorBuffer s root) ↔
    QueueFits s root := by
  obtain ⟨t, ht, htdso, heq⟩ := queueCtors_eq hallocs hldd fuel root
  have hst : s.Remarked t := (Ld.Remarked.setMarks s (ctorRoom s root).1 false).trans ht
  constructor
  · rintro ⟨⟨q, u, hq, horder⟩, -⟩ hbuilt
    have hroom : ctorRoom s root = (s.depList root, (s.depList root).length + 1 + 1) := by
      simp [ctorRoom, hbuilt]
    have hqueue := sortCtors_queue t fuel root (ctorRoom s root).2
    rw [← heq, hq] at hqueue
    obtain ⟨hlen, hunmarked⟩ := hqueue q rfl
    constructor
    · have hset : {v | Reach s.direct root v} = ↑q.toFinset := by
        ext v
        simp [horder.mem_iff]
      rw [hset, Set.ncard_coe_finset, toFinset_card_of_nodup horder.nodup]
      rw [hroom] at hlen
      omega
    · intro v hv hne hnot
      have hmark := (hunmarked v ((horder.mem_iff v).2 hv)).resolve_left hne
      rwa [htdso, setMarks_dso, if_neg (by rw [hroom]; exact hnot)] at hmark
  · intro h
    obtain ⟨⟨all, hready⟩, hfresh⟩ := h.ready hs hroot
    have hfresh' : Fresh t root := fun v hv hne => by
      rw [htdso]
      exact hfresh v (by rwa [← ht.direct]) hne
    have hsort := sortCtors_sat (hst.ready hready) hfresh' (by rwa [hst.lists.dsos]) fuel
    obtain ⟨r, u, hr, -, -, q, rfl, horder⟩ := hsort.returns (by
      rintro e u - (⟨-, hlt | hdead⟩ | ⟨-, hdead, -⟩)
      · rw [hst.extended.rounds] at hlt
        omega
      · exact hdead (hst.extended.alive_iff.2 halive)
      · exact hdead (hst.extended.alive_iff.2 halive))
    exact ⟨⟨q, u, heq.trans hr, hst.extended.order horder⟩, ctorBuffer_of_ready hready hfresh⟩

/-- The list of the first object is built. -/
def builtLd : Ld :=
  { cyclicLd with
    dso := fun p => match p with
      | 0 => { plainDso [1, 1, 2, 3] with ndepsDirect := 3, bfsBuilt := true }
      | p => cyclicLd.dso p }

theorem queueCtors_iff_built :
    (∃ q u, queueCtors 100 0 builtLd = .ok (some q) u ∧ CtorOrder builtLd 0 q) ∧
    CtorBuffer builtLd 0 := by
  have hdeps : ∀ p ∈ builtLd.dsos, (builtLd.dso p).ndepsDirect ≤ (builtLd.depList p).length := by decide
  have hloaded : builtLd.Loaded := ⟨by decide, hdeps, by decide, by decide, by decide⟩
  have halive : builtLd.VisitorsAlive := by
    rintro (_ | v) t h
    · cases h
    · cases h
  exact (queueCtors_iff hloaded.toClosed rfl rfl halive (by decide) (by decide)).2
    (hloaded.queueFits (by decide))

/-- What a `dlopen` leaves that found no memory in `extend_bfs_deps`: the dynamic linker itself, 1,
has a mark.  Then 2, which needs 3, which needs 1, was loaded. -/
def leftMarked : Ld :=
  { cyclicLd with
    dso := fun p => match p with
      | 1 => { plainDso [] with mark := true }
      | 2 => plainDso [3]
      | 3 => plainDso [1]
      | _ => plainDso [] }

/-- The list of 2 misses the marked object, and the queue of the three is ended after its last slot. -/
theorem queueCtors_overruns : ∃ t u, extendBfsDeps 100 2 leftMarked = .ok () t ∧ t.depList 2 = [3] ∧
    queueCtors 100 2 t = .stop .stuck u ∧
      ¬((∃ q u, queueCtors 100 2 t = .ok (some q) u ∧ CtorOrder t 2 q) ∧ CtorBuffer t 2) := by
  refine ⟨_, _, rfl, rfl, rfl, ?_⟩
  rintro ⟨⟨q, u, hq, -⟩, -⟩
  cases hq

end Musl.Ldso
