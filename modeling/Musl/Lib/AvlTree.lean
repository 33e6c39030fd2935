import Mathlib

/-!
# Balanced trees and the paths in them

Binary trees whose nodes carry a label, the path from the root to a place in the tree, and what it
means that the heights stored in the labels are right and nearly the same on both sides of every
node.

Nothing here mentions a particular program.
-/

namespace Musl.Lib

open List Nat

inductive BinTree (α : Type*) where
  | nil : BinTree α
  | node (x : α) (l r : BinTree α) : BinTree α
deriving DecidableEq

namespace BinTree

variable {α : Type*}

def flat : BinTree α → List α
  | nil => []
  | node x l r => l.flat ++ x :: r.flat

/-- The child on side `dir`; `false` is the left side. -/
def pick (dir : Bool) (l r : BinTree α) : BinTree α := if dir then r else l

/-- The node whose child on side `dir` is `near`. -/
def join (dir : Bool) (x : α) (near far : BinTree α) : BinTree α :=
  if dir then node x far near else node x near far

lemma node_eq_join (dir : Bool) (x : α) (l r : BinTree α) : node x l r = join dir x (pick dir l r)
    (pick (!dir) l r) := by
  cases dir with
  | false => rfl
  | true => rfl

/-! ### Paths -/

/-- A node on a path: the path goes on to the side `dir`. -/
structure Frame (α : Type*) where
  label : α
  dir : Bool
  other : BinTree α

/-- The node with `t` in the place where the path goes on. -/
def Frame.fill (f : Frame α) (t : BinTree α) : BinTree α := join f.dir f.label t f.other

/-- The tree with `t` at the end of the path; the path starts with the node nearest to that end. -/
def plug : List (Frame α) → BinTree α → BinTree α
  | [], t => t
  | f :: fs, t => plug fs (f.fill t)

def before : List (Frame α) → List α
  | [] => []
  | f :: fs => before fs ++ if f.dir then f.other.flat ++ [f.label] else []

def after : List (Frame α) → List α
  | [] => []
  | f :: fs => (if f.dir then [] else f.label :: f.other.flat) ++ after fs

lemma flat_fill (f : Frame α) (t : BinTree α) :
    (f.fill t).flat = (if f.dir then f.other.flat ++ [f.label] else []) ++ t.flat ++
      (if f.dir then [] else f.label :: f.other.flat) := by
  unfold Frame.fill join
  cases f.dir with
  | false => simp [flat]
  | true => simp [flat]

/-- **The labels of the whole tree**, in order. -/
theorem flat_plug (fs : List (Frame α)) (t : BinTree α) :
    (plug fs t).flat = before fs ++ t.flat ++ after fs := by
  induction fs generalizing t with
  | nil => simp [plug, before, after]
  | cons f fs ih => rw [plug, ih, flat_fill, before, after]; simp only [append_assoc]

section

variable (fs gs : List (Frame α))

lemma plug_append (t : BinTree α) : plug (fs ++ gs) t = plug gs (plug fs t) := by
  induction fs generalizing t with
  | nil => rfl
  | cons f fs ih => exact ih (f.fill t)

lemma before_append : before (fs ++ gs) = before gs ++ before fs := by
  induction fs with
  | nil => simp [before]
  | cons f fs ih => rw [cons_append, before, before, ih, append_assoc]

lemma after_append : after (fs ++ gs) = after fs ++ after gs := by
  induction fs with
  | nil => simp [after]
  | cons f fs ih => rw [cons_append, after, after, ih, append_assoc]

end

section Heights

variable (h : α → ℤ)

def ht : BinTree α → ℤ
  | nil => 0
  | node x _ _ => h x

/-- The stored heights are right, and those of the two sides of a node differ by one at most. -/
def Avl : BinTree α → Prop
  | nil => True
  | node x l r => l.Avl ∧ r.Avl ∧ h x = max (l.ht h) (r.ht h) + 1 ∧ |l.ht h - r.ht h| ≤ 1

/-- The same along a path, for an end of height `c`. -/
def Around : List (Frame α) → ℤ → Prop
  | [], _ => True
  | f :: fs, c =>
    f.other.Avl h ∧ h f.label = max c (f.other.ht h) + 1 ∧ |c - f.other.ht h| ≤ 1 ∧
    Around fs (h f.label)

variable {h}

lemma ht_join (dir : Bool) (x : α) (near far : BinTree α) : (join dir x near far).ht h = h x := by
  cases dir with
  | false => rfl
  | true => rfl

lemma ht_fill (f : Frame α) (t : BinTree α) : (f.fill t).ht h = h f.label := ht_join _ _ _ _

lemma avl_join {dir : Bool} {x : α} {near far : BinTree α} : (join dir x near far).Avl h ↔
      near.Avl h ∧ far.Avl h ∧ h x = max (near.ht h) (far.ht h) + 1 ∧ |near.ht h - far.ht h| ≤ 1 := by
  unfold join
  cases dir with
  | false => simp [Avl]
  | true =>
    simp only [if_true, Avl, max_comm (far.ht h), abs_sub_comm (far.ht h)]
    tauto

variable {fs : List (Frame α)} {t : BinTree α}

/-- **A tree of the right height fits** into the end of a path. -/
theorem avl_plug (hfs : Around h fs (t.ht h)) (ht : t.Avl h) : (plug fs t).Avl h := by
  induction fs generalizing t with
  | nil => exact ht
  | cons f fs ih =>
    obtain ⟨hother, hlabel, hdiff, hrest⟩ := hfs
    apply ih
    · rw [ht_fill]
      exact hrest
    · exact avl_join.2 ⟨ht, hother, hlabel, hdiff⟩

lemma around_of_avl (hfs : (plug fs t).Avl h) : Around h fs (t.ht h) ∧ t.Avl h := by
  induction fs generalizing t with
  | nil => exact ⟨trivial, hfs⟩
  | cons f fs ih =>
    obtain ⟨hrest, hfill⟩ := ih hfs
    obtain ⟨ht, hother, hlabel, hdiff⟩ := avl_join.1 hfill
    rw [ht_fill] at hrest
    exact ⟨⟨hother, hlabel, hdiff, hrest⟩, ht⟩

lemma ht_nonneg (ht : t.Avl h) : 0 ≤ t.ht h := by
  induction t with
  | nil => exact le_rfl
  | node x l r ihl _ =>
    obtain ⟨hl, _, hx, _⟩ := ht
    have := ihl hl
    change 0 ≤ h x
    omega

lemma length_le_ht (hfs : (plug fs t).Avl h) : fs.length + t.ht h ≤ (plug fs t).ht h := by
  induction fs generalizing t with
  | nil => simp [plug]
  | cons f fs ih =>
    have hrest := ih hfs
    obtain ⟨_, hlabel, _, _⟩ := (around_of_avl hfs).1
    rw [ht_fill] at hrest
    rw [plug, length_cons]
    omega

/-- **How many nodes a balanced tree has.** -/
theorem fib_le_size (ht : t.Avl h) : fib ((t.ht h).toNat + 2) ≤ t.flat.length + 1 := by
  induction t with
  | nil => exact le_rfl
  | node x l r ihl ihr =>
    obtain ⟨hl, hr, hx, hdiff⟩ := ht
    have hl' := ihl hl
    have hr' := ihr hr
    have hpos := ht_nonneg hl
    rw [abs_le] at hdiff
    -- one side has the height of the tree less one, the other at least that less one
    obtain ⟨n, hn⟩ : ∃ n, (h x).toNat = n + 1 := ⟨(h x).toNat - 1, by omega⟩
    have hsides : fib (n + 1) + fib (n + 2) ≤
        fib ((l.ht h).toNat + 2) + fib ((r.ht h).toNat + 2) := by
      rcases le_total (l.ht h) (r.ht h) with hle | hle
      · exact Nat.add_le_add (fib_mono (by omega)) (fib_mono (by omega))
      · rw [add_comm]
        exact Nat.add_le_add (fib_mono (by omega)) (fib_mono (by omega))
    change fib ((h x).toNat + 2) ≤ _
    rw [hn, fib_add_two, flat, length_append, length_cons]
    change fib (n + 1) + fib (n + 2) ≤ _
    omega

end Heights

end BinTree

end Musl.Lib
