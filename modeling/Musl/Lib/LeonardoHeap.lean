import Mathlib

/-!
# Leonardo heaps

A tree of order `k + 2` is a tree of order `k + 1`, a tree of order `k` and a root after both; trees
of order 0 and 1 are single elements.  An array is a series of such trees whose orders grow towards
its beginning.  Where each tree is a heap and the roots are in order, the last element is a greatest
one.

An array is a function from places to values; the trees of a series lie one after another from place
0, and the list of their orders begins with the last one.
-/

namespace Musl.Lib.Leonardo

open Equiv List Nat Function

/-! ### Leonardo numbers -/

def leonardo : ℕ → ℕ
  | 0 => 1
  | 1 => 1
  | k + 2 => leonardo k + leonardo (k + 1) + 1

lemma leonardo_pos (k : ℕ) : 0 < leonardo k := by
  match k with
  | 0 => decide
  | 1 => decide
  | k + 2 => exact succ_pos _

lemma leonardo_le_succ (k : ℕ) : leonardo k ≤ leonardo (k + 1) := by
  cases k with
  | zero => decide
  | succ k =>
    rw [leonardo]
    omega

lemma leonardo_mono : Monotone leonardo := monotone_nat_of_le_succ leonardo_le_succ

variable {k : ℕ} {ks : List ℕ}

lemma leonardo_lt_succ (hk : 0 < k) : leonardo k < leonardo (k + 1) := by
  obtain ⟨k, rfl⟩ := exists_eq_add_one.2 hk
  rw [leonardo]
  omega

lemma le_of_leonardo_le {i : ℕ} (hi : 0 < i) (h : leonardo k ≤ leonardo i) : k ≤ i := by
  by_contra hlt
  have hnext := leonardo_lt_succ hi
  have hmono := leonardo_mono (show i + 1 ≤ k by omega)
  omega

def size (ks : List ℕ) : ℕ := (ks.map leonardo).sum

@[simp] lemma size_nil : size [] = 0 := rfl

@[simp] lemma size_cons (k : ℕ) (ks : List ℕ) : size (k :: ks) = leonardo k + size ks := by
  rw [size, map_cons, sum_cons, size]

lemma leonardo_le_size (h : k ∈ ks) : leonardo k ≤ size ks := by
  induction ks with
  | nil => exact absurd h (not_mem_nil)
  | cons l ks ih =>
    rw [size_cons]
    rcases mem_cons.1 h with rfl | h
    · omega
    · exact (ih h).trans (le_add_left _ _)

lemma size_pos (h : ks ≠ []) : 0 < size ks := by
  cases ks with
  | nil => exact absurd rfl h
  | cons k ks =>
    have hpos := leonardo_pos k
    rw [size_cons]
    omega

/-! ### Rearranging a part of an array -/

section Rearrange

variable {α : Type*} {a b c : ℕ → α} {lo hi i j : ℕ}

/-- The second array has the values of the first one, in another order between two places. -/
def Rearranges (lo hi : ℕ) (a b : ℕ → α) : Prop :=
  ∃ σ : Perm ℕ, (∀ i, i < lo ∨ hi ≤ i → σ i = i) ∧ b = a ∘ σ

namespace Rearranges

lemma refl (lo hi : ℕ) (a : ℕ → α) : Rearranges lo hi a a := ⟨1, fun _ _ => rfl, rfl⟩

lemma trans (h : Rearranges lo hi a b) (h' : Rearranges lo hi b c) : Rearranges lo hi a c := by
  obtain ⟨σ, hσ, rfl⟩ := h
  obtain ⟨τ, hτ, rfl⟩ := h'
  refine ⟨σ * τ, fun i hi => ?_, rfl⟩
  rw [Perm.mul_apply, hτ i hi, hσ i hi]

lemma mono {lo' hi' : ℕ} (h : Rearranges lo hi a b) (hlo : lo' ≤ lo) (hhi : hi ≤ hi') :
    Rearranges lo' hi' a b := by
  obtain ⟨σ, hσ, rfl⟩ := h
  exact ⟨σ, fun i hi => hσ i (by omega), rfl⟩

lemma outside (h : Rearranges lo hi a b) (hi : i < lo ∨ hi ≤ i) : b i = a i := by
  obtain ⟨σ, hσ, rfl⟩ := h
  rw [comp_apply, hσ i hi]

lemma perm_inside {σ : Perm ℕ} (hσ : ∀ i, i < lo ∨ hi ≤ i → σ i = i) (hlo : lo ≤ i) (hhi : i < hi) :
    lo ≤ σ i ∧ σ i < hi := by
  by_contra hout
  have hfix : σ i = i := σ.injective (hσ (σ i) (by omega))
  omega

lemma inside (h : Rearranges lo hi a b) (hlo : lo ≤ i) (hhi : i < hi) :
    ∃ j, lo ≤ j ∧ j < hi ∧ b i = a j := by
  obtain ⟨σ, hσ, rfl⟩ := h
  exact ⟨σ i, (perm_inside hσ hlo hhi).1, (perm_inside hσ hlo hhi).2, rfl⟩

lemma symm (h : Rearranges lo hi a b) : Rearranges lo hi b a := by
  obtain ⟨σ, hσ, rfl⟩ := h
  refine ⟨σ⁻¹, fun i hi => ?_, ?_⟩
  · rw [Perm.inv_eq_iff_eq, hσ i hi]
  · funext i
    simp

lemma swap (a : ℕ → α) (hi1 : lo ≤ i) (hi2 : i < hi) (hj1 : lo ≤ j) (hj2 : j < hi) :
    Rearranges lo hi a (a ∘ Equiv.swap i j) :=
  ⟨Equiv.swap i j, fun x hx => swap_apply_of_ne_of_ne (by omega) (by omega), rfl⟩

lemma perm_map_range {n : ℕ} (h : Rearranges 0 n a b) : ((range n).map b).Perm ((range n).map a) := by
  obtain ⟨σ, hσ, rfl⟩ := h
  rw [← map_map]
  refine Perm.map a ((perm_ext_iff_of_nodup (nodup_range.map σ.injective) nodup_range).2 fun i => ?_)
  rw [mem_map, mem_range]
  constructor
  · rintro ⟨j, hj, rfl⟩
    exact (perm_inside hσ (zero_le j) (mem_range.1 hj)).2
  · intro hi
    have hσ' : ∀ i, i < 0 ∨ n ≤ i → σ⁻¹ i = i := fun i hi => by rw [Perm.inv_eq_iff_eq, hσ i hi]
    exact ⟨σ⁻¹ i, mem_range.2 (perm_inside hσ' (zero_le i) hi).2, σ.apply_symm_apply i⟩

end Rearranges

end Rearrange

section Trees

variable {α : Type*} {r : α → α → Prop} {a b : ℕ → α} {k s : ℕ}

/-- The place of the root of the tree of order `k` that begins at `s`. -/
def root (k s : ℕ) : ℕ := s + leonardo k - 1

lemma root_lt (k s : ℕ) : root k s < s + leonardo k := by
  have hpos := leonardo_pos k
  rw [root]
  omega

lemma le_root (k s : ℕ) : s ≤ root k s := by
  have hpos := leonardo_pos k
  rw [root]
  omega

lemma root_add_two (k s : ℕ) : root (k + 2) s = s + leonardo (k + 1) + leonardo k := by
  rw [root, leonardo]
  omega

abbrev left (k s : ℕ) : ℕ := root (k + 1) s

abbrev right (k s : ℕ) : ℕ := root k (s + leonardo (k + 1))

lemma places (k s : ℕ) : leonardo (k + 2) = leonardo k + leonardo (k + 1) + 1 ∧
    root (k + 2) s = s + leonardo (k + 1) + leonardo k ∧
    (s ≤ left k s ∧ left k s < s + leonardo (k + 1)) ∧
    s + leonardo (k + 1) ≤ right k s ∧ right k s < s + leonardo (k + 1) + leonardo k :=
  ⟨rfl, root_add_two k s, ⟨le_root _ _, root_lt _ _⟩, le_root _ _, root_lt _ _⟩

lemma right_eq (k s : ℕ) : right k s = root (k + 2) s - 1 := by
  rw [root_add_two, right, root]

lemma left_eq (k s : ℕ) : left k s = root (k + 2) s - 1 - leonardo k := by
  rw [root_add_two, left, root]
  omega

variable (r) in
def Heap (a : ℕ → α) : ℕ → ℕ → Prop
  | 0, _ => True
  | 1, _ => True
  | k + 2, s => Heap a (k + 1) s ∧ Heap a k (s + leonardo (k + 1)) ∧
      r (a (left k s)) (a (root (k + 2) s)) ∧ r (a (right k s)) (a (root (k + 2) s))

variable (r) in
/-- A heap up to the value of the root. -/
def SemiHeap (a : ℕ → α) : ℕ → ℕ → Prop
  | 0, _ => True
  | 1, _ => True
  | k + 2, s => Heap r a (k + 1) s ∧ Heap r a k (s + leonardo (k + 1))

lemma Heap.semi (h : Heap r a k s) : SemiHeap r a k s := by
  match k with
  | 0 => trivial
  | 1 => trivial
  | k + 2 => exact ⟨h.1, h.2.1⟩

lemma Heap.congr (h : Heap r a k s) (hab : ∀ i, s ≤ i → i < s + leonardo k → b i = a i) :
    Heap r b k s := by
  induction k using Nat.strong_induction_on generalizing s with
  | _ k ih =>
    match k with
    | 0 => trivial
    | 1 => trivial
    | k + 2 =>
      obtain ⟨hl, hr, hlr, hrr⟩ := h
      have hplaces := places k s
      refine ⟨ih (k + 1) (by omega) hl fun i h1 h2 => hab i h1 (by omega),
        ih k (by omega) hr fun i h1 h2 => hab i (by omega) (by omega), ?_, ?_⟩
      · rw [hab _ (by omega) (by omega), hab _ (by omega) (by omega)]
        exact hlr
      · rw [hab _ (by omega) (by omega), hab _ (by omega) (by omega)]
        exact hrr

lemma SemiHeap.congr (h : SemiHeap r a k s) (hab : ∀ i, s ≤ i → i < root k s → b i = a i) :
    SemiHeap r b k s := by
  match k with
  | 0 => trivial
  | 1 => trivial
  | k + 2 =>
    have hroot := root_add_two k s
    exact ⟨h.1.congr fun i h1 h2 => hab i h1 (by omega),
      h.2.congr fun i h1 h2 => hab i (by omega) (by omega)⟩

variable {i x : ℕ}

variable [Std.Refl r] [IsTrans α r] in
lemma Heap.le_top (h : Heap r a k s) (h1 : s ≤ i) (h2 : i < s + leonardo k) : r (a i) (a (root k s)) := by
  induction k using Nat.strong_induction_on generalizing s with
  | _ k ih =>
    match k with
    | 0 =>
      obtain rfl : i = root 0 s := by
        simp only [root, leonardo] at h2 ⊢
        omega
      exact refl_of r _
    | 1 =>
      obtain rfl : i = root 1 s := by
        simp only [root, leonardo] at h2 ⊢
        omega
      exact refl_of r _
    | k + 2 =>
      obtain ⟨hl, hr, hlr, hrr⟩ := h
      have hsum : leonardo (k + 2) = leonardo k + leonardo (k + 1) + 1 := rfl
      have hroot := root_add_two k s
      by_cases hi : i = root (k + 2) s
      · rw [hi]
        exact refl_of r _
      by_cases hside : i < s + leonardo (k + 1)
      · exact trans_of r (ih (k + 1) (by omega) hl h1 hside) hlr
      · exact trans_of r (ih k (by omega) hr (by omega) (by omega)) hrr

section Sift

variable (r) [DecidableRel r]

/-- The value of the root goes down along the greater children. -/
def sift : ℕ → ℕ → (ℕ → α) → ℕ → α
  | 0, _, a => a
  | 1, _, a => a
  | k + 2, s, a =>
    if r (a (left k s)) (a (root (k + 2) s)) ∧ r (a (right k s)) (a (root (k + 2) s)) then a
    else if r (a (right k s)) (a (left k s)) then sift (k + 1) s (a ∘ swap (root (k + 2) s) (left k s))
    else sift k (s + leonardo (k + 1)) (a ∘ swap (root (k + 2) s) (right k s))

lemma sift_rearranges (k s : ℕ) (a : ℕ → α) : Rearranges s (s + leonardo k) a (sift r k s a) := by
  induction k using Nat.strong_induction_on generalizing s a with
  | _ k ih =>
    match k with
    | 0 => exact .refl _ _ _
    | 1 => exact .refl _ _ _
    | k + 2 =>
      have hplaces := places k s
      rw [sift]
      split_ifs
      · exact .refl _ _ _
      · exact (Rearranges.swap a (by omega) (by omega) (by omega) (by omega)).trans
          ((ih (k + 1) (by omega) s _).mono le_rfl (by omega))
      · exact (Rearranges.swap a (by omega) (by omega) (by omega) (by omega)).trans
          ((ih k (by omega) _ _).mono (by omega) (by omega))

end Sift

section

variable (a : ℕ → α)

lemma comp_swap_left (i j : ℕ) : (a ∘ swap i j) i = a j := by rw [comp_apply, swap_apply_left]

lemma comp_swap_right (i j : ℕ) : (a ∘ swap i j) j = a i := by rw [comp_apply, swap_apply_right]

lemma comp_swap_other {j : ℕ} (hi : x ≠ i) (hj : x ≠ j) : (a ∘ swap i j) x = a x := by
  rw [comp_apply, swap_apply_of_ne_of_ne hi hj]

end

lemma le_of_not_le [Std.Total r] {x y : α} (h : ¬r x y) : r y x := (total_of r x y).resolve_left h

variable [Std.Total r] [IsTrans α r]

/-- A heap whose root gets a value that is not greater, next to a place that gets the value of the
root: all values of the tree are still at most that value. -/
lemma Heap.le_swapped (h : Heap r a k s) (hle : r (a i) (a (root k s)))
    (hi : i < s ∨ s + leonardo k ≤ i) (h1 : s ≤ x)
    (h2 : x < s + leonardo k) : r ((a ∘ swap i (root k s)) x) (a (root k s)) := by
  by_cases hx : x = root k s
  · rw [hx, comp_swap_right]
    exact hle
  · rw [comp_swap_other a (by omega) hx]
    exact h.le_top h1 h2

/-- **Sifting makes a heap** of two heaps and a root. -/
theorem sift_heap [DecidableRel r] (h : SemiHeap r a k s) : Heap r (sift r k s a) k s := by
  induction k using Nat.strong_induction_on generalizing s a with
  | _ k ih =>
    match k with
    | 0 => trivial
    | 1 => trivial
    | k + 2 =>
      obtain ⟨hl, hr⟩ := h
      obtain ⟨-, hroot, ⟨hl1, hl2⟩, hr1, hr2⟩ := places k s
      rw [sift]
      split_ifs with hstop hside
      · exact ⟨hl, hr, hstop.1, hstop.2⟩
      · -- the left child is the greatest of the three
        have hle : r (a (root (k + 2) s)) (a (left k s)) := by
          by_cases hlt : r (a (left k s)) (a (root (k + 2) s))
          · exact trans_of r (le_of_not_le fun h => hstop ⟨hlt, h⟩) hside
          · exact le_of_not_le hlt
        set a' := a ∘ swap (root (k + 2) s) (left k s) with ha'
        have hrec := ih (k + 1) (by omega) (a := a')
          (hl.semi.congr fun i h1 (h2 : i < left k s) => comp_swap_other a (by omega) (by omega))
        have hre := sift_rearranges r (k + 1) s a'
        have hsame : ∀ i, s + leonardo (k + 1) ≤ i → i ≠ root (k + 2) s →
            sift r (k + 1) s a' i = a i := fun i hi hne => by
          rw [hre.outside (.inr hi), ha', comp_swap_other a hne (by omega)]
        have htop : sift r (k + 1) s a' (root (k + 2) s) = a (left k s) := by
          rw [hre.outside (.inr (by omega)), ha', comp_swap_left]
        refine ⟨hrec, hr.congr fun i h1 h2 => hsame i h1 (by omega), ?_, ?_⟩
        · obtain ⟨j, hj1, hj2, hj⟩ := hre.inside hl1 hl2
          rw [hj, htop]
          exact hl.le_swapped hle (.inr (by omega)) hj1 hj2
        · rw [hsame _ hr1 (by omega), htop]
          exact hside
      · -- the right child is
        have hside' := le_of_not_le hside
        have hle : r (a (root (k + 2) s)) (a (right k s)) := by
          by_cases hlt : r (a (left k s)) (a (root (k + 2) s))
          · exact le_of_not_le fun h => hstop ⟨hlt, h⟩
          · exact trans_of r (le_of_not_le hlt) hside'
        set a' := a ∘ swap (root (k + 2) s) (right k s) with ha'
        have hrec := ih k (by omega) (a := a')
          (hr.semi.congr fun i h1 (h2 : i < right k s) => comp_swap_other a (by omega) (by omega))
        have hre := sift_rearranges r k (s + leonardo (k + 1)) a'
        have hsame : ∀ i, i < s + leonardo (k + 1) → sift r k (s + leonardo (k + 1)) a' i = a i :=
          fun i hi => by
          rw [hre.outside (.inl hi), ha', comp_swap_other a (by omega) (by omega)]
        have htop : sift r k (s + leonardo (k + 1)) a' (root (k + 2) s) = a (right k s) := by
          rw [hre.outside (.inr (by omega)), ha', comp_swap_left]
        refine ⟨hl.congr fun i h1 h2 => hsame i h2, hrec, ?_, ?_⟩
        · rw [hsame _ hl2, htop]
          exact hside'
        · obtain ⟨j, hj1, hj2, hj⟩ := hre.inside hr1 hr2
          rw [hj, htop]
          exact hr.le_swapped hle (.inr (by omega)) hj1 hj2

end Trees

section Forests

variable {α : Type*} {r : α → α → Prop} {a b : ℕ → α} {k : ℕ} {ks : List ℕ}

def last (ks : List ℕ) : ℕ := size ks - 1

lemma last_cons (k : ℕ) (ks : List ℕ) : last (k :: ks) = root k (size ks) := by
  rw [last, size_cons, root, add_comm]

lemma last_lt (h : ks ≠ []) : last ks < size ks := by
  have hpos := size_pos h
  rw [last]
  omega

variable (r) in
def Forest (a : ℕ → α) : List ℕ → Prop
  | [] => True
  | k :: ks => Heap r a k (size ks) ∧ (ks ≠ [] → r (a (last ks)) (a (root k (size ks)))) ∧ Forest a ks

lemma Forest.congr (h : Forest r a ks) (hab : ∀ i < size ks, b i = a i) : Forest r b ks := by
  induction ks with
  | nil => trivial
  | cons k ks ih =>
    rw [size_cons] at hab
    refine ⟨h.1.congr fun i _ hi => hab i (by omega), fun hne => ?_,
      ih h.2.2 fun i hi => hab i (by omega)⟩
    have hlast := last_lt hne
    have hroot := root_lt k (size ks)
    rw [hab _ (by omega), hab _ (by omega)]
    exact h.2.1 hne

variable [Std.Refl r] [IsTrans α r] in
lemma Forest.le_last (h : Forest r a ks) {i : ℕ} (hi : i < size ks) : r (a i) (a (last ks)) := by
  induction ks with
  | nil => exact absurd hi (not_lt_zero i)
  | cons k ks ih =>
    rw [last_cons]
    by_cases hlt : i < size ks
    · exact trans_of r (ih h.2.2 hlt) (h.2.1 (by rintro rfl; exact absurd hlt (not_lt_zero i)))
    · exact h.1.le_top (not_lt.1 hlt) (by rw [size_cons] at hi; omega)

/-! ### Trinkling -/

variable (r) in
/-- A child is not less than a value. -/
def ChildAbove (a : ℕ → α) : ℕ → ℕ → α → Prop
  | 0, _, _ => False
  | 1, _, _ => False
  | k + 2, s, x => r x (a (right k s)) ∨ r x (a (left k s))

instance [DecidableRel r] (a : ℕ → α) (k s : ℕ) (x : α) : Decidable (ChildAbove r a k s x) :=
  match k with
  | 0 => inferInstanceAs (Decidable False)
  | 1 => inferInstanceAs (Decidable False)
  | _ + 2 => inferInstanceAs (Decidable (_ ∨ _))

variable {s : ℕ} {x : α} {trusty : Bool}

lemma childAbove_congr (hab : ∀ i, s ≤ i → i < root k s → b i = a i) :
    ChildAbove r b k s x ↔ ChildAbove r a k s x := by
  match k with
  | 0 => rfl
  | 1 => rfl
  | k + 2 =>
    have hplaces := places k s
    rw [ChildAbove, ChildAbove, hab (right k s) (by omega) (by omega),
      hab (left k s) (by omega) (by omega)]

variable (r) in
/-- The value of the last root goes to the tree where it is to be sifted.  `trusty` says that the
last tree is a heap.
-/
def trinkle [DecidableRel r] : Bool → List ℕ → (ℕ → α) → ℕ → α
  | _, [], a => a
  | trusty, [k], a => if trusty then a else sift r k 0 a
  | trusty, k :: k' :: ks, a =>
    if r (a (last (k' :: ks))) (a (root k (size (k' :: ks)))) then
      if trusty then a else sift r k (size (k' :: ks)) a
    else if trusty = false ∧ ChildAbove r a k (size (k' :: ks)) (a (last (k' :: ks))) then
      sift r k (size (k' :: ks)) a
    else trinkle false (k' :: ks) (a ∘ swap (root k (size (k' :: ks))) (last (k' :: ks)))

lemma trinkle_rearranges [DecidableRel r] (trusty : Bool) (ks : List ℕ) (a : ℕ → α) :
    Rearranges 0 (size ks) a (trinkle r trusty ks a) := by
  induction ks generalizing trusty a with
  | nil => exact .refl _ _ _
  | cons k ks ih =>
    have hsift : ∀ a, Rearranges 0 (size (k :: ks)) a (sift r k (size ks) a) := fun a =>
      (sift_rearranges r k (size ks) a).mono (zero_le _) (by rw [size_cons]; omega)
    cases ks with
    | nil =>
      rw [trinkle]
      split_ifs
      · exact .refl _ _ _
      · exact hsift a
    | cons k' ks =>
      have hlast := last_lt (cons_ne_nil k' ks)
      have hroot := root_lt k (size (k' :: ks))
      have hsize := size_cons k (k' :: ks)
      rw [trinkle]
      split_ifs
      · exact .refl _ _ _
      · exact hsift a
      · exact hsift a
      · exact (Rearranges.swap a (zero_le _) (by omega) (zero_le _) (by omega)).trans
          ((ih false _).mono le_rfl (by omega))

/-- What the last tree has to be before trinkling. -/
def Trusted (r : α → α → Prop) (a : ℕ → α) (trusty : Bool) (k s : ℕ) : Prop :=
  if trusty then Heap r a k s else SemiHeap r a k s

lemma Trusted.of_heap (h : Heap r a k s) : Trusted r a true k s := h

lemma Trusted.of_semi (h : SemiHeap r a k s) : Trusted r a false k s := h

lemma Trusted.semi (h : Trusted r a trusty k s) : SemiHeap r a k s := by
  cases trusty with
  | false => exact h
  | true => exact Heap.semi h

variable [Std.Total r] [IsTrans α r]

lemma Forest.sift [DecidableRel r] (h : Forest r a ks) (hsemi : SemiHeap r a k (size ks))
    (hle : ks ≠ [] → ∃ i, size ks ≤ i ∧ i < size ks + leonardo k ∧ r (a (last ks)) (a i)) :
    Forest r (sift r k (size ks) a) (k :: ks) := by
  have hre := sift_rearranges r k (size ks) a
  have hheap := sift_heap hsemi
  refine ⟨hheap, fun hne => ?_, h.congr fun i hi => hre.outside (.inl hi)⟩
  obtain ⟨i, hi1, hi2, hi⟩ := hle hne
  obtain ⟨j, hj1, hj2, hj⟩ := hre.symm.inside hi1 hi2
  rw [hre.outside (.inl (last_lt hne))]
  rw [hj] at hi
  exact trans_of r hi (hheap.le_top hj1 hj2)

lemma Trusted.raise (h : Trusted r a trusty k s) (hx : r (a (root k s)) x)
    (hchild : trusty = false → ¬ChildAbove r a k s x) (hb : ∀ i, s ≤ i → i < root k s → b i = a i)
    (hbx : b (root k s) = x) : Heap r b k s := by
  have hsemi := h.semi.congr hb
  match k with
  | 0 => trivial
  | 1 => trivial
  | k + 2 =>
    have hplaces := places k s
    refine ⟨hsemi.1, hsemi.2, ?_, ?_⟩
    all_goals rw [hbx, hb _ (by omega) (by omega)]
    all_goals
      cases trusty with
      | false => exact le_of_not_le fun hle => hchild rfl (by simp [ChildAbove, hle])
      | true =>
        obtain ⟨-, -, hl, hr⟩ := h
        first
        | exact trans_of r hl hx
        | exact trans_of r hr hx

/-- **Trinkling puts the roots in order.** -/
theorem trinkle_forest [DecidableRel r] (hks : Forest r a ks) (hk : Trusted r a trusty k (size ks)) :
    Forest r (trinkle r trusty (k :: ks) a) (k :: ks) := by
  induction ks generalizing k trusty a with
  | nil =>
    cases trusty with
    | true => exact ⟨hk, fun h => absurd rfl h, trivial⟩
    | false => exact hks.sift hk fun h => absurd rfl h
  | cons k' ks ih =>
    have hne := cons_ne_nil k' ks
    have hlast := last_lt hne
    have hroot := root_lt k (size (k' :: ks))
    have hroot' := le_root k (size (k' :: ks))
    rw [trinkle]
    split_ifs with hle htrusty hchild
    · rw [htrusty] at hk
      exact ⟨hk, fun _ => hle, hks⟩
    · exact hks.sift hk.semi fun _ => ⟨_, hroot', hroot, hle⟩
    · -- a child is not less than the root of the tree before
      obtain ⟨-, hchild⟩ := hchild
      refine hks.sift hk.semi fun _ => ?_
      match k with
      | 0 => exact absurd hchild id
      | 1 => exact absurd hchild id
      | k + 2 =>
        have hplaces := places k (size (k' :: ks))
        rcases hchild with h | h
        · exact ⟨_, by omega, by omega, h⟩
        · exact ⟨_, by omega, by omega, h⟩
    · -- the roots change places, and the tree before is the one to go on with
      have hle' := le_of_not_le hle
      set a' := a ∘ swap (root k (size (k' :: ks))) (last (k' :: ks)) with ha'
      have hre := trinkle_rearranges (r := r) false (k' :: ks) a'
      have hsame : ∀ i, size (k' :: ks) ≤ i → i ≠ root k (size (k' :: ks)) →
        trinkle r false (k' :: ks) a' i = a i :=
        fun i hi hne => by rw [hre.outside (.inr hi), ha', comp_swap_other a hne (by omega)]
      have htop : trinkle r false (k' :: ks) a' (root k (size (k' :: ks))) = a (last (k' :: ks)) := by
        rw [hre.outside (.inr hroot'), ha', comp_swap_left]
      have hbelow : ∀ i, i < last (k' :: ks) → a' i = a i :=
        fun i hi => comp_swap_other a (by omega) (by omega)
      have hsize := size_cons k' ks
      have hpos := leonardo_pos k'
      have hrec : Forest r (trinkle r false (k' :: ks) a') (k' :: ks) := by
        refine ih (hks.2.2.congr fun i hi => hbelow i ?_) (hks.1.semi.congr fun i _ hi => hbelow i ?_)
        · rw [last]
          omega
        · rw [last_cons]
          exact hi
      refine ⟨?_, fun _ => ?_, hrec⟩
      · exact hk.raise hle' (fun ht hc => hchild ⟨ht, hc⟩) (fun i h1 h2 => hsame i h1 (by omega)) htop
      · obtain ⟨j, -, hj2, hj⟩ := hre.inside (zero_le _) hlast
        rw [hj, htop]
        by_cases hjl : j = last (k' :: ks)
        · rw [hjl, ha', comp_swap_right]
          exact hle'
        · rw [ha', comp_swap_other a (by omega) hjl]
          exact hks.le_last hj2

end Forests

end Musl.Lib.Leonardo
