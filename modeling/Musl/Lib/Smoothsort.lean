import Musl.Lib.LeonardoHeap

/-!
# Smoothsort

The elements are added to a series of Leonardo trees one by one, and then taken off its end one by
one.  An element is either the root over the last two trees, if their orders are consecutive, or a
tree of its own.  While the series grows, the roots of those trees only are put in order that stay
in it to the end.
-/

namespace Musl.Lib.Leonardo

open List Nat

/-! ### The orders of a series -/

def Gaps : List ℕ → Prop
  | [] => True
  | [_] => True
  | k :: k' :: ks => k + 2 ≤ k' ∧ Gaps (k' :: ks)

variable {k k' : ℕ} {ks : List ℕ}

lemma Gaps.tail (h : Gaps (k :: ks)) : Gaps ks := by
  cases ks with
  | nil => trivial
  | cons k' ks => exact h.2

lemma Gaps.le (h : Gaps (k :: ks)) : ∀ l ∈ ks.head?, k + 2 ≤ l := by
  intro l hl
  cases ks with
  | nil => exact absurd hl (by simp)
  | cons l' ks =>
    obtain rfl : l' = l := by simpa using hl
    exact h.1

/-- The series that occur: only the last two orders may be consecutive, and a tree of order 0 is not
the first one. -/
structure Shape (k : ℕ) (ks : List ℕ) : Prop where
  gaps : Gaps ks
  lt : ∀ k' ∈ ks.head?, k < k'
  zero : k = 0 → ks.head? = some 1

def nextOrder (k : ℕ) : ℕ := if k = 1 then 0 else 1

lemma Shape.merge (h : Shape k ((k + 1) :: ks)) : Shape (k + 2) ks where
  gaps := h.gaps.tail
  lt := h.gaps.le
  zero := fun h => absurd h (by omega)

section

variable (h : Shape k ks) (hks : ks.head? ≠ some (k + 1))

include h hks

lemma Shape.pos : 0 < k := by
  by_contra hk
  obtain rfl : k = 0 := by omega
  exact hks (h.zero rfl)

lemma Shape.add : Shape (nextOrder k) (k :: ks) where
  gaps := by
    cases ks with
    | nil => trivial
    | cons k' ks =>
      have hlt := h.lt k' rfl
      have hne : k' ≠ k + 1 := fun heq => hks (by rw [head?_cons, heq])
      exact ⟨by omega, h.gaps⟩
  lt := by
    intro k' hk'
    obtain rfl : k = k' := by simpa using hk'
    have hpos := h.pos hks
    rw [nextOrder]
    split_ifs <;> omega
  zero := by
    intro hzero
    rw [nextOrder] at hzero
    split_ifs at hzero with hk
    rw [head?_cons, hk]

end

lemma Shape.remove (h : Shape k (k' :: ks)) : Shape k' ks where
  gaps := h.gaps.tail
  lt l hl := lt_of_succ_lt (h.gaps.le l hl)
  zero := by
    intro hk'
    have hlt := h.lt k' rfl
    omega

lemma Shape.split (h : Shape (k + 2) ks) : Shape k ((k + 1) :: ks) where
  gaps := by
    cases ks with
    | nil => trivial
    | cons k' ks =>
      have hlt := h.lt k' rfl
      exact ⟨by omega, h.gaps⟩
  lt := by
    intro k' hk'
    obtain rfl : k + 1 = k' := by simpa using hk'
    omega
  zero := fun hk => by rw [head?_cons, hk]

lemma Gaps.pairwise (h : Gaps ks) : ks.Pairwise (· < ·) := by
  induction ks with
  | nil => exact .nil
  | cons k ks ih =>
    refine pairwise_cons.2 ⟨fun l hl => ?_, ih h.tail⟩
    cases ks with
    | nil => exact absurd hl (not_mem_nil)
    | cons k' ks =>
      have hgap := h.1
      rcases mem_cons.1 hl with rfl | hl
      · omega
      · have hlt := (pairwise_cons.1 (ih h.2)).1 l hl
        omega

lemma Shape.pairwise (h : Shape k ks) : (k :: ks).Pairwise (· < ·) := by
  refine pairwise_cons.2 ⟨?_, h.gaps.pairwise⟩
  cases ks with
  | nil => exact forall_mem_nil _
  | cons k' ks =>
    have hlt := h.lt k' rfl
    exact forall_mem_cons.2 ⟨hlt, fun l hl => hlt.trans ((pairwise_cons.1 h.gaps.pairwise).1 l hl)⟩

lemma leonardo_add_le (hk : 0 < k) (h : k + 2 ≤ k') :
    leonardo k + leonardo (k - 1) ≤ leonardo (k' - 1) := by
  obtain ⟨k, rfl⟩ := exists_eq_add_one.2 hk
  have hmono := leonardo_mono (show k + 2 ≤ k' - 1 by omega)
  rw [leonardo] at hmono
  rw [Nat.add_sub_cancel]
  omega

variable {α : Type*} {r : α → α → Prop} {a b : ℕ → α} {n k : ℕ} {ks : List ℕ}

/-! ### Growing -/

variable (r n) in
/-- All trees are heaps, and the roots of those that stay to the end are in order. -/
def Settled (a : ℕ → α) : List ℕ → Prop
  | [] => True
  | k :: ks => Heap r a k (size ks) ∧
      (n ≤ size (k :: ks) + leonardo (k - 1) → ks ≠ [] → r (a (last ks)) (a (root k (size ks)))) ∧
      Settled a ks

lemma Settled.congr (h : Settled r n a ks) (hab : ∀ i < size ks, b i = a i) : Settled r n b ks := by
  induction ks with
  | nil => trivial
  | cons k ks ih =>
    have hsize := size_cons k ks
    refine ⟨h.1.congr fun i _ hi => hab i (by omega), fun hn hne => ?_,
      ih h.2.2 fun i hi => hab i (by omega)⟩
    have hlast := last_lt hne
    have hroot := root_lt k (size ks)
    rw [hab _ (by omega), hab _ (by omega)]
    exact h.2.1 hn hne

lemma Forest.settled (h : Forest r a ks) : Settled r n a ks := by
  induction ks with
  | nil => trivial
  | cons k ks ih => exact ⟨h.1, fun _ hne => h.2.1 hne, ih h.2.2⟩

lemma Settled.forest (h : Settled r n a (k :: ks)) (hk : 0 < k) (hgaps : Gaps (k :: ks))
    (hn : n ≤ size (k :: ks) + leonardo (k - 1)) : Forest r a (k :: ks) := by
  induction ks generalizing k with
  | nil => exact ⟨h.1, fun hne => absurd rfl hne, trivial⟩
  | cons k' ks ih =>
    have hle := leonardo_add_le hk hgaps.1
    have hsize := size_cons k (k' :: ks)
    exact ⟨h.1, h.2.1 hn, ih h.2.2 (by have := hgaps.1; omega) hgaps.2 (by omega)⟩

variable (r n) in
/-- One element more: the last tree is made a heap, and its root is put in order if it stays. -/
def growStep [DecidableRel r] : List ℕ → (ℕ → α) → List ℕ × (ℕ → α)
  | [], a => ([], a)
  | k :: ks, a =>
    if ks.head? = some (k + 1) then ((k + 2) :: ks.tail, sift r k (size ks) a)
    else (nextOrder k :: k :: ks,
      if n ≤ size (k :: ks) + leonardo (k - 1) then trinkle r false (k :: ks) a else sift r k (size ks) a)

variable (r n) in
/-- A series that grows: the last tree is yet to be sifted. -/
structure Growing (a : ℕ → α) (k : ℕ) (ks : List ℕ) : Prop where
  shape : Shape k ks
  semi : SemiHeap r a k (size ks)
  settled : Settled r n a ks

lemma growing_start (r : α → α → Prop) (n : ℕ) (a : ℕ → α) : Growing r n a 1 [] :=
  ⟨⟨trivial, by simp, by simp⟩, trivial, trivial⟩

lemma nextOrder_semi (k s : ℕ) (a : ℕ → α) : SemiHeap r a (nextOrder k) s := by
  rw [nextOrder]
  split_ifs <;> trivial

lemma leonardo_nextOrder (k : ℕ) : leonardo (nextOrder k) = 1 := by
  rw [nextOrder]
  split_ifs <;> rfl

lemma growStep_rearranges [DecidableRel r] (ks : List ℕ) (a : ℕ → α) :
    Rearranges 0 (size ks) a (growStep r n ks a).2 := by
  cases ks with
  | nil => exact .refl _ _ _
  | cons k ks =>
    have hsift : Rearranges 0 (size (k :: ks)) a (sift r k (size ks) a) :=
      (sift_rearranges r k (size ks) a).mono (zero_le _) (by rw [size_cons]; omega)
    rw [growStep]
    split_ifs
    · exact hsift
    · exact trinkle_rearranges false (k :: ks) a
    · exact hsift

lemma size_growStep [DecidableRel r] (hne : ks ≠ []) : size (growStep r n ks a).1 = size ks + 1 := by
  cases ks with
  | nil => exact absurd rfl hne
  | cons k ks =>
    rw [growStep]
    split_ifs with hmerge
    · cases ks with
      | nil => exact absurd hmerge (by simp)
      | cons k' ks =>
        obtain rfl : k' = k + 1 := by simpa using hmerge
        simp only [tail_cons, size_cons, leonardo]
        omega
    all_goals rw [size_cons, leonardo_nextOrder, add_comm]

/-! ### Shrinking -/

variable (r) in
/-- The last element is taken off; the subtrees under it become trees of the series. -/
def shrinkStep [DecidableRel r] : List ℕ → (ℕ → α) → List ℕ × (ℕ → α)
  | [], a => ([], a)
  | 0 :: ks, a => (ks, a)
  | 1 :: ks, a => (ks, a)
  | (k + 2) :: ks, a =>
    (k :: (k + 1) :: ks, trinkle r true (k :: (k + 1) :: ks) (trinkle r true ((k + 1) :: ks) a))

variable (r n) in
/-- A series that shrinks: the elements after it are in their places. -/
structure Shrinking (a : ℕ → α) (k : ℕ) (ks : List ℕ) : Prop where
  shape : Shape k ks
  forest : Forest r a (k :: ks)
  sorted : ∀ i j, i < j → size (k :: ks) ≤ j → j < n → r (a i) (a j)

lemma size_shrinkStep [DecidableRel r] (hne : ks ≠ []) : size ks = size (shrinkStep r ks a).1 + 1 := by
  match ks with
  | [] => exact absurd rfl hne
  | 0 :: ks => rw [shrinkStep, size_cons, leonardo, add_comm]
  | 1 :: ks => rw [shrinkStep, size_cons, leonardo, add_comm]
  | (k + 2) :: ks =>
    simp only [shrinkStep, size_cons, leonardo]
    omega

lemma shrinkStep_rearranges [DecidableRel r] (ks : List ℕ) (a : ℕ → α) :
    Rearranges 0 (size (shrinkStep r ks a).1) a (shrinkStep r ks a).2 := by
  match ks with
  | [] => exact .refl _ _ _
  | 0 :: ks => exact .refl _ _ _
  | 1 :: ks => exact .refl _ _ _
  | (k + 2) :: ks =>
    exact ((trinkle_rearranges true ((k + 1) :: ks) a).mono le_rfl
      (by rw [shrinkStep, size_cons k]; omega)).trans
      (trinkle_rearranges true (k :: (k + 1) :: ks) _)

lemma Shrinking.sorted_of_one (h : Shrinking r n a 1 []) {i j : ℕ} (hij : i < j) (hj : j < n) :
    r (a i) (a j) :=
  h.sorted i j hij (by rw [size_cons, size_nil, leonardo]; omega) hj

/-! ### Every step -/

variable [Std.Total r] [IsTrans α r]

/-- **One element more.** -/
theorem Growing.step [DecidableRel r] (h : Growing r n a k ks) :
    ∃ k' ks', (growStep r n (k :: ks) a).1 = k' :: ks' ∧
    Growing r n (growStep r n (k :: ks) a).2 k' ks' := by
  have hsift := sift_rearranges r k (size ks) a
  have hheap := sift_heap h.semi
  by_cases hmerge : ks.head? = some (k + 1)
  · -- a root over the last two trees
    cases ks with
    | nil => exact absurd hmerge (by simp)
    | cons k' ks =>
      obtain rfl : k' = k + 1 := by simpa using hmerge
      have hsize := size_cons (k + 1) ks
      refine ⟨k + 2, ks, by rw [growStep, if_pos hmerge, tail_cons], ?_⟩
      rw [growStep, if_pos hmerge]
      refine ⟨h.shape.merge, ⟨h.settled.1.congr fun i _ hi => hsift.outside (.inl (by omega)), ?_⟩,
        h.settled.2.2.congr fun i hi => hsift.outside (.inl (by omega))⟩
      rw [add_comm (size ks)]
      exact hheap
  · refine ⟨nextOrder k, k :: ks, by rw [growStep, if_neg hmerge], ?_⟩
    rw [growStep]
    refine ⟨h.shape.add hmerge, nextOrder_semi k _ _, ?_⟩
    have hpos := h.shape.pos hmerge
    have hgaps := (h.shape.add hmerge).gaps
    split_ifs with hstays
    · -- the tree stays, and so do those before it
      refine (trinkle_forest ?_ (Trusted.of_semi h.semi)).settled
      cases ks with
      | nil => trivial
      | cons k' ks =>
        have hle := leonardo_add_le hpos hgaps.1
        have hsize := size_cons k (k' :: ks)
        exact h.settled.forest (by have := hgaps.1; omega) hgaps.2 (by omega)
    · exact ⟨hheap, fun hn => absurd hn hstays, h.settled.congr fun i hi => hsift.outside (.inl hi)⟩

lemma Growing.finish [DecidableRel r] (h : Growing r n a k ks) (hn : size (k :: ks) = n) :
    Forest r (trinkle r false (k :: ks) a) (k :: ks) := by
  refine trinkle_forest ?_ (Trusted.of_semi h.semi)
  cases ks with
  | nil => trivial
  | cons k' ks =>
    have hlt := h.shape.lt k' rfl
    have hmono := leonardo_mono (show k ≤ k' - 1 by omega)
    have hsize := size_cons k (k' :: ks)
    exact h.settled.forest (by omega) h.shape.gaps (by omega)

lemma Shrinking.sorted_step [DecidableRel r] (h : Shrinking r n a k ks) (i j : ℕ) (hij : i < j)
    (hj : size (shrinkStep r (k :: ks) a).1 ≤ j) (hn : j < n) :
    r ((shrinkStep r (k :: ks) a).2 i) ((shrinkStep r (k :: ks) a).2 j) := by
  have hre := shrinkStep_rearranges (r := r) (k :: ks) a
  have hsize : size (k :: ks) = _ := size_shrinkStep (r := r) (a := a) (cons_ne_nil k ks)
  rw [hre.outside (.inr hj)]
  -- the value at `i` stood before `j`
  obtain ⟨i', hi', heq⟩ : ∃ i' < j, (shrinkStep r (k :: ks) a).2 i = a i' := by
    by_cases hi : i < size (shrinkStep r (k :: ks) a).1
    · obtain ⟨i', -, hi', heq⟩ := hre.inside (zero_le i) hi
      exact ⟨i', by omega, heq⟩
    · exact ⟨i, hij, hre.outside (.inr (not_lt.1 hi))⟩
  rw [heq]
  by_cases hlast : size (k :: ks) ≤ j
  · exact h.sorted i' j hi' hlast hn
  · obtain rfl : j = last (k :: ks) := by
      rw [last]
      omega
    exact h.forest.le_last (by omega)

/-- **One element less.** -/
theorem Shrinking.step [DecidableRel r] (h : Shrinking r n a k ks) (hne : k :: ks ≠ [1]) :
    ∃ k' ks', (shrinkStep r (k :: ks) a).1 = k' :: ks' ∧
    Shrinking r n (shrinkStep r (k :: ks) a).2 k' ks' := by
  have hsorted := h.sorted_step
  match k with
  | 0 =>
    cases ks with
    | nil => exact absurd (h.shape.zero rfl) (by simp)
    | cons k' ks => exact ⟨k', ks, rfl, h.shape.remove, h.forest.2.2, hsorted⟩
  | 1 =>
    cases ks with
    | nil => exact absurd rfl hne
    | cons k' ks => exact ⟨k', ks, rfl, h.shape.remove, h.forest.2.2, hsorted⟩
  | k + 2 =>
    refine ⟨k, (k + 1) :: ks, rfl, h.shape.split, ?_, hsorted⟩
    obtain ⟨⟨hl, hr, -, -⟩, -, hforest⟩ := h.forest
    have hre := trinkle_rearranges (r := r) true ((k + 1) :: ks) a
    have hsize := size_cons (k + 1) ks
    rw [add_comm] at hr
    have hright : Heap r (trinkle r true ((k + 1) :: ks) a) k (size ((k + 1) :: ks)) :=
      hr.congr fun i hi _ => hre.outside (.inr hi)
    exact trinkle_forest (trinkle_forest hforest (Trusted.of_heap hl)) (Trusted.of_heap hright)

end Musl.Lib.Leonardo
