import Musl.Lib.Smoothsort

/-!
# `qsort_r`: smoothsort

The elements are `width` bytes each, one after another from `base`.  The trees of the series are not
stored: `p`, two words of 64 bits, has a bit for the order of each tree, counted from `pshift`, the
order of the last one, and the sizes of the trees, in bytes, are in the array `lp`.  `sift` and
`trinkle` only note the places that a value passes, in the array `ar`; `cycle` then moves the
elements, in pieces of 256 bytes.

Out of range indices of `lp` and `ar`, pointers and accesses outside of the elements, shifts by the
width of a word and `a_ctz_l(0)` have no value, so the result of a function here says that there are
none.
-/

namespace Musl.Stdlib.Smoothsort

open Musl.Lib.Leonardo List Option Function

/-! ### The call -/

abbrev Mem := ℕ → UInt8

/-- The arguments; the comparison function is called with `arg` and looks at the bytes of two elements. -/
structure Call where
  base : ℕ
  nel : ℕ
  width : ℕ
  cmp : List UInt8 → List UInt8 → ℤ

def lpSize : ℕ := 12 * 8

def arSize : ℕ := 14 * 8 + 1

def bytes (mem : Mem) (p l : ℕ) : List UInt8 := (List.range l).map fun x => mem (p + x)

def store (mem : Mem) (p : ℕ) (bs : List UInt8) : Mem :=
  fun q => if p ≤ q ∧ q < p + bs.length then bs.getD (q - p) 0 else mem q

namespace Call

variable (c : Call)

/-- `size = width * nel`. -/
def size : ℕ := c.width * c.nel % 2 ^ 64

def Inside (p l : ℕ) : Prop := c.base ≤ p ∧ p + l ≤ c.base + c.size

instance (p l : ℕ) : Decidable (c.Inside p l) := inferInstanceAs (Decidable (_ ∧ _))

/-- `p - n`. -/
def back (p n : ℕ) : Option ℕ := if c.base + n ≤ p then some (p - n) else none

def compare (mem : Mem) (p q : ℕ) : Option ℤ :=
  if c.Inside p c.width ∧
    c.Inside q c.width then some (c.cmp (bytes mem p c.width) (bytes mem q c.width)) else none

end Call

/-! ### The bits of the orders -/

/-- `a_ctz_l`; the result for 0 is undefined. -/
def ntz (x : ℕ) : Option ℕ := (List.range 64).find? fun i => x.testBit i

def pntz (p : ℕ × ℕ) : Option ℕ := do
  let r ← ntz ((p.1 + (2 ^ 64 - 1)) % 2 ^ 64)
  if r ≠ 0 then return r
  let r ← ntz p.2
  if 64 + r ≠ 64 then return 64 + r else return 0

def shl (p : ℕ × ℕ) (n : ℕ) : Option (ℕ × ℕ) :=
  let q := if n ≥ 64 then (0, p.1) else p
  let n := if n ≥ 64 then n - 64 else n
  if n = 0 ∨ n ≥ 64 then none
  else some ((q.1 <<< n) % 2 ^ 64, (q.2 <<< n) % 2 ^ 64 ||| q.1 >>> (64 - n))

def shr (p : ℕ × ℕ) (n : ℕ) : Option (ℕ × ℕ) :=
  let q := if n ≥ 64 then (p.2, 0) else p
  let n := if n ≥ 64 then n - 64 else n
  if n = 0 ∨ n ≥ 64 then none
  else some (q.1 >>> n ||| (q.2 <<< (64 - n)) % 2 ^ 64, q.2 >>> n)

/-! ### Moving elements -/

/-- The inner loop of `cycle`: each piece gets the bytes of the next one, the last piece those in
`tmp`. -/
def copyAlong (c : Call) (tmp : List UInt8) (l : ℕ) : List ℕ → Mem → Option Mem
  | [], mem => some mem
  | [p], mem => if c.Inside p l then some (store mem p tmp) else none
  | p :: q :: ar, mem =>
    if c.Inside p l ∧ c.Inside q l ∧ (p + l ≤ q ∨ q + l ≤ p) then copyAlong c tmp l (q :: ar)
    (store mem p (bytes mem q l))
    else none

/-- The outer loop: `width` bytes of each element are left. -/
def cycleLoop (c : Call) (width : ℕ) (ar : List ℕ) (mem : Mem) : Option Mem :=
  if _h : width = 0 then some mem
  else
    match ar with
    | [] => some mem
    | p :: ps => do
      let l := min 256 width
      let mem ← copyAlong c (bytes mem p l) l (p :: ps) mem
      cycleLoop c (width - l) ((p :: ps).map (· + l)) mem
termination_by width
decreasing_by omega

/-- `cycle`; `ar[n]` is the pointer to `tmp`. -/
def cycle (c : Call) (ar : List ℕ) (mem : Mem) : Option Mem :=
  if ar.length < 2 then some mem
  else if ar.length < arSize then cycleLoop c c.width ar mem
  else none

/-! ### Sifting and trinkling -/

section

variable (c : Call) (mem : Mem) (lp : List ℕ)

/-- `ar[i++] = p`. -/
def push (ar : List ℕ) (p : ℕ) : Option (List ℕ) := if ar.length < arSize then some (ar ++ [p]) else none

/-- The loop of `sift`; `ar0` is `ar[0]`. -/
def siftLoop (ar0 : ℕ) : ℕ → ℕ → List ℕ → Option (List ℕ)
  | 0, _, ar => some ar
  | 1, _, ar => some ar
  | pshift + 2, head, ar => do
    let rt ← c.back head c.width
    let lf ← c.back rt (← lp[pshift]?)
    let lfLess ← c.compare mem ar0 lf
    let rtLess ← c.compare mem ar0 rt
    let order ← c.compare mem lf rt
    if lfLess ≥ 0 ∧ rtLess ≥ 0 then some ar
    else if order ≥ 0 then siftLoop ar0 (pshift + 1) lf (← push ar lf)
    else siftLoop ar0 pshift rt (← push ar rt)

def sift (head pshift : ℕ) : Option Mem := do
  let ar ← siftLoop c mem lp head pshift head [head]
  cycle c ar mem

/-- A child of the current root is not less than `stepson`. -/
def childStops (head pshift stepson : ℕ) : Option Bool :=
  match pshift with
  | 0 => some false
  | 1 => some false
  | pshift + 2 => do
    let rt ← c.back head c.width
    let lf ← c.back rt (← lp[pshift]?)
    let rtLess ← c.compare mem rt stepson
    let lfLess ← c.compare mem lf stepson
    some (decide (rtLess ≥ 0 ∨ lfLess ≥ 0))

/-- What is left of the loop of `trinkle`. -/
structure Trinkled where
  ar : List ℕ
  head : ℕ
  pshift : ℕ
  trusty : Bool

/-- `!trusty && pshift > 1` and one of the comparisons. -/
def stops (s : Trinkled) (stepson : ℕ) : Option Bool :=
  if s.trusty then some false else childStops c mem lp s.head s.pshift stepson

/-- The test at the beginning of the loop of `trinkle`: the root of the next tree, if the loop goes
on to it. -/
def nextRoot (ar0 : ℕ) (p : ℕ × ℕ) (s : Trinkled) : Option (Option ℕ) :=
  if p = (1, 0) then some none
  else do
    let stepson ← c.back s.head (← lp[s.pshift]?)
    let stepsonLess ← c.compare mem stepson ar0
    let stop ← stops c mem lp s stepson
    some (if stepsonLess ≤ 0 ∨ stop then none else some stepson)

/-- The loop of `trinkle`; `ar` has `room` entries left. -/
def trinkleLoop (ar0 : ℕ) : ℕ → ℕ × ℕ → Trinkled → Option Trinkled
  | 0, p, s => do
    match ← nextRoot c mem lp ar0 p s with
    | none => some s
    | some _ => none
  | room + 1, p, s => do
    match ← nextRoot c mem lp ar0 p s with
    | none => some s
    | some stepson =>
      let trail ← pntz p
      trinkleLoop ar0 room (← shr p trail) ⟨s.ar ++ [stepson], stepson, s.pshift + trail, false⟩

def trinkle (head : ℕ) (p : ℕ × ℕ) (pshift : ℕ) (trusty : Bool) : Option Mem := do
  let s ← trinkleLoop c mem lp head (arSize - 1) p ⟨[head], head, pshift, trusty⟩
  if s.trusty then some mem
  else sift c (← cycle c s.ar mem) lp s.head s.pshift

end

/-! ### The two phases -/

/-- The loop that computes `lp`, with `room` entries left. -/
def lpLoop (width size : ℕ) : ℕ → List ℕ → Option (List ℕ)
  | 0, _ => none
  | room + 1, lp =>
    let x := (lp.getD (lp.length - 2) 0 + lp.getD (lp.length - 1) 0 + width) % 2 ^ 64
    if x < size then lpLoop width size room (lp ++ [x]) else some (lp ++ [x])

/-- The variables of `__qsort_r` that change. -/
structure State where
  mem : Mem
  p : ℕ × ℕ
  pshift : ℕ
  head : ℕ

section

variable (c : Call) (lp : List ℕ)

/-- `lp[pshift - 1]`. -/
def lpBefore (pshift : ℕ) : Option ℕ := if pshift = 0 then none else lp[pshift - 1]?

/-- The tree of `head` stays to the end, or not. -/
def settle (high : ℕ) (s : State) : Option Mem := do
  let before ← lpBefore lp s.pshift
  if before ≥ high - s.head then trinkle c s.mem lp s.head s.p s.pshift false
    else sift c s.mem lp s.head s.pshift

def shiftOrders (p : ℕ × ℕ) (pshift : ℕ) : Option (ℕ × ℕ) :=
  if pshift = 1 then shl p 1 else shl p (pshift - 1)

def grow (high : ℕ) (s : State) : Option State :=
  if s.p.1 &&& 3 = 3 then do
    let mem ← sift c s.mem lp s.head s.pshift
    let p ← shr s.p 2
    some { mem, p := (p.1 ||| 1, p.2), pshift := s.pshift + 2, head := s.head + c.width }
  else do
    let mem ← settle c lp high s
    let p ← shiftOrders s.p s.pshift
    some { mem, p := (p.1 ||| 1, p.2), pshift := if s.pshift = 1 then 0 else 1, head := s.head + c.width }

def growLoop (high : ℕ) : ℕ → State → Option State
  | 0, s => if s.head < high then none else some s
  | rounds + 1, s => if s.head < high then (grow c lp high s).bind (growLoop high rounds) else some s

def shrink (s : State) : Option State :=
  if s.pshift ≤ 1 then do
    let trail ← pntz s.p
    let p ← shr s.p trail
    some { s with p, pshift := s.pshift + trail, head := ← c.back s.head c.width }
  else do
    let p ← shl s.p 2
    let pshift := s.pshift - 2
    let p ← shr (p.1 ^^^ 7, p.2) 1
    let lf ← c.back (← c.back s.head (← lp[pshift]?)) c.width
    let mem ← trinkle c s.mem lp lf p (pshift + 1) true
    let p ← shl p 1
    let p := (p.1 ||| 1, p.2)
    let rt ← c.back s.head c.width
    let mem ← trinkle c mem lp rt p pshift true
    some { mem, p, pshift, head := rt }

def shrinkLoop : ℕ → State → Option State
  | 0, s => if s.pshift = 1 ∧ s.p = (1, 0) then some s else none
  | rounds + 1, s =>
    if s.pshift = 1 ∧ s.p = (1, 0) then some s else (shrink c lp s).bind (shrinkLoop rounds)

end

/-- `__qsort_r`; each loop has at most `nel` rounds. -/
def qsortR (c : Call) (mem : Mem) : Option Mem :=
  if c.size = 0 then some mem
  else do
    let high := c.base + c.size - c.width
    let lp ← lpLoop c.width c.size (lpSize - 2) [c.width, c.width]
    let s ← growLoop c lp high c.nel { mem, p := (1, 0), pshift := 1, head := c.base }
    let mem ← trinkle c s.mem lp s.head s.p s.pshift false
    let s ← shrinkLoop c lp c.nel { s with mem }
    some s.mem

/-! ### The bits of a series -/

section Bits

variable {k k' n x : ℕ} {ks : List ℕ}

/-- The word that has a bit for each order, counted from the first. -/
def orderBits : List ℕ → ℕ
  | [] => 0
  | [_] => 1
  | k :: k' :: ks => 2 ^ (k' - k) * orderBits (k' :: ks) + 1

lemma shl_word (hn0 : 0 < n) (hn : n < 64) (hx : 2 ^ n * x < 2 ^ 64) :
    shl (x, 0) n = some (2 ^ n * x, 0) := by
  have hsplit : 2 ^ 64 = 2 ^ n * 2 ^ (64 - n) := by rw [← pow_add, Nat.add_sub_cancel' hn.le]
  have hlt : x < 2 ^ (64 - n) := by
    rw [hsplit] at hx
    exact Nat.lt_of_mul_lt_mul_left hx
  simp only [shl, if_neg (not_le.2 hn), if_neg (show ¬(n = 0 ∨ n ≥ 64) by omega)]
  rw [Nat.shiftLeft_eq, mul_comm, Nat.mod_eq_of_lt hx, Nat.zero_shiftLeft, Nat.shiftRight_eq_div_pow,
    Nat.div_eq_of_lt hlt]
  rfl

lemma shr_word (hn0 : 0 < n) (hn : n < 64) : shr (x, 0) n = some (x / 2 ^ n, 0) := by
  simp only [shr, if_neg (not_le.2 hn), if_neg (show ¬(n = 0 ∨ n ≥ 64) by omega)]
  rw [Nat.zero_shiftLeft, Nat.shiftRight_eq_div_pow]
  simp

lemma or_one (x : ℕ) : 2 * x ||| 1 = 2 * x + 1 :=
  (Nat.two_pow_add_eq_or_of_lt (i := 1) (by decide) x).symm

lemma orderBits_odd (k : ℕ) (ks : List ℕ) (h : ∀ k' ∈ ks.head?, k < k') :
    orderBits (k :: ks) % 2 = 1 := by
  cases ks with
  | nil => rfl
  | cons k' ks =>
    obtain ⟨d, hd⟩ := Nat.exists_eq_add_one.2 (Nat.sub_pos_of_lt (h k' rfl))
    rw [orderBits, hd, pow_succ', mul_assoc]
    omega

lemma orderBits_ne_one (h : (k :: k' :: ks).Pairwise (· < ·)) : orderBits (k :: k' :: ks) ≠ 1 := by
  have hodd :=
    orderBits_odd k' ks fun l hl => (pairwise_cons.1 (pairwise_cons.1 h).2).1 l (mem_of_head? hl)
  have hpow := Nat.two_pow_pos (k' - k)
  intro hone
  rcases mul_eq_zero.1 (Nat.succ.inj hone) with h0 | h0 <;> omega

lemma ntz_mul (hn : n < 64) (hx : x % 2 = 1) : ntz (2 ^ n * x) = some n := by
  rw [ntz, find?_range_eq_some]
  refine ⟨?_, mem_range.2 hn, fun j hj => ?_⟩
  · rw [Nat.testBit_two_pow_mul]
    simp [hx]
  · rw [Nat.testBit_two_pow_mul]
    simp [hj]

lemma pntz_orderBits (hlt : k < k') (hn : k' - k < 64) (hgap : ∀ l ∈ ks.head?, k' < l)
    (hb : orderBits (k :: k' :: ks) < 2 ^ 64) : pntz (orderBits (k :: k' :: ks), 0) = some (k' - k) := by
  have hodd := orderBits_odd k' ks hgap
  have hsub : (orderBits (k :: k' :: ks) + (2 ^ 64 - 1)) % 2 ^ 64 =
      2 ^ (k' - k) * orderBits (k' :: ks) := by
    rw [orderBits] at hb ⊢
    omega
  rw [pntz]
  simp only [hsub, ntz_mul hn hodd, bind_eq_bind, bind_some]
  rw [if_pos (by omega)]
  rfl

/-- Bit `r` is the lowest one above bit 0 in the two words together. -/
def NextTree (p : ℕ × ℕ) (r : ℕ) : Prop :=
  0 < r ∧ (2 ^ 64 * p.2 + p.1).testBit r = true ∧ ∀ j < r, 0 < j → (2 ^ 64 * p.2 + p.1).testBit j = false

/-- `a_ctz_l` on a machine where the count of the word 0 is `zero`. -/
def ntzAt (zero : ℤ) (x : ℕ) : ℤ := ((ntz x).map Nat.cast).getD zero

/-- `pntz` on such a machine. -/
def pntzAt (zero : ℤ) (p : ℕ × ℕ) : ℤ :=
  let r := ntzAt zero ((p.1 + (2 ^ 64 - 1)) % 2 ^ 64)
  if r ≠ 0 then r
  else if 64 + ntzAt zero p.2 ≠ 64 then 64 + ntzAt zero p.2 else 0

lemma NextTree.unique {p : ℕ × ℕ} {r r' : ℕ} (h : NextTree p r) (h' : NextTree p r') : r = r' := by
  obtain ⟨hpos, hset, hclear⟩ := h
  obtain ⟨hpos', hset', hclear'⟩ := h'
  rcases Nat.lt_trichotomy r r' with hlt | heq | hgt
  · exact absurd (hset.symm.trans (hclear' r hlt hpos)) (by decide)
  · exact heq
  · exact absurd (hset'.symm.trans (hclear r' hgt hpos')) (by decide)

lemma exists_ntz (hx : x ≠ 0) (hlt : x < 2 ^ 64) :
    ∃ r, ntz x = some r ∧ x.testBit r = true ∧ ∀ j < r, x.testBit j = false := by
  obtain ⟨i, hi⟩ := Nat.exists_testBit_of_ne_zero hx
  have hi64 : i ∈ List.range 64 :=
    mem_range.2 (by_contra fun h => by simp [Nat.testBit_lt_two_pow (hlt.trans_le
      (Nat.pow_le_pow_right (by decide) (Nat.le_of_not_lt h)))] at hi)
  obtain ⟨r, hr⟩ := isSome_iff_exists.1 (find?_isSome.2 ⟨i, hi64, hi⟩)
  obtain ⟨hset, -, hclear⟩ := find?_range_eq_some.1 hr
  exact ⟨r, hr, hset, fun j hj => by simpa using hclear j hj⟩

section

variable {p : ℕ × ℕ} (hlt : p.1 < 2 ^ 64)
include hlt

lemma nextTree_first (hodd : p.1 % 2 = 1) (hone : p.1 ≠ 1) :
    ∃ r, ntz ((p.1 + (2 ^ 64 - 1)) % 2 ^ 64) = some r ∧ r ≠ 0 ∧ NextTree p r := by
  obtain ⟨k, hk⟩ : ∃ k, p.1 = 2 * k + 1 := ⟨p.1 / 2, by omega⟩
  have hsub : (p.1 + (2 ^ 64 - 1)) % 2 ^ 64 = 2 * k := by omega
  have hbits (j : ℕ) (hj : 0 < j) : (2 * k).testBit j = p.1.testBit j := by
    obtain ⟨j, rfl⟩ := Nat.exists_eq_add_one.2 hj
    rw [hk, Nat.testBit_add_one, Nat.testBit_add_one, show (2 * k + 1) / 2 = 2 * k / 2 by omega]
  obtain ⟨r, hr, hset, hclear⟩ := exists_ntz (x := 2 * k) (by omega) (by omega)
  have h0 : r ≠ 0 := by
    rintro rfl
    simp at hset
  have hr64 : r < 64 := mem_range.1 (find?_range_eq_some.1 hr).2.1
  refine ⟨r, hsub ▸ hr, h0, Nat.pos_of_ne_zero h0, ?_, fun j hj hpos => ?_⟩
  · rw [Nat.testBit_two_pow_mul_add _ hlt, if_pos hr64, ← hbits r (Nat.pos_of_ne_zero h0), hset]
  · rw [Nat.testBit_two_pow_mul_add _ hlt, if_pos (hj.trans hr64), ← hbits j hpos, hclear j hj]

lemma nextTree_second (hone : p.1 = 1) (hclear : ∀ j < r, p.2.testBit j = false)
    (hset : p.2.testBit r = true) :
    NextTree p (64 + r) := by
  refine ⟨by omega, ?_, fun j hj hpos => ?_⟩
  · rw [Nat.testBit_two_pow_mul_add _ hlt, if_neg (by omega), Nat.add_sub_cancel_left, hset]
  · rw [Nat.testBit_two_pow_mul_add _ hlt]
    split
    · rw [hone, Bool.eq_false_iff, ne_eq, Nat.testBit_one_eq_true_iff_self_eq_zero]
      exact hpos.ne'
    · exact hclear _ (by omega)

/-- **`pntz` finds the next tree unless the first word is 1.**  The count of the word 0 is taken
then.  It is not defined on x86_64.  Where it is 0, the next tree is found but for the lowest bit of
the second word, whose distance is taken for that of no tree; any other count is returned, and is
right only by chance. -/
theorem pntz_next_iff (hlt' : p.2 < 2 ^ 64) (hodd : p.1 % 2 = 1) (hother : p.1 ≠ 1 ∨ p.2 ≠ 0) :
    ((∃ r, pntz p = some r ∧ NextTree p r) ↔ p.1 ≠ 1) ∧
      ∀ zero : ℤ, (∃ r : ℕ, pntzAt zero p = r ∧ NextTree p r) ↔
        (p.1 = 1 → if zero = 0 then p.2 % 2 = 0 else ∃ k : ℕ, ntz p.2 = some k ∧ zero = 64 + k) := by
  by_cases hone : p.1 = 1
  · have hnone : ntz ((p.1 + (2 ^ 64 - 1)) % 2 ^ 64) = none := by
      rw [hone]
      decide +kernel
    obtain ⟨r, hr, hset, hclear⟩ := exists_ntz (hother.resolve_left (not_not.2 hone)) hlt'
    have hfail : pntz p = none := by
      rw [pntz, hnone]
      rfl
    have hnext : NextTree p (64 + r) := nextTree_second hlt hone hclear hset
    refine ⟨by simp [hfail, hone], fun zero => ?_⟩
    have hzero : ntzAt zero ((p.1 + (2 ^ 64 - 1)) % 2 ^ 64) = zero := by rw [ntzAt, hnone]; rfl
    have hsecond : ntzAt zero p.2 = r := by rw [ntzAt, hr]; rfl
    rw [pntzAt, hzero, hsecond]
    simp only [hone, true_implies]
    by_cases h0 : zero = 0
    · rw [if_pos h0, if_neg (not_not.2 h0)]
      by_cases hr0 : r = 0
      · -- the distance 64 is taken for that of no tree
        rw [hr0, Nat.testBit_zero, decide_eq_true_eq] at hset
        rw [hr0, if_neg (by simp)]
        refine iff_of_false ?_ (by omega)
        rintro ⟨r', hr', hpos, -⟩
        omega
      · have hbit := hclear 0 (Nat.pos_of_ne_zero hr0)
        rw [Nat.testBit_zero, decide_eq_false_iff_not] at hbit
        rw [if_pos (by omega)]
        exact iff_of_true ⟨64 + r, by simp, hnext⟩ (by omega)
    · -- the count is returned
      rw [if_neg h0, if_pos h0]
      constructor
      · rintro ⟨r', hr', hnext'⟩
        rw [hnext'.unique hnext] at hr'
        exact ⟨r, hr, by simpa using hr'⟩
      · rintro ⟨k, hk, hzk⟩
        cases hr.symm.trans hk
        exact ⟨64 + r, by simp [hzk], hnext⟩
  · obtain ⟨r, hr, h0, hnext⟩ := nextTree_first hlt hodd hone
    have hfound : pntz p = some r := by
      rw [pntz, hr]
      simp [h0]
    refine ⟨iff_of_true ⟨r, hfound, hnext⟩ hone, fun zero => iff_of_true ⟨r, ?_, hnext⟩ fun h =>
      absurd h hone⟩
    have hcount : ntzAt zero ((p.1 + (2 ^ 64 - 1)) % 2 ^ 64) = r := by rw [ntzAt, hr]; rfl
    rw [pntzAt, hcount, if_pos (by exact_mod_cast h0)]

end

theorem pntz_next_five : ∃ r, pntz (5, 0) = some r ∧ NextTree (5, 0) r :=
  (pntz_next_iff (by decide) (by decide) (by decide) (by decide)).1.2 (by decide)

/-- The lowest bit of the second word is not found where the count of 0 is 0, nor where it is 32 or -1. -/
theorem pntz_boundary :
    NextTree (1, 1) 64 ∧ pntz (1, 1) = none ∧ pntzAt 0 (1, 1) = 0 ∧ pntzAt 32 (1, 1) = 32 ∧
    pntzAt (-1) (1, 1) = -1 :=
  ⟨nextTree_second (r := 0) (by decide) rfl
    (by decide) rfl, by decide +kernel, by decide +kernel, by decide +kernel,
    by decide +kernel⟩

lemma shr_orderBits (hlt : k < k') (hn : k' - k < 64) :
    shr (orderBits (k :: k' :: ks), 0) (k' - k) = some (orderBits (k' :: ks), 0) := by
  have hpow : 1 < 2 ^ (k' - k) := Nat.one_lt_two_pow (by omega)
  rw [shr_word (by omega) hn, orderBits, Nat.mul_add_div (by omega), Nat.div_eq_of_lt hpow, add_zero]

lemma orderBits_and_three (hlt : ∀ k' ∈ ks.head?, k < k') (hks : Gaps ks) :
    orderBits (k :: ks) &&& 3 = 3 ↔ ks.head? = some (k + 1) := by
  rw [show 3 = 2 ^ 2 - 1 by rfl, Nat.and_two_pow_sub_one_eq_mod]
  cases ks with
  | nil => simp [orderBits]
  | cons k' ks =>
    have hk' := hlt k' rfl
    have hodd := orderBits_odd k' ks fun l hl => Nat.lt_of_succ_lt (hks.le l hl)
    rw [orderBits, head?_cons, some.injEq]
    obtain ⟨d, hd⟩ := Nat.exists_eq_add_one.2 (Nat.sub_pos_of_lt hk')
    cases d with
    | zero =>
      rw [hd]
      omega
    | succ d =>
      rw [hd, pow_succ', pow_succ', mul_assoc, mul_assoc]
      omega

lemma orderBits_merge (h : Shape k ((k + 1) :: ks)) :
    orderBits (k :: (k + 1) :: ks) / 2 ^ 2 ||| 1 = orderBits ((k + 2) :: ks) := by
  cases ks with
  | nil => simp [orderBits]
  | cons k' ks =>
    obtain ⟨d, rfl⟩ := Nat.exists_eq_add_of_le h.gaps.1
    have h1 : k + 1 + 2 + d - (k + 1) = d + 2 := by omega
    have h2 : k + 1 + 2 + d - (k + 2) = d + 1 := by omega
    have hdiv : (2 ^ 1 * (2 ^ (d + 2) * orderBits ((k + 1 + 2 + d) :: ks) + 1) + 1) / 2 ^ 2 =
        2 * (2 ^ d * orderBits ((k + 1 + 2 + d) :: ks)) := by
      have hpow : 2 ^ (d + 2) * orderBits ((k + 1 + 2 + d) :: ks) =
          4 * (2 ^ d * orderBits ((k + 1 + 2 + d) :: ks)) := by
        ring
      omega
    rw [orderBits, orderBits, orderBits, Nat.add_sub_cancel_left, h1, h2, hdiv, or_one]
    ring

lemma orderBits_add (hk : n < k) :
    2 ^ (k - n) * orderBits (k :: ks) ||| 1 = orderBits (n :: k :: ks) := by
  obtain ⟨d, hd⟩ := Nat.exists_eq_add_one.2 (Nat.sub_pos_of_lt hk)
  rw [orderBits, hd, pow_succ, mul_comm (2 ^ d), mul_assoc, or_one]

lemma orderBits_split (h : Shape (k + 2) ks) :
    (2 ^ 2 * orderBits ((k + 2) :: ks) ^^^ 7) / 2 ^ 1 = orderBits ((k + 1) :: ks) := by
  have hodd := orderBits_odd (k + 2) ks h.lt
  obtain ⟨q, hq⟩ : ∃ q, orderBits ((k + 2) :: ks) = 2 * q + 1 := ⟨orderBits ((k + 2) :: ks) / 2, by omega⟩
  have hxor : 2 ^ 2 * (2 * q + 1) ^^^ 7 = 8 * q + 3 := by
    have hdiv : (2 ^ 2 * (2 * q + 1) ^^^ 7) / 2 ^ 3 = q := by
      rw [Nat.xor_div_two_pow, show 2 ^ 2 * (2 * q + 1) / 2 ^ 3 = q by omega]
      simp
    have hmod : (2 ^ 2 * (2 * q + 1) ^^^ 7) % 2 ^ 3 = 3 := by
      rw [Nat.xor_mod_two_pow, show 2 ^ 2 * (2 * q + 1) % 2 ^ 3 = 4 by omega]
      decide
    omega
  have hval : orderBits ((k + 1) :: ks) = 4 * q + 1 := by
    cases ks with
    | nil =>
      rw [orderBits] at hq ⊢
      omega
    | cons k' ks =>
      have hlt := h.lt k' rfl
      have hsub : k' - (k + 1) = k' - (k + 2) + 1 := by omega
      rw [orderBits] at hq ⊢
      rw [hsub, pow_succ]
      rw [mul_assoc, mul_left_comm]
      omega
  rw [hq]
  omega

section

variable (h : (k :: ks).Pairwise (· < ·)) (hks : ∀ l ∈ k :: ks, l < 64)

include h hks

lemma orderBits_lt : 2 ^ k * (orderBits (k :: ks) + 1) ≤ 2 ^ 64 := by
  induction ks generalizing k with
  | nil =>
    have hk := hks k mem_cons_self
    rw [orderBits, ← pow_succ]
    exact Nat.pow_le_pow_right (by decide) hk
  | cons k' ks ih =>
    rw [pairwise_cons] at h
    have hlt := h.1 k' mem_cons_self
    have hrec := ih h.2 (forall_mem_cons.1 hks).2
    obtain ⟨d, rfl⟩ := Nat.exists_eq_add_of_lt hlt
    have hd : k + d + 1 - k = d + 1 := by omega
    rw [orderBits, hd]
    calc 2 ^ k * (2 ^ (d + 1) * orderBits ((k + d + 1) :: ks) + 1 + 1)
        = 2 ^ (k + d + 1) * orderBits ((k + d + 1) :: ks) + 2 ^ (k + 1) := by ring
      _ ≤ 2 ^ (k + d + 1) * orderBits ((k + d + 1) :: ks) + 2 ^ (k + d + 1) :=
          Nat.add_le_add_left (Nat.pow_le_pow_right (by decide) (by omega)) _
      _ = 2 ^ (k + d + 1) * (orderBits ((k + d + 1) :: ks) + 1) := by ring
      _ ≤ 2 ^ 64 := hrec

lemma shift_orderBits_lt (hn : n ≤ k) : 2 ^ n * orderBits (k :: ks) < 2 ^ 64 := by
  have hle := orderBits_lt h hks
  have hmul := Nat.mul_le_mul_right (orderBits (k :: ks)) (Nat.pow_le_pow_right (show 0 < 2 by decide) hn)
  have hpos := Nat.two_pow_pos k
  rw [mul_add] at hle
  omega

end

end Bits

section Elements

variable {c : Call} {mem mem' : Mem} {i j x l : ℕ}

namespace Call

def addr (c : Call) (i : ℕ) : ℕ := c.base + i * c.width

def array (c : Call) (mem : Mem) : ℕ → List UInt8 := fun i => bytes mem (c.addr i) c.width

def column (c : Call) (mem : Mem) (x : ℕ) : ℕ → UInt8 := fun i => mem (c.addr i + x)

def le (c : Call) (x y : List UInt8) : Prop := c.cmp x y ≤ 0

instance (c : Call) : DecidableRel c.le := fun x y => inferInstanceAs (Decidable (c.cmp x y ≤ 0))

/-- The comparison function is a total preorder, an element has at least one byte, and `size` does
not overflow. -/
structure Ordered (c : Call) : Prop where
  swap : ∀ x y, c.cmp x y ≤ 0 ↔ 0 ≤ c.cmp y x
  trans : ∀ x y z, c.cmp x y ≤ 0 → c.cmp y z ≤ 0 → c.cmp x z ≤ 0
  width : 0 < c.width
  size : c.width * c.nel < 2 ^ 64

/-- What is assumed of a call of `qsort_r`: besides, there are fewer elements than a tree of order
64 has, about 3.4 * 10^13. -/
structure Valid (c : Call) : Prop extends Ordered c where
  nel : c.nel < leonardo 64

lemma Valid.total (h : c.Valid) : Std.Total c.le where
  total x y := by
    rcases le_total (c.cmp x y) 0 with hle | hle
    · exact .inl hle
    · exact .inr ((h.swap y x).2 hle)

lemma Valid.isTrans (h : c.Valid) : IsTrans _ c.le := ⟨h.trans⟩

lemma Ordered.size_eq (h : c.Ordered) : c.size = c.width * c.nel := by
  rw [Call.size, Nat.mod_eq_of_lt h.size]

/-- An entry of `lp`, computed with wrap-around, reaches `size`. -/
def TableFits (c : Call) : Prop :=
  ∃ i, 2 ≤ i ∧ i < lpSize ∧ c.width * c.nel ≤ c.width * leonardo i % 2 ^ 64

end Call

lemma array_eq_column (c : Call) (mem : Mem) (i : ℕ) :
    c.array mem i = (range c.width).map fun x => c.column mem x i := rfl

lemma addr_add_le (c : Call) (hij : i < j) (hx : x ≤ c.width) : c.addr i + x ≤ c.addr j := by
  obtain ⟨d, rfl⟩ := Nat.exists_eq_add_of_lt hij
  simp only [Call.addr, add_mul]
  omega

lemma addr_apart (c : Call) (hij : i ≠ j) :
    c.addr i + c.width ≤ c.addr j ∨ c.addr j + c.width ≤ c.addr i :=
  (lt_or_gt_of_ne hij).imp (fun hlt => addr_add_le c hlt le_rfl) fun hlt => addr_add_le c hlt le_rfl

lemma inside_addr (h : c.Ordered) (hi : i < c.nel) (hx : x + l ≤ c.width) :
    c.Inside (c.addr i + x) l := by
  have hle := addr_add_le c hi (le_refl c.width)
  have hend : c.addr c.nel = c.base + c.width * c.nel := by rw [Call.addr, mul_comm]
  refine ⟨?_, ?_⟩
  · rw [Call.addr]
    omega
  · rw [h.size_eq]
    omega

lemma compare_addr (h : c.Ordered) (hi : i < c.nel) (hj : j < c.nel) :
    c.compare mem (c.addr i) (c.addr j) = some (c.cmp (c.array mem i) (c.array mem j)) := by
  rw [Call.compare, if_pos ⟨inside_addr (x := 0) h hi (by omega), inside_addr (x := 0) h hj (by omega)⟩]
  rfl

lemma back_addr (hi : j ≤ i) : c.back (c.addr i) (c.width * j) = some (c.addr (i - j)) := by
  have hmul : i * c.width = (i - j) * c.width + c.width * j := by
    rw [mul_comm c.width, ← add_mul, Nat.sub_add_cancel hi]
  rw [Call.back, Call.addr, Call.addr, if_pos (by omega)]
  congr 1
  omega

lemma back_width (hi : 1 ≤ i) : c.back (c.addr i) c.width = some (c.addr (i - 1)) := by
  have hback := back_addr (c := c) hi
  rwa [mul_one] at hback

end Elements

section Cycle

variable {c : Call} {mem mem' : Mem} {i j x l done : ℕ} {is : List ℕ}

@[simp] lemma length_bytes (mem : Mem) (p l : ℕ) : (bytes mem p l).length = l := by
  rw [bytes, length_map, length_range]

lemma getD_bytes (mem : Mem) (p : ℕ) (h : x < l) : (bytes mem p l).getD x 0 = mem (p + x) := by
  simp [bytes, h]

lemma column_store (bs : List UInt8) (hlen : done + bs.length ≤ c.width) (hx : x < c.width) :
    c.column (store mem (c.addr i + done) bs) x =
      if done ≤ x ∧ x < done + bs.length then Function.update (c.column mem x) i (bs.getD (x - done) 0)
      else c.column mem x := by
  funext j
  by_cases hj : j = i
  · subst hj
    simp only [Call.column, store]
    by_cases hin : done ≤ x ∧ x < done + bs.length
    · rw [if_pos hin, if_pos (by omega), update_self]
      congr 1
      omega
    · rw [if_neg hin, if_neg (by omega), Call.column]
  · have hout : ¬(c.addr i + done ≤ c.addr j + x ∧ c.addr j + x < c.addr i + done + bs.length) := by
      have hapart := addr_apart c hj
      omega
    simp only [Call.column, store]
    split_ifs
    · rw [update_of_ne hj]
      rfl
    · rfl

/-- Each entry gets the value of the next one, the last one the value `v`. -/
def pull {β : Type*} (s : ℕ → β) (v : β) : List ℕ → ℕ → β
  | [] => s
  | [i] => Function.update s i v
  | i :: j :: is => pull (Function.update s i (s j)) v (j :: is)

lemma pull_eq {β : Type*} (s : ℕ → β) (v : β) (h : (i :: is).Nodup) :
    pull s v (i :: is) = Function.update s i v ∘ (i :: is).formPerm := by
  induction is generalizing s i with
  | nil => rfl
  | cons j is ih =>
    have hij : i ≠ j := fun heq => (nodup_cons.1 h).1 (heq ▸ mem_cons_self)
    rw [pull, ih _ (nodup_cons.1 h).2, formPerm_cons_cons, Equiv.Perm.coe_mul, ← comp_assoc]
    congr 1
    funext x
    by_cases hx : x = j
    · subst hx
      rw [update_self, comp_swap_right, update_self]
    · rw [update_of_ne hx]
      by_cases hxi : x = i
      · subst hxi
        rw [update_self, comp_swap_left, update_of_ne hij.symm]
      · rw [update_of_ne hxi, comp_swap_other _ hxi hx, update_of_ne hxi]

def SameOutside (c : Call) (mem mem' : Mem) : Prop :=
  ∀ p, p < c.base ∨ c.base + c.width * c.nel ≤ p → mem' p = mem p

lemma SameOutside.trans {mem'' : Mem} (h : SameOutside c mem mem') (h' : SameOutside c mem' mem'') :
    SameOutside c mem mem'' := fun p hp => by rw [h' p hp, h p hp]

lemma sameOutside_store (h : c.Valid) (bs : List UInt8) (hin : c.Inside (c.addr i + done) bs.length) :
    SameOutside c mem (store mem (c.addr i + done) bs) := by
  intro p hp
  rw [Call.Inside, h.toOrdered.size_eq] at hin
  rw [store, if_neg (by omega)]

/-- **One piece of every element on the way.** -/
theorem copyAlong_spec (h : c.Valid) (tmp : List UInt8) (hl : done + tmp.length ≤ c.width)
    (hnd : is.Nodup) (hlt : ∀ i ∈ is, i < c.nel) (mem : Mem) :
    ∃ mem', copyAlong c tmp tmp.length (is.map fun i => c.addr i + done) mem = some mem' ∧
    SameOutside c mem mem' ∧
      ∀ x < c.width, c.column mem' x =
        if done ≤ x ∧ x < done + tmp.length then pull (c.column mem x)
        (tmp.getD (x - done) 0) is else c.column mem x := by
  induction is generalizing mem with
  | nil => exact ⟨mem, rfl, fun _ _ => rfl, fun x _ => by rw [pull, ite_self]⟩
  | cons i is ih =>
    have hi := inside_addr h.toOrdered (hlt i mem_cons_self) hl
    cases is with
    | nil =>
      refine ⟨store mem (c.addr i + done) tmp, ?_, sameOutside_store h tmp hi,
        fun x hx => column_store tmp hl hx⟩
      rw [map_cons, map_nil, copyAlong, if_pos hi]
    | cons j is =>
      have hj := inside_addr h.toOrdered (hlt j (by simp)) hl
      have hne : i ≠ j := fun heq => (nodup_cons.1 hnd).1 (heq ▸ mem_cons_self)
      have hapart := addr_apart c hne
      obtain ⟨mem', hcopy, hsame, hcol⟩ := ih (nodup_cons.1 hnd).2 (forall_mem_cons.1 hlt).2
        (store mem (c.addr i + done) (bytes mem (c.addr j + done) tmp.length))
      refine ⟨mem', ?_, (sameOutside_store h _ (by rw [length_bytes]; exact hi)).trans hsame,
        fun x hx => ?_⟩
      · rw [map_cons, map_cons, copyAlong, if_pos ⟨hi, hj, by omega⟩]
        exact hcopy
      · rw [hcol x hx, column_store _ (by rw [length_bytes]; exact hl) hx, length_bytes]
        split_ifs with hin
        · rw [pull, getD_bytes mem _ (by omega)]
          congr 2
          congr 1
          omega
        · rfl

lemma cycleLoop_spec (h : c.Valid) (hnd : (i :: is).Nodup) (hlt : ∀ j ∈ i :: is, j < c.nel) {left : ℕ}
    (hleft : done + left = c.width) (mem : Mem) :
    ∃ mem', cycleLoop c left ((i :: is).map fun j => c.addr j + done) mem = some mem' ∧
    SameOutside c mem mem' ∧
      ∀ x < c.width, c.column mem' x = if done ≤ x then c.column mem x ∘ (i :: is).formPerm
      else c.column mem x := by
  induction left using Nat.strong_induction_on generalizing done mem with
  | _ left ih =>
    rw [map_cons, cycleLoop]
    by_cases h0 : left = 0
    · exact ⟨mem, by rw [dif_pos h0], fun _ _ => rfl, fun x hx => by rw [if_neg (by omega)]⟩
    rw [dif_neg h0]
    dsimp only
    set l := min 256 left
    have hlen := length_bytes mem (c.addr i + done) l
    obtain ⟨mem1, hcopy, hsame1, hcol1⟩ := copyAlong_spec h (bytes mem (c.addr i + done) l)
      (show done + (bytes mem (c.addr i + done) l).length ≤ c.width by rw [hlen]; omega) hnd hlt mem
    rw [hlen] at hcopy hcol1
    rw [map_cons] at hcopy
    obtain ⟨mem2, hloop, hsame2, hcol2⟩ :=
      ih (left - l) (by omega) (show done + l + (left - l) = c.width by omega) mem1
    refine ⟨mem2, ?_, hsame1.trans hsame2, fun x hx => ?_⟩
    · rw [hcopy, bind_eq_bind, ← map_cons (f := fun j => c.addr j + done), List.map_map]
      simp only [comp_def, add_assoc]
      exact hloop
    · rw [hcol2 x hx, hcol1 x hx]
      by_cases hlow : done ≤ x
      · rw [if_pos hlow]
        by_cases hin : x < done + l
        · rw [if_neg (by omega), if_pos ⟨hlow, hin⟩, getD_bytes mem _ (by omega), pull_eq _ _ hnd]
          congr 1
          have hself : mem (c.addr i + done + (x - done)) = c.column mem x i := by
            congr 1
            omega
          rw [hself, update_eq_self]
        · rw [if_pos (by omega), if_neg (by omega)]
      · rw [if_neg hlow, if_neg (by omega), if_neg (by omega)]

/-- **`cycle` moves the elements along the noted places.** -/
theorem cycle_spec (h : c.Valid) (hne : is ≠ []) (hnd : is.Nodup) (hlt : ∀ i ∈ is, i < c.nel)
    (hlen : is.length < arSize)
    (mem : Mem) : ∃ mem', cycle c (is.map c.addr) mem = some mem' ∧ SameOutside c mem mem' ∧
      c.array mem' = c.array mem ∘ is.formPerm := by
  obtain ⟨i, is, rfl⟩ := exists_cons_of_ne_nil hne
  rw [cycle, length_map]
  by_cases hone : (i :: is).length < 2
  · obtain rfl : is = [] := by
      rw [← length_eq_zero_iff]
      rw [length_cons] at hone
      omega
    refine ⟨mem, by rw [if_pos hone], fun _ _ => rfl, ?_⟩
    rfl
  rw [if_neg hone, if_pos hlen]
  obtain ⟨mem', hloop, hsame, hcol⟩ := cycleLoop_spec h hnd hlt (zero_add c.width) mem
  refine ⟨mem', hloop, hsame, ?_⟩
  funext j
  rw [comp_apply, array_eq_column, array_eq_column]
  refine map_congr_left fun x hx => ?_
  rw [hcol x (mem_range.1 hx), if_pos (Nat.zero_le x), comp_apply]

end Cycle

/-! ### The places that a value passes -/

section Noted

variable {c : Call} {mem : Mem} {is : List ℕ} {h i j : ℕ}

/-- Places that are noted in `ar`, each before the one noted last. -/
structure Noted (c : Call) (is : List ℕ) (h : ℕ) : Prop where
  last : ∃ l, is = l ++ [h]
  nodup : is.Nodup
  ge : ∀ i ∈ is, h ≤ i
  lt : ∀ i ∈ is, i < c.nel

/-- The elements as they will be when the noted places are cycled. -/
def moved (c : Call) (mem : Mem) (is : List ℕ) : ℕ → List UInt8 := c.array mem ∘ is.formPerm

lemma noted_singleton (hh : h < c.nel) : Noted c [h] h :=
  ⟨⟨[], rfl⟩, nodup_singleton h, by simp, by simpa using hh⟩

lemma moved_singleton (c : Call) (mem : Mem) (h : ℕ) : moved c mem [h] = c.array mem := by
  rfl

namespace Noted

variable (n : Noted c is h)

include n

lemma ne_nil : is ≠ [] := by
  obtain ⟨l, rfl⟩ := n.last
  simp

lemma notMem (hj : j < h) : j ∉ is := fun hmem => absurd (n.ge j hmem) (not_le.2 hj)

lemma head_lt : h < c.nel := by
  obtain ⟨l, rfl⟩ := n.last
  exact n.lt h (by simp)

lemma first_lt (hi : is.head? = some i) : i < c.nel := n.lt i (mem_of_head? hi)

lemma push (hj : j < h) : Noted c (is ++ [j]) j where
  last := ⟨is, rfl⟩
  nodup := nodup_append.2 ⟨n.nodup, nodup_singleton j, fun a ha b hb => by
    rw [mem_singleton] at hb
    have hge := n.ge a ha
    omega⟩
  ge i hi := by
    rcases mem_append.1 hi with hi | hi
    · exact hj.le.trans (n.ge i hi)
    · exact (mem_singleton.1 hi).ge
  lt i hi := by
    rcases mem_append.1 hi with hi | hi
    · exact n.lt i hi
    · rw [mem_singleton.1 hi]
      exact hj.trans n.head_lt

lemma moved_below (hj : j < h) : moved c mem is j = c.array mem j := by
  rw [moved, comp_apply, formPerm_apply_of_notMem (n.notMem hj)]

lemma moved_last (hi : is.head? = some i) : moved c mem is h = c.array mem i := by
  obtain ⟨l, rfl⟩ := n.last
  rw [moved, comp_apply]
  cases l with
  | nil =>
    obtain rfl : h = i := by simpa using hi
    rfl
  | cons i' l =>
    obtain rfl : i' = i := by simpa using hi
    have hlast : (i' :: (l ++ [h])).formPerm h = i' := by
      have happly := formPerm_apply_getLast i' (l ++ [h])
      rwa [getLast_cons (by simp), getLast_append_singleton] at happly
    rw [cons_append, hlast]

lemma moved_push : moved c mem (is ++ [j]) = moved c mem is ∘ Equiv.swap h j := by
  obtain ⟨l, rfl⟩ := n.last
  rw [moved, append_assoc, singleton_append, formPerm_append_pair, Equiv.Perm.coe_mul]
  rfl

end Noted

lemma head?_push (hi : is.head? = some i) : (is ++ [j]).head? = some i := by
  rw [head?_append, hi]
  rfl

end Noted

/-! ### `sift` and `trinkle` -/

section Sift

variable {c : Call} {mem : Mem} {lp is : List ℕ} {i0 k s : ℕ}

/-- The array `lp` has the sizes of all trees that fit. -/
structure Table (c : Call) (lp : List ℕ) : Prop where
  get : ∀ {k}, leonardo k ≤ c.nel → lp[k]? = some (c.width * leonardo k)

lemma back_right (c : Call) (k s : ℕ) :
    c.back (c.addr (root (k + 2) s)) c.width = some (c.addr (right k s)) := by
  have hroot := root_add_two k s
  have hpos := leonardo_pos k
  rw [back_width (by omega), right_eq]

lemma back_left (c : Call) (k s : ℕ) :
    c.back (c.addr (right k s)) (c.width * leonardo k) = some (c.addr (left k s)) := by
  have hplaces := places k s
  have hle : leonardo k ≤ right k s := by
    have hr := right_eq k s
    omega
  rw [back_addr hle, right_eq, left_eq]

variable (h : c.Valid) (t : Table c lp)
include h t

lemma siftLoop_spec (mem : Mem) (hfit : s + leonardo k ≤ c.nel) (n : Noted c is (root k s))
    (hi : is.head? = some i0) (hlen : is.length + k ≤ arSize) :
    ∃ is' e, siftLoop c mem lp (c.addr i0) k (c.addr (root k s)) (is.map c.addr) = some (is'.map c.addr) ∧
      Noted c is' e ∧ is'.length ≤ is.length + (k - 1) ∧
      moved c mem is' = Lib.Leonardo.sift c.le k s (moved c mem is) := by
  induction k using Nat.strong_induction_on generalizing s is with
  | _ k ih =>
    match k with
    | 0 => exact ⟨is, _, rfl, n, Nat.le_add_right _ _, rfl⟩
    | 1 => exact ⟨is, _, rfl, n, Nat.le_add_right _ _, rfl⟩
    | k + 2 =>
      have hplaces := places k s
      have hl : left k s < c.nel := by omega
      have hr : right k s < c.nel := by omega
      have hi0 := n.first_lt hi
      have hpush : ∀ p, push (is.map c.addr) p = some (is.map c.addr ++ [p]) := fun p => by
        rw [push, length_map, if_pos (by omega)]
      -- the comparisons are those of the elements as they will be
      have htop : c.array mem i0 = moved c mem is (root (k + 2) s) := (n.moved_last hi).symm
      have hleft : c.array mem (left k s) = moved c mem is (left k s) := (n.moved_below (by omega)).symm
      have hright : c.array mem (right k s) = moved c mem is (right k s) :=
        (n.moved_below (by omega)).symm
      rw [siftLoop, Lib.Leonardo.sift]
      simp only [back_right, t.get (show leonardo k ≤ c.nel by omega), back_left,
        compare_addr h.toOrdered hi0 hl, compare_addr h.toOrdered hi0 hr,
        compare_addr h.toOrdered hl hr, bind_eq_bind, bind_some, htop, hleft, hright, ← h.swap, hpush]
      change ∃ is' e, (if c.le _ _ ∧ c.le _ _ then _ else if c.le _ _ then _ else _) = _ ∧ _
      -- on to the root of a subtree
      have hdown : ∀ k' s', k' < k + 2 → s' + leonardo k' ≤ c.nel → root k' s' < root (k + 2) s → ∃ is' e,
          siftLoop c mem lp (c.addr i0) k' (c.addr (root k' s')) (is.map c.addr ++
          [c.addr (root k' s')]) =
            some (is'.map c.addr) ∧ Noted c is' e ∧ is'.length ≤ is.length + (k + 2 - 1) ∧
          moved c mem is' = Lib.Leonardo.sift c.le k' s'
          (moved c mem is ∘ Equiv.swap (root (k + 2) s) (root k' s')) := by
        intro k' s' hk' hfit' hlt
        obtain ⟨is', e, hloop, hn', hlen', hmoved⟩ := ih k' hk' hfit' (n.push hlt) (head?_push hi)
          (by rw [length_append, length_singleton]; omega)
        rw [map_append] at hloop
        rw [length_append, length_singleton] at hlen'
        rw [n.moved_push] at hmoved
        exact ⟨is', e, hloop, hn', by omega, hmoved⟩
      split_ifs with hstop hside
      · exact ⟨is, _, rfl, n, Nat.le_add_right _ _, rfl⟩
      · exact hdown (k + 1) s (by omega) (by omega) (show left k s < _ by omega)
      · exact hdown k _ (by omega) (by omega) (show right k s < _ by omega)

/-- **`sift`** does what sifting does to the elements. -/
theorem sift_spec (hfit : s + leonardo k ≤ c.nel) (hk : k < 64) (mem : Mem) :
    ∃ mem', sift c mem lp (c.addr (root k s)) k = some mem' ∧ SameOutside c mem mem' ∧
      c.array mem' = Lib.Leonardo.sift c.le k s (c.array mem) := by
  have hroot := root_lt k s
  have hcap : 1 + k ≤ arSize := by
    rw [arSize]
    omega
  obtain ⟨is', e, hloop, hn, hlen, hmoved⟩ :=
    siftLoop_spec h t mem hfit (noted_singleton (by omega)) rfl hcap
  rw [length_singleton] at hlen
  have hcap' : is'.length < arSize := by
    rw [arSize]
    omega
  obtain ⟨mem', hcycle, hsame, harray⟩ := cycle_spec h hn.ne_nil hn.nodup hn.lt hcap' mem
  refine ⟨mem', ?_, hsame, ?_⟩
  · rw [sift]
    rw [map_singleton] at hloop
    rw [hloop, bind_eq_bind, bind_some, hcycle]
  · rw [harray]
    exact hmoved

lemma childStops_spec {son : ℕ} (hfit : s + leonardo k ≤ c.nel) (hson : son < s) :
    childStops c mem lp (c.addr (root k s)) k (c.addr son) =
      some (decide (ChildAbove c.le (c.array mem) k s (c.array mem son))) := by
  match k with
  | 0 => rfl
  | 1 => rfl
  | k + 2 =>
    have hplaces := places k s
    have hl : left k s < c.nel := by omega
    have hr : right k s < c.nel := by omega
    have hs : son < c.nel := by omega
    simp only [childStops, back_right, t.get (show leonardo k ≤ c.nel by omega), back_left,
      compare_addr h.toOrdered hr hs,
      compare_addr h.toOrdered hl hs, bind_eq_bind, bind_some, ← h.swap]
    rfl

variable {ks : List ℕ}

lemma nextRoot_spec {k' : ℕ} (mem : Mem) (trusty : Bool) (hks : (k :: k' :: ks).Pairwise (· < ·))
    (hfit : size (k :: k' :: ks) ≤ c.nel) (n : Noted c is (root k (size (k' :: ks))))
    (hi : is.head? = some i0) :
    nextRoot c mem lp (c.addr i0) (orderBits (k :: k' :: ks), 0)
        ⟨is.map c.addr, c.addr (root k (size (k' :: ks))), k, trusty⟩ =
      some (if c.le (moved c mem is (last (k' :: ks))) (moved c mem is (root k (size (k' :: ks)))) ∨
        trusty = false ∧
          ChildAbove c.le (moved c mem is) k (size (k' :: ks)) (moved c mem is (last (k' :: ks)))
        then none else some (c.addr (last (k' :: ks)))) := by
  have hmore : ¬(orderBits (k :: k' :: ks), 0) = (1, 0) :=
    fun heq => orderBits_ne_one hks (congrArg Prod.fst heq)
  have hsize := size_cons k (k' :: ks)
  have hlast := last_lt (cons_ne_nil k' ks)
  have hroot := le_root k (size (k' :: ks))
  have hback : c.back (c.addr (root k (size (k' :: ks)))) (c.width * leonardo k) =
      some (c.addr (last (k' :: ks))) := by
    rw [back_addr (by rw [root]; omega)]
    congr 2
    rw [root, last]
    omega
  have hson : last (k' :: ks) < c.nel := by omega
  -- the comparisons are those of the elements as they will be
  have hsonEq : c.array mem (last (k' :: ks)) = moved c mem is (last (k' :: ks)) :=
    (n.moved_below (by omega)).symm
  have hle : c.cmp (c.array mem (last (k' :: ks))) (c.array mem i0) ≤ 0 ↔
      c.le (moved c mem is (last (k' :: ks))) (moved c mem is (root k (size (k' :: ks)))) := by
    rw [hsonEq, n.moved_last hi, Call.le]
  have hchild : ChildAbove c.le (c.array mem) k (size (k' :: ks)) (c.array mem (last (k' :: ks))) ↔
      ChildAbove c.le (moved c mem is) k (size (k' :: ks)) (moved c mem is (last (k' :: ks))) := by
    rw [hsonEq]
    exact (childAbove_congr fun i _ hi => n.moved_below hi).symm
  have hstops : stops c mem lp ⟨is.map c.addr, c.addr (root k (size (k' :: ks))), k,
    trusty⟩ (c.addr (last (k' :: ks))) =
      some (decide (trusty = false ∧
        ChildAbove c.le (moved c mem is) k (size (k' :: ks)) (moved c mem is (last (k' :: ks))))) := by
    rw [stops]
    rw [childStops_spec h t (by omega) hlast]
    cases trusty with
    | true => simp
    | false => simp only [Bool.false_eq_true, if_false, true_and, hchild]
  rw [nextRoot, if_neg hmore]
  simp only [t.get (show leonardo k ≤ c.nel by omega), hback,
    compare_addr h.toOrdered hson (n.first_lt hi), bind_eq_bind,
    bind_some, hstops, hle, decide_eq_true_eq]

lemma trinkleLoop_spec {room : ℕ} (mem : Mem) (trusty : Bool) (hks : (k :: ks).Pairwise (· < ·))
    (h64 : ∀ l ∈ k :: ks, l < 64) (hfit : size (k :: ks) ≤ c.nel) (n : Noted c is (root k (size ks)))
    (hi : is.head? = some i0) (hroom : ks.length ≤ room) : ∃ is' k' ks' trusty',
      trinkleLoop c mem lp (c.addr i0) room (orderBits (k :: ks), 0)
        ⟨is.map c.addr, c.addr (root k (size ks)), k, trusty⟩ =
          some ⟨is'.map c.addr, c.addr (root k' (size ks')), k', trusty'⟩ ∧
      Noted c is' (root k' (size ks')) ∧ is'.length ≤ is.length + ks.length ∧
      size (k' :: ks') ≤ c.nel ∧ k' < 64 ∧
      (trusty' = true → trusty = true ∧ is' = is) ∧ Lib.Leonardo.trinkle c.le trusty (k :: ks)
      (moved c mem is) =
        if trusty' then moved c mem is' else Lib.Leonardo.sift c.le k' (size ks') (moved c mem is') := by
  induction ks generalizing k is room trusty with
  | nil =>
    refine ⟨is, k, [], trusty, ?_, n, Nat.le_add_right _ _, hfit, h64 k mem_cons_self,
      fun ht => ⟨ht, rfl⟩, rfl⟩
    cases room <;> rfl
  | cons k' ks ih =>
    have hnext := nextRoot_spec h t mem trusty hks hfit n hi
    by_cases hstop : c.le (moved c mem is (last (k' :: ks)))
      (moved c mem is (root k (size (k' :: ks)))) ∨ trusty = false ∧
          ChildAbove c.le (moved c mem is) k (size (k' :: ks)) (moved c mem is (last (k' :: ks)))
    · rw [if_pos hstop] at hnext
      refine ⟨is, k, k' :: ks, trusty, ?_, n, Nat.le_add_right _ _, hfit, h64 k mem_cons_self,
        fun ht => ⟨ht, rfl⟩, ?_⟩
      · cases room <;> rw [trinkleLoop, hnext] <;> rfl
      · rw [Lib.Leonardo.trinkle]
        rcases hstop with hle | hchild
        · rw [if_pos hle]
        · rw [if_pos hchild, hchild.1]
          exact ite_self _
    · -- one tree on
      rw [if_neg hstop] at hnext
      rw [not_or] at hstop
      obtain ⟨hlt, hks'⟩ := pairwise_cons.1 hks
      have hkk' := hlt k' mem_cons_self
      have hk'64 := h64 k' (mem_cons_of_mem _ mem_cons_self)
      have hgap : ∀ l ∈ ks.head?, k' < l := fun l hl => (pairwise_cons.1 hks').1 l (mem_of_head? hl)
      have hbits := shift_orderBits_lt hks h64 (Nat.zero_le k)
      rw [pow_zero, one_mul] at hbits
      have hsize := size_cons k (k' :: ks)
      have hlast := last_lt (cons_ne_nil k' ks)
      have hroot := le_root k (size (k' :: ks))
      obtain ⟨room, rfl⟩ : ∃ room', room = room' + 1 := ⟨room - 1, by rw [length_cons] at hroom; omega⟩
      have hpush := n.push (j := last (k' :: ks)) (by omega)
      rw [last_cons] at hpush
      obtain ⟨is', l, ls, trusty', hloop, hn', hlen, hfit', hl, htr, hres⟩ := ih false hks'
        (fun l hl => h64 l (mem_cons_of_mem _ hl)) (by omega) hpush (head?_push hi)
        (show ks.length ≤ room by rw [length_cons] at hroom; omega)
      rw [← last_cons, n.moved_push] at hres
      refine ⟨is', l, ls, trusty', ?_, hn', ?_, hfit', hl, fun ht => absurd (htr ht).1 (by decide), ?_⟩
      · rw [map_append, ← last_cons] at hloop
        rw [trinkleLoop, hnext]
        simp only [bind_eq_bind, bind_some, pntz_orderBits hkk' (by omega) hgap hbits,
          shr_orderBits hkk' (by omega), Nat.add_sub_cancel' hkk'.le]
        exact hloop
      · rw [length_append, length_singleton] at hlen
        rw [length_cons]
        omega
      · rw [Lib.Leonardo.trinkle, if_neg hstop.1, if_neg hstop.2]
        exact hres

/-- **`trinkle`** does what trinkling does to the elements. -/
theorem trinkle_spec (trusty : Bool) (hks : (k :: ks).Pairwise (· < ·)) (h64 : ∀ l ∈ k :: ks, l < 64)
    (hfit : size (k :: ks) ≤ c.nel) (mem : Mem) :
    ∃ mem', trinkle c mem lp (c.addr (root k (size ks))) (orderBits (k :: ks), 0) k trusty = some mem' ∧
      SameOutside c mem mem' ∧ c.array mem' = Lib.Leonardo.trinkle c.le trusty (k :: ks)
      (c.array mem) := by
  have hsize := size_cons k ks
  have hroot := root_lt k (size ks)
  have hlen : (k :: ks).length ≤ 64 := by
    have hsub : (k :: ks) ⊆ range 64 := fun l hl => mem_range.2 (h64 l hl)
    have hnd : (k :: ks).Nodup := hks.imp fun hlt => hlt.ne
    have hle := (subperm_of_subset hnd hsub).length_le
    rwa [length_range] at hle
  rw [length_cons] at hlen
  have hcap : ks.length ≤ arSize - 1 := by
    rw [arSize]
    omega
  obtain ⟨is', k', ks', trusty', hloop, hn, hlen', hfit', hk', htr, hres⟩ :=
    trinkleLoop_spec h t mem trusty hks h64 hfit (noted_singleton (by omega)) rfl hcap
  rw [map_singleton] at hloop
  rw [moved_singleton] at hres
  rw [trinkle, hloop, bind_eq_bind, bind_some]
  cases trusty' with
  | true =>
    obtain ⟨-, rfl⟩ := htr rfl
    exact ⟨mem, rfl, fun _ _ => rfl, hres.symm⟩
  | false =>
    rw [length_singleton] at hlen'
    obtain ⟨mem1, hcycle, hsame1, harray1⟩ :=
      cycle_spec h hn.ne_nil hn.nodup hn.lt (by rw [arSize]; omega) mem
    obtain ⟨mem2, hsift, hsame2, harray2⟩ := sift_spec h t (s := size ks')
      (by rw [size_cons] at hfit'; omega) hk' mem1
    refine ⟨mem2, ?_, hsame1.trans hsame2, ?_⟩
    · simp only [hcycle]
      exact hsift
    · rw [harray2, harray1, hres]
      rfl

end Sift

section Lp

variable {c : Call} {lp : List ℕ} {room : ℕ}

structure Computed (c : Call) (lp : List ℕ) : Prop where
  entry : ∀ i < lp.length, lp[i]? = some (c.width * leonardo i % 2 ^ 64)
  two : 2 ≤ lp.length

lemma Computed.next (h : Computed c lp) :
    (lp.getD (lp.length - 2) 0 + lp.getD (lp.length - 1) 0 + c.width) % 2 ^ 64 =
      c.width * leonardo lp.length % 2 ^ 64 := by
  have htwo := h.two
  obtain ⟨m, hm⟩ : ∃ m, lp.length = m + 2 := ⟨lp.length - 2, by omega⟩
  have h1 := h.entry (lp.length - 2) (by omega)
  have h2 := h.entry (lp.length - 1) (by omega)
  have hmul : c.width * leonardo (m + 2) =
      c.width * leonardo m + c.width * leonardo (m + 1) + c.width := by
    rw [leonardo]
    ring
  rw [getD_eq_getElem?_getD, getD_eq_getElem?_getD, h1, h2, hm]
  simp only [getD_some, Nat.add_sub_cancel, show m + 2 - 1 = m + 1 from rfl]
  omega

lemma Computed.push (h : Computed c lp) : Computed c (lp ++ [c.width * leonardo lp.length % 2 ^ 64]) where
  entry i hi := by
    rw [length_append, length_singleton] at hi
    by_cases hlt : i < lp.length
    · rw [getElem?_append_left hlt]
      exact h.entry i hlt
    · obtain rfl : i = lp.length := by omega
      rw [getElem?_append_right le_rfl, Nat.sub_self]
      rfl
  two := by
    have htwo := h.two
    rw [length_append]
    omega

/-- The loop stops at the first entry that reaches `size`, and that one is past all trees that fit. -/
lemma lpLoop_spec (hc : c.Valid) (h : Computed c lp)
    (hreach : ∃ i,
      lp.length ≤ i ∧ i < lp.length + room ∧ c.width * c.nel ≤ c.width * leonardo i % 2 ^ 64) :
    ∃ lp', lpLoop c.width c.size room lp = some lp' ∧ Table c lp' := by
  induction room generalizing lp with
  | zero =>
    omega
  | succ room ih =>
    have hpush := h.push
    have hlen : (lp ++ [c.width * leonardo lp.length % 2 ^ 64]).length = lp.length + 1 := by
      rw [length_append, length_singleton]
    rw [lpLoop, h.next, hc.size_eq]
    by_cases hmore : c.width * leonardo lp.length % 2 ^ 64 < c.width * c.nel
    · rw [if_pos hmore, ← hc.size_eq]
      refine ih hpush ?_
      obtain ⟨i, h1, h2, hi⟩ := hreach
      have hne : i ≠ lp.length := fun heq => absurd hmore (not_lt.2 (heq ▸ hi))
      exact ⟨i, by omega, by omega, hi⟩
    · rw [if_neg hmore]
      refine ⟨_, rfl, ⟨fun {k} hk => ?_⟩⟩
      have hmul : c.width * leonardo k ≤ c.width * c.nel := Nat.mul_le_mul_left _ hk
      have hle : k ≤ lp.length := by
        refine le_of_leonardo_le (by have := h.two; omega) (hk.trans ?_)
        by_contra hlt
        have hlt' : c.width * leonardo lp.length < c.width * c.nel :=
          mul_lt_mul_of_pos_left (not_le.1 hlt) hc.width
        rw [Nat.mod_eq_of_lt (hlt'.trans hc.size)] at hmore
        exact hmore hlt'
      rw [hpush.entry k (by omega), Nat.mod_eq_of_lt (lt_of_le_of_lt hmul hc.size)]

lemma table_of_fits (hc : c.Valid) (hfits : c.TableFits) :
    ∃ lp, lpLoop c.width c.size (lpSize - 2) [c.width, c.width] = some lp ∧ Table c lp := by
  by_cases hnel : c.nel = 0
  · -- the loop ends at once
    refine ⟨_, by rw [hc.size_eq, hnel]; rfl, ⟨fun {k} hk => ?_⟩⟩
    have hpos := leonardo_pos k
    omega
  have hwidth : c.width < 2 ^ 64 :=
    lt_of_le_of_lt (Nat.le_mul_of_pos_right _ (pos_of_ne_zero hnel)) hc.size
  have hcomputed : Computed c [c.width, c.width] := by
    refine ⟨fun i hi => ?_, le_rfl⟩
    have hone : c.width * 1 % 2 ^ 64 = c.width := by rw [mul_one, Nat.mod_eq_of_lt hwidth]
    match i with
    | 0 => exact congrArg some hone.symm
    | 1 => exact congrArg some hone.symm
    | i + 2 => exact absurd hi (by simp)
  obtain ⟨i, h1, h2, hi⟩ := hfits
  refine lpLoop_spec hc hcomputed ⟨i, h1, ?_, hi⟩
  simp only [lpSize] at h2 ⊢
  omega

end Lp

/-! ### The two phases -/

section Phases

variable {c : Call} {mem₀ mem : Mem} {lp ks : List ℕ} {s : State} {k : ℕ}

/-- The variables stand for a series of trees, and the elements are those of the beginning. -/
structure Rel (c : Call) (mem₀ : Mem) (s : State) (k : ℕ) (ks : List ℕ) : Prop where
  p : s.p = (orderBits (k :: ks), 0)
  pshift : s.pshift = k
  head : s.head = c.addr (root k (size ks))
  fits : size (k :: ks) ≤ c.nel
  same : SameOutside c mem₀ s.mem
  perm : Rearranges 0 c.nel (c.array mem₀) (c.array s.mem)

lemma Rel.exists_mem (hrel : Rel c mem₀ s k ks) :
    ∃ mem, s = ⟨mem, (orderBits (k :: ks), 0), k, c.addr (root k (size ks))⟩ := by
  obtain ⟨mem, p, pshift, head⟩ := s
  obtain ⟨hp, hpshift, hhead, -⟩ := hrel
  exact ⟨mem, by rw [State.mk.injEq]; exact ⟨rfl, hp, hpshift, hhead⟩⟩

lemma order_lt (h : c.Valid) (hfits : size ks ≤ c.nel) : ∀ l ∈ ks, l < 64 := by
  intro l hl
  by_contra hge
  have hmono := leonardo_mono (not_lt.1 hge)
  have hsize := leonardo_le_size hl
  have hnel := h.nel
  omega

lemma shiftOrders_spec (hk : 0 < k) (hks : (k :: ks).Pairwise (· < ·)) (h64 : ∀ l ∈ k :: ks, l < 64) :
    shiftOrders (orderBits (k :: ks), 0) k = some (2 ^ (k - nextOrder k) * orderBits (k :: ks), 0) := by
  have hk64 := h64 k mem_cons_self
  rw [shiftOrders, nextOrder]
  split_ifs with hone
  · subst hone
    exact shl_word (by decide) (by decide) (shift_orderBits_lt hks h64 le_rfl)
  · exact shl_word (by omega) (by omega) (shift_orderBits_lt hks h64 (Nat.sub_le k 1))

lemma root_add_one (k : ℕ) (ks : List ℕ) : root k (size ks) + 1 = size (k :: ks) := by
  have hlast := last_lt (cons_ne_nil k ks)
  rw [← last_cons, last]
  omega

lemma Rel.head_lt_iff (hrel : Rel c mem₀ s k ks) (h : c.Valid) :
    s.head < c.addr (c.nel - 1) ↔ size (k :: ks) < c.nel := by
  have hroot := root_add_one k ks
  rw [hrel.head, Call.addr, Call.addr, add_lt_add_iff_left, Nat.mul_lt_mul_right h.width]
  omega

/-- `pshift == 1 && p[0] == 1 && p[1] == 0` for a single element. -/
lemma Rel.done_iff (hrel : Rel c mem₀ s k ks) (hks : (k :: ks).Pairwise (· < ·)) :
    s.pshift = 1 ∧ s.p = (1, 0) ↔ k :: ks = [1] := by
  rw [hrel.pshift, hrel.p]
  cases ks with
  | nil => simp [orderBits]
  | cons k' ks => simp [orderBits_ne_one hks]

lemma addr_add_one (c : Call) (i : ℕ) : c.addr i + c.width = c.addr (i + 1) := by
  rw [Call.addr, Call.addr, add_mul]
  omega

variable (h : c.Valid) (t : Table c lp)
include h t

lemma settle_spec (hk : 0 < k) (hks : (k :: ks).Pairwise (· < ·)) (hlt : size (k :: ks) < c.nel)
    (mem : Mem) :
    ∃ mem', settle c lp (c.addr (c.nel - 1))
        ⟨mem, (orderBits (k :: ks), 0), k, c.addr (root k (size ks))⟩ = some mem' ∧
        SameOutside c mem mem' ∧
      c.array mem' = if c.nel ≤ size (k :: ks) + leonardo (k - 1)
        then Lib.Leonardo.trinkle c.le false (k :: ks) (c.array mem)
        else Lib.Leonardo.sift c.le k (size ks) (c.array mem) := by
  have hsize := size_cons k ks
  have h64 := order_lt h hlt.le
  have hroot := root_add_one k ks
  have hbefore : lpBefore lp k = some (c.width * leonardo (k - 1)) := by
    have hmono := leonardo_mono (Nat.sub_le k 1)
    rw [lpBefore, if_neg (by omega), t.get (by omega)]
  have hrest : c.width * leonardo (k - 1) ≥ c.addr (c.nel - 1) - c.addr (root k (size ks)) ↔
      c.nel ≤ size (k :: ks) + leonardo (k - 1) := by
    have hsub : c.nel - 1 = root k (size ks) + (c.nel - size (k :: ks)) := by omega
    have hdiff : c.addr (c.nel - 1) - c.addr (root k (size ks)) =
        c.width * (c.nel - size (k :: ks)) := by
      rw [Call.addr, Call.addr, hsub, add_mul, mul_comm c.width]
      omega
    rw [hdiff, ge_iff_le, Nat.mul_le_mul_left_iff h.width]
    omega
  rw [settle, hbefore, bind_eq_bind, bind_some]
  by_cases hstays : c.nel ≤ size (k :: ks) + leonardo (k - 1)
  · rw [if_pos (hrest.2 hstays), if_pos hstays]
    exact trinkle_spec h t false hks h64 hlt.le mem
  · rw [if_neg (hrest.not.2 hstays), if_neg hstays]
    exact sift_spec h t (by omega) (h64 k mem_cons_self) mem

/-- **A round of the first loop** adds one element to the series. -/
theorem grow_spec (hrel : Rel c mem₀ s k ks) (hg : Growing c.le c.nel (c.array s.mem) k ks)
    (hlt : size (k :: ks) < c.nel) :
    ∃ s' k' ks', grow c lp (c.addr (c.nel - 1)) s = some s' ∧ Rel c mem₀ s' k' ks' ∧
      Growing c.le c.nel (c.array s'.mem) k' ks' ∧ size (k' :: ks') = size (k :: ks) + 1 := by
  have := h.total
  have := h.isTrans
  obtain ⟨mem, rfl⟩ := hrel.exists_mem
  obtain ⟨-, -, -, hfits, hsame, hperm⟩ := hrel
  have h64 := order_lt h hfits
  obtain ⟨k', ks', hseries, hgrown⟩ := hg.step
  have hre := growStep_rearranges (r := c.le) (n := c.nel) (k :: ks) (c.array mem)
  have hsize' := size_growStep (r := c.le) (n := c.nel) (a := c.array mem) (cons_ne_nil k ks)
  rw [hseries] at hsize'
  have hhead : c.addr (root k (size ks)) + c.width = c.addr (root k' (size ks')) := by
    have hroot := root_add_one k ks
    have hroot' := root_add_one k' ks'
    rw [addr_add_one]
    congr 1
    omega
  have hrel' : ∀ mem',
    SameOutside c mem mem' → c.array mem' = (growStep c.le c.nel (k :: ks) (c.array mem)).2 →
      Rel c mem₀ ⟨mem', (orderBits (k' :: ks'), 0), k', c.addr (root k' (size ks'))⟩ k' ks' ∧
        Growing c.le c.nel (c.array mem') k' ks' := by
    intro mem' hs ha
    refine ⟨⟨rfl, rfl, rfl, by omega, hsame.trans hs, ?_⟩, ha ▸ hgrown⟩
    rw [ha]
    exact hperm.trans (hre.mono le_rfl hfits)
  rw [grow]
  by_cases hmerge : ks.head? = some (k + 1)
  · rw [if_pos ((orderBits_and_three hg.shape.lt hg.shape.gaps).2 hmerge)]
    cases ks with
    | nil => exact absurd hmerge (by simp)
    | cons l ks =>
      obtain rfl : l = k + 1 := by simpa using hmerge
      rw [growStep, if_pos hmerge, tail_cons] at hseries hrel'
      obtain ⟨rfl, rfl⟩ := cons.inj hseries
      obtain ⟨mem', hsift, hs, ha⟩ := sift_spec h t (s := size ((k + 1) :: ks))
        (by rw [size_cons] at hfits; omega) (h64 k mem_cons_self) mem
      obtain ⟨hr, hgr⟩ := hrel' mem' hs ha
      refine ⟨_, _, _, ?_, hr, hgr, hsize'⟩
      simp only [hsift, shr_word (show 0 < 2 by decide) (by decide), bind_eq_bind, bind_some,
        orderBits_merge hg.shape, hhead]
  · rw [if_neg fun hb => hmerge ((orderBits_and_three hg.shape.lt hg.shape.gaps).1 hb)]
    have hpos := hg.shape.pos hmerge
    have hnext := (hg.shape.add hmerge).lt k rfl
    rw [growStep, if_neg hmerge] at hseries hrel'
    obtain ⟨rfl, rfl⟩ := cons.inj hseries
    obtain ⟨mem', hsettle, hs, ha⟩ := settle_spec h t hpos hg.shape.pairwise hlt mem
    obtain ⟨hr, hgr⟩ := hrel' mem' hs ha
    refine ⟨_, _, _, ?_, hr, hgr, hsize'⟩
    simp only [hsettle, shiftOrders_spec hpos hg.shape.pairwise h64, bind_eq_bind, bind_some,
      orderBits_add hnext, hhead]
    rfl

variable {rounds : ℕ}

lemma growLoop_spec (hrel : Rel c mem₀ s k ks) (hg : Growing c.le c.nel (c.array s.mem) k ks)
    (hrounds : c.nel ≤ size (k :: ks) + rounds) :
    ∃ s' k' ks', growLoop c lp (c.addr (c.nel - 1)) rounds s = some s' ∧ Rel c mem₀ s' k' ks' ∧
      Growing c.le c.nel (c.array s'.mem) k' ks' ∧ size (k' :: ks') = c.nel := by
  induction rounds generalizing s k ks with
  | zero =>
    have hfull : size (k :: ks) = c.nel := le_antisymm hrel.fits hrounds
    exact ⟨s, k, ks, by rw [growLoop, if_neg (by rw [hrel.head_lt_iff h]; omega)], hrel, hg, hfull⟩
  | succ rounds ih =>
    rw [growLoop]
    by_cases hlt : size (k :: ks) < c.nel
    · rw [if_pos ((hrel.head_lt_iff h).2 hlt)]
      obtain ⟨s1, k1, ks1, hgrow, hrel1, hg1, hsize⟩ := grow_spec h t hrel hg hlt
      rw [hgrow]
      exact ih hrel1 hg1 (by omega)
    · rw [if_neg ((hrel.head_lt_iff h).not.2 hlt)]
      exact ⟨s, k, ks, rfl, hrel, hg, le_antisymm hrel.fits (not_lt.1 hlt)⟩

omit t in
lemma shrink_single {k' : ℕ} (hk : k ≤ 1) (hshape : Shape k (k' :: ks))
    (hfits : size (k :: k' :: ks) ≤ c.nel) (mem : Mem) :
    shrink c lp ⟨mem, (orderBits (k :: k' :: ks), 0), k, c.addr (root k (size (k' :: ks)))⟩ =
      some ⟨mem, (orderBits (k' :: ks), 0), k', c.addr (root k' (size ks))⟩ := by
  have h64 := order_lt h hfits
  have hkk' := hshape.lt k' rfl
  have hk'64 := h64 k' (mem_cons_of_mem _ mem_cons_self)
  have hbits := shift_orderBits_lt hshape.pairwise h64 (Nat.zero_le k)
  rw [pow_zero, one_mul] at hbits
  have hone : leonardo k = 1 := by
    match k with
    | 0 => rfl
    | 1 => rfl
  have hhead : c.back (c.addr (root k (size (k' :: ks)))) c.width =
      some (c.addr (root k' (size ks))) := by
    have hroot := root_add_one k (k' :: ks)
    have hroot' := root_add_one k' ks
    have hsize := size_cons k (k' :: ks)
    rw [back_width (by omega)]
    congr 2
    omega
  rw [shrink]
  rw [if_pos hk]
  simp only [pntz_orderBits hkk' (by omega) hshape.remove.lt hbits, bind_eq_bind, bind_some,
    shr_orderBits hkk' (by omega), hhead, Nat.add_sub_cancel' hkk'.le]

lemma shrink_split (hshape : Shape (k + 2) ks) (hfits : size ((k + 2) :: ks) ≤ c.nel) (mem : Mem) :
    ∃ mem', shrink c lp ⟨mem, (orderBits ((k + 2) :: ks), 0), k + 2, c.addr (root (k + 2) (size ks))⟩ =
        some ⟨mem', (orderBits (k :: (k + 1) :: ks), 0), k, c.addr (root k (size ((k + 1) :: ks)))⟩ ∧
      SameOutside c mem mem' ∧ c.array mem' = (shrinkStep c.le ((k + 2) :: ks) (c.array mem)).2 := by
  have h64 := order_lt h hfits
  have hsum : leonardo (k + 2) = leonardo k + leonardo (k + 1) + 1 := rfl
  have hsize := size_cons (k + 2) ks
  have hsize1 := size_cons (k + 1) ks
  have hsize2 := size_cons k ((k + 1) :: ks)
  have hpair2 := hshape.split.pairwise
  have hpair1 := (pairwise_cons.1 hpair2).2
  have h64₂ : ∀ l ∈ k :: (k + 1) :: ks, l < 64 := order_lt h (by omega)
  have h64₁ : ∀ l ∈ (k + 1) :: ks, l < 64 := fun l hl => h64₂ l (mem_cons_of_mem _ hl)
  have hbits := shift_orderBits_lt hshape.pairwise h64 (Nat.le_add_left 2 k)
  have hbits1 := shift_orderBits_lt hpair1 h64₁ (Nat.le_add_left 1 k)
  have hadd : 2 ^ 1 * orderBits ((k + 1) :: ks) ||| 1 = orderBits (k :: (k + 1) :: ks) := by
    rw [← orderBits_add (Nat.lt_succ_self k), Nat.succ_eq_add_one, Nat.add_sub_cancel_left]
  -- the roots of the subtrees
  have hroot := root_add_two k (size ks)
  have hpos := leonardo_pos (k + 1)
  have hlf1 : c.back (c.addr (root (k + 2) (size ks))) (c.width * leonardo k) =
      some (c.addr (root (k + 2) (size ks) - leonardo k)) := back_addr (by omega)
  have hlf2 : c.back (c.addr (root (k + 2) (size ks) - leonardo k)) c.width =
      some (c.addr (root (k + 1) (size ks))) := by
    rw [back_width (by omega)]
    congr 2
    rw [Nat.sub_right_comm]
    exact (left_eq k _).symm
  have hrt : c.back (c.addr (root (k + 2) (size ks))) c.width =
      some (c.addr (root k (size ((k + 1) :: ks)))) := by
    rw [back_right, hsize1, add_comm]
  obtain ⟨mem1, htrinkle1, hsame1, harray1⟩ := trinkle_spec h t true hpair1 h64₁ (by omega) mem
  obtain ⟨mem2, htrinkle2, hsame2, harray2⟩ := trinkle_spec h t true hpair2 h64₂ (by omega) mem1
  refine ⟨mem2, ?_, hsame1.trans hsame2, ?_⟩
  · rw [shrink]
    dsimp only
    rw [if_neg (by omega)]
    simp only [shl_word (by decide) (by decide) hbits, bind_eq_bind, bind_some,
      Nat.add_sub_cancel, shr_word (show 0 < 1 by decide) (by decide), orderBits_split hshape,
      t.get (show leonardo k ≤ c.nel by omega), hlf1, hlf2, htrinkle1,
      shl_word (by decide) (by decide) hbits1, hadd, hrt, htrinkle2]
  · rw [harray2, harray1]
    rfl

section

variable (hrel : Rel c mem₀ s k ks) (hs : Shrinking c.le c.nel (c.array s.mem) k ks)

include hrel hs

/-- **A round of the last loop** takes one element off the series. -/
theorem shrink_spec (hne : k :: ks ≠ [1]) :
    ∃ s' k' ks',
    shrink c lp s = some s' ∧ Rel c mem₀ s' k' ks' ∧ Shrinking c.le c.nel (c.array s'.mem) k' ks' ∧
      size (k :: ks) = size (k' :: ks') + 1 := by
  have := h.total
  have := h.isTrans
  obtain ⟨mem, rfl⟩ := hrel.exists_mem
  obtain ⟨-, -, -, hfits, hsame, hperm⟩ := hrel
  obtain ⟨k', ks', hseries, hshrunk⟩ := hs.step hne
  have hre := shrinkStep_rearranges (r := c.le) (k :: ks) (c.array mem)
  have hsize := size_shrinkStep (r := c.le) (a := c.array mem) (cons_ne_nil k ks)
  rw [hseries] at hre hsize
  suffices hstep : ∃ mem', shrink c lp ⟨mem, (orderBits (k :: ks), 0), k, c.addr (root k (size ks))⟩ =
        some ⟨mem', (orderBits (k' :: ks'), 0), k', c.addr (root k' (size ks'))⟩ ∧
      SameOutside c mem mem' ∧ c.array mem' = (shrinkStep c.le (k :: ks) (c.array mem)).2 by
    obtain ⟨mem', hshrink, hs', ha⟩ := hstep
    rw [← ha] at hre hshrunk
    exact ⟨_, k', ks', hshrink,
      ⟨rfl, rfl, rfl, by omega, hsame.trans hs', hperm.trans (hre.mono le_rfl (by omega))⟩,
      hshrunk, hsize⟩
  match k with
  | 0 =>
    obtain rfl : ks = k' :: ks' := hseries
    exact ⟨mem, shrink_single h (by decide) hs.shape hfits mem, fun _ _ => rfl, rfl⟩
  | 1 =>
    obtain rfl : ks = k' :: ks' := hseries
    exact ⟨mem, shrink_single h (by decide) hs.shape hfits mem, fun _ _ => rfl, rfl⟩
  | k + 2 =>
    obtain ⟨rfl, rfl⟩ := cons.inj hseries
    exact shrink_split h t hs.shape hfits mem

lemma shrinkLoop_spec (hrounds : size (k :: ks) ≤ rounds + 1) :
    ∃ s', shrinkLoop c lp rounds s = some s' ∧ Rel c mem₀ s' 1 [] ∧
    Shrinking c.le c.nel (c.array s'.mem) 1 [] := by
  induction rounds generalizing s k ks with
  | zero =>
    -- one element is a tree of order 1
    obtain ⟨rfl, rfl⟩ : k = 1 ∧ ks = [] := by
      have hpos := leonardo_pos k
      have hsize := size_cons k ks
      have hks : ks = [] := by
        by_contra hne
        have hmore := size_pos hne
        omega
      subst hks
      match k with
      | 0 => exact absurd (hs.shape.zero rfl) (by simp)
      | 1 => exact ⟨rfl, rfl⟩
      | k + 2 =>
        have hsum : leonardo (k + 2) = leonardo k + leonardo (k + 1) + 1 := rfl
        have hpos := leonardo_pos k
        omega
    exact ⟨s, by rw [shrinkLoop, if_pos ((hrel.done_iff hs.shape.pairwise).2 rfl)], hrel, hs⟩
  | succ rounds ih =>
    rw [shrinkLoop]
    by_cases hone : k :: ks = [1]
    · rw [if_pos ((hrel.done_iff hs.shape.pairwise).2 hone)]
      obtain ⟨rfl, rfl⟩ := cons.inj hone
      exact ⟨s, rfl, hrel, hs⟩
    · rw [if_neg ((hrel.done_iff hs.shape.pairwise).not.2 hone)]
      obtain ⟨s1, k1, ks1, hshrink, hrel1, hs1, hsize⟩ := shrink_spec h t hrel hs hone
      rw [hshrink]
      exact ih hrel1 hs1 (by omega)

end

end Phases

/-! ### `__qsort_r` -/

section Main

variable {c : Call}

def Call.elements (c : Call) (mem : Mem) : List (List UInt8) := (List.range c.nel).map (c.array mem)

/-- **`__qsort_r` sorts.**  Where the computation of `lp` ends, the call returns, the elements are a
permutation of those before, they are in order, and no other memory is changed; no index of `lp` or
`ar` is out of range. -/
theorem qsortR_sorts (h : c.Valid) (hfits : c.TableFits) (mem : Mem) :
    ∃ mem', qsortR c mem = some mem' ∧ (c.elements mem').Perm (c.elements mem) ∧
    (c.elements mem').Pairwise c.le ∧
      SameOutside c mem mem' := by
  have := h.total
  have := h.isTrans
  rw [qsortR]
  by_cases hnel : c.nel = 0
  · refine ⟨mem, by rw [if_pos (by rw [h.toOrdered.size_eq, hnel]; rfl)], .refl _, ?_, fun _ _ => rfl⟩
    rw [Call.elements, hnel]
    exact Pairwise.nil
  have hsize : c.size ≠ 0 := by
    rw [h.toOrdered.size_eq]
    exact mul_ne_zero h.width.ne' hnel
  rw [if_neg hsize]
  have hhigh : c.base + c.size - c.width = c.addr (c.nel - 1) := by
    have hmul : c.width * c.nel = (c.nel - 1) * c.width + c.width := by
      rw [mul_comm, ← Nat.succ_mul, Nat.succ_eq_add_one, Nat.sub_add_cancel (pos_of_ne_zero hnel)]
    rw [h.toOrdered.size_eq, Call.addr]
    omega
  obtain ⟨lp, hlp, t⟩ := table_of_fits h hfits
  -- one tree at the beginning
  have hrel : Rel c mem ⟨mem, (1, 0), 1, c.base⟩ 1 [] := by
    refine ⟨rfl, rfl, ?_, ?_, fun _ _ => rfl, .refl _ _ _⟩
    · simp [Call.addr, root, leonardo]
    · rw [size_cons, size_nil, leonardo]
      omega
  obtain ⟨s1, k, ks, hgrow, hrel1, hg, hfull⟩ := growLoop_spec h t hrel (growing_start c.le c.nel _)
    (Nat.le_add_left _ _)
  obtain ⟨mem2, htrinkle, hsame2, harray2⟩ :=
    trinkle_spec h t false hg.shape.pairwise (order_lt h hrel1.fits) hrel1.fits
    s1.mem
  rw [← hrel1.head, ← hrel1.p, ← hrel1.pshift] at htrinkle
  -- all elements are in a series with its roots in order
  have hrel2 : Rel c mem { s1 with mem := mem2 } k ks := by
    refine ⟨hrel1.p, hrel1.pshift, hrel1.head, hrel1.fits, hrel1.same.trans hsame2, ?_⟩
    rw [harray2]
    exact hrel1.perm.trans ((trinkle_rearranges false (k :: ks) _).mono le_rfl hrel1.fits)
  have hforest := hg.finish hfull
  rw [← harray2] at hforest
  have hshrinking : Shrinking c.le c.nel (c.array mem2) k ks :=
    ⟨hg.shape, hforest, fun i j _ hj hn => absurd hn (not_lt.2 (hfull ▸ hj))⟩
  obtain ⟨s3, hshrink, hrel3, hs3⟩ := shrinkLoop_spec h t hrel2 hshrinking (show _ ≤ c.nel + 1 by omega)
  refine ⟨s3.mem, ?_, hrel3.perm.perm_map_range, ?_, hrel3.same⟩
  · simp [hhigh, hlp, hgrow, htrinkle, hshrink]
  · refine pairwise_map.2 (pairwise_lt_range.imp_of_mem fun {i j} _ hj hij => ?_)
    exact hs3.sorted_of_one hij (mem_range.1 hj)

/-- The computation of `lp` ends for all sizes whose triple does not overflow. -/
lemma tableFits_of_three_mul (h : c.Valid) (hsmall : 3 * (c.width * c.nel) < 2 ^ 64) : c.TableFits := by
  have hex : ∃ i, 2 ≤ i ∧ c.nel ≤ leonardo i := ⟨64, by decide, h.nel.le⟩
  set i := Nat.find hex
  obtain ⟨htwo, hle⟩ := Nat.find_spec hex
  have hi64 : i ≤ 64 := Nat.find_le ⟨by decide, h.nel.le⟩
  -- the entry before is less than `nel`
  have hbound : c.nel = 0 ∨ leonardo i ≤ 3 * c.nel := by
    by_contra hnot
    obtain ⟨m, hm⟩ : ∃ m, i = m + 2 := ⟨i - 2, by omega⟩
    have hsum : leonardo i = leonardo m + leonardo (m + 1) + 1 := by rw [hm, leonardo]
    have hmono := leonardo_le_succ m
    by_cases hm0 : m = 0
    · rw [hm0] at hsum
      simp only [leonardo] at hsum
      omega
    · have hmin := Nat.find_min hex (m := m + 1) (by omega)
      omega
  rcases hbound with hnel | hbound
  · exact ⟨2, le_rfl, by decide, by rw [hnel]; exact Nat.zero_le _⟩
  · have hmul := Nat.mul_le_mul_left c.width hbound
    rw [mul_left_comm] at hmul
    refine ⟨i, htwo, by rw [lpSize]; omega, ?_⟩
    rw [Nat.mod_eq_of_lt (lt_of_le_of_lt hmul hsmall)]
    exact Nat.mul_le_mul_left _ hle

def threeBytes : Call where
  base := 0
  nel := 3
  width := 1
  cmp x y := (x.headD 0).toNat - (y.headD 0).toNat

lemma threeBytes_valid : threeBytes.Valid where
  swap x y := by
    simp only [threeBytes]
    omega
  trans x y z := by
    simp only [threeBytes]
    omega
  width := by decide
  nel := lt_of_lt_of_le (by decide) (leonardo_mono (show 3 ≤ 64 by decide))
  size := by decide

/-- The theorem at this call. -/
theorem qsortR_sorts_threeBytes : ∃ mem', qsortR threeBytes (fun p => UInt8.ofNat (9 - p)) = some mem' ∧
    (threeBytes.elements mem').Pairwise threeBytes.le :=
  have hfits := tableFits_of_three_mul threeBytes_valid (by decide)
  have hsorts := qsortR_sorts threeBytes_valid hfits fun p => UInt8.ofNat (9 - p)
  hsorts.imp fun _ hmem => ⟨hmem.1, hmem.2.2.1⟩

def fourHuge : Call where
  base := 0
  nel := 4
  width := 2 ^ 62 - 1
  cmp _ _ := 0

lemma fourHuge_valid : fourHuge.Valid where
  swap x y := by simp [fourHuge]
  trans x y z := by simp [fourHuge]
  width := by decide
  nel := lt_of_lt_of_le (by decide) (leonardo_mono (show 3 ≤ 64 by decide))
  size := by decide

/-- The entries of `lp` wrap around and none reaches `size`, so the loop runs past the end of the
array. -/
theorem lp_overrun : ∃ c : Call, c.Valid ∧ ∀ mem, qsortR c mem = none := by
  refine ⟨fourHuge, fourHuge_valid, fun mem => ?_⟩
  have hsize : fourHuge.size ≠ 0 := by decide
  have hlp : lpLoop fourHuge.width fourHuge.size (lpSize - 2) [fourHuge.width, fourHuge.width] =
    none := by decide +kernel
  rw [qsortR, hlp]
  rfl

end Main

/-! ### `bsearch` -/

section Bsearch

variable {c : Call} {mem : Mem} {key : List UInt8}

/-- `bsearch`; the null pointer is the inner `none`, and a comparison outside of the array the outer
one. -/
def bsearch (c : Call) (mem : Mem) (key : List UInt8) (base nel : ℕ) : Option (Option ℕ) :=
  if nel = 0 then some none else
  let try_ := base + c.width * (nel / 2)
  if ¬c.Inside try_ c.width then none else
  let sign := c.cmp key (bytes mem try_ c.width)
  if sign < 0 then bsearch c mem key base (nel / 2)
  else if sign > 0 then bsearch c mem key (try_ + c.width) (nel - (nel / 2 + 1))
  else some (some try_)

/-- An element that is equal to the key; or there is none. -/
def Found (c : Call) (mem : Mem) (key : List UInt8) : Option ℕ → Prop
  | some p => ∃ i < c.nel, p = c.addr i ∧ c.cmp key (c.array mem i) = 0
  | none => ∀ i < c.nel, c.cmp key (c.array mem i) ≠ 0

/-- The elements before the part that is left are less than the key, and those after it are greater. -/
lemma bsearch_spec (h : c.Ordered)
    (hsorted : ∀ i j, i < j → j < c.nel → c.le (c.array mem i) (c.array mem j))
    {lo n : ℕ} (hle : lo + n ≤ c.nel) (hlow : ∀ i < lo, 0 < c.cmp key (c.array mem i))
    (hhigh : ∀ i, lo + n ≤ i → i < c.nel → c.cmp key (c.array mem i) < 0) :
    ∃ r, bsearch c mem key (c.addr lo) n = some r ∧ Found c mem key r := by
  induction n using Nat.strong_induction_on generalizing lo with
  | _ n ih =>
  rw [bsearch]
  split_ifs with hn
  · refine ⟨none, rfl, fun i hi => ?_⟩
    rcases lt_or_ge i lo with hlt | hge
    · exact (hlow i hlt).ne'
    · exact (hhigh i (by omega) hi).ne
  have hmid : lo + n / 2 < c.nel := by omega
  have haddr : c.addr lo + c.width * (n / 2) = c.addr (lo + n / 2) := by
    simp only [Call.addr, add_mul, mul_comm c.width]
    omega
  have hin : c.Inside (c.addr (lo + n / 2)) c.width := inside_addr (x := 0) h hmid (by omega)
  have hbytes : bytes mem (c.addr (lo + n / 2)) c.width = c.array mem (lo + n / 2) := rfl
  simp only [haddr, hin, not_true_eq_false, if_false, hbytes]
  rcases lt_trichotomy (c.cmp key (c.array mem (lo + n / 2))) 0 with hneg | hzero | hpos
  · rw [if_pos hneg]
    refine ih (n / 2) (by omega) (by omega) hlow fun i hi hlt => ?_
    rcases hi.eq_or_lt with rfl | hgt
    · exact hneg
    · by_contra hge
      have hback := h.trans _ _ _ (hsorted _ i hgt hlt) ((h.swap _ key).2 (not_lt.1 hge))
      exact absurd ((h.swap _ key).1 hback) (not_le.2 hneg)
  · rw [if_neg (by omega), if_neg (by omega)]
    exact ⟨_, rfl, _, hmid, rfl, hzero⟩
  · rw [if_neg (by omega), if_pos hpos, addr_add_one]
    refine ih _ (by omega) (by omega) (fun i hi => ?_) fun i hi hlt => hhigh i (by omega) hlt
    rcases (Nat.lt_succ_iff.1 hi).eq_or_lt with rfl | hlt
    · exact hpos
    · by_contra hge
      exact absurd (h.trans _ _ _ (not_lt.1 hge) (hsorted i _ hlt hmid)) (not_le.2 hpos)

/-- **`bsearch` finds an element that is equal to the key if there is one**, in an array that is in
order, and compares the key with elements of the array only. -/
theorem bsearch_finds (h : c.Ordered) (mem : Mem) (key : List UInt8)
    (hsorted : ∀ i j, i < j → j < c.nel → c.le (c.array mem i) (c.array mem j)) :
    ∃ r, bsearch c mem key c.base c.nel = some r ∧ Found c mem key r := by
  have hstart : c.addr 0 = c.base := by simp [Call.addr]
  rw [← hstart]
  exact bsearch_spec h hsorted (by omega) (fun i hi => absurd hi (by omega)) fun i hi hlt => by omega

/-- The key 1 in the bytes 0, 1 and 2. -/
theorem bsearch_finds_threeBytes :
    ∃ r, bsearch threeBytes UInt8.ofNat [1] 0 3 = some r ∧ Found threeBytes UInt8.ofNat [1] r := by
  refine bsearch_finds threeBytes_valid.toOrdered UInt8.ofNat [1] fun i j hij hj => ?_
  change j < 3 at hj
  interval_cases j <;> interval_cases i <;> decide

end Bsearch

end Musl.Stdlib.Smoothsort
