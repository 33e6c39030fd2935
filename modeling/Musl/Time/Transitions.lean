import Mathlib

/-!
# The transitions of a zone file

`scan_trans` looks up the type that is in effect at a time: by halving for the latest transition,
after which the first and the last one are special.  The last one is looked at before the first, so
that in a table with one transition every time is taken to be after it.
-/

namespace Musl.Time.ZoneInfo

open List Nat

/-- A zone file in memory, with the pointers that `do_tzset` sets. -/
structure ZoneFile where
  zi : ℕ → UInt8
  trans : ℕ
  index : ℕ
  types : ℕ
  abbrevs : ℕ

/-- The result of `scan_trans`: -1, or a type and the one that is stored to `*alt`. -/
inductive Found where
  | footer
  | type (i alt : ℕ)
  deriving DecidableEq, Repr

def Found.type? : Found → Option ℕ
  | .footer => none
  | .type i _ => some i

namespace ZoneFile

variable (f : ZoneFile)

/-- `zi_read32`. -/
def read32 (z : ℕ) : ℕ :=
  (f.zi z).toNat <<< 24 ||| (f.zi (z + 1)).toNat <<< 16 ||| (f.zi (z + 2)).toNat <<< 8 |||
    (f.zi (z + 3)).toNat

/-- `(int32_t)x` and `(int64_t)x`. -/
def signed (w x : ℕ) : ℤ := if x < 2 ^ (w - 1) then x else (x : ℤ) - 2 ^ w

/-- Transition times have 4 bytes in the first version of the format and 8 bytes after it. -/
def scale : ℕ := if f.trans = 44 then 2 else 3

def count : ℕ := (f.index - f.trans) >>> f.scale

def time (m : ℕ) : ℤ :=
  let x := f.read32 (f.trans + m <<< f.scale)
  if f.scale = 3 then signed 64 (x <<< 32 ||| f.read32 (f.trans + m <<< f.scale + 4)) else signed 32 x

def typeAt (m : ℕ) : ℕ := (f.zi (f.index + m)).toNat

/-- The offset from UTC of a type, which begins at `j`. -/
def utoff (j : ℕ) : ℤ := signed 32 (f.read32 (f.types + j))

def isdst (i : ℕ) : UInt8 := f.zi (f.types + 6 * i + 4)

def typeCount : ℕ := (f.abbrevs - f.types) / 6

/-- `while (n > 1)`, for at most so many rounds. -/
def search (t : ℤ) (isLocal : Bool) : ℕ → ℕ → ℕ → Option ℕ
  | 0, _, _ => none
  | rounds + 1, a, n =>
    if n > 1 then
      let m := a + n / 2
      let off := if isLocal then f.utoff (6 * f.typeAt (m - 1)) else 0
      if t - off < f.time m then search t isLocal rounds a (n / 2)
        else search t isLocal rounds m (n - n / 2)
    else some a

/-- `for (size_t i=abbrevs-types; i; i-=6)`, with `i` six times the argument. -/
def lowestStd : ℕ → ℕ → ℕ
  | 0, j => j
  | i + 1, j => lowestStd i (if f.isdst i = 0 then 6 * i else j)

/-- The type with the opposite of `isdst`. -/
def neighbour (a : ℕ) : ℕ :=
  if a ≠ 0 ∧ f.isdst (f.typeAt (a - 1)) ≠ f.isdst (f.typeAt a) then f.typeAt (a - 1)
  else if a + 1 < f.count ∧ f.isdst (f.typeAt (a + 1)) ≠ f.isdst (f.typeAt a) then f.typeAt (a + 1)
  else f.typeAt a

def scanTrans (t : ℤ) (isLocal : Bool) : Option Found :=
  if f.count = 0 then some (.type 0 0)
  else do
    let a ← f.search t isLocal f.count 0 f.count
    if a = f.count - 1 then some .footer
    else
      let j := f.lowestStd f.typeCount 0
      let off := if isLocal then f.utoff j else 0
      if a = 0 ∧ t - off < f.time 0 then some (.type (j / 6) (f.typeAt 0))
      else some (.type (f.typeAt a) (f.neighbour a))

/-! ### The scan -/

def firstStd : ℕ := ((List.range f.typeCount).find? fun i => f.isdst i = 0).getD 0

/-- The latest transition that is not after `t` decides. -/
def linearScan (t : ℤ) : Option ℕ :=
  match (List.range f.count).reverse.find? fun a => f.time a ≤ t with
  | none => some f.firstStd
  | some a => if a + 1 = f.count then none else some (f.typeAt a)

structure IsTable : Prop where
  pos : 0 < f.count
  increasing : ∀ a b, a < b → b < f.count → f.time a < f.time b

/-! ### The search -/

variable {f} {t : ℤ}

/-- The latest transition before `t` is one of `n` from `a` on, if there is one. -/
structure Between (f : ZoneFile) (t : ℤ) (a n : ℕ) : Prop where
  pos : 0 < n
  le : a + n ≤ f.count
  low : a = 0 ∨ f.time a ≤ t
  high : a + n < f.count → t < f.time (a + n)

variable {a n : ℕ}

lemma Between.left (h : Between f t a n) (hn : 1 < n) (ht : t < f.time (a + n / 2)) :
    Between f t a (n / 2) where
  pos := by omega
  le := by
    have := h.le
    omega
  low := h.low
  high _ := ht

lemma Between.right (h : Between f t a n) (hn : 1 < n) (ht : f.time (a + n / 2) ≤ t) :
    Between f t (a + n / 2) (n - n / 2) where
  pos := by omega
  le := by
    have := h.le
    omega
  low := .inr ht
  high hlt := by
    have heq : a + n / 2 + (n - n / 2) = a + n := by omega
    rw [heq] at hlt ⊢
    exact h.high hlt

/-- **The search** comes down to one transition. -/
theorem search_spec {rounds : ℕ} (h : Between f t a n) (hrounds : n ≤ rounds) :
    ∃ b, f.search t false rounds a n = some b ∧ Between f t b 1 := by
  induction rounds generalizing a n with
  | zero =>
    have := h.pos
    omega
  | succ rounds ih =>
    rw [search]
    by_cases hn : n > 1
    · simp only [if_pos hn, Bool.false_eq_true, if_false, sub_zero]
      by_cases ht : t < f.time (a + n / 2)
      · rw [if_pos ht]
        exact ih (h.left hn ht) (by omega)
      · rw [if_neg ht]
        exact ih (h.right hn (not_lt.1 ht)) (by omega)
    · have hone : n = 1 := by
        have := h.pos
        omega
      rw [if_neg hn]
      exact ⟨a, rfl, hone ▸ h⟩

lemma lowestStd_eq (k j : ℕ) :
    f.lowestStd k (6 * j) = 6 * ((range k).find? fun i => f.isdst i = 0).getD j := by
  induction k generalizing j with
  | zero => rfl
  | succ k ih =>
    have hj : (if f.isdst k = 0 then 6 * k else 6 * j) = 6 * if f.isdst k = 0 then k else j := by
      split_ifs <;> rfl
    rw [lowestStd, hj, ih, range_succ, find?_append]
    cases (range k).find? fun i => f.isdst i = 0 with
    | none => by_cases hk : f.isdst k = 0 <;> simp [hk]
    | some i => rfl

lemma lowestStd_zero : f.lowestStd f.typeCount 0 / 6 = f.firstStd := by
  have h := lowestStd_eq (f := f) f.typeCount 0
  rw [h, Nat.mul_div_cancel_left _ (by decide)]
  rfl

/-! ### The result -/

lemma find?_range_reverse {p : ℕ → Bool} (ha : a < n) (hp : p a = true)
    (hlater : ∀ b, a < b → b < n → p b = false) :
    (List.range n).reverse.find? p = some a := by
  induction n with
  | zero => exact absurd ha (not_lt_zero a)
  | succ n ih =>
    rw [range_succ, reverse_append, reverse_singleton, singleton_append]
    rcases Nat.lt_succ_iff_lt_or_eq.1 ha with hlt | rfl
    · rw [find?_cons_of_neg (by rw [hlater n hlt (lt_succ_self n)]; decide)]
      exact ih hlt fun b hab hb => hlater b hab (lt_succ_of_lt hb)
    · rw [find?_cons_of_pos hp]

lemma IsTable.find_latest (h : f.IsTable) (ha : a < f.count) (hle : f.time a ≤ t)
    (hlt : a + 1 < f.count → t < f.time (a + 1)) :
    ((range f.count).reverse.find? fun b => f.time b ≤ t) = some a := by
  refine find?_range_reverse ha (decide_eq_true hle) fun b hab hb => decide_eq_false (not_le.2 ?_)
  have hnext := hlt (by omega)
  rcases eq_or_lt_of_le (succ_le_of_lt hab) with rfl | hmore
  · exact hnext
  · exact hnext.trans (h.increasing _ _ hmore hb)

lemma IsTable.find_none (h : f.IsTable) (hlt : t < f.time 0) :
    ((List.range f.count).reverse.find? fun b => f.time b ≤ t) = none := by
  refine find?_eq_none.2 fun b hb => ?_
  rw [mem_reverse, mem_range] at hb
  rw [decide_eq_true_eq, not_le]
  rcases Nat.eq_zero_or_pos b with rfl | hpos
  · exact hlt
  · exact hlt.trans (h.increasing 0 b hpos hb)

/-- **The lookup of a time in UTC** is a scan through the table, unless the time is before the only
transition. -/
theorem scanTrans_linear (h : f.IsTable) (t : ℤ) :
    ∃ r, f.scanTrans t false = some r ∧ (r.type? = f.linearScan t ↔ 2 ≤ f.count ∨ f.time 0 ≤ t) := by
  have hpos := h.pos
  have hstart : Between f t 0 f.count := ⟨hpos, by omega, .inl rfl, fun hlt => by omega⟩
  obtain ⟨a, ha, hbetween⟩ := search_spec hstart le_rfl
  have hle := hbetween.le
  rw [scanTrans, if_neg (by omega), ha]
  simp only [Option.bind_eq_bind, Option.bind_some, Bool.false_eq_true, if_false, sub_zero,
    lowestStd_zero]
  by_cases hlast : a = f.count - 1
  · rw [if_pos hlast]
    refine ⟨_, rfl, ?_⟩
    rcases hbetween.low with rfl | hat
    · -- one transition
      have hone : f.count = 1 := by omega
      by_cases ht : f.time 0 ≤ t
      · simp [Found.type?, linearScan, hone, ht]
      · simp [Found.type?, linearScan, hone, ht]
    · have hfind := h.find_latest (by omega) hat fun hlt => by omega
      have hcond : 2 ≤ f.count ∨ f.time 0 ≤ t := by
        by_cases hzero : a = 0
        · exact .inr (hzero ▸ hat)
        · exact .inl (by omega)
      simp only [Found.type?, linearScan, hfind, hcond, iff_true]
      rw [if_pos (by omega)]
  · rw [if_neg hlast]
    have hcond : 2 ≤ f.count ∨ f.time 0 ≤ t := .inl (by omega)
    simp only [hcond, iff_true]
    by_cases hfirst : a = 0 ∧ t < f.time 0
    · rw [if_pos hfirst]
      exact ⟨_, rfl, by simp [Found.type?, linearScan, h.find_none hfirst.2]⟩
    · rw [if_neg hfirst]
      have hat : f.time a ≤ t := by
        rcases hbetween.low with hzero | hat
        · rw [hzero]
          exact not_lt.1 fun hlt => hfirst ⟨hzero, hlt⟩
        · exact hat
      have hfind := h.find_latest (by omega) hat hbetween.high
      refine ⟨_, rfl, ?_⟩
      simp only [Found.type?, linearScan, hfind]
      rw [if_neg (by omega)]

end ZoneFile

/-- Transitions at the times 1 and 2 to the types 1 and 0; the second type is daylight saving time. -/
def twoChanges : ZoneFile where
  zi i := [0, 0, 0, 1, 0, 0, 0, 2, 1, 0, 0, 0, 0, 0, 0, 0, 0, 0, 14, 16, 1, 4].getD (i - 44) 0
  trans := 44
  index := 52
  types := 54
  abbrevs := 66

lemma twoChanges_isTable : twoChanges.IsTable where
  pos := by decide
  increasing a b hab hb := by
    have hcount : twoChanges.count = 2 := rfl
    have ha : a = 0 := by omega
    have hb' : b = 1 := by omega
    subst ha hb'
    decide +kernel

theorem scanTrans_linear_between :
    twoChanges.IsTable ∧ ∃ r,
    twoChanges.scanTrans 1 false = some r ∧ r.type? = twoChanges.linearScan 1 := by
  obtain ⟨r, hr, hiff⟩ := ZoneFile.scanTrans_linear twoChanges_isTable 1
  exact ⟨twoChanges_isTable, r, hr, hiff.2 (.inl (by decide))⟩

/-- One transition at the time 1, to a type that is daylight saving time; the other type is not. -/
def oneChange : ZoneFile where
  zi i := [0, 0, 0, 1, 1, 0, 0, 0, 0, 0, 0, 0, 0, 14, 16, 1, 4].getD (i - 44) 0
  trans := 44
  index := 48
  types := 49
  abbrevs := 61

/-- Before the transition the rules of the footer are used and not the type 0. -/
theorem scanTrans_single : oneChange.IsTable ∧ oneChange.scanTrans 0 false = some .footer ∧
    oneChange.time 0 = 1 ∧ oneChange.linearScan 0 = some 0 := by
  refine ⟨⟨by decide, fun a b hab hb => ?_⟩, by decide +kernel, by decide +kernel, by decide +kernel⟩
  have hcount : oneChange.count = 1 := rfl
  omega

end Musl.Time.ZoneInfo
