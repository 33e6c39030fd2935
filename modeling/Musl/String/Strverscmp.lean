import Mathlib

/-!
# Comparison of version strings

`strverscmp` decides by the digits around the first difference: whole numbers by their length,
digits after zeros before everything else, and the rest by bytes.
-/

namespace Musl.Strverscmp

open List Nat

/-! ### The code -/

@[ext] structure CString where
  bytes : List UInt8
  noNul : 0 ∉ bytes

def isdigit (c : UInt8) : Bool := c - 48 < 10

/-- `c-'1'<9U`. -/
def nonzero (c : UInt8) : Bool := c - 49 < 9

/-- `s[i]`; no byte after the NUL is read. -/
def byte (s : List UInt8) (i : ℕ) : UInt8 := s.getD i 0

/-- The first loop at the place `i`, with what both strings are from there on: `i`, `dp` and `z` at
the first difference, if there is one. -/
def scan : List UInt8 → List UInt8 → ℕ → ℕ → Bool → Option (ℕ × ℕ × Bool)
  | [], [], _, _, _ => none
  | c :: l, d :: r, i, dp, z =>
    if c = d then
      if isdigit c then scan l r (i + 1) dp (z && c = 48) else scan l r (i + 1) (i + 1) true
    else some (i, dp, z)
  | _, _, i, dp, z => some (i, dp, z)

/-- The loop over `j`: 1 or -1 if one of the strings has more digits. -/
def longer : List UInt8 → List UInt8 → ℤ
  | c :: l, d :: r =>
    if isdigit c then if isdigit d then longer l r else 1 else if isdigit d then -1 else 0
  | c :: _, [] => if isdigit c then 1 else 0
  | [], d :: _ => if isdigit d then -1 else 0
  | [], [] => 0

/-- `l[i] - r[i]`. -/
def difference (c d : UInt8) : ℤ := c.toNat - d.toNat

def decideAt (l r : List UInt8) (i dp : ℕ) (z : Bool) : ℤ :=
  if nonzero (byte l dp) ∧ nonzero (byte r dp) then
    let more := longer (l.drop i) (r.drop i)
    if more = 0 then difference (byte l i) (byte r i) else more
  else if z ∧ dp < i ∧ (isdigit (byte l i) ∨ isdigit (byte r i)) then
    difference (byte l i - 48) (byte r i - 48)
  else difference (byte l i) (byte r i)

def strverscmp (l r : CString) : ℤ :=
  match scan l.bytes r.bytes 0 0 true with
  | none => 0
  | some (i, dp, z) => decideAt l.bytes r.bytes i dp z

/-! ### The numbers of a string -/

/-- The digits before a place: none, zeros only, a run that began with zeros, or one that did not. -/
inductive Run where
  | none
  | zeros
  | fraction
  | whole
  deriving DecidableEq

def Run.next (st : Run) (c : UInt8) : Run :=
  if ¬ isdigit c then .none
  else match st with
    | .none => if c = 48 then .zeros else .whole
    | .zeros => if c = 48 then .zeros else .fraction
    | st => st

def digits : List UInt8 → ℕ
  | [] => 0
  | c :: s => if isdigit c then digits s + 1 else 0

/-- The number for the byte `c`, which is NUL at the end. -/
def rank (st : Run) (c : UInt8) : ℕ :=
  if st = .zeros then if isdigit c then c.toNat - 48 else c.toNat + 10 else c.toNat

/-- The numbers of what is left of a string; the length of a whole number is before its digits. -/
def key : Run → List UInt8 → List ℕ
  | st, [] => [rank st 0]
  | st, c :: s =>
    if st = .none ∧ nonzero c then 49 :: (digits s + 1) :: c.toNat :: key .whole s
    else rank st c :: key (st.next c) s

def keys : Run → List UInt8 → List ℕ
  | .whole, s => digits s :: key .whole s
  | st, s => key st s

/-- `dp` and `z` tell which run ends at the end of `pre`. -/
def Marks (pre : List UInt8) (dp : ℕ) (z : Bool) : Run → Prop
  | .none => dp = pre.length ∧ z = true
  | .zeros => dp < pre.length ∧ z = true ∧ byte pre dp = 48
  | .fraction => dp < pre.length ∧ z = false ∧ byte pre dp = 48
  | .whole => dp < pre.length ∧ nonzero (byte pre dp) = true

/-- The sign of `x` is how `a` and `b` compare, and they differ. -/
def Decides (x : ℤ) (a b : List ℕ) : Prop := (x < 0 ↔ a < b) ∧ (0 < x ↔ b < a) ∧ x ≠ 0

section Bytes

variable {c d : UInt8} {n m : ℕ} {a b : List ℕ} {x : ℤ}

lemma isdigit_iff : isdigit c = true ↔ 48 ≤ c.toNat ∧ c.toNat ≤ 57 := by
  have hc := c.toNat_lt
  rw [isdigit, decide_eq_true_iff, UInt8.lt_iff_toNat_lt, UInt8.toNat_sub]
  simp only [UInt8.reduceToNat]
  omega

lemma nonzero_iff : nonzero c = true ↔ 49 ≤ c.toNat ∧ c.toNat ≤ 57 := by
  have hc := c.toNat_lt
  rw [nonzero, decide_eq_true_iff, UInt8.lt_iff_toNat_lt, UInt8.toNat_sub]
  simp only [UInt8.reduceToNat]
  omega

lemma nonzero_of_digit (h : isdigit c = true) (h0 : c ≠ 48) : nonzero c = true := by
  have hne : c.toNat ≠ 48 := fun heq => h0 (UInt8.toNat_inj.1 heq)
  have hd := isdigit_iff.1 h
  exact nonzero_iff.2 (by omega)

lemma Decides.cons (n : ℕ) (h : Decides x a b) : Decides x (n :: a) (n :: b) := by
  simpa [Decides, cons_lt_cons_iff] using h

lemma Decides.succ (h : Decides x (n :: a) (m :: b)) (k : ℕ) :
    Decides x ((n + 1) :: k :: a) ((m + 1) :: k :: b) := by
  simpa [Decides, cons_lt_cons_iff] using h

lemma decides_of_ne (h : n ≠ m) (hlt : x < 0 ↔ n < m) (hgt : 0 < x ↔ m < n) :
    Decides x (n :: a) (m :: b) := by
  refine ⟨?_, ?_, by omega⟩
  · simp only [cons_lt_cons_iff, hlt, h, false_and, or_false]
  · simp only [cons_lt_cons_iff, hgt, h.symm, false_and, or_false]

lemma decides_difference (h : c ≠ d) : Decides (difference c d) (c.toNat :: a) (d.toNat :: b) := by
  have hne : c.toNat ≠ d.toNat := fun heq => h (UInt8.toNat_inj.1 heq)
  exact decides_of_ne hne (by unfold difference; omega) (by unfold difference; omega)

lemma longer_spec (l r : List UInt8) :
    (longer l r < 0 ↔ digits l < digits r) ∧ (0 < longer l r ↔ digits r < digits l) := by
  fun_induction longer l r <;> simp_all [digits]

lemma decides_longer (l r : List UInt8) (h : c ≠ d) :
    Decides (if longer l r = 0 then difference c d else longer l r) (digits l :: c.toNat :: a)
      (digits r :: d.toNat :: b) := by
  obtain ⟨hlt, hgt⟩ := longer_spec l r
  by_cases h0 : longer l r = 0
  · rw [if_pos h0, show digits l = digits r by omega]
    exact (decides_difference h).cons _
  · rw [if_neg h0]
    exact decides_of_ne (by omega) hlt hgt

end Bytes

section Keys

variable {st : Run} {c : UInt8} {l r pre : List UInt8} {dp : ℕ} {z : Bool} {x : ℤ}

def lead (s : List UInt8) : Run → List ℕ
  | .none => if nonzero (byte s 0) then [49, digits s, (byte s 0).toNat] else [(byte s 0).toNat]
  | .whole => [digits s, (byte s 0).toNat]
  | st => [rank st (byte s 0)]

lemma keys_eq (st : Run) (s : List UInt8) : ∃ rest, keys st s = lead s st ++ rest := by
  cases s with
  | nil => exact ⟨[], by cases st <;> rfl⟩
  | cons c s =>
    by_cases hnz : nonzero c = true
    · have hd : isdigit c = true := isdigit_iff.2 (by have := nonzero_iff.1 hnz; omega)
      cases st <;> simp [keys, key, lead, byte, hnz, hd, digits, rank]
    · cases st <;> simp [keys, key, lead, byte, hnz, rank]

lemma Decides.keys_cons (h : Decides x (keys (st.next c) l) (keys (st.next c) r)) :
    Decides x (keys st (c :: l)) (keys st (c :: r)) := by
  by_cases hd : isdigit c = true
  · by_cases h0 : c = 48
    · subst h0
      cases st with
      | whole => exact h.succ 48
      | _ => exact h.cons _
    · cases st with
      | none =>
        simp only [Run.next, hd, h0] at h
        simpa [keys, key, nonzero_of_digit hd h0] using (h.succ c.toNat).cons 49
      | whole =>
        simp only [Run.next, hd] at h
        simpa [keys, key, Run.next, digits, hd] using h.succ (rank .whole c)
      | _ => simpa [keys, key, Run.next, hd, h0] using h.cons (rank _ c)
  · have hnz : nonzero c = false := by
      rw [← Bool.not_eq_true, nonzero_iff]
      rw [isdigit_iff] at hd
      omega
    have h' := h.cons (rank st c)
    cases st with
    | whole => simpa [keys, key, Run.next, digits, hd] using h'.cons 0
    | _ => simpa [keys, key, Run.next, hnz, hd] using h'

lemma byte_append_left (s : List UInt8) (h : dp < pre.length) : byte (pre ++ s) dp = byte pre dp := by
  rw [byte, byte, getD_append _ _ _ _ h]

lemma byte_append (pre s : List UInt8) : byte (pre ++ s) pre.length = byte s 0 := by
  rw [byte, byte, getD_append_right _ _ _ _ le_rfl, Nat.sub_self]

section

variable (hm : Marks pre dp z st)

include hm

lemma decideAt_decides (hne : byte l 0 ≠ byte r 0) :
    Decides (decideAt (pre ++ l) (pre ++ r) pre.length dp z) (keys st l) (keys st r) := by
  obtain ⟨a, ha⟩ := keys_eq st l
  obtain ⟨b, hb⟩ := keys_eq st r
  have hn : (byte l 0).toNat ≠ (byte r 0).toNat := fun heq => hne (UInt8.toNat_inj.1 heq)
  rw [decideAt, byte_append, byte_append, drop_left, drop_left, ha, hb]
  cases st with
  | none =>
    obtain ⟨rfl, rfl⟩ := hm
    rw [byte_append, byte_append, lead, lead]
    by_cases hboth : nonzero (byte l 0) ∧ nonzero (byte r 0)
    · rw [if_pos hboth, if_pos hboth.1, if_pos hboth.2]
      exact (decides_longer l r hne).cons 49
    · rw [if_neg hboth]
      -- a digit that is not zero is between all other bytes, so that 49 can stand for it
      rw [nonzero_iff, nonzero_iff] at hboth
      simp only [nonzero_iff]
      split_ifs <;> exact decides_of_ne (by omega) (by unfold difference; omega)
        (by unfold difference; omega)
  | zeros =>
    obtain ⟨hlt, rfl, h48⟩ := hm
    rw [byte_append_left _ hlt, byte_append_left _ hlt, h48, if_neg (by decide)]
    have hcl := (byte l 0).toNat_lt
    have hcr := (byte r 0).toNat_lt
    simp only [lead, rank, isdigit_iff, difference, UInt8.toNat_sub, UInt8.reduceToNat, true_and]
    split_ifs <;> exact decides_of_ne (by omega) (by omega) (by omega)
  | fraction =>
    obtain ⟨hlt, rfl, h48⟩ := hm
    rw [byte_append_left _ hlt, byte_append_left _ hlt, h48, if_neg (by decide)]
    exact decides_difference hne
  | whole =>
    obtain ⟨hlt, hnz⟩ := hm
    rw [byte_append_left _ hlt, byte_append_left _ hlt, if_pos ⟨hnz, hnz⟩]
    exact decides_longer l r hne

lemma Marks.next (c : UInt8) :
    Marks (pre ++ [c]) (if isdigit c then dp else pre.length + 1)
    (if isdigit c then z && c = 48 else true)
      (st.next c) := by
  by_cases hd : isdigit c = true
  · cases st with
    | none =>
      obtain ⟨rfl, rfl⟩ := hm
      by_cases h0 : c = 48
      · simp [Run.next, Marks, byte, h0, isdigit]
      · have hnz : nonzero c = true := nonzero_of_digit hd h0
        simp [Run.next, Marks, byte, hd, h0, hnz]
    | zeros =>
      obtain ⟨hlt, rfl, h48⟩ := hm
      by_cases h0 : c = 48
      · simp [Run.next, Marks, byte_append_left, hlt, h48, h0, lt_succ_of_lt hlt, isdigit]
      · simp [Run.next, Marks, byte_append_left, hlt, h48, hd, h0, lt_succ_of_lt hlt]
    | fraction =>
      obtain ⟨hlt, rfl, h48⟩ := hm
      simp [Run.next, Marks, byte_append_left, hlt, h48, hd, lt_succ_of_lt hlt]
    | whole =>
      obtain ⟨hlt, hnz⟩ := hm
      simp [Run.next, Marks, byte_append_left, hlt, hnz, hd, lt_succ_of_lt hlt]
  · simp [Run.next, hd, Marks]

lemma scan_decides (hl : 0 ∉ l) (hr : 0 ∉ r) :
    scan l r pre.length dp z = none ∧ l = r ∨ ∃ i dp' z', scan l r pre.length dp z = some (i, dp', z') ∧
      Decides (decideAt (pre ++ l) (pre ++ r) i dp' z') (keys st l) (keys st r) := by
  induction l generalizing r pre dp z st with
  | nil =>
    cases r with
    | nil => exact .inl ⟨rfl, rfl⟩
    | cons d r => exact .inr ⟨_, _, _, rfl, decideAt_decides hm fun h => hr (mem_cons.2 (.inl h))⟩
  | cons c l ih =>
    cases r with
    | nil => exact .inr ⟨_, _, _, rfl, decideAt_decides hm fun h => hl (mem_cons.2 (.inl h.symm))⟩
    | cons d r =>
      by_cases hcd : c = d
      · subst hcd
        have hscan : scan (c :: l) (c :: r) pre.length dp z = scan l r (pre ++ [c]).length
            (if isdigit c then dp else pre.length + 1) (if isdigit c then z && c = 48 else true) := by
          rw [scan, if_pos rfl, length_append]
          split_ifs <;> rfl
        rw [hscan, append_cons pre c l, append_cons pre c r]
        obtain ⟨h, heq⟩ | ⟨i, dp', z', h, hdec⟩ :=
          ih (hm.next c) (fun h => hl (mem_cons_of_mem _ h)) (fun h => hr (mem_cons_of_mem _ h))
        · exact .inl ⟨h, by rw [heq]⟩
        · exact .inr ⟨i, dp', z', h, hdec.keys_cons⟩
      · exact .inr ⟨_, _, _, by rw [scan, if_neg hcd], decideAt_decides hm hcd⟩

end

end Keys

lemma strverscmp_cases (a b : CString) :
    strverscmp a b = 0 ∧ a = b ∨ Decides (strverscmp a b) (key .none a.bytes) (key .none b.bytes) := by
  have hm : Marks [] 0 true .none := ⟨rfl, rfl⟩
  obtain ⟨h, heq⟩ | ⟨i, dp, z, h, hdec⟩ := scan_decides hm a.noNul b.noNul
  · left
    rw [length_nil] at h
    exact ⟨by rw [strverscmp, h], CString.ext heq⟩
  · right
    rw [length_nil] at h
    rw [strverscmp, h]
    exact hdec

/-- The result is 0 for equal strings only, its sign changes with the order of the strings, and it
is transitive. -/
theorem strverscmp_total_order (a b c : CString) :
    (strverscmp a b = 0 ↔ a = b) ∧ (strverscmp a b).sign = -(strverscmp b a).sign ∧
      (strverscmp a b ≤ 0 → strverscmp b c ≤ 0 → strverscmp a c ≤ 0) := by
  have hpos : ∀ x y : CString, 0 < strverscmp x y ↔ key .none y.bytes < key .none x.bytes := by
    intro x y
    obtain ⟨h, rfl⟩ | h := strverscmp_cases x y
    · simp [h]
    · exact h.2.1
  have hneg : ∀ x y : CString, strverscmp x y < 0 ↔ key .none x.bytes < key .none y.bytes := by
    intro x y
    obtain ⟨h, rfl⟩ | h := strverscmp_cases x y
    · simp [h]
    · exact h.1
  refine ⟨?_, ?_, ?_⟩
  · obtain ⟨h, rfl⟩ | h := strverscmp_cases a b
    · simp [h]
    · refine ⟨fun h0 => absurd h0 h.2.2, ?_⟩
      rintro rfl
      have := h.1
      have := h.2.1
      simp only [lt_irrefl, iff_false] at *
      omega
  · have h1 := (hneg a b).trans (hpos b a).symm
    have h2 := (hpos a b).trans (hneg b a).symm
    rcases lt_trichotomy (strverscmp a b) 0 with h | h | h
    · rw [Int.sign_eq_neg_one_of_neg h, Int.sign_eq_one_of_pos (h1.1 h)]
    · rw [h, show strverscmp b a = 0 by omega]
      rfl
    · rw [Int.sign_eq_one_of_pos h, Int.sign_eq_neg_one_of_neg (h2.1 h)]
      rfl
  · rw [← not_lt, ← not_lt, ← not_lt, hpos, hpos, hpos, not_lt, not_lt, not_lt]
    exact le_trans

end Musl.Strverscmp
