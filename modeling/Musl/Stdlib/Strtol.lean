import Mathlib.Data.List.TakeWhile
import Musl.Lib.Numeral

/-!
# Integers in strings

`__intscan` reads an integer from a stream, here the one that `strtox` makes of a string, and
`strtol`, `strtoul`, `strtoll` and `strtoull` pass on what it returns.  The digits are read by three
pairs of loops, first into an `unsigned`, then into an `unsigned long long`, up to the digit with
which the number would no longer fit.

The memory from the start of the string on is a list.  The string ends with the first zero byte, or
with the list, after which the bytes read are zero.
-/

namespace Musl.Stdlib.Strtol

open Musl.Lib.Numeral List Option Nat

/-! ### The stream -/

variable {c : UInt8} {base b n y k : ℕ} {t : List UInt8} {neg : Bool}

inductive Errno where
  | einval
  | erange
  deriving DecidableEq, Repr

/-- The stream of a string: the place of the next byte, and where the count began. -/
structure ShFile where
  rpos : ℕ
  start : ℕ
  deriving DecidableEq, Repr

/-- `shlim(f, 0)`. -/
def ShFile.lim (f : ShFile) : ShFile := { f with start := f.rpos }

/-- `shunget(f)`. -/
def ShFile.unget (f : ShFile) : ShFile := { f with rpos := f.rpos - 1 }

/-- `shcnt(f)`. -/
def ShFile.cnt (f : ShFile) : ℕ := f.rpos - f.start

variable (s : List UInt8)

def byte (i : ℕ) : UInt8 := s.getD i 0

def shgetc (f : ShFile) : UInt8 × ShFile := (byte s f.rpos, { f with rpos := f.rpos + 1 })

/-- `for (; guard; c = shgetc(f)) step`.  The guards fail at a zero byte, so that these rounds are
enough. -/
def forGet {σ : Type} (guard : σ → UInt8 → Bool) (step : σ → UInt8 → σ) :
    ℕ → σ → UInt8 → ShFile → σ × UInt8 × ShFile
  | 0, x, c, f => (x, c, f)
  | rounds + 1, x, c, f =>
    if guard x c then forGet guard step rounds (step x c) (shgetc s f).1 (shgetc s f).2 else (x, c, f)

/-! ### The code -/

def isspace (c : UInt8) : Bool := c = 32 || (c.toNat + 2 ^ 32 - 9) % 2 ^ 32 < 5

def table : List ℕ :=
  [255, 255, 255, 255, 255, 255, 255, 255, 255, 255, 255, 255, 255, 255, 255, 255, 255,
  255, 255, 255, 255, 255, 255, 255, 255, 255, 255, 255, 255, 255, 255, 255, 255,
  255, 255, 255, 255, 255, 255, 255, 255, 255, 255, 255, 255, 255, 255, 255, 255,
  0, 1, 2, 3, 4, 5, 6, 7, 8, 9, 255, 255, 255, 255, 255, 255,
  255, 10, 11, 12, 13, 14, 15, 16, 17, 18, 19, 20, 21, 22, 23, 24,
  25, 26, 27, 28, 29, 30, 31, 32, 33, 34, 35, 255, 255, 255, 255, 255,
  255, 10, 11, 12, 13, 14, 15, 16, 17, 18, 19, 20, 21, 22, 23, 24,
  25, 26, 27, 28, 29, 30, 31, 32, 33, 34, 35, 255, 255, 255, 255, 255] ++ List.replicate 128 255

/-- `val[c]`, where `val` is `table + 1`. -/
def val (c : UInt8) : ℕ := table.getD (c.toNat + 1) 255

/-- `c - '0'` as an `unsigned`. -/
def decimal (c : UInt8) : ℕ := (c.toNat + 2 ^ 32 - 48) % 2 ^ 32

def uintMax : ℕ := 2 ^ 32 - 1
def ullongMax : ℕ := 2 ^ 64 - 1

/-- The two loops that read digits: into `x`, and on into `y`. -/
def twoLoops (guardX : ℕ → UInt8 → Bool) (stepX : ℕ → UInt8 → ℕ) (guardY : ℕ → UInt8 → Bool)
    (stepY : ℕ → UInt8 → ℕ)
    (c : UInt8) (f : ShFile) : ℕ × UInt8 × ShFile :=
  let r := forGet s guardX stepX (s.length + 1) 0 c f
  forGet s guardY stepY (s.length + 1) r.1 r.2.1 r.2.2

def loops10 : UInt8 → ShFile → ℕ × UInt8 × ShFile :=
  twoLoops s
    (fun x c => decimal c < 10 && x ≤ uintMax / 10 - 1)
    (fun x c => (x * 10 + decimal c) % 2 ^ 32)
    (fun y c => decimal c < 10 && y ≤ ullongMax / 10 && 10 * y % 2 ^ 64 ≤ ullongMax - decimal c)
    (fun y c => (y * 10 + decimal c) % 2 ^ 64)

def shift (base : ℕ) : ℕ := [0, 1, 2, 4, 7, 3, 6, 5].getD ((0x17 * base) >>> 5 &&& 7) 0

def loopsShift (base : ℕ) : UInt8 → ShFile → ℕ × UInt8 × ShFile :=
  twoLoops s
    (fun x c => val c < base && x ≤ uintMax / 32)
    (fun x c => x <<< shift base % 2 ^ 32 ||| val c)
    (fun y c => val c < base && y ≤ ullongMax >>> shift base)
    (fun y c => y <<< shift base % 2 ^ 64 ||| val c)

def loopsGeneral (base : ℕ) : UInt8 → ShFile → ℕ × UInt8 × ShFile :=
  twoLoops s
    (fun x c => val c < base && x ≤ uintMax / 36 - 1)
    (fun x c => (x * base + val c) % 2 ^ 32)
    (fun y c => val c < base && y ≤ ullongMax / base && base * y % 2 ^ 64 ≤ ullongMax - val c)
    (fun y c => (y * base + val c) % 2 ^ 64)

def accumulate (base : ℕ) (c : UInt8) (f : ShFile) : ℕ × UInt8 × ShFile :=
  if base = 10 then loops10 s c f
  else if base &&& (base - 1) = 0 then loopsShift s base c f
  else loopsGeneral s base c f

/-- What `__intscan` returns, `errno` if it was set, and the stream. -/
structure Scanned where
  value : ℕ
  errno : Option Errno
  file : ShFile
  deriving DecidableEq, Repr

/-- `(y ^ neg) - neg`, where `neg` is 0 or -1. -/
def applySign (y : ℕ) (neg : Bool) : ℕ :=
  let mask := if neg then 2 ^ 64 - 1 else 0
  ((y ^^^ mask) + 2 ^ 64 - mask) % 2 ^ 64

/-- From `done` on. -/
def done (y : ℕ) (neg : Bool) (lim : ℕ) (errno : Option Errno) (f : ShFile) : Scanned :=
  let f := f.unget
  if y ≥ lim then
    if lim &&& 1 = 0 ∧ ¬neg then ⟨lim - 1, some .erange, f⟩
    else if y > lim then ⟨lim, some .erange, f⟩
    else ⟨applySign y neg, errno, f⟩
  else ⟨applySign y neg, errno, f⟩

/-- The digits: from `if (base == 10)` on. -/
def digits (base : ℕ) (neg : Bool) (lim : ℕ) (c : UInt8) (f : ShFile) : Scanned :=
  let (y, c, f) := accumulate s base c f
  if base = 10 ∧ decimal c ≥ 10 then done y neg lim none f
  else if val c < base then
    let (_, _, f) := forGet s (fun _ c => val c < base) (fun _ _ => ()) (s.length + 1) () c f
    done lim (if lim &&& 1 = 1 then false else neg) lim (some .erange) f
  else done y neg lim none f

/-- The number after the sign, from `if ((base == 0 || base == 16) && c == '0')` on. -/
def scanBody (base : ℕ) (pok neg : Bool) (lim : ℕ) (c : UInt8) (f : ShFile) : Scanned :=
  if (base = 0 ∨ base = 16) ∧ c = 48 then
    let (c, f) := shgetc s f
    if c ||| 32 = 120 then
      let (c, f) := shgetc s f
      if val c ≥ 16 then
        let f := f.unget
        if pok then ⟨0, none, f.unget⟩ else ⟨0, none, f.lim⟩
      else digits s 16 neg lim c f
    else digits s (if base = 0 then 8 else base) neg lim c f
  else
    let base := if base = 0 then 10 else base
    if val c ≥ base then ⟨0, some .einval, f.unget.lim⟩
    else digits s base neg lim c f

/-- The sign, from `if (c == '+' || c == '-')` on. -/
def scanSign (base : ℕ) (pok : Bool) (lim : ℕ) (c : UInt8) (f : ShFile) : Scanned :=
  if c = 43 ∨ c = 45 then scanBody s base pok (c = 45) lim (shgetc s f).1 (shgetc s f).2
  else scanBody s base pok false lim c f

def intscan (f : ShFile) (base : ℕ) (pok : Bool) (lim : ℕ) : Scanned :=
  if base > 36 ∨ base = 1 then ⟨0, some .einval, f⟩
  else
    let (_, c, f) :=
      forGet s (fun _ c => isspace c) (fun _ _ => ()) (s.length + 1) () (shgetc s f).1
        (shgetc s f).2
    scanSign s base pok lim c f

/-- `strtox(s, p, base, lim)`: the value, `errno` and the number of bytes before `*p`. -/
def strtox (base : ℤ) (lim : ℕ) : ℕ × Option Errno × ℕ :=
  let r := intscan s (ShFile.lim ⟨0, 0⟩) (base % 2 ^ 32).toNat true lim
  (r.value, r.errno, r.file.cnt)

/-- `strtoull(s, p, base)`, and `strtoul`. -/
def strtoull (base : ℤ) : ℕ × Option Errno × ℕ := strtox s base ullongMax

def strtoul (base : ℤ) : ℕ × Option Errno × ℕ := strtox s base ullongMax

/-- `strtoll(s, p, base)`, and `strtol`. -/
def strtoll (base : ℤ) : ℤ × Option Errno × ℕ :=
  let (y, errno, n) := strtox s base (2 ^ 63)
  ((y : ℤ).bmod (2 ^ 64), errno, n)

def strtol (base : ℤ) : ℤ × Option Errno × ℕ := strtoll s base

/-! ### Integers in C -/

def digitValue (c : UInt8) : Option ℕ :=
  if 48 ≤ c.toNat ∧ c.toNat ≤ 57 then some (c.toNat - 48)
  else if 65 ≤ c.toNat ∧ c.toNat ≤ 90 then some (c.toNat - 55)
  else if 97 ≤ c.toNat ∧ c.toNat ≤ 122 then some (c.toNat - 87)
  else none

def IsDigit (base : ℕ) (c : UInt8) : Prop := ∃ d < base, digitValue c = some d

def number (base : ℕ) (ds : List UInt8) : ℕ := value base 0 (ds.map fun c => (digitValue c).getD 0)

/-- A subject sequence without its sign, and the number that it denotes.  Base 0 stands for the
constants of C. -/
inductive Body : ℕ → List UInt8 → ℕ → Prop where
  | digits {base : ℕ} {ds : List UInt8} (hbase : 2 ≤ base) (hne : ds ≠ []) (hds : ∀ c ∈ ds,
    IsDigit base c) :
    Body base ds (number base ds)
  | hex {base : ℕ} {x : UInt8} {ds : List UInt8} (hbase : base = 0 ∨ base = 16) (hx : x = 120 ∨
    x = 88) (hne : ds ≠ [])
    (hds : ∀ c ∈ ds, IsDigit 16 c) : Body base (48 :: x :: ds) (number 16 ds)
  | octal {ds : List UInt8} (hds : ∀ c ∈ ds, IsDigit 8 c) : Body 0 (48 :: ds) (number 8 ds)
  | decimal {c : UInt8} {ds : List UInt8} (hc : c ≠ 48) (hds : ∀ d ∈ c :: ds, IsDigit 10 d) :
    Body 0 (c :: ds) (number 10 (c :: ds))

/-- A subject sequence, whether it has a minus sign, and the number that follows. -/
inductive Subject (base : ℕ) : List UInt8 → Bool → ℕ → Prop where
  | plain {t : List UInt8} {n : ℕ} (h : Body base t n) : Subject base t false n
  | plus {t : List UInt8} {n : ℕ} (h : Body base t n) : Subject base (43 :: t) false n
  | minus {t : List UInt8} {n : ℕ} (h : Body base t n) : Subject base (45 :: t) true n

structure IntType where
  signed : Bool
  width : ℕ
  two_le : 2 ≤ width
  le_64 : width ≤ 64

namespace IntType

variable (τ : IntType)

/-- The limit that is passed to `__intscan`. -/
def lim : ℕ := if τ.signed then 2 ^ (τ.width - 1) else 2 ^ τ.width - 1

/-- The conversion of an `unsigned long long`. -/
def convert (x : ℕ) : ℤ := if τ.signed then (x : ℤ).bmod (2 ^ τ.width) else (x : ℤ) % 2 ^ τ.width

/-- The number can be represented; a negated one in an unsigned type, if the magnitude can. -/
def Fits (neg : Bool) (n : ℕ) : Prop :=
  if τ.signed then (if neg then n ≤ 2 ^ (τ.width - 1) else n < 2 ^ (τ.width - 1)) else n < 2 ^ τ.width

instance (neg : Bool) (n : ℕ) : Decidable (τ.Fits neg n) := by
  unfold Fits
  infer_instance

def extreme (neg : Bool) : ℤ :=
  if τ.signed then (if neg then -2 ^ (τ.width - 1) else 2 ^ (τ.width - 1) - 1) else 2 ^ τ.width - 1

def answer (neg : Bool) (n : ℕ) : ℤ :=
  if τ.Fits neg n then
    let v : ℤ := if neg then -n else n
    if τ.signed then v else v % 2 ^ τ.width
  else τ.extreme neg

end IntType

/-! ### The digits -/

lemma val_eq : ∀ n < 256, table.getD (n + 1) 255 =
    if 48 ≤ n ∧ n ≤ 57 then n - 48 else if 65 ≤ n ∧ n ≤ 90 then n - 55
    else if 97 ≤ n ∧ n ≤ 122 then n - 87 else 255 := by
  decide +kernel

lemma val_eq_digitValue (c : UInt8) : val c = (digitValue c).getD 255 := by
  rw [val, val_eq _ c.toNat_lt, digitValue]
  split_ifs <;> rfl

lemma val_lt_iff (hbase : base ≤ 36) (c : UInt8) : val c < base ↔ IsDigit base c := by
  rw [val_eq_digitValue, IsDigit]
  cases h : digitValue c with
  | none => simp; omega
  | some d => simp

lemma IsDigit.val_eq (h : IsDigit base c) : val c = (digitValue c).getD 0 := by
  obtain ⟨d, -, hd⟩ := h
  rw [val_eq_digitValue, hd]
  rfl

lemma decimal_lt_iff (c : UInt8) : decimal c < 10 ↔ IsDigit 10 c := by
  have hc := c.toNat_lt
  rw [← val_lt_iff (by decide), val, Strtol.val_eq _ hc, decimal]
  split_ifs <;> omega

lemma decimal_eq (h : decimal c < 10) : decimal c = val c := by
  have hc := c.toNat_lt
  rw [decimal] at h ⊢
  rw [val, val_eq _ hc]
  split_ifs <;> omega

lemma isDigit_mono {a : ℕ} (hab : a ≤ b) (h : IsDigit a c) : IsDigit b c := by
  obtain ⟨d, hd, hc⟩ := h
  exact ⟨d, hd.trans_le hab, hc⟩

lemma IsDigit.not_space (h : IsDigit base c) : isspace c = false := by
  obtain ⟨d, -, hd⟩ := h
  rw [Bool.eq_false_iff]
  intro hspace
  simp only [isspace, Bool.or_eq_true, decide_eq_true_eq] at hspace
  have hc : c.toNat = 32 ∨ 9 ≤ c.toNat ∧ c.toNat < 14 := by
    have hlt := c.toNat_lt
    rcases hspace with rfl | hspace
    · exact .inl rfl
    · omega
  rw [digitValue, if_neg (by omega), if_neg (by omega), if_neg (by omega)] at hd
  exact absurd hd (some_ne_none d).symm

lemma byte_eq {i : ℕ} {rest : List UInt8} (h : s.drop i = c :: rest) : byte s i = c := by
  rw [byte, getD_eq_getElem?_getD, ← head?_drop, h]
  rfl

section

variable {i : ℕ} {a rest : List UInt8} (h : s.drop i = a ++ rest)

include h

lemma drop_after : s.drop (i + a.length) = rest := by
  rw [← drop_drop, h, drop_left]

lemma length_le_of_drop : a.length ≤ s.length := by
  have hlen := congrArg length h
  rw [length_drop, length_append] at hlen
  omega

end

/-- A loop reads the bytes for which its guard may hold, up to one at which it does not.  `next` is
what the step does when the guard holds. -/
lemma forGet_spec {σ : Type} {guard : σ → UInt8 → Bool} {step next : σ → UInt8 → σ} {P : σ → Prop}
    (hstep : ∀ x c, guard x c = true → step x c = next x c ∧ P (next x c)) {rounds : ℕ} (start : ℕ)
    (x : σ) (hx : P x) {i : ℕ} {ds rest : List UInt8} (hs : s.drop i = ds ++ rest)
    (hstop : ∀ x, guard x (byte s (i + ds.length)) = false) (hrounds : ds.length < rounds) :
    ∃ ds1 ds2, ds = ds1 ++ ds2 ∧ P (ds1.foldl next x) ∧
    (∀ c ∈ ds2.head?, guard (ds1.foldl next x) c = false) ∧
      forGet s guard step rounds x (byte s i) ⟨i + 1, start⟩ =
        (ds1.foldl next x, byte s (i + ds1.length), ⟨i + ds1.length + 1, start⟩) := by
  induction ds generalizing x i rounds with
  | nil =>
    obtain _ | rounds := rounds
    · omega
    refine ⟨[], [], rfl, hx, fun c hc => absurd hc (not_mem_none c), ?_⟩
    have hguard := hstop x
    rw [length_nil, add_zero] at hguard
    rw [forGet, if_neg (by simp [hguard])]
    simp
  | cons d ds ih =>
    obtain _ | rounds := rounds
    · omega
    have hd : byte s i = d := byte_eq s hs
    by_cases hguard : guard x d = true
    · obtain ⟨heq, hP⟩ := hstep x d hguard
      have hs' : s.drop (i + 1) = ds ++ rest := drop_after s (a := [d]) hs
      have hlen : i + (d :: ds).length = i + 1 + ds.length := by
        simp only [length_cons]
        omega
      obtain ⟨ds1, ds2, rfl, hP', hhead, hrun⟩ :=
        ih (next x d) hP hs' (hlen ▸ hstop) (lt_of_succ_lt_succ hrounds)
      refine ⟨d :: ds1, ds2, rfl, hP', hhead, ?_⟩
      rw [forGet, hd, if_pos hguard, heq]
      simp only [shgetc, foldl_cons, length_cons]
      rw [hrun, add_right_comm i 1, add_assoc i]
    · have hfalse : guard x d = false := by simpa using hguard
      refine ⟨[], d :: ds, rfl, hx, ?_, ?_⟩
      · intro c hc
        rw [← some.inj hc]
        exact hfalse
      · rw [forGet, hd, if_neg hguard]
        simp [hd]

lemma forGet_skip {p : UInt8 → Bool} (start : ℕ) {i : ℕ} {ds rest : List UInt8}
    (hs : s.drop i = ds ++ rest)
    (hds : ∀ c ∈ ds, p c = true) (hstop : p (byte s (i + ds.length)) = false) :
    forGet s (fun _ c => p c) (fun _ _ => ()) (s.length + 1) () (byte s i) ⟨i + 1, start⟩ =
      ((), byte s (i + ds.length), ⟨i + ds.length + 1, start⟩) := by
  have hlen : ds.length < s.length + 1 := lt_succ_of_le (length_le_of_drop s hs)
  obtain ⟨ds1, ds2, rfl, -, hguard, hrun⟩ := @forGet_spec s Unit (fun _ c => p c) (fun _ _ => ())
    (fun _ _ => ()) (fun _ => True) (fun _ _ _ => ⟨rfl, trivial⟩) _ start () trivial _ _ _ hs
      (fun _ => hstop) hlen
  cases ds2 with
  | nil => rw [hrun, append_nil]
  | cons d ds2 =>
    have htrue := hds d (mem_append_right _ mem_cons_self)
    exact absurd htrue (by simp [hguard d rfl])

def next (base x : ℕ) (c : UInt8) : ℕ := base * x + val c

lemma number_eq {ds : List UInt8} (hds : ∀ c ∈ ds, IsDigit base c) :
    number base ds = ds.foldl (next base) 0 := by
  have hmap : ds.map (fun c => (digitValue c).getD 0) = ds.map val :=
    map_congr_left fun c hc => (hds c hc).val_eq.symm
  rw [number, hmap, value, foldl_map]
  rfl

lemma le_foldl_next (hbase : 0 < base) (ds : List UInt8) (x : ℕ) : x ≤ ds.foldl (next base) x := by
  induction ds generalizing x with
  | nil => exact le_rfl
  | cons d ds ih =>
    have hone : x ≤ base * x := Nat.le_mul_of_pos_left x hbase
    exact (hone.trans (le_add_right _ _)).trans (ih (next base x d))

section Loops

variable {base i start : ℕ} {ds rest : List UInt8}

lemma shift_spec :
    ∀ b, 2 ≤ b ∧ b ≤ 36 → b &&& (b - 1) = 0 → 1 ≤ shift b ∧ shift b ≤ 5 ∧ b = 2 ^ shift b := by
  intro b hb
  obtain ⟨hlo, hhi⟩ := hb
  interval_cases b <;> decide

lemma shift_or {x v : ℕ} (hv : v < 2 ^ k) : x <<< k ||| v = 2 ^ k * x + v := by
  rw [← shiftLeft_add_eq_or_of_lt hv, shiftLeft_eq, mul_comm]

/-- What a pair of loops leaves, if `ds` are the digits from place `i` on: a part of them was read,
which denotes a number below `2 ^ 64`, and with the next one the number would be too large. -/
def LoopsRead (base i start : ℕ) (ds : List UInt8) (r : ℕ × UInt8 × ShFile) : Prop :=
  ∃ ds₁ ds₂, ds = ds₁ ++ ds₂ ∧ ds₁.foldl (next base) 0 < 2 ^ 64 ∧
    (∀ c ∈ ds₂.head?, 2 ^ 64 ≤ next base (ds₁.foldl (next base) 0) c) ∧
    r = (ds₁.foldl (next base) 0, byte s (i + ds₁.length), ⟨i + ds₁.length + 1, start⟩)

variable (hs : s.drop i = ds ++ rest) (hds : ∀ c ∈ ds, val c < base)
    (hstop : ¬val (byte s (i + ds.length)) < base)

include hs hds hstop

/-- If the guards of a pair of loops keep the number below `2 ^ 64`, and the second fails at a digit
only if it would not stay there, the loops stop after the last digit or before the number would be
too large. -/
lemma twoLoops_spec {guardX guardY : ℕ → UInt8 → Bool} {stepX stepY : ℕ → UInt8 → ℕ}
    (hX : ∀ x c, guardX x c = true → val c < base ∧ stepX x c = next base x c ∧ next base x c < 2 ^ 64)
    (hY : ∀ y c, guardY y c = true → val c < base ∧ stepY y c = next base y c ∧ next base y c < 2 ^ 64)
    (hlast : ∀ y c, val c < base → guardY y c = false → 2 ^ 64 ≤ next base y c) :
    LoopsRead s base i start ds (twoLoops s guardX stepX guardY stepY (byte s i) ⟨i + 1, start⟩) := by
  have hlen := length_le_of_drop s hs
  obtain ⟨ds1, ds2, rfl, hsmall, -, hrun⟩ :=
    forGet_spec s (P := fun x => x < 2 ^ 64) (fun x c hg => (hX x c hg).2)
    start 0 (by norm_num) hs (fun x => Bool.eq_false_iff.2 fun hg => hstop (hX x _ hg).1)
      (lt_succ_of_le hlen)
  have hs2 : s.drop (i + ds1.length) = ds2 ++ rest := drop_after s (by rw [hs, append_assoc])
  have hplace : i + (ds1 ++ ds2).length = i + ds1.length + ds2.length := by rw [length_append, add_assoc]
  rw [hplace] at hstop
  obtain ⟨ds3, ds4, rfl, hsmall', hguard, hrun'⟩ :=
    forGet_spec s (P := fun x => x < 2 ^ 64) (fun y c hg => (hY y c hg).2)
    start (ds1.foldl (next base) 0) hsmall hs2 (fun y => Bool.eq_false_iff.2 fun hg =>
      hstop (hY y _ hg).1)
    (show ds2.length < s.length + 1 by rw [length_append] at hlen; omega)
  rw [← foldl_append] at hsmall' hguard hrun'
  refine ⟨ds1 ++ ds3, ds4, (append_assoc ..).symm, hsmall', ?_, ?_⟩
  · intro c hc
    refine hlast _ c (hds c ?_) (hguard c hc)
    exact mem_append_right _ (mem_append_right _ (mem_of_mem_head? hc))
  · rw [twoLoops, hrun]
    rw [hrun', length_append, add_assoc i]

lemma loops10_spec (hbase : base = 10) :
    LoopsRead s base i start ds (loops10 s (byte s i) ⟨i + 1, start⟩) := by
  subst hbase
  refine twoLoops_spec s hs hds hstop ?_ ?_ ?_
  · intro x c hg
    simp only [Bool.and_eq_true, decide_eq_true_eq] at hg
    rw [uintMax] at hg
    have hval := decimal_eq hg.1
    simp only [next]
    omega
  · intro y c hg
    simp only [Bool.and_eq_true, decide_eq_true_eq] at hg
    simp only [ullongMax] at hg
    have hval := decimal_eq hg.1.1
    simp only [next]
    omega
  · intro y c hc hg
    have hdec := (decimal_lt_iff c).2 ((val_lt_iff (by decide) c).1 hc)
    have hval := decimal_eq hdec
    simp only [Bool.and_eq_false_iff, decide_eq_false_iff_not] at hg
    simp only [ullongMax] at hg
    simp only [next]
    omega

lemma loopsShift_spec (hbase : 2 ≤ base ∧ base ≤ 36) (hpow : base &&& (base - 1) = 0) :
    LoopsRead s base i start ds (loopsShift s base (byte s i) ⟨i + 1, start⟩) := by
  obtain ⟨-, hk5, hk⟩ := shift_spec base hbase hpow
  have h32 : base ≤ 32 := hk ▸ Nat.pow_le_pow_right (by decide) hk5
  have hshift : ∀ x, x <<< shift base = base * x := fun x => by rw [shiftLeft_eq, ← hk, mul_comm]
  -- the base divides `2 ^ 64`, so that there is room for the digit
  have hroom : ∀ y v, v < base → y ≤ (2 ^ 64 - 1) / base → base * y + v < 2 ^ 64 := by
    intro y v hv hy
    rw [hk] at hv hy ⊢
    generalize shift base = k at *
    interval_cases k <;> omega
  refine twoLoops_spec s hs hds hstop ?_ ?_ ?_
  · intro x c hg
    simp only [Bool.and_eq_true, decide_eq_true_eq] at hg
    have hfit : base * x ≤ 32 * ((2 ^ 32 - 1) / 32) := Nat.mul_le_mul h32 hg.2
    rw [hshift x, mod_eq_of_lt (by omega), ← hshift x, shift_or (hk ▸ hg.1), ← hk]
    exact ⟨hg.1, rfl, by rw [next]; omega⟩
  · intro y c hg
    simp only [Bool.and_eq_true, decide_eq_true_eq] at hg
    rw [shiftRight_eq_div_pow, ← hk] at hg
    have hfit := hroom y (val c) hg.1 hg.2
    rw [hshift y, mod_eq_of_lt (by omega), ← hshift y, shift_or (hk ▸ hg.1), ← hk]
    exact ⟨hg.1, rfl, hfit⟩
  · intro y c hc hg
    simp only [Bool.and_eq_false_iff, decide_eq_false_iff_not] at hg
    rw [ullongMax, shiftRight_eq_div_pow, ← hk, le_div_iff_mul_le (by omega), mul_comm] at hg
    rw [next]
    omega

lemma loopsGeneral_spec (hbase : 2 ≤ base ∧ base ≤ 36) :
    LoopsRead s base i start ds (loopsGeneral s base (byte s i) ⟨i + 1, start⟩) := by
  refine twoLoops_spec s hs hds hstop ?_ ?_ ?_
  · intro x c hg
    simp only [Bool.and_eq_true, decide_eq_true_eq] at hg
    have hfit : base * x ≤ 36 * ((2 ^ 32 - 1) / 36 - 1) := Nat.mul_le_mul hbase.2 hg.2
    rw [mul_comm x, mod_eq_of_lt (by omega), next]
    exact ⟨hg.1, rfl, by omega⟩
  · intro y c hg
    simp only [Bool.and_eq_true, decide_eq_true_eq] at hg
    rw [ullongMax, le_div_iff_mul_le (by omega), mul_comm] at hg
    rw [mul_comm y, next]
    rw [mod_eq_of_lt (by omega)]
    exact ⟨hg.1.1, rfl, by omega⟩
  · intro y c hc hg
    simp only [Bool.and_eq_false_iff, decide_eq_false_iff_not] at hg
    rw [ullongMax, le_div_iff_mul_le (by omega), mul_comm] at hg
    rw [next]
    omega

variable (start) in
lemma accumulate_spec (hbase : 2 ≤ base ∧ base ≤ 36) :
    LoopsRead s base i start ds (accumulate s base (byte s i) ⟨i + 1, start⟩) := by
  unfold accumulate
  split_ifs with h10 hpow
  · exact loops10_spec s hs hds hstop h10
  · exact loopsShift_spec s hs hds hstop hbase hpow
  · exact loopsGeneral_spec s hs hds hstop hbase

end Loops

/-! ### The limits -/

lemma xor_mask (hy : y < 2 ^ 64) : y ^^^ (2 ^ 64 - 1) = 2 ^ 64 - (y + 1) := by
  refine eq_of_testBit_eq fun i => ?_
  rw [testBit_xor, testBit_two_pow_sub_one, testBit_two_pow_sub_succ hy]
  by_cases hi : i < 64
  · simp [hi]
  · have hfalse : y.testBit i = false :=
      testBit_lt_two_pow (hy.trans_le (Nat.pow_le_pow_right (by decide) (Nat.le_of_not_lt hi)))
    simp [hfalse]

lemma applySign_eq (hy : y < 2 ^ 64) (neg : Bool) :
    (applySign y neg : ℤ) = (if neg then -(y : ℤ) else y) % 2 ^ 64 := by
  cases neg with
  | false =>
    simp only [applySign, Bool.false_eq_true, if_false, xor_zero]
    omega
  | true =>
    simp only [applySign, if_true, xor_mask hy]
    omega

lemma applySign_lt (y : ℕ) (neg : Bool) : applySign y neg < 2 ^ 64 := mod_lt _ (by decide)

namespace IntType

variable (τ : IntType)

/-- Half of the numbers that the type can represent. -/
structure Half (h : ℕ) : Prop where
  two_le : 2 ≤ h
  even : h % 2 = 0
  half : 2 ^ (τ.width - 1) = h
  whole : 2 ^ τ.width = 2 * h
  dvd : 2 * h ∣ 2 ^ 64

lemma exists_half : ∃ h, τ.Half h := by
  obtain ⟨-, w, -, hw64⟩ := τ
  obtain ⟨k, rfl⟩ : ∃ k, w = k + 2 := ⟨w - 2, by omega⟩
  have hpos : 0 < 2 ^ k := Nat.two_pow_pos k
  have hwhole : 2 ^ (k + 2) = 2 * (2 * 2 ^ k) := by
    rw [pow_add]
    omega
  exact ⟨2 * 2 ^ k, by omega, by omega, pow_succ', hwhole, hwhole ▸ pow_dvd_pow 2 hw64⟩

variable {τ} {h : ℕ}

section

variable (hh : τ.Half h)

include hh

lemma Half.lim : τ.lim = if τ.signed then h else 2 * h - 1 := by
  rw [IntType.lim, hh.half, hh.whole]

lemma Half.wholeInt : (2 : ℤ) ^ τ.width = 2 * h := by
  exact_mod_cast hh.whole

lemma Half.extreme (neg : Bool) :
    τ.extreme neg = if τ.signed then (if neg then -(h : ℤ) else h - 1) else 2 * h - 1 := by
  have hhalf : (2 : ℤ) ^ (τ.width - 1) = h := by exact_mod_cast hh.half
  rw [IntType.extreme, hhalf, hh.wholeInt]

lemma Half.convert_signed (hτ : τ.signed = true) {x : ℕ} {v : ℤ} (hx : (x : ℤ) % (2 * h) = v % (2 * h))
    (hlo : -(h : ℤ) ≤ v) (hhi : v < h) : τ.convert x = v := by
  have hmod : x % (2 * h : ℕ) = v % (2 * h : ℕ) := by exact_mod_cast hx
  rw [convert, hτ, hh.whole, ← Int.emod_bmod, hmod, Int.emod_bmod]
  exact Int.bmod_eq_of_le_mul_two (by push_cast; omega) (by push_cast; omega)

lemma Half.convert_unsigned (hτ : τ.signed = false) (x : ℕ) : τ.convert x = (x : ℤ) % (2 * h) := by
  rw [convert, hτ, if_neg Bool.false_ne_true, hh.wholeInt]

end

/-- What `__intscan` should leave for a number, a sign and the place after the number. -/
structure Returns (τ : IntType) (neg : Bool) (n : ℕ) (file : ShFile) (r : Scanned) : Prop where
  value : τ.convert r.value = τ.answer neg n
  value_lt : r.value < 2 ^ 64
  errno : r.errno = if τ.Fits neg n then none else some .erange
  file : r.file = file

lemma convert_applySign (hy : y < 2 ^ 64) (hfits : τ.Fits neg y) :
    τ.convert (applySign y neg) = τ.answer neg y := by
  obtain ⟨h, hh⟩ := τ.exists_half
  have hsign : (applySign y neg : ℤ) % (2 * h) = (if neg then -(y : ℤ) else y) % (2 * h) := by
    rw [applySign_eq hy, Int.emod_emod_of_dvd]
    exact_mod_cast Int.natCast_dvd_natCast.2 hh.dvd
  rw [answer, if_pos hfits]
  cases hτ : τ.signed with
  | true =>
    rw [Fits, hτ, hh.half] at hfits
    refine hh.convert_signed hτ hsign ?_ ?_
    · cases neg <;> simp at hfits ⊢
      omega
    · have hpos := hh.two_le
      cases neg <;> simp at hfits ⊢ <;> omega
  | false => rw [hh.convert_unsigned hτ, hsign, if_neg Bool.false_ne_true, hh.wholeInt]

lemma convert_max (hτ : τ.signed = true) : τ.convert (τ.lim - 1) = τ.extreme false := by
  obtain ⟨h, hh⟩ := τ.exists_half
  have hpos := hh.two_le
  rw [hh.lim, hh.extreme, if_pos hτ, if_pos hτ]
  refine hh.convert_signed hτ ?_ (by omega) (by omega)
  rw [cast_sub (by omega)]
  rfl

lemma convert_lim (neg : Bool) (hneg : ¬(τ.signed = true ∧ neg = false)) :
    τ.convert τ.lim = τ.extreme neg := by
  obtain ⟨h, hh⟩ := τ.exists_half
  have hpos := hh.two_le
  rw [hh.lim, hh.extreme]
  cases hτ : τ.signed with
  | true =>
    obtain rfl : neg = true := by simpa [hτ] using hneg
    refine hh.convert_signed hτ ?_ (by simp) (by simp; omega)
    have hturn : (h : ℤ) = -h + 2 * h := by ring
    calc (h : ℤ) % (2 * h) = (-h + 2 * h) % (2 * h) := by rw [← hturn]
      _ = -h % (2 * h) := Int.add_emod_right _ _
  | false =>
    rw [hh.convert_unsigned hτ, if_neg Bool.false_ne_true, if_neg Bool.false_ne_true,
      Int.emod_eq_of_lt (by omega) (by omega)]
    omega

lemma lim_lt (τ : IntType) : τ.lim < 2 ^ 64 := by
  obtain ⟨h, hh⟩ := τ.exists_half
  have hle : 2 * h ≤ 2 ^ 64 := le_of_dvd (by decide) hh.dvd
  rw [hh.lim]
  split_ifs <;> omega

lemma lim_bit : τ.lim &&& 1 = if τ.signed then 0 else 1 := by
  obtain ⟨h, hh⟩ := τ.exists_half
  have hpos := hh.two_le
  have heven := hh.even
  rw [and_one_is_mod, hh.lim]
  split_ifs <;> omega

lemma fits_iff (neg : Bool) (n : ℕ) :
    τ.Fits neg n ↔ if τ.signed = true ∧ neg = false then n < τ.lim else n ≤ τ.lim := by
  obtain ⟨h, hh⟩ := τ.exists_half
  have hpos := hh.two_le
  rw [Fits, hh.lim, hh.half, hh.whole]
  cases τ.signed <;> cases neg <;> simp <;> omega

lemma done_spec (τ : IntType) (hy : y < 2 ^ 64) (neg : Bool) (f : ShFile) :
    Returns τ neg y f.unget (done y neg τ.lim none f) := by
  have hfits := τ.fits_iff neg y
  have hlim := τ.lim_lt
  have hexact : τ.Fits neg y → Returns τ neg y f.unget ⟨applySign y neg, none, f.unget⟩ :=
    fun h => ⟨convert_applySign hy h, applySign_lt y neg, (if_pos h).symm, rfl⟩
  have hover : ∀ x < 2 ^ 64, ¬τ.Fits neg y → τ.convert x = τ.extreme neg →
      Returns τ neg y f.unget ⟨x, some .erange, f.unget⟩ :=
    fun x hlt h hx => ⟨by rw [hx, answer, if_neg h], hlt, (if_neg h).symm, rfl⟩
  by_cases hmax : τ.signed = true ∧ neg = false
  · obtain ⟨hτ, rfl⟩ := hmax
    have hbit : τ.lim &&& 1 = 0 ∧ ¬false = true := ⟨by rw [lim_bit, hτ, if_pos rfl], Bool.false_ne_true⟩
    rw [if_pos ⟨hτ, rfl⟩] at hfits
    simp only [done, if_pos hbit]
    split_ifs with hge
    · exact hover _ (by omega) (fun h => absurd (hfits.1 h) (by omega)) (convert_max hτ)
    · exact hexact (hfits.2 (by omega))
  · have hbit : ¬(τ.lim &&& 1 = 0 ∧ ¬neg = true) := by
      rw [lim_bit]
      cases hτ : τ.signed <;> cases neg <;> simp_all
    rw [if_neg hmax] at hfits
    simp only [done]
    split_ifs with hge hgt
    · exact hover _ hlim (fun h => absurd (hfits.1 h) (by omega)) (convert_lim neg hmax)
    · exact hexact (hfits.2 (by omega))
    · exact hexact (hfits.2 (by omega))

lemma answer_lim (τ : IntType) (neg : Bool) :
    τ.answer (if τ.lim &&& 1 = 1 then false else neg) τ.lim = τ.extreme neg := by
  obtain ⟨h, hh⟩ := τ.exists_half
  have hpos := hh.two_le
  rw [lim_bit, answer]
  simp only [fits_iff, hh.extreme, hh.lim, hh.wholeInt]
  cases hτ : τ.signed with
  | true => cases neg <;> simp
  | false =>
    simp only [Bool.false_eq_true, if_false, if_true]
    rw [Int.emod_eq_of_lt (by omega) (by omega)]
    omega

lemma done_overflow (τ : IntType) (hn : 2 ^ 64 ≤ n) (neg : Bool) (f : ShFile) :
    Returns τ neg n f.unget
    (done τ.lim (if τ.lim &&& 1 = 1 then false else neg) τ.lim (some .erange) f) := by
  have hlim := τ.lim_lt
  have hfits : ¬τ.Fits neg n := by
    rw [fits_iff]
    split_ifs <;> omega
  obtain ⟨hvalue, hlt, -, -⟩ := done_spec τ hlim (if τ.lim &&& 1 = 1 then false else neg) f
  rw [answer_lim] at hvalue
  generalize (if τ.lim &&& 1 = 1 then false else neg) = neg' at hvalue hlt ⊢
  have hsame : done τ.lim neg' τ.lim (some .erange) f = ⟨(done τ.lim neg' τ.lim none f).value,
      some .erange, f.unget⟩ := by
    simp only [done]
    split_ifs <;> rfl
  rw [hsame]
  exact ⟨by rw [answer, if_neg hfits, hvalue], hlt, (if_neg hfits).symm, rfl⟩

end IntType

/-! ### The number and its sign -/

section Digits

variable {base : ℕ} {i start : ℕ} {ds rest : List UInt8}

lemma digits_spec (τ : IntType) (hbase : 2 ≤ base ∧ base ≤ 36) (hs : s.drop i = ds ++ rest)
    (hds : ∀ c ∈ ds, IsDigit base c) (hstop : ¬IsDigit base (byte s (i + ds.length))) (neg : Bool) :
    τ.Returns neg (number base ds) ⟨i + ds.length,
      start⟩ (digits s base neg τ.lim (byte s i) ⟨i + 1, start⟩) := by
  have hval : ∀ c ∈ ds, val c < base := fun c hc => (val_lt_iff hbase.2 c).2 (hds c hc)
  rw [← val_lt_iff hbase.2] at hstop
  obtain ⟨ds1, ds2, rfl, hsmall, hlarge, hread⟩ := accumulate_spec s start hs hval hstop hbase
  rw [number_eq hds, digits, hread]
  dsimp only
  cases ds2 with
  | nil =>
    rw [append_nil] at *
    have hdone := IntType.done_spec τ hsmall neg ⟨i + ds1.length + 1, start⟩
    split_ifs <;> exact hdone
  | cons d ds2 =>
    have hs2 : s.drop (i + ds1.length) = d :: ds2 ++ rest := drop_after s (by rw [hs, append_assoc])
    have hd : byte s (i + ds1.length) = d := byte_eq s hs2
    have hvd : val d < base := hval d (mem_append_right _ mem_cons_self)
    rw [hd]
    have hn10 : ¬(base = 10 ∧ decimal d ≥ 10) := by
      rintro ⟨rfl, hge⟩
      exact absurd ((decimal_lt_iff d).2 (hds d (mem_append_right _ mem_cons_self))) (by omega)
    rw [if_neg hn10, if_pos hvd]
    have hplace : i + (ds1 ++ d :: ds2).length = i + ds1.length + (d :: ds2).length := by
      rw [length_append, add_assoc]
    have hskip := forGet_skip s start hs2
      (fun c hc => decide_eq_true (hval c (mem_append_right _ hc)))
        (by rw [← hplace]; exact decide_eq_false hstop)
    rw [hd] at hskip
    rw [hskip, ← hplace]
    have hover : 2 ^ 64 ≤ (ds1 ++ d :: ds2).foldl (next base) 0 := by
      rw [foldl_append]
      exact (hlarge d rfl).trans (le_foldl_next (by omega) ds2 _)
    exact IntType.done_overflow τ hover neg ⟨i + (ds1 ++ d :: ds2).length + 1, start⟩

lemma drop_eq_cons (h : byte s i ≠ 0) : s.drop i = byte s i :: s.drop (i + 1) := by
  have hi : i < s.length := by
    refine Nat.lt_of_not_le fun hle => h ?_
    rw [byte, getD_eq_getElem?_getD, getElem?_eq_none hle]
    rfl
  have hbyte : byte s i = s[i] := by
    rw [byte, getD_eq_getElem?_getD, getElem?_eq_getElem hi]
    rfl
  rw [hbyte]
  exact drop_eq_getElem_cons hi

lemma IsDigit.ne_zero (h : IsDigit base c) : c ≠ 0 := by
  rintro rfl
  obtain ⟨d, -, hd⟩ := h
  exact absurd hd (some_ne_none d).symm

end Digits

def Longest (base : ℕ) (text t : List UInt8) : Prop :=
  ∀ t' n, t' <+: text → Body base t' n → t'.length ≤ t.length

section Body

variable {base i : ℕ} {t rest : List UInt8}

lemma Longest.not_isDigit (hs : s.drop i = t ++ rest) (hmax : Longest base (t ++ rest) t)
    (hgrow : ∀ d, IsDigit b d →
    ∃ n, Body base (t ++ [d]) n) : ¬IsDigit b (byte s (i + t.length)) := by
  intro hdigit
  have hrest : rest = byte s (i + t.length) :: s.drop (i + t.length + 1) := by
    rw [← drop_eq_cons s hdigit.ne_zero, drop_after s hs]
  obtain ⟨n, hbody⟩ := hgrow _ hdigit
  have hle := hmax _ n ⟨_, by rw [append_assoc, singleton_append, ← hrest]⟩ hbody
  rw [length_append, length_singleton] at hle
  omega

lemma returns_zero (τ : IntType) (neg : Bool) (file : ShFile) : τ.Returns neg 0 file ⟨0, none, file⟩ := by
  have hfits : τ.Fits neg 0 := by
    unfold IntType.Fits
    split_ifs <;> positivity
  have hvalue := IntType.convert_applySign (by decide) hfits
  rw [show applySign 0 neg = 0 by cases neg <;> decide] at hvalue
  exact ⟨hvalue, Nat.two_pow_pos 64, (if_pos hfits).symm, rfl⟩

lemma or_32_eq (h : c ||| 32 = 120) : c = 120 ∨ c = 88 := by
  have hall : ∀ n < 256, n ||| 32 = 120 → n = 120 ∨ n = 88 := by decide +kernel
  have hnat : c.toNat ||| 32 = 120 := congrArg UInt8.toNat h
  rcases hall _ c.toNat_lt hnat with h | h
  · exact .inl (UInt8.toNat_inj.1 h)
  · exact .inr (UInt8.toNat_inj.1 h)

lemma not_isDigit_x (hb : b ≤ 16) (hc : c = 120 ∨ c = 88) : ¬IsDigit b c := by
  rintro ⟨d, hd, hval⟩
  have h33 : digitValue c = some 33 := by rcases hc with rfl | rfl <;> rfl
  rw [h33, some.injEq] at hval
  omega

lemma isDigit_concat {ds : List UInt8} {d : UInt8} (hds : ∀ c ∈ ds, IsDigit b c) (hd : IsDigit b d) :
    ∀ c ∈ ds ++ [d], IsDigit b c :=
  forall_mem_append.2 ⟨hds, forall_mem_singleton.2 hd⟩

/-- The digits after a zero.  If there are none because an `x` follows, no digit comes after that. -/
lemma scanBody_zero (τ : IntType) (neg : Bool) (hbase : base = 0 ∧ b = 8 ∨ base = 16 ∧ b = 16)
    {ds : List UInt8} (hs : s.drop i = 48 :: ds ++ rest) (hds : ∀ c ∈ ds, IsDigit b c)
    (hmax : Longest base (48 :: ds ++ rest) (48 :: ds)) :
    τ.Returns neg (number b ds) ⟨i + (48 :: ds).length,
      0⟩ (scanBody s base true neg τ.lim (byte s i) ⟨i + 1, 0⟩) := by
  have hs1 : s.drop (i + 1) = ds ++ rest := drop_after s (a := [48]) hs
  have hlen : i + (48 :: ds).length = i + 1 + ds.length := by
    rw [length_cons]
    omega
  have hcond : (base = 0 ∨ base = 16) ∧ byte s i = 48 := ⟨by omega, byte_eq s hs⟩
  have hb : (if base = 0 then 8 else base) = b := by
    split_ifs <;> omega
  simp only [scanBody, shgetc, if_pos hcond, hb]
  by_cases hx : byte s (i + 1) ||| 32 = 120
  · rw [if_pos hx]
    have hx' := or_32_eq hx
    have hnil : ds = [] := by
      cases ds with
      | nil => rfl
      | cons d ds =>
        have hd : byte s (i + 1) = d := byte_eq s hs1
        exact absurd (hds d mem_cons_self) (not_isDigit_x (by omega) (hd ▸ hx'))
    subst hnil
    have hval : val (byte s (i + 1 + 1)) ≥ 16 := by
      refine Nat.le_of_not_lt fun hlt => ?_
      have hdigit := (val_lt_iff (by decide) _).1 hlt
      have hrest : rest = byte s (i + 1) :: byte s (i + 1 + 1) :: s.drop (i + 1 + 1 + 1) := by
        rw [← drop_eq_cons s hdigit.ne_zero,
          ← drop_eq_cons s (by rcases hx' with h | h <;> rw [h] <;> decide), hs1]
        rfl
      have hle :=
        hmax [48, byte s (i + 1), byte s (i + 1 + 1)] _ ⟨s.drop (i + 1 + 1 + 1), by rw [hrest]; rfl⟩
        (.hex (by omega) hx' (by simp) (by simpa using hdigit))
      simp at hle
    rw [if_pos hval]
    exact returns_zero τ neg _
  · rw [if_neg hx, hlen]
    refine digits_spec s τ (by omega) hs1 hds ?_ neg
    rw [← hlen]
    refine hmax.not_isDigit s hs fun d hd => ?_
    rcases hbase with ⟨rfl, rfl⟩ | ⟨rfl, rfl⟩
    · exact ⟨_, .octal (isDigit_concat hds hd)⟩
    · exact ⟨_, .digits (by decide) (by simp)
        (isDigit_concat (forall_mem_cons.2 ⟨⟨0, by decide, rfl⟩, hds⟩) hd)⟩

lemma val_first (hb : b ≤ 36) {ds : List UInt8} (hne : ds ≠ []) (hs : s.drop i = ds ++ rest)
    (hds : ∀ c ∈ ds, IsDigit b c) : ¬val (byte s i) ≥ b := by
  obtain ⟨d, ds, rfl⟩ := exists_cons_of_ne_nil hne
  rw [byte_eq s hs]
  exact not_le.2 ((val_lt_iff hb d).2 (hds d mem_cons_self))

lemma scanBody_digits (τ : IntType) (neg : Bool) (hb : (if base = 0 then 10 else base) = b)
    (hrange : 2 ≤ b ∧ b ≤ 36)
    {ds : List UInt8} (hne : ds ≠ []) (hs : s.drop i = ds ++ rest) (hds : ∀ c ∈ ds, IsDigit b c)
    (hzero : ¬((base = 0 ∨ base = 16) ∧ byte s i = 48)) (hstop : ¬IsDigit b (byte s (i + ds.length))) :
    τ.Returns neg (number b ds) ⟨i + ds.length,
      0⟩ (scanBody s base true neg τ.lim (byte s i) ⟨i + 1, 0⟩) := by
  simp only [scanBody, if_neg hzero, hb]
  rw [if_neg (val_first s hrange.2 hne hs hds)]
  exact digits_spec s τ hrange hs hds hstop neg

lemma scanBody_spec (τ : IntType) (neg : Bool) (hbase : base ≤ 36) (hs : s.drop i = t ++ rest)
    (hbody : Body base t n) (hmax : Longest base (t ++ rest) t) :
    τ.Returns neg n ⟨i + t.length, 0⟩ (scanBody s base true neg τ.lim (byte s i) ⟨i + 1, 0⟩) := by
  cases hbody with
  | digits hb hne hds =>
    have hstop : ¬IsDigit base (byte s (i + t.length)) :=
      hmax.not_isDigit s hs fun d hd => ⟨_, .digits hb (by simp) (isDigit_concat hds hd)⟩
    by_cases hzero : (base = 0 ∨ base = 16) ∧ byte s i = 48
    · -- the first zero could have been that of a prefix
      obtain rfl : base = 16 := by omega
      cases t with
      | nil => exact absurd rfl hne
      | cons d ds =>
        obtain rfl : d = 48 := by rw [← byte_eq s hs, hzero.2]
        exact scanBody_zero s τ neg (.inr ⟨rfl, rfl⟩) hs (forall_mem_cons.1 hds).2 hmax
    · exact scanBody_digits s τ neg (if_neg (by omega)) ⟨hb, hbase⟩ hne hs hds hzero hstop
  | @hex _ x ds hb hx hne hds =>
    have hs1 : s.drop (i + 1) = x :: ds ++ rest := drop_after s (a := [48]) hs
    have hs2 : s.drop (i + 1 + 1) = ds ++ rest := drop_after s (a := [x]) hs1
    have hlen : i + (48 :: x :: ds).length = i + 1 + 1 + ds.length := by
      rw [length_cons, length_cons]
      omega
    have hor : byte s (i + 1) ||| 32 = 120 := by
      rw [byte_eq s hs1]
      rcases hx with rfl | rfl <;> decide
    have hval := val_first s (by decide) hne hs2 hds
    have hcond : (base = 0 ∨ base = 16) ∧ byte s i = 48 := ⟨hb, byte_eq s hs⟩
    simp only [scanBody, shgetc, if_pos hcond, if_pos hor, if_neg hval]
    rw [hlen]
    refine digits_spec s τ (by decide) hs2 hds ?_ neg
    rw [← hlen]
    exact hmax.not_isDigit s hs fun d hd => ⟨_, .hex hb hx (by simp) (isDigit_concat hds hd)⟩
  | octal hds => exact scanBody_zero s τ neg (.inl ⟨rfl, rfl⟩) hs hds hmax
  | decimal hc hds =>
    refine scanBody_digits s τ neg (if_pos rfl) (by decide) (by simp) hs hds ?_ ?_
    · rintro ⟨-, h48⟩
      exact hc (by rw [← byte_eq s hs, h48])
    · exact hmax.not_isDigit s hs fun d hd => ⟨_, .decimal hc (isDigit_concat hds hd)⟩

lemma scanBody_none (lim : ℕ) (neg : Bool) (hbase : base = 0 ∨ 2 ≤ base ∧ base ≤ 36)
    (hnone : ∀ t n, t <+: s.drop i → ¬Body base t n) :
    scanBody s base true neg lim (byte s i) ⟨i + 1, 0⟩ = ⟨0, some .einval, ⟨i, i⟩⟩ := by
  have hone : ∀ n, byte s i ≠ 0 → ¬Body base [byte s i] n := by
    intro n hne
    exact hnone _ n ⟨s.drop (i + 1), (drop_eq_cons s hne).symm⟩
  have hzero : ¬((base = 0 ∨ base = 16) ∧ byte s i = 48) := by
    rintro ⟨hb, h48⟩
    rw [h48] at hone
    rcases hb with rfl | rfl
    · exact hone _ (by decide) (.octal (fun c hc => absurd hc not_mem_nil))
    · exact hone _ (by decide)
        (.digits (by decide) (by simp) (forall_mem_singleton.2 ⟨0, by decide, rfl⟩))
  have hval : val (byte s i) ≥ if base = 0 then 10 else base := by
    refine Nat.le_of_not_lt fun hlt => ?_
    by_cases h0 : base = 0
    · subst h0
      have hdigit := (val_lt_iff (by decide) _).1 hlt
      exact hone _ hdigit.ne_zero (.decimal (fun h48 => hzero ⟨.inl rfl, h48⟩)
        (forall_mem_singleton.2 hdigit))
    · rw [if_neg h0] at hlt
      have hdigit := (val_lt_iff (by omega) _).1 hlt
      exact hone _ hdigit.ne_zero (.digits (by omega) (by simp) (forall_mem_singleton.2 hdigit))
  simp only [scanBody, if_neg hzero, if_pos hval]
  rfl

end Body

/-! ### The whole string -/

lemma Body.exists_cons (hbase : base ≤ 36) (h : Body base t n) : ∃ d ds, t = d :: ds ∧ IsDigit 36 d := by
  cases h with
  | digits _ hne hds =>
    cases t with
    | nil => exact absurd rfl hne
    | cons d ds => exact ⟨d, ds, rfl, isDigit_mono hbase (hds d mem_cons_self)⟩
  | hex _ _ _ _ => exact ⟨48, _, rfl, 0, by decide, rfl⟩
  | octal _ => exact ⟨48, _, rfl, 0, by decide, rfl⟩
  | decimal _ hds => exact ⟨_, _, rfl, isDigit_mono (by decide) (hds _ mem_cons_self)⟩

lemma not_isDigit_sign (hc : c = 43 ∨ c = 45) : ¬IsDigit 36 c := by
  rintro ⟨d, -, hd⟩
  have hnone : digitValue c = none := by rcases hc with rfl | rfl <;> rfl
  rw [hnone] at hd
  exact absurd hd (some_ne_none d).symm

lemma subject_of_sign (hbase : base ≤ 36) (hc : c = 43 ∨ c = 45) {text : List UInt8}
    (ht : t <+: c :: text) (h :
    Subject base t neg n) : ∃ t', t = c :: t' ∧ neg = decide (c = 45) ∧ t' <+: text ∧ Body base t' n := by
  cases h with
  | plain hbody =>
    obtain ⟨d, ds, rfl, hd⟩ := hbody.exists_cons hbase
    obtain rfl := (cons_prefix_cons.1 ht).1
    exact absurd hd (not_isDigit_sign hc)
  | plus hbody | minus hbody =>
    obtain ⟨rfl, ht'⟩ := cons_prefix_cons.1 ht
    exact ⟨_, rfl, rfl, ht', hbody⟩

lemma Subject.of_sign (hc : c = 43 ∨ c = 45) (h : Body base t n) :
    Subject base (c :: t) (decide (c = 45)) n := by
  rcases hc with rfl | rfl
  · exact .plus h
  · exact .minus h

lemma subject_of_plain {text : List UInt8} (htext : ∀ c ∈ text.head?, ¬(c = 43 ∨ c = 45))
    (ht : t <+: text) (h :
    Subject base t neg n) : neg = false ∧ Body base t n := by
  cases h with
  | plain hbody => exact ⟨rfl, hbody⟩
  | plus hbody =>
    obtain ⟨rest, rfl⟩ := ht
    exact absurd (.inl rfl) (htext 43 rfl)
  | minus hbody =>
    obtain ⟨rest, rfl⟩ := ht
    exact absurd (.inr rfl) (htext 45 rfl)

lemma drop_takeWhile (hk : (s.takeWhile isspace).length = k) : s.drop k = s.dropWhile isspace := by
  have happ : s.takeWhile isspace ++ s.dropWhile isspace = s := takeWhile_append_dropWhile
  have hdrop : (s.takeWhile isspace ++ s.dropWhile isspace).drop (s.takeWhile isspace).length =
    s.dropWhile isspace :=
    drop_left
  rwa [happ, hk] at hdrop

lemma intscan_eq (base lim : ℕ) (hbase : base = 0 ∨ 2 ≤ base ∧ base ≤ 36)
    (hk : (s.takeWhile isspace).length = k) :
    intscan s ⟨0, 0⟩ base true lim = scanSign s base true lim (byte s k) ⟨k + 1, 0⟩ := by
  have hstop : isspace (byte s k) = false := by
    by_cases hzero : byte s k = 0
    · rw [hzero]
      decide
    · have hcons := drop_eq_cons s hzero
      rw [drop_takeWhile s hk] at hcons
      have hhead := head?_dropWhile_not isspace s
      rw [hcons] at hhead
      simpa using hhead
  have hskip := forGet_skip s 0 (show s.drop 0 = s.takeWhile isspace ++ s.dropWhile isspace from
    takeWhile_append_dropWhile.symm) (fun c hc => mem_takeWhile_imp hc) (by rwa [hk, zero_add])
  simp only [hk] at hskip
  rw [intscan, if_neg (by omega)]
  simp [shgetc, hskip]

/-- The types `long` and `unsigned long`. -/
def IntType.long : IntType := ⟨true, 64, by decide, by decide⟩
def IntType.ulong : IntType := ⟨false, 64, by decide, by decide⟩

lemma strtoul_of_digits {ds rest : List UInt8} (hne : ds ≠ []) (hds : ∀ c ∈ ds, IsDigit 10 c)
    (hstop : ¬IsDigit 10 (byte (ds ++ rest) ds.length)) (hlt : number 10 ds < 2 ^ 64) :
    strtoul (ds ++ rest) 10 = (number 10 ds, none, ds.length) := by
  obtain ⟨d, ds', rfl⟩ := exists_cons_of_ne_nil hne
  have hd : IsDigit 36 d := isDigit_mono (by decide) (hds d mem_cons_self)
  have hscan :=
    intscan_eq (d :: ds' ++ rest) 10 ullongMax (.inr (by decide)) (k := 0) (by simp [hd.not_space])
  have hbyte : byte (d :: ds' ++ rest) 0 = d := rfl
  have hbody :=
    scanBody_digits (d :: ds' ++ rest) IntType.ulong false (if_neg (by decide))
      (by decide) hne rfl hds
    (by simp) (by rwa [zero_add])
  rw [scanSign, hbyte, if_neg fun h => not_isDigit_sign h hd] at hscan
  rw [hbyte, show IntType.ulong.lim = ullongMax from rfl, ← hscan] at hbody
  have hfits : IntType.ulong.Fits false (number 10 (d :: ds')) := hlt
  have hvalue := hbody.value
  rw [IntType.answer, if_pos hfits] at hvalue
  have hexact : ((intscan (d :: ds' ++ rest) ⟨0, 0⟩ 10 true ullongMax).value : ℤ) % 2 ^ 64 =
    (number 10 (d :: ds') : ℤ) % 2 ^ 64 := hvalue
  have hsmall := hbody.value_lt
  have herrno := hbody.errno
  rw [if_pos hfits] at herrno
  have hbase : ((10 : ℤ) % 2 ^ 32).toNat = 10 := by decide
  have hfile : ShFile.lim ⟨0, 0⟩ = ⟨0, 0⟩ := rfl
  rw [strtoul, strtox, hbase, hfile, herrno, hbody.file]
  simp only [ShFile.cnt, zero_add, Nat.sub_zero, Prod.mk.injEq, and_true]
  omega

/-- **`__intscan` reads the longest subject sequence.**  Its value is returned if it can be
represented, and the extreme value of the type otherwise; if there is none, nothing is read. -/
theorem intscan_longest (s : List UInt8) (base : ℕ) (hbase : base = 0 ∨ 2 ≤ base ∧ base ≤ 36)
    (τ : IntType) :
    let r := intscan s ⟨0, 0⟩ base true τ.lim
    let text := s.dropWhile isspace
    ((∀ t neg n, t <+: text → ¬Subject base t neg n) → r.value = 0 ∧ r.errno = some .einval ∧
      r.file.cnt = 0) ∧
    ∀ t neg n, t <+: text → Subject base t neg n →
      (∀ t' neg' n', t' <+: text → Subject base t' neg' n' → t'.length ≤ t.length) →
      τ.convert r.value = τ.answer neg n ∧ r.errno = (if τ.Fits neg n then none else some .erange) ∧
        r.file.cnt = (s.takeWhile isspace).length + t.length := by
  intro r text
  obtain ⟨k, hk⟩ : ∃ k, (s.takeWhile isspace).length = k := ⟨_, rfl⟩
  have htext : s.drop k = text := drop_takeWhile s hk
  have hr : r = scanSign s base true τ.lim (byte s k) ⟨k + 1, 0⟩ := intscan_eq s base τ.lim hbase hk
  have hle : base ≤ 36 := by omega
  rw [hr, scanSign, hk]
  by_cases hsign : byte s k = 43 ∨ byte s k = 45
  · have hcons : text = byte s k :: s.drop (k + 1) := by
      rw [← htext]
      exact drop_eq_cons s (by rcases hsign with h | h <;> rw [h] <;> decide)
    simp only [if_pos hsign, shgetc]
    constructor
    · intro hnone
      rw [scanBody_none s _ _ hbase fun t n ht hbody =>
        hnone (byte s k :: t) _ n (hcons ▸ cons_prefix_cons.2 ⟨rfl, ht⟩) (.of_sign hsign hbody)]
      exact ⟨rfl, rfl, Nat.sub_self _⟩
    · intro t neg n ht hsub hmax
      obtain ⟨t, rfl, rfl, ⟨rest, hrest⟩, hbody⟩ := subject_of_sign hle hsign (hcons ▸ ht) hsub
      have hlong : Longest base (t ++ rest) t := by
        intro t' n' ht' hbody'
        have hlen := hmax (byte s k :: t') _ n' (hcons ▸ cons_prefix_cons.2 ⟨rfl, hrest ▸ ht'⟩)
          (.of_sign hsign hbody')
        simpa using hlen
      have hret := scanBody_spec s τ (decide (byte s k = 45)) hle hrest.symm hbody hlong
      refine ⟨hret.value, hret.errno, ?_⟩
      rw [hret.file]
      simp only [ShFile.cnt, length_cons]
      omega
  · have hhead : ∀ c ∈ text.head?, ¬(c = 43 ∨ c = 45) := by
      intro c hc
      obtain ⟨rest, hrest⟩ := head?_eq_some_iff.1 hc
      rwa [byte_eq s (htext.trans hrest)] at hsign
    simp only [if_neg hsign]
    constructor
    · intro hnone
      rw [scanBody_none s _ _ hbase fun t n ht hbody => hnone t _ n (htext ▸ ht) (.plain hbody)]
      exact ⟨rfl, rfl, Nat.sub_self _⟩
    · intro t neg n ht hsub hmax
      obtain ⟨rfl, hbody⟩ := subject_of_plain hhead ht hsub
      obtain ⟨rest, hrest⟩ := ht
      have hlong : Longest base (t ++ rest) t :=
        fun t' n' ht' hbody' => hmax t' _ n' (hrest ▸ ht') (.plain hbody')
      have hret := scanBody_spec s τ false hle (htext.trans hrest.symm) hbody hlong
      refine ⟨hret.value, hret.errno, ?_⟩
      rw [hret.file]
      rfl

/-- The number 12 after a space. -/
theorem intscan_longest_twelve : let r := intscan [32, 49, 50] ⟨0, 0⟩ 10 true IntType.long.lim
    IntType.long.convert r.value = 12 ∧ r.errno = none ∧ r.file.cnt = 3 := by
  have hbody : Body 10 [49, 50] 12 := .digits (by decide) (by decide)
    (forall_mem_cons.2 ⟨⟨1, by decide, rfl⟩, forall_mem_singleton.2 ⟨2, by decide, rfl⟩⟩)
  exact (intscan_longest [32, 49, 50] 10 (by decide) IntType.long).2 [49,
    50] false 12 (prefix_rfl) (.plain hbody)
    fun t' _ _ ht' _ => ht'.length_le

end Musl.Stdlib.Strtol
