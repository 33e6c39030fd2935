import Mathlib.Data.Int.ModEq
import Mathlib.Tactic.Ring

/-!
# Integers as octets

The octets of a number, highest first, and what the lowest `k` of them say about it: read without a
sign they are the number modulo `256 ^ k`, read as two's complement they are its balanced remainder.
-/

namespace Musl.Lib.Octets

open Nat

/-- Octet `j` of a number. -/
def octet (n j : ℕ) : UInt8 := UInt8.ofNat (n >>> (8 * j))

/-- The lowest `k` octets of a number, highest first. -/
def octets (n : ℕ) : ℕ → List UInt8
  | 0 => []
  | k + 1 => octet n k :: octets n k

/-- The number that octets stand for, after the number `v`. -/
def value (v : ℕ) (bs : List UInt8) : ℕ := bs.foldl (fun v b => v * 256 + b.toNat) v

@[simp] lemma length_octets (n k : ℕ) : (octets n k).length = k := by
  induction k with
  | zero => rfl
  | succ k ih => rw [octets, List.length_cons, ih]

lemma two_pow_eight_mul (j : ℕ) : 2 ^ (8 * j) = 256 ^ j := by
  rw [Nat.pow_mul]

lemma toNat_octet (n j : ℕ) : (octet n j).toNat = n / 256 ^ j % 256 := by
  rw [octet, UInt8.toNat_ofNat', shiftRight_eq_div_pow, two_pow_eight_mul]

lemma mod_succ (n k : ℕ) : n % 256 ^ (k + 1) = n / 256 ^ k % 256 * 256 ^ k + n % 256 ^ k := by
  rw [pow_succ, mod_mul, add_comm, mul_comm]

lemma value_octets (n k v : ℕ) : value v (octets n k) = v * 256 ^ k + n % 256 ^ k := by
  induction k generalizing v with
  | zero => simp [octets, value, mod_one]
  | succ k ih =>
    calc value v (octets n (k + 1)) = value (v * 256 + (octet n k).toNat) (octets n k) := rfl
      _ = (v * 256 + n / 256 ^ k % 256) * 256 ^ k + n % 256 ^ k := by rw [ih, toNat_octet]
      _ = v * 256 ^ (k + 1) + n % 256 ^ (k + 1) := by
        rw [mod_succ]
        ring

lemma and_0x80 (c : UInt8) : c &&& 0x80 ≠ 0 ↔ 128 ≤ c.toNat := by
  obtain ⟨c⟩ := c
  revert c
  decide +kernel

lemma eq_0xff (c : UInt8) : c = 0xff ↔ c.toNat = 255 := by
  rw [← UInt8.toNat_inj]
  rfl

lemma eq_zero (c : UInt8) : c = 0 ↔ c.toNat = 0 := by
  rw [← UInt8.toNat_inj]
  rfl

lemma shiftLeft_or (v : ℕ) (c : UInt8) : v <<< 8 ||| c.toNat = v * 256 + c.toNat := by
  rw [← shiftLeft_add_eq_or_of_lt c.toNat_lt, shiftLeft_eq]

/-! ### Two's complement -/

lemma pow_pos (k : ℕ) : (0 : ℤ) < 256 ^ k := Int.pow_pos (by decide)

section

variable (z : ℤ) (k : ℕ)

lemma emod_succ : z % 256 ^ (k + 1) = z / 256 ^ k % 256 * 256 ^ k + z % 256 ^ k := by
  have hdiv : z / 256 ^ (k + 1) = z / 256 ^ k / 256 := by
    rw [pow_succ, Int.ediv_ediv_of_nonneg (pow_pos k).le]
  rw [Int.emod_def, hdiv, Int.emod_def, Int.emod_def]
  ring

lemma emod_lt_half_iff : z % 256 ^ (k + 1) < 128 * 256 ^ k ↔ z / 256 ^ k % 256 < 128 := by
  have hpos := pow_pos k
  rw [emod_succ]
  constructor
  · intro h
    by_contra hc
    have := Int.mul_le_mul_of_nonneg_right (not_lt.1 hc) hpos.le
    omega
  · intro h
    have := Int.mul_le_mul_of_nonneg_right
      (Int.le_of_lt_add_one (show z / 256 ^ k % 256 < 127 + 1 from h)) hpos.le
    omega

lemma bmod_eq : Int.bmod z (256 ^ (k + 1)) =
    if z / 256 ^ k % 256 < 128 then z % 256 ^ (k + 1) else z % 256 ^ (k + 1) - 256 ^ (k + 1) := by
  have hhalf : (((256 ^ (k + 1) : ℕ) : ℤ) + 1) / 2 = 128 * 256 ^ k := by
    push_cast
    omega
  rw [Int.bmod_def, hhalf]
  push_cast
  simp [emod_lt_half_iff]

lemma bmod_succ (h : z / 256 ^ (k + 1) % 256 = 0 ∧ z / 256 ^ k % 256 < 128 ∨
      z / 256 ^ (k + 1) % 256 = 255 ∧ ¬z / 256 ^ k % 256 < 128) :
    Int.bmod z (256 ^ (k + 2)) = Int.bmod z (256 ^ (k + 1)) := by
  rw [bmod_eq, bmod_eq, emod_succ z (k + 1)]
  rcases h with ⟨htop, hlow⟩ | ⟨htop, hlow⟩
  · rw [if_pos hlow, htop]
    omega
  · rw [if_neg (by omega), if_neg hlow, htop]
    ring

end

end Musl.Lib.Octets
