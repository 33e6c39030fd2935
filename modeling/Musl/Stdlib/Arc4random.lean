import Mathlib

/-!
# Numbers without a bias

`arc4random_uniform` reduces a draw of 32 bits modulo the bound, and draws again if it is one of the first
`2 ^ 32 % upper_bound` numbers.  So each number below the bound is as likely as any other.
-/

namespace Musl.Stdlib.Arc4random

open Finset

/-- The draws of `arc4random` are given; `none`, if the loop has not ended with the last of them. -/
def arc4randomUniform (upperBound : UInt32) (draws : List UInt32) : Option UInt32 :=
  if upperBound < 2 then some 0 else
  let min := -upperBound % upperBound
  (draws.find? fun r => r ≥ min).map (· % upperBound)

lemma card_mod_eq {N u v : ℕ} (hv : v < u) : #{r ∈ range N | N % u ≤ r ∧ r % u = v} = N / u := by
  have hset : {r ∈ range N | N % u ≤ r ∧ r % u = v} =
      {r ∈ Ico (N % u) (N % u + u * (N / u)) | r ≡ v [MOD u]} := by
    ext r
    rw [Nat.mod_add_div, mem_filter, mem_filter, mem_range, mem_Ico, Nat.ModEq, Nat.mod_eq_of_lt hv]
    tauto
  have hu : (u : ℚ) ≠ 0 := by exact_mod_cast (Nat.zero_lt_of_lt hv).ne'
  have hcard := Nat.Ico_filter_modEq_card (N % u) (N % u + u * (N / u)) (Nat.zero_lt_of_lt hv) v
  push_cast at hcard
  rw [add_sub_right_comm, add_div, mul_div_cancel_left₀ _ hu] at hcard
  rw [hset]
  have hceil := Int.ceil_add_natCast (((N % u : ℕ) - v : ℚ) / u) (N / u)
  push_cast at hceil
  rw [hceil, add_sub_cancel_left, max_eq_left (by positivity)] at hcard
  exact_mod_cast hcard

/-- **`arc4random_uniform` has no bias**: however many draws were refused, each value below the
bound comes from equally many of the `2 ^ 32` values that the next draw can have. -/
theorem arc4randomUniform_unbiased (u v : UInt32) (hv : v < u) (refused : List UInt32)
    (hloop : arc4randomUniform u refused = none) :
    #{r ∈ range (2 ^ 32) | arc4randomUniform u (refused ++ [.ofNat r]) = some v} = 2 ^ 32 / u.toNat := by
  have hu : ¬u < 2 := by
    intro hlt
    rw [arc4randomUniform, if_pos hlt] at hloop
    cases hloop
  rw [arc4randomUniform, if_neg hu, Option.map_eq_none_iff] at hloop
  have hmin : (-u % u).toNat = 2 ^ 32 % u.toNat := by
    have hpos := UInt32.lt_iff_toNat_lt.1 hv
    have hlt := u.toNat_lt
    have hneg : (-u).toNat = 2 ^ 32 - u.toNat :=
      (UInt32.toNat_neg u).trans (Nat.mod_eq_of_lt (Nat.sub_lt (by decide) (by omega)))
    rw [UInt32.toNat_mod, hneg, ← Nat.mod_eq_sub_mod hlt.le]
  rw [← card_mod_eq (UInt32.lt_iff_toNat_lt.1 hv)]
  refine congrArg card (filter_congr fun r hr => ?_)
  have hr' : (UInt32.ofNat r).toNat = r := UInt32.toNat_ofNat_of_lt' (mem_range.1 hr)
  have hle : UInt32.ofNat r ≥ -u % u ↔ 2 ^ 32 % u.toNat ≤ r := by
    rw [ge_iff_le, UInt32.le_iff_toNat_le, hmin, hr']
  rw [arc4randomUniform, if_neg hu, ← hle]
  simp only [List.find?_append, hloop, Option.none_or, List.find?_singleton]
  by_cases htaken : UInt32.ofNat r ≥ -u % u
  · simp [htaken, ← UInt32.toNat_inj, hr']
  · simp [htaken]

/-- The bound 3, after 0 was refused. -/
theorem arc4randomUniform_unbiased_three : arc4randomUniform 3 [0] = none ∧
    #{r ∈ range (2 ^ 32) | arc4randomUniform 3 ([0] ++ [.ofNat r]) = some 2} = 2 ^ 32 / 3 :=
  ⟨by decide, arc4randomUniform_unbiased 3 2 (by decide) [0] (by decide)⟩

end Musl.Stdlib.Arc4random
