import Mathlib

/-!
# Generators that do not repeat a value

A linear congruential generator `x ↦ (a * x + c) % m` runs through all values below `m` before it
comes back to one, if `c` is prime to `m`, `a - 1` is divisible by every prime factor of `m`, and by
4 if `m` is.  A Feistel network, whatever its round functions are, maps different pairs to different
pairs.

Nothing here mentions a particular program.
-/

namespace Musl.Lib

open Nat Function Finset

/-! ### Linear congruential generators -/

def lcg (a c m x : ℕ) : ℕ := (a * x + c) % m

lemma lcg_iterate_modEq (a c m x k : ℕ) :
    (lcg a c m)^[k] x ≡ a ^ k * x + c * ∑ i ∈ range k, a ^ i [MOD m] := by
  induction k with
  | zero => simp [ModEq.refl]
  | succ k ih =>
    rw [iterate_succ_apply']
    calc
      (a * (lcg a c m)^[k] x + c) % m ≡ a * (lcg a c m)^[k] x + c [MOD m] := mod_modEq _ _
      _ ≡ a * (a ^ k * x + c * ∑ i ∈ range k, a ^ i) + c [MOD m] := (ih.mul_left a).add_right c
      _ = a ^ (k + 1) * x + c * ∑ i ∈ range (k + 1), a ^ i := by
        rw [geom_sum_succ]
        ring

section Prime

variable {p : ℕ} {a : ℤ}

variable {k e : ℕ}

/-- **A prime that divides a sum of powers of `a`** divides their number, if `a` is 1 modulo the prime. -/
theorem dvd_geom_sum (h : (p : ℤ) ∣ a - 1) (hsum : (p : ℤ) ∣ ∑ i ∈ range k, a ^ i) : (p : ℤ) ∣ k := by
  have hone : a ≡ 1 [ZMOD p] := ((Int.modEq_iff_dvd).2 h).symm
  have hmod : ∑ i ∈ range k, a ^ i ≡ ∑ i ∈ range k, 1 [ZMOD p] := by
    apply Int.ModEq.sum
    intro i _
    simpa using hone.pow i
  rw [sum_const, card_range, nsmul_one] at hmod
  exact (Int.ModEq.dvd_iff hmod).1 hsum

lemma pow_dvd_of_emultiplicity (hp : p.Prime) (hne : a ≠ 1)
    (hlift : emultiplicity (p : ℤ) (a ^ k - 1) = emultiplicity (p : ℤ) (a - 1) + emultiplicity (p : ℤ) k)
    (hsum : (p : ℤ) ^ e ∣ ∑ i ∈ range k, a ^ i) : (p : ℤ) ^ e ∣ k := by
  have hprime : Prime (p : ℤ) := prime_iff_prime_int.1 hp
  have hfinite : FiniteMultiplicity (p : ℤ) (a - 1) :=
    Int.finiteMultiplicity_iff.2 ⟨by simpa using hp.ne_one, sub_ne_zero.2 hne⟩
  rw [← mul_geom_sum, emultiplicity_mul hprime] at hlift
  have hsame := (WithTop.add_left_inj (finiteMultiplicity_iff_emultiplicity_ne_top.1 hfinite)).1 hlift
  rw [pow_dvd_iff_le_emultiplicity] at hsum ⊢
  exact hsame ▸ hsum

/-- **A prime power that divides a sum of powers of `a`** divides their number. -/
theorem pow_dvd_geom_sum (hp : p.Prime) (h : (p : ℤ) ∣ a - 1) (hfour : p = 2 → 2 ≤ e → 4 ∣ a - 1)
    (hsum : (p : ℤ) ^ e ∣ ∑ i ∈ range k, a ^ i) : (p : ℤ) ^ e ∣ k := by
  by_cases hone : a = 1
  · simpa [hone] using hsum
  · have hprime : Prime (p : ℤ) := prime_iff_prime_int.1 hp
    have hnot : ¬(p : ℤ) ∣ a := by
      intro hdvd
      have h1 : (p : ℤ) ∣ 1 := by simpa using dvd_sub hdvd h
      exact hprime.not_isUnit (isUnit_of_dvd_one h1)
    rcases hp.eq_two_or_odd' with rfl | hodd
    · rcases lt_or_ge e 2 with he | he
      · -- the first power of 2
        interval_cases e
        · simp
        · exact dvd_geom_sum h hsum
      · have hlift := Int.two_pow_sub_pow' k (hfour rfl he) hnot
        rw [one_pow] at hlift
        exact pow_dvd_of_emultiplicity hp hone hlift hsum
    · have hlift := Int.emultiplicity_pow_sub_pow hp hodd h hnot k
      rw [one_pow] at hlift
      refine pow_dvd_of_emultiplicity hp hone ?_ hsum
      rw [hlift, Int.natCast_emultiplicity]

end Prime

/-- **The full period.**  No value comes back after less than `m` steps. -/
theorem lcg_iterate_ne {a c m x k : ℕ} (hprimes : ∀ p : ℕ, p.Prime → p ∣ m → (p : ℤ) ∣ a - 1)
    (hfour : 4 ∣ m → 4 ∣ (a : ℤ) - 1) (hc : c.Coprime m) (hk : 0 < k) (hlt : k < m) :
    (lcg a c m)^[k] x ≠ x := by
  intro heq
  have hmod := lcg_iterate_modEq a c m x k
  rw [heq] at hmod
  -- the sum of the powers times a number that is prime to `m`
  have hdvd : (m : ℤ) ∣ (∑ i ∈ range k, (a : ℤ) ^ i) * ((a - 1) * x + c) := by
    have hsub := (modEq_iff_dvd).1 hmod
    push_cast at hsub
    have hgeom : a ^ k - 1 = (a - 1) * ∑ i ∈ range k, (a : ℤ) ^ i := (mul_geom_sum (a : ℤ) k).symm
    convert hsub using 1
    linear_combination -x * hgeom
  have hcop : IsCoprime ((m : ℤ)) ((a - 1) * x + c) := by
    rw [Int.isCoprime_iff_gcd_eq_one]
    by_contra hne
    obtain ⟨p, hp, hpg⟩ := exists_prime_and_dvd hne
    have hpm : p ∣ m := by exact_mod_cast (Int.natCast_dvd_natCast.2 hpg).trans (gcd_dvd_left ..)
    have hpv : (p : ℤ) ∣ (a - 1) * x + c := (Int.natCast_dvd_natCast.2 hpg).trans (gcd_dvd_right ..)
    have hpc : (p : ℤ) ∣ c := (dvd_add_right ((hprimes p hp hpm).mul_right _)).1 hpv
    exact not_coprime_of_dvd_of_dvd hp.one_lt (Int.natCast_dvd_natCast.1 hpc) hpm hc
  have hsum : (m : ℤ) ∣ ∑ i ∈ range k, a ^ i := hcop.dvd_of_dvd_mul_right hdvd
  have hmk : m ∣ k := by
    rw [dvd_iff_prime_pow_dvd_dvd]
    intro p e hp hpe
    rcases Nat.eq_zero_or_pos e with rfl | he
    · simp
    · have hpm : p ∣ m := (dvd_pow_self p he.ne').trans hpe
      have hpow : ((p : ℤ)) ^ e ∣ k := by
        apply pow_dvd_geom_sum hp (hprimes p hp hpm)
        · rintro rfl h2
          exact hfour ((pow_dvd_pow 2 h2).trans hpe)
        · exact (by exact_mod_cast hpe : (p : ℤ) ^ e ∣ m).trans hsum
      exact_mod_cast hpow
  exact absurd (le_of_dvd hk hmk) (not_le.2 hlt)

/-! ### Feistel networks -/

variable {α ι : Type}

/-- One round: the halves change places, and one is mixed with a function of the other. -/
def feistelRound (mix : α → α → α) (p : α × α) : α × α := (p.2, mix p.2 p.1)

/-- **A network of rounds is one-to-one**, if in every round a half can be got back from its mix. -/
theorem feistel_injective (mix : ι → α → α → α) (hmix : ∀ i r, Injective (mix i r)) (rounds : List ι) :
    Injective fun p => rounds.foldl (fun p i => feistelRound (mix i) p) p := by
  induction rounds with
  | nil => exact injective_id
  | cons i rounds ih =>
    intro p q heq
    have hround := ih heq
    simp only [feistelRound, Prod.mk.injEq] at hround
    obtain ⟨hright, hleft⟩ := hround
    rw [hright] at hleft
    exact Prod.ext (hmix i q.2 hleft) hright

end Musl.Lib
