import Mathlib

/-!
# Open addressing

A table of slots holds keys, and the slots that a key may be in are tried in the order of its probe
sequence `seq k 0`, `seq k 1`, ..., until one is empty or holds the key.  A table is in order if
every key is in one slot only and no slot before it in its sequence is empty: then a search that
stops at an empty slot has shown that the key is not there.

Nothing here mentions a particular program.
-/

namespace Musl.Lib

open Option Function Finset

/-! ### Triangular offsets -/

/-- `0 + 1 + ... + j`. -/
def triangle : ℕ → ℕ
  | 0 => 0
  | j + 1 => triangle j + (j + 1)

lemma two_mul_triangle (j : ℕ) : 2 * triangle j = j * (j + 1) := by
  induction j with
  | zero => rfl
  | succ j ih =>
    rw [triangle, mul_add, ih]
    ring

lemma triangle_inj {n a b : ℕ} (ha : a < 2 ^ n) (hb : b < 2 ^ n)
    (h : triangle a ≡ triangle b [MOD 2 ^ n]) : a = b := by
  -- `(b - a) * (a + b + 1)` is twice the difference, and one of its factors is odd.
  have hdvd : (2 ^ (n + 1) : ℤ) ∣ (b - a) * (a + b + 1) := by
    have hdiff : (2 ^ n : ℤ) ∣ (triangle b : ℤ) - triangle a := by
      have := Nat.modEq_iff_dvd.1 h
      exact_mod_cast this
    have htwice : (b - a) * (a + b + 1) = 2 * ((triangle b : ℤ) - triangle a) := by
      have hta : (2 * triangle a : ℤ) = a * (a + 1) := by exact_mod_cast two_mul_triangle a
      have htb : (2 * triangle b : ℤ) = b * (b + 1) := by exact_mod_cast two_mul_triangle b
      rw [mul_sub, hta, htb]
      ring
    rw [htwice, pow_succ']
    exact mul_dvd_mul_left 2 hdiff
  have hcop : ∀ {x : ℤ}, Odd x → IsCoprime (2 ^ (n + 1) : ℤ) x := fun hx =>
    (Int.isCoprime_two_left.2 hx).pow_left
  have ha' : (a : ℤ) < 2 ^ n := by exact_mod_cast ha
  have hb' : (b : ℤ) < 2 ^ n := by exact_mod_cast hb
  rcases Int.even_or_odd (b - a) with heven | hodd
  · -- the other factor is odd, so the difference is a multiple of the size
    have hother : Odd ((a : ℤ) + b + 1) := by
      obtain ⟨k, hk⟩ := heven
      exact ⟨a + k, by omega⟩
    have hmul := (hcop hother).dvd_of_dvd_mul_right hdvd
    have hzero : (b : ℤ) - a = 0 := by
      apply Int.eq_zero_of_abs_lt_dvd hmul
      rw [abs_lt]
      constructor <;> omega
    omega
  · have hmul := (hcop hodd).dvd_of_dvd_mul_left hdvd
    have hle := Int.le_of_dvd (by omega) hmul
    omega

/-- **Every slot is tried.** -/
theorem exists_triangle (n h : ℕ) {p : ℕ} (hp : p < 2 ^ n) :
    ∃ j < 2 ^ n, (h + triangle j) % 2 ^ n = p := by
  have hpos : 0 < 2 ^ n := Nat.two_pow_pos n
  have hmaps : Set.MapsTo (fun j => (h + triangle j) % 2 ^ n) (range (2 ^ n)) (range (2 ^ n)) := by
    intro j _
    exact mem_coe.2 (mem_range.2 (Nat.mod_lt _ hpos))
  have hinj : Set.InjOn (fun j => (h + triangle j) % 2 ^ n) (range (2 ^ n)) := by
    intro a ha b hb hab
    have hmod : h + triangle a ≡ h + triangle b [MOD 2 ^ n] := hab
    exact triangle_inj (mem_range.1 ha) (mem_range.1 hb) (Nat.ModEq.add_left_cancel' h hmod)
  have hsurj := surjOn_of_injOn_of_card_le _ hmaps hinj le_rfl
  obtain ⟨j, hj, heq⟩ := hsurj (mem_coe.2 (mem_range.2 hp))
  exact ⟨j, mem_range.1 hj, heq⟩

section Table

variable {κ : Type*} {seq : κ → ℕ → ℕ} {tab : ℕ → Option κ} {k : κ} {j : ℕ}

/-- The slots tried before the `j`th one are not empty. -/
def Taken (seq : κ → ℕ → ℕ) (tab : ℕ → Option κ) (k : κ) (j : ℕ) : Prop :=
  ∀ i < j, tab (seq k i) ≠ none

/-- A table in order. -/
structure Hashed (seq : κ → ℕ → ℕ) (tab : ℕ → Option κ) : Prop where
  unique : ∀ {p q k}, tab p = some k → tab q = some k → p = q
  reached : ∀ {p k}, tab p = some k → ∃ j, seq k j = p ∧ Taken seq tab k j

/-- The search for `k` stops at the `j`th probe. -/
structure StopsAt (seq : κ → ℕ → ℕ) (tab : ℕ → Option κ) (k : κ) (j : ℕ) : Prop where
  stop : tab (seq k j) = none ∨ tab (seq k j) = some k
  before : ∀ i < j, tab (seq k i) ≠ none ∧ tab (seq k i) ≠ some k

lemma Hashed.empty (seq : κ → ℕ → ℕ) : Hashed seq fun _ => none :=
  ⟨fun h => absurd h.symm (some_ne_none _), fun h => absurd h.symm (some_ne_none _)⟩

lemma StopsAt.taken (h : StopsAt seq tab k j) : Taken seq tab k j := fun i hi => (h.before i hi).1

/-- **A search that ends at an empty slot** has shown that the key is not in the table. -/
theorem StopsAt.absent (h : StopsAt seq tab k j) (hash : Hashed seq tab)
    (hempty : tab (seq k j) = none) (p : ℕ) :
    tab p ≠ some k := by
  intro hp
  obtain ⟨i, rfl, htaken⟩ := hash.reached hp
  rcases lt_trichotomy i j with hlt | rfl | hgt
  · exact (h.before i hlt).2 hp
  · rw [hempty] at hp
    exact some_ne_none k hp.symm
  · exact htaken j hgt hempty

/-- **A key is put** into the slot at which its search ended. -/
theorem Hashed.insert (hash : Hashed seq tab) (habsent : ∀ p, tab p ≠ some k)
    (htaken : Taken seq tab k j) :
    Hashed seq (update tab (seq k j) (some k)) := by
  have hold : ∀ {p x}, p ≠ seq k j → update tab (seq k j) (some k) p = some x → tab p = some x := by
    intro p x hp h
    rwa [update_of_ne hp] at h
  have hkeep : ∀ {x i}, Taken seq tab x i → Taken seq (update tab (seq k j) (some k)) x i := by
    intro x i h i' hi'
    by_cases hp : seq x i' = seq k j
    · rw [hp, update_self]
      exact some_ne_none k
    · rw [update_of_ne hp]
      exact h i' hi'
  constructor
  · intro p q x hp hq
    by_cases hpk : p = seq k j
    · by_cases hqk : q = seq k j
      · rw [hpk, hqk]
      · rw [hpk, update_self] at hp
        exact absurd (hp ▸ hold hqk hq) (habsent q)
    · by_cases hqk : q = seq k j
      · rw [hqk, update_self] at hq
        exact absurd (hq ▸ hold hpk hp) (habsent p)
      · exact hash.unique (hold hpk hp) (hold hqk hq)
  · intro p x hp
    by_cases hpk : p = seq k j
    · rw [hpk, update_self] at hp
      obtain rfl := some.inj hp
      exact ⟨j, hpk.symm, hkeep htaken⟩
    · obtain ⟨i, hi, h⟩ := hash.reached (hold hpk hp)
      exact ⟨i, hi, hkeep h⟩

end Table

end Musl.Lib
