import Musl.Lib.FullPeriod

/-!
# Transaction ids

`res_randomid` steps a linear congruential generator modulo 31104, raises a generator of the
multiplicative group modulo 32749 to its value, and sends the result through a Feistel network of 15
bits.  After 30000 ids, or some minutes, `res_initid` draws all parameters again and changes the
highest bit of the ids.
-/

namespace Musl.Network

open Musl.Lib List Function

/-! ### The code -/

def ruOut : ℤ := 180
def ruMax : ℕ := 30000
def ruGen : ℕ := 2
def ruN : ℕ := 32749
def ruAgen : ℕ := 7
def ruM : ℕ := 31104
def ruRounds : ℕ := 11

/-- The loop of `pmod`.  With `mod` below 2^15 the products fit an `int`. -/
def pmodLoop (mod : ℕ) : ℕ → ℕ → ℕ → ℕ → ℕ
  | 0, s, _, _ => s
  | n + 1, s, t, u =>
    if u = 0 then s else pmodLoop mod n (if u % 2 = 1 then s * t % mod else s) (t * t % mod) (u / 2)

/-- `pmod`; the exponent is converted to 16 bits, and there is a round for each of them. -/
def pmod (gen exp mod : ℕ) : ℕ := pmodLoop mod 16 1 gen (exp % 2 ^ 16)

structure PrfCtx where
  prf7 : ℕ → UInt8
  prf8 : ℕ → UInt8

/-- The new `right` of round `i`. -/
def prfMix (prf : PrfCtx) (i right left : ℕ) : ℕ :=
  (if i &&& 1 = 0 then (prf.prf8 (i <<< (8 - 1) ||| right)).toNat &&& 0x7f
    else (prf.prf7 ((i - 1) <<< (7 - 1) ||| right)).toNat) ^^^ left

def permute15 (prf : Option PrfCtx) (v : ℕ) : ℕ :=
  match prf with
  | none => v
  | some prf =>
    let p := (List.range ruRounds).foldl (fun p i => feistelRound (prfMix prf i) p)
      (v >>> 8 &&& 0x7f, v &&& 0xff)
    p.2 <<< 8 ||| p.1

structure RuState where
  x : ℕ
  seed : ℕ
  seed2 : ℕ
  a : ℕ
  b : ℕ
  g : ℕ
  counter : ℕ
  msb : ℕ
  prf : Option PrfCtx
  reseed : ℤ
  pid : ℤ

/-- What `res_initid` draws, whether `malloc` gives the tables, and what `arc4random_buf` puts there. -/
structure Draws where
  x : Fin ruM
  seeds : UInt32
  lcg : UInt32
  j : Fin ruN
  alloc : Bool
  prf : PrfCtx

/-- `while (ru_b % 3 == 0) ru_b += 2;` -/
def skipThree : ℕ → ℕ → ℕ
  | 0, b => b
  | n + 1, b => if b % 3 = 0 then skipThree n ((b + 2) % 2 ^ 16) else b

/-- The loop that looks for a `j` without the prime factors of `RU_N-1`. -/
def findExp : ℕ → ℕ → ℕ
  | 0, j => j
  | n + 1, j => if j % 2 = 0 ∨ j % 3 = 0 ∨ j % 2729 = 0 then findExp n ((j + 1) % ruN) else j

/-- `res_initid`, at the time `now` -/
def resInitid (d : Draws) (now : ℤ) (s : RuState) : RuState where
  x := d.x
  seed := d.seeds.toNat >>> 16 &&& 0x7fff
  seed2 := d.seeds.toNat &&& 0x7fff
  a := pmod ruAgen (d.lcg.toNat >>> 16 &&& 0xfffe) ruM
  b := skipThree 3 (d.lcg.toNat &&& 0xfffe ||| 1)
  g := pmod ruGen (findExp ruN d.j) ruN
  counter := 0
  msb := if s.msb = 0x8000 then 0 else 0x8000
  prf := if s.prf.isSome || d.alloc then some d.prf else none
  reseed := now + ruOut
  pid := s.pid

/-- What a call of `res_randomid` meets: the time, the time in `res_initid`, the process, and what
is drawn. -/
structure Tick where
  now : ℤ
  later : ℤ
  pid : ℤ
  pid_pos : 0 < pid
  draws : Draws

/-- `ru_counter >= RU_MAX || ts.tv_sec > ru_reseed || pid != ru_pid` -/
def RuState.stale (s : RuState) (t : Tick) : Bool :=
  ruMax ≤ s.counter || s.reseed < t.now || t.pid ≠ s.pid

def RuState.refresh (s : RuState) (t : Tick) : RuState :=
  if s.stale t then { resInitid t.draws t.later s with pid := t.pid } else s

def RuState.idOf (s : RuState) (x : ℕ) : ℕ :=
  permute15 s.prf (s.seed ^^^ pmod s.g (s.seed2 + x) ruN) ||| s.msb

def RuState.next (s : RuState) : RuState :=
  { s with x := lcg s.a s.b ruM s.x, counter := (s.counter + 1) % 2 ^ 16 }

def resRandomid (t : Tick) (s : RuState) : ℕ × RuState :=
  let s := (s.refresh t).next
  (s.idOf s.x, s)

def RuState.start : RuState := ⟨0, 0, 0, 0, 0, 0, 0, 0, none, 0, 0⟩

/-- The ids of a sequence of calls, each with the number of the epoch. -/
def ids : ℕ → RuState → List Tick → List (ℕ × ℕ)
  | _, _, [] => []
  | e, s, t :: ts =>
    let e := if s.stale t then e + 1 else e
    let r := resRandomid t s
    (e, r.1) :: ids e r.2 ts

/-! ### Powers -/

variable {mod j v b : ℕ}

lemma pmodLoop_eq (n s t : ℕ) {u : ℕ} (hs : s < mod) (hu : u < 2 ^ n) :
    pmodLoop mod n s t u = s * t ^ u % mod := by
  induction n generalizing s t u with
  | zero =>
    have hzero : u = 0 := by simpa using hu
    rw [hzero, pmodLoop, pow_zero, mul_one, Nat.mod_eq_of_lt hs]
  | succ n ih =>
    rw [pmodLoop]
    by_cases hzero : u = 0
    · rw [if_pos hzero, hzero, pow_zero, mul_one, Nat.mod_eq_of_lt hs]
    · rw [if_neg hzero]
      have hmod : 0 < mod := Nat.zero_lt_of_lt hs
      have hhalf : u / 2 < 2 ^ n := by
        omega
      have hsquare : ∀ s', s' * (t * t % mod) ^ (u / 2) % mod = s' * t ^ (2 * (u / 2)) % mod := by
        intro s'
        rw [Nat.mul_mod, ← Nat.pow_mod, ← Nat.mul_mod, ← sq, pow_mul]
      rcases Nat.mod_two_eq_zero_or_one u with heven | hodd
      · rw [if_neg (by omega), ih s _ hs hhalf, hsquare, show 2 * (u / 2) = u by omega]
      · rw [if_pos hodd, ih _ _ (Nat.mod_lt _ hmod) hhalf, hsquare, Nat.mod_mul_mod, mul_assoc,
          ← pow_succ',
          show 2 * (u / 2) + 1 = u by omega]

/-- **`pmod` is the power.** -/
theorem pmod_eq (gen : ℕ) {exp : ℕ} (hexp : exp < 2 ^ 16) (hmod : 1 < mod) :
    pmod gen exp mod = gen ^ exp % mod := by
  rw [pmod, Nat.mod_eq_of_lt hexp, pmodLoop_eq 16 1 gen hmod hexp, one_mul]

lemma two_pow_eq_one_iff (k : ℕ) : (2 : ZMod ruN) ^ k = 1 ↔ 2 ^ k % ruN = 1 := by
  have h := ZMod.natCast_eq_natCast_iff' (2 ^ k) 1 ruN
  rw [Nat.cast_pow] at h
  exact h

/-- **2 generates the group** modulo 32749. -/
theorem two_orderOf : orderOf (2 : ZMod ruN) = ruN - 1 := by
  apply orderOf_eq_of_pow_and_pow_div_prime
  · norm_num [ruN]
  · exact (two_pow_eq_one_iff _).2 (by decide +kernel)
  · intro p hp hdvd
    have hfactors : ruN - 1 = 2 * 2 * 3 * 2729 := rfl
    have hlarge : Nat.Prime 2729 := by norm_num
    have hcases : p = 2 ∨ p = 3 ∨ p = 2729 := by
      rw [hfactors, hp.dvd_mul, hp.dvd_mul, hp.dvd_mul, Nat.prime_dvd_prime_iff_eq hp Nat.prime_two,
        Nat.prime_dvd_prime_iff_eq hp Nat.prime_three, Nat.prime_dvd_prime_iff_eq hp hlarge] at hdvd
      rcases hdvd with ((h | h) | h) | h
      · exact .inl h
      · exact .inl h
      · exact .inr (.inl h)
      · exact .inr (.inr h)
    rw [ne_eq, two_pow_eq_one_iff]
    rcases hcases with rfl | rfl | rfl
    · decide +kernel
    · decide +kernel
    · decide +kernel

/-- Powers of a generator, in a window of less exponents than the group has elements. -/
lemma generator_pow_inj {k x y : ℕ} (hj : j.Coprime (ruN - 1)) (hx : x < ruM) (hy : y < ruM)
    (h : (2 ^ j % ruN) ^ (k + x) % ruN = (2 ^ j % ruN) ^ (k + y) % ruN) : x = y := by
  have hlt : ruM < ruN - 1 := by decide
  have hunit : IsUnit (2 : ZMod ruN) := by
    have hcop : Nat.Coprime 2 ruN := by decide
    exact (ZMod.isUnit_iff_coprime 2 ruN).2 hcop
  obtain ⟨u, hu⟩ := hunit
  have horder : orderOf (u ^ j) = ruN - 1 := by
    have htwo : orderOf u = ruN - 1 := by rw [← orderOf_units, hu, two_orderOf]
    rw [Nat.Coprime.orderOf_pow (by rw [htwo]; exact hj.symm), htwo]
  have hpow : (u ^ j) ^ (k + x) = (u ^ j) ^ (k + y) := by
    apply Units.ext
    have hcast := (ZMod.natCast_eq_natCast_iff' _ _ ruN).2 h
    simpa [hu] using hcast
  rw [pow_eq_pow_iff_modEq, horder] at hpow
  exact (Nat.ModEq.add_left_cancel' k hpow).eq_of_lt_of_lt (hx.trans hlt) (hy.trans hlt)

/-! ### The network -/

lemma prfMix_injective (prf : PrfCtx) (i right : ℕ) : Injective (prfMix prf i right) := by
  intro l l' h
  exact Nat.xor_right_injective h

lemma rounds_lt (prf : PrfCtx) (n : ℕ) {l r : ℕ} (hl : l < 2 ^ 7) (hr : r < 2 ^ 8) :
    let q := (range n).foldl (fun p i => feistelRound (prfMix prf i) p) (l, r)
    if n % 2 = 0 then q.1 < 2 ^ 7 ∧ q.2 < 2 ^ 8 else q.1 < 2 ^ 8 ∧ q.2 < 2 ^ 7 := by
  induction n with
  | zero => exact ⟨hl, hr⟩
  | succ n ih =>
    simp only [range_succ, foldl_append, foldl_cons] at ih ⊢
    rcases Nat.mod_two_eq_zero_or_one n with heven | hodd
    · rw [if_pos heven] at ih
      rw [if_neg (by omega)]
      refine ⟨ih.2, ?_⟩
      rw [feistelRound, prfMix, if_pos (by rw [Nat.and_one_is_mod]; exact heven)]
      exact Nat.xor_lt_two_pow (Nat.and_lt_two_pow _ (by decide)) ih.1
    · rw [if_neg (by omega)] at ih
      rw [if_pos (by omega)]
      refine ⟨ih.2, ?_⟩
      rw [feistelRound, prfMix, if_neg (by rw [Nat.and_one_is_mod]; omega)]
      exact Nat.xor_lt_two_pow (UInt8.toNat_lt _) ih.1

lemma network_lt (prf : PrfCtx) (v : ℕ) :
    let q := (range ruRounds).foldl (fun p i => feistelRound (prfMix prf i) p)
      (v >>> 8 &&& 0x7f, v &&& 0xff)
    q.1 < 2 ^ 8 ∧ q.2 < 2 ^ 7 :=
  rounds_lt prf ruRounds (Nat.and_lt_two_pow _ (by decide)) (Nat.and_lt_two_pow _ (by decide))

lemma permute15_lt (prf : Option PrfCtx) (hv : v < 2 ^ 15) : permute15 prf v < 2 ^ 15 := by
  cases prf with
  | none => exact hv
  | some prf =>
    obtain ⟨hleft, hright⟩ := network_lt prf v
    rw [permute15, ← Nat.shiftLeft_add_eq_or_of_lt hleft]
    omega

/-- **The network is one-to-one** on 15 bits. -/
theorem permute15_injective (prf : Option PrfCtx) {w : ℕ} (hv : v < 2 ^ 15) (hw : w < 2 ^ 15)
    (h : permute15 prf v = permute15 prf w) : v = w := by
  cases prf with
  | none => exact h
  | some prf =>
    obtain ⟨hv1, -⟩ := network_lt prf v
    obtain ⟨hw1, -⟩ := network_lt prf w
    rw [permute15, permute15, ← Nat.shiftLeft_add_eq_or_of_lt hv1,
      ← Nat.shiftLeft_add_eq_or_of_lt hw1] at h
    have hend : (range ruRounds).foldl (fun p i => feistelRound (prfMix prf i) p) (v >>> 8 &&& 0x7f,
      v &&& 0xff) =
        (range ruRounds).foldl (fun p i => feistelRound (prfMix prf i) p) (w >>> 8 &&& 0x7f,
        w &&& 0xff) :=
      Prod.ext (by omega) (by omega)
    have hpair : (v >>> 8 &&& 0x7f, v &&& 0xff) = (w >>> 8 &&& 0x7f, w &&& 0xff) :=
      feistel_injective (prfMix prf) (prfMix_injective prf) (range ruRounds) hend
    have hmask : ∀ u, u < 2 ^ 15 → u = (u >>> 8 &&& 0x7f) * 2 ^ 8 + (u &&& 0xff) := by
      intro u hu
      rw [show 0x7f = 2 ^ 7 - 1 from rfl, show 0xff = 2 ^ 8 - 1 from rfl, Nat.and_two_pow_sub_one_eq_mod,
        Nat.and_two_pow_sub_one_eq_mod]
      omega
    rw [Prod.mk.injEq] at hpair
    rw [hmask v hv, hmask w hw, hpair.1, hpair.2]

/-! ### The parameters -/

/-- What `res_initid` sees to. -/
structure RuState.Good (s : RuState) : Prop where
  seed : s.seed < 2 ^ 15
  seed2 : s.seed2 < 2 ^ 15
  a : s.a % 12 = 1
  b : s.b.Coprime ruM
  g : ∃ j, j.Coprime (ruN - 1) ∧ s.g = 2 ^ j % ruN
  msb : s.msb = 0 ∨ s.msb = 2 ^ 15

lemma skipThree_spec (hodd : b % 2 = 1) (hlt : b < 2 ^ 16) :
    skipThree 3 b % 2 = 1 ∧ skipThree 3 b % 3 ≠ 0 := by
  by_cases hthree : b % 3 = 0
  · have hnext : (b + 2) % 2 ^ 16 % 3 ≠ 0 ∧ (b + 2) % 2 ^ 16 % 2 = 1 := by omega
    rw [skipThree, if_pos hthree, skipThree, if_neg hnext.1]
    exact ⟨hnext.2, hnext.1⟩
  · rw [skipThree, if_neg hthree]
    exact ⟨hodd, hthree⟩

lemma coprime_ruM (hodd : b % 2 = 1) (hthree : b % 3 ≠ 0) : b.Coprime ruM := by
  have hfactors : ruM = 2 ^ 7 * 3 ^ 5 := by decide
  rw [hfactors]
  apply Nat.Coprime.mul_right
  · exact Nat.Coprime.pow_right 7 (Nat.coprime_two_right.2 (Nat.odd_iff.2 hodd))
  · have hcop : Nat.Coprime 3 b :=
      Nat.prime_three.coprime_iff_not_dvd.2 fun h => hthree (Nat.mod_eq_zero_of_dvd h)
    exact Nat.Coprime.pow_right 5 hcop.symm

/-- No prime factor of `RU_N-1`. -/
def NoFactor (j : ℕ) : Prop := j % 2 ≠ 0 ∧ j % 3 ≠ 0 ∧ j % 2729 ≠ 0

lemma NoFactor.coprime (h : NoFactor j) : j.Coprime (ruN - 1) := by
  have hlarge : Nat.Prime 2729 := by norm_num
  have hfactors : ruN - 1 = 2 * 2 * 3 * 2729 := rfl
  have hprime : ∀ p, p.Prime → j % p ≠ 0 → j.Coprime p := fun p hp hne =>
    (hp.coprime_iff_not_dvd.2 fun hdvd => hne (Nat.mod_eq_zero_of_dvd hdvd)).symm
  have htwo := hprime 2 Nat.prime_two h.1
  exact ((htwo.mul_right htwo).mul_right (hprime 3 Nat.prime_three h.2.1)).mul_right
    (hprime 2729 hlarge h.2.2)

lemma findExp_spec {n d : ℕ} (hd : d < n) (hgood : NoFactor ((j + d) % ruN)) (hj : j < ruN) :
    NoFactor (findExp n j) ∧ findExp n j < ruN := by
  induction n generalizing j d with
  | zero => exact absurd hd (Nat.not_lt_zero d)
  | succ n ih =>
    rw [findExp]
    split
    · next hfactor =>
      have hne : d ≠ 0 := by
        rintro rfl
        rw [add_zero, Nat.mod_eq_of_lt hj] at hgood
        rcases hfactor with h | h | h
        · exact hgood.1 h
        · exact hgood.2.1 h
        · exact hgood.2.2 h
      apply ih (d := d - 1) (by omega) _ (Nat.mod_lt _ (by decide))
      rw [Nat.mod_add_mod, show j + 1 + (d - 1) = j + d by omega]
      exact hgood
    · next hfactor =>
      rw [not_or, not_or] at hfactor
      exact ⟨hfactor, hj⟩

lemma exists_noFactor (hj : j < ruN) : ∃ d < 14, NoFactor ((j + d) % ruN) := by
  -- short of the end, the sum is not reduced
  have hshort : ∀ d, j + d < 32749 → (j + d) % 6 = 1 ∨ (j + d) % 6 = 5 → (j + d) % 2729 ≠ 0 →
      NoFactor ((j + d) % ruN) := by
    intro d hlt h6 hlarge
    rw [Nat.mod_eq_of_lt (show j + d < ruN from hlt)]
    exact ⟨by omega, by omega, hlarge⟩
  have hj : j < 32749 := hj
  by_cases hlast : j = 32748
  · subst hlast
    exact ⟨2, by decide, by decide, by decide, by decide⟩
  · by_cases hnear : 32734 < j
    · exact ⟨32747 - j, by omega, hshort _ (by omega) (by omega) (by omega)⟩
    · -- two numbers prime to 6, of which one is not a multiple of 2729
      obtain ⟨d, hd, h6⟩ : ∃ d < 4, (j + d) % 6 = 1 ∨ (j + d) % 6 = 5 := by
        by_cases hone : j % 6 ≤ 1
        · exact ⟨1 - j % 6, by omega, by omega⟩
        · exact ⟨5 - j % 6, by omega, by omega⟩
      by_cases hlarge : (j + d) % 2729 = 0
      · exact ⟨d + 6, by omega, hshort _ (by omega) (by omega) (by omega)⟩
      · exact ⟨d, by omega, hshort d (by omega) h6 hlarge⟩

lemma lcg_multiplier (e : ℕ) (heven : e % 2 = 0) : 7 ^ e % ruM % 12 = 1 := by
  obtain ⟨k, rfl⟩ : ∃ k, e = 2 * k := ⟨e / 2, by omega⟩
  have hmod : (7 ^ 2) ^ k % 12 = 1 := by
    rw [Nat.pow_mod]
    simp
  rw [Nat.mod_mod_of_dvd _ (by decide : 12 ∣ ruM), pow_mul, hmod]

/-- **Whatever is drawn, the parameters are good.** -/
theorem resInitid_good (d : Draws) (now : ℤ) (s : RuState) : (resInitid d now s).Good := by
  have hmask : ∀ v, v &&& 0xfffe < 2 ^ 16 ∧ (v &&& 0xfffe) % 2 = 0 := by
    intro v
    refine ⟨Nat.and_lt_two_pow _ (by decide), ?_⟩
    rw [← Nat.and_one_is_mod, Nat.and_assoc]
    exact Nat.and_zero v
  obtain ⟨k, hk, hgood⟩ := exists_noFactor d.j.isLt
  obtain ⟨hfactor, hlt⟩ := findExp_spec (n := ruN) (hk.trans (by decide)) hgood d.j.isLt
  obtain ⟨hexp, heven⟩ := hmask (d.lcg.toNat >>> 16)
  obtain ⟨hb, -⟩ := hmask d.lcg.toNat
  have hbone : (d.lcg.toNat &&& 0xfffe ||| 1) % 2 = 1 ∧ (d.lcg.toNat &&& 0xfffe ||| 1) < 2 ^ 16 := by
    refine ⟨?_, Nat.or_lt_two_pow hb (by decide)⟩
    rw [Nat.or_mod_two_eq_one]
    exact .inr rfl
  obtain ⟨hodd, hthree⟩ := skipThree_spec hbone.1 hbone.2
  refine ⟨Nat.and_lt_two_pow _ (by decide), Nat.and_lt_two_pow _ (by decide), ?_, coprime_ruM hodd hthree,
    ⟨findExp ruN d.j, hfactor.coprime, ?_⟩, ?_⟩
  · rw [resInitid]
    rw [pmod_eq _ hexp (by decide)]
    exact lcg_multiplier _ heven
  · exact pmod_eq _ (hlt.trans (by decide)) (by decide)
  · simp only [resInitid]
    split
    · exact .inl rfl
    · exact .inr rfl

section Ids

variable {s : RuState} {e : ℕ} {ts : List Tick}

lemma or_msb {v msb : ℕ} (hv : v < 2 ^ 15) (hmsb : msb = 0 ∨ msb = 2 ^ 15) : v ||| msb = v + msb := by
  rcases hmsb with rfl | rfl
  · rw [Nat.or_zero, add_zero]
  · have hor := Nat.shiftLeft_add_eq_or_of_lt hv 1
    rw [Nat.shiftLeft_eq, one_mul] at hor
    rw [Nat.or_comm, ← hor, add_comm]

variable {x i : ℕ} {q : ℕ × ℕ} {t : Tick}

section

variable (h : s.Good) (hx : x < ruM)

include h hx

lemma RuState.Good.pmod_eq : pmod s.g (s.seed2 + x) ruN = s.g ^ (s.seed2 + x) % ruN := by
  apply Musl.Network.pmod_eq
  · have hseed := h.seed2
    have hx : x < 31104 := hx
    omega
  · decide

lemma RuState.Good.mixed_lt : s.seed ^^^ pmod s.g (s.seed2 + x) ruN < 2 ^ 15 := by
  apply Nat.xor_lt_two_pow h.seed
  rw [h.pmod_eq hx]
  exact (Nat.mod_lt _ (by decide)).trans (by decide)

lemma RuState.Good.idOf_eq : s.idOf x = permute15 s.prf (s.seed ^^^ pmod s.g (s.seed2 + x) ruN) + s.msb :=
  or_msb (permute15_lt _ (h.mixed_lt hx)) h.msb

end

/-- **Different values of the generator have different ids.** -/
theorem RuState.Good.idOf_inj (h : s.Good) {y : ℕ} (hx : x < ruM) (hy : y < ruM)
    (heq : s.idOf x = s.idOf y) :
    x = y := by
  rw [h.idOf_eq hx, h.idOf_eq hy, add_right_cancel_iff] at heq
  have hxor := permute15_injective s.prf (h.mixed_lt hx) (h.mixed_lt hy) heq
  have hpow := Nat.xor_right_injective hxor
  rw [h.pmod_eq hx, h.pmod_eq hy] at hpow
  obtain ⟨j, hj, hg⟩ := h.g
  rw [hg] at hpow
  exact generator_pow_inj hj hx hy hpow

lemma RuState.Good.iterate_ne (h : s.Good) (hi : 0 < i) (hmax : i < ruM) :
    (lcg s.a s.b ruM)^[i] s.x ≠ s.x := by
  have ha := h.a
  have hfour : 4 ∣ (s.a : ℤ) - 1 := by omega
  refine lcg_iterate_ne ?_ (fun _ => hfour) h.b hi hmax
  intro p hp hdvd
  have hfactors : ruM = 2 ^ 7 * 3 ^ 5 := by decide
  rw [hfactors, hp.dvd_mul] at hdvd
  rcases hdvd with h2 | h3
  · rw [(Nat.prime_dvd_prime_iff_eq hp Nat.prime_two).1 (hp.dvd_of_dvd_pow h2)]
    omega
  · rw [(Nat.prime_dvd_prime_iff_eq hp Nat.prime_three).1 (hp.dvd_of_dvd_pow h3)]
    omega

lemma lcg_lt (a b x : ℕ) : lcg a b ruM x < ruM := Nat.mod_lt _ (by decide)

lemma iterate_lcg_lt (a b x : ℕ) (hi : 0 < i) : (lcg a b ruM)^[i] x < ruM := by
  obtain ⟨i, rfl⟩ := Nat.exists_eq_succ_of_ne_zero hi.ne'
  rw [iterate_succ_apply']
  exact lcg_lt a b _

lemma ids_epoch_le (hq : q ∈ ids e s ts) : e ≤ q.1 := by
  induction ts generalizing e s with
  | nil => cases hq
  | cons t ts ih =>
    have hstep : e ≤ if s.stale t then e + 1 else e := by split <;> omega
    rcases mem_cons.1 hq with rfl | hq
    · exact hstep
    · exact hstep.trans (ih hq)

lemma refresh_of_not_stale (h : s.stale t = false) :
    s.refresh t = s ∧ s.counter < ruMax ∧ t.pid = s.pid := by
  refine ⟨by rw [RuState.refresh, h]; rfl, ?_⟩
  simp only [RuState.stale, Bool.or_eq_false_iff, decide_eq_false_iff_not, not_not] at h
  exact ⟨not_le.1 h.1.1, h.2⟩

lemma next_counter (h : s.counter < ruMax) : s.next.counter = s.counter + 1 := by
  have hlt : s.counter < 30000 := h
  exact Nat.mod_eq_of_lt (by omega)

/-- **The rest of an epoch**: the ids belong to the next values of the generator. -/
theorem ids_current (hq : q ∈ ids e s ts) (hepoch : q.1 = e) :
    ∃ i, 0 < i ∧ s.counter + i ≤ ruMax ∧ q.2 = s.idOf ((lcg s.a s.b ruM)^[i] s.x) := by
  induction ts generalizing s with
  | nil => cases hq
  | cons t ts ih =>
    cases hstale : s.stale t with
    | true =>
      have hle : e + 1 ≤ q.1 := by
        simp only [ids, hstale] at hq
        rcases mem_cons.1 hq with rfl | hq
        · exact le_rfl
        · exact ids_epoch_le hq
      omega
    | false =>
      obtain ⟨hsame, hmore, _⟩ := refresh_of_not_stale hstale
      simp only [ids, hstale, resRandomid, hsame] at hq
      rcases mem_cons.1 hq with rfl | hq
      · exact ⟨1, one_pos, hmore, rfl⟩
      · obtain ⟨i, _, hle, hid⟩ := ih hq
        rw [next_counter hmore] at hle
        refine ⟨i + 1, Nat.succ_pos i, by omega, ?_⟩
        exact hid

lemma RuState.Good.next (h : s.Good) : s.next.Good := { h with }

lemma refresh_good (h : s.Good ∨ s.pid = 0) : (s.refresh t).Good := by
  cases hstale : s.stale t with
  | true =>
    have hinit := resInitid_good t.draws t.later s
    rw [RuState.refresh, hstale]
    exact { hinit with }
  | false =>
    obtain ⟨hsame, _, hpid⟩ := refresh_of_not_stale hstale
    have hpos := t.pid_pos
    rw [hsame]
    exact h.resolve_right (by omega)

lemma ids_next (hs : s.Good) (hq : q ∈ ids e s ts) (hepoch : q.1 = e + 1) :
    ∃ v < 2 ^ 15, q.2 = v + if s.msb = 2 ^ 15 then 0 else 2 ^ 15 := by
  induction ts generalizing s with
  | nil => cases hq
  | cons t ts ih =>
    have hgood : (s.refresh t).Good := refresh_good (.inl hs)
    cases hstale : s.stale t with
    | true =>
      have hmsb : (s.refresh t).next.msb = if s.msb = 2 ^ 15 then 0 else 2 ^ 15 := by
        rw [RuState.next, RuState.refresh, hstale]
        rfl
      have hform : ∀ i, 0 < i → ∃ v < 2 ^ 15,
        (s.refresh t).next.idOf ((lcg (s.refresh t).a (s.refresh t).b ruM)^[i]
          (s.refresh t).x) = v + if s.msb = 2 ^ 15 then 0 else 2 ^ 15 := by
        intro i hi
        rw [← hmsb, hgood.next.idOf_eq (iterate_lcg_lt _ _ _ hi)]
        exact ⟨_, permute15_lt _ (hgood.next.mixed_lt (iterate_lcg_lt _ _ _ hi)), rfl⟩
      simp only [ids, hstale] at hq
      rcases mem_cons.1 hq with rfl | hq
      · exact hform 1 one_pos
      · obtain ⟨i, _, _, hid⟩ := ids_current hq hepoch
        rw [hid]
        exact hform (i + 1) (Nat.succ_pos i)
    | false =>
      obtain ⟨hsame, _, _⟩ := refresh_of_not_stale hstale
      simp only [ids, hstale, resRandomid, hsame] at hq
      rcases mem_cons.1 hq with rfl | hq
      · exact absurd hepoch (ne_of_lt (Nat.lt_succ_self _))
      · have hrest := ih hs.next hq
        exact hrest

lemma ids_distinct (hs : s.Good ∨ s.pid = 0) :
    (ids e s ts).Pairwise fun p q => p.1 = q.1 ∨ p.1 + 1 = q.1 → p.2 ≠ q.2 := by
  induction ts generalizing e s with
  | nil => exact .nil
  | cons t ts ih =>
    have hgood : (s.refresh t).next.Good := (refresh_good hs).next
    refine .cons ?_ (ih (.inl hgood))
    intro q hq hepoch heq
    change (s.refresh t).next.idOf (s.refresh t).next.x = q.2 at heq
    have hx : (s.refresh t).next.x < ruM := lcg_lt _ _ _
    rcases hepoch with hsame | hnext
    · -- in the same epoch the generator would have come back
      obtain ⟨i, hi, hmax, hid⟩ := ids_current hq hsame.symm
      rw [hid] at heq
      have hlt : i < ruM := lt_of_le_of_lt (by omega : i ≤ ruMax) (by decide)
      exact hgood.iterate_ne hi hlt (hgood.idOf_inj hx (iterate_lcg_lt _ _ _ hi) heq).symm
    · obtain ⟨v, hv, hid⟩ := ids_next hgood hq hnext.symm
      have hp := permute15_lt (s.refresh t).next.prf (hgood.mixed_lt hx)
      rw [hid, hgood.idOf_eq hx] at heq
      split at heq
      · next hmsb =>
        omega
      · next hmsb =>
        rw [hgood.msb.resolve_right hmsb] at heq
        omega

lemma ids_count (k : ℕ) :
    ((ids e s ts).filter fun q => q.1 = k).length ≤ if k = e then ruMax - s.counter else ruMax := by
  induction ts generalizing e s with
  | nil => exact Nat.zero_le _
  | cons t ts ih =>
    cases hstale : s.stale t with
    | true =>
      have hcounter : (s.refresh t).next.counter = 1 := by
        rw [RuState.next, RuState.refresh, hstale]
        rfl
      have hrest := ih (e := e + 1) (s := (s.refresh t).next)
      simp only [ids, hstale, if_true, resRandomid, filter_cons, decide_eq_true_eq]
      have hmax : 1 ≤ ruMax := by decide
      by_cases hk : k = e
      · -- none of the former epoch
        subst hk
        have hnone : (ids (k + 1) (s.refresh t).next ts).filter (fun q => decide (q.1 = k)) = [] := by
          rw [filter_eq_nil_iff]
          intro q hq
          have hle := ids_epoch_le hq
          simp only [decide_eq_true_eq]
          omega
        rw [if_neg (by omega), hnone]
        exact Nat.zero_le _
      · split
        · next hhere =>
          rw [if_pos hhere.symm] at hrest
          rw [length_cons]
          omega
        · next hhere =>
          rw [if_neg (fun h => hhere h.symm)] at hrest
          exact hrest
    | false =>
      obtain ⟨hsame, hmore, _⟩ := refresh_of_not_stale hstale
      have hrest := ih (e := e) (s := s.next)
      rw [next_counter hmore] at hrest
      simp only [ids, hstale, Bool.false_eq_true, if_false, resRandomid, hsame, filter_cons,
        decide_eq_true_eq]
      split
      · next hhere =>
        rw [if_pos hhere.symm] at hrest ⊢
        rw [length_cons]
        omega
      · next hhere =>
        rw [if_neg (fun h => hhere h.symm)] at hrest ⊢
        exact hrest

end Ids

/-- **The ids of an epoch and of the next one are all different**, for any calls from the start of
the program. -/
theorem ids_pairwise (ts : List Tick) :
    (ids 0 .start ts).Pairwise (fun p q => p.1 = q.1 ∨ p.1 + 1 = q.1 → p.2 ≠ q.2) ∧
      ∀ e, ((ids 0 .start ts).filter fun q => q.1 = e).length ≤ ruMax := by
  refine ⟨ids_distinct (.inr rfl), fun e => le_trans (ids_count e) ?_⟩
  split
  · exact Nat.sub_le _ _
  · exact le_rfl

end Musl.Network
