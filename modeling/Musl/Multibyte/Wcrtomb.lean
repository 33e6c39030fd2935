import Musl.Multibyte.Mbrtowc

/-!
# Encoding, and UTF-16

`wcrtomb` encodes by range tests, independently of the table that `mbrtowc` decodes with.  `c16rtomb`
and `mbrtoc16` stand on top of the two and go through UTF-16.  Their state word holds a pending
surrogate: the high one that `c16rtomb` was given, shifted into place, and the low one that `mbrtoc16`
still has to return; a partial UTF-8 character in the same word has bit 31 set.
-/

namespace Musl.Multibyte

open Musl.Lib.Utf8 List Option Nat Prod
open String (utf8EncodeChar)

/-! ### The code -/

/-- A store to a `char`. -/
def byte (x : Word) : UInt8 := .ofBitVec (x.setWidth 8)

def isCodeUnit (c : Word) : Bool := c - 0xdf80 < 0x80

/-- A return of an encoder: the value returned and the bytes stored. -/
structure Wcr where
  ret : ℕ
  out : List UInt8
  deriving DecidableEq, Repr

/-- `wcrtomb`; the two Booleans are a UTF-8 locale and a destination that is not null. -/
def wcrtomb (utf8 s : Bool) (wc : Word) : Wcr :=
  if s = false then ⟨1, []⟩
  else if wc < 0x80 then ⟨1, [byte wc]⟩
  else if utf8 = false then
    if isCodeUnit wc = false then ⟨minus1, []⟩ else ⟨1, [byte wc]⟩
  else if wc < 0x800 then ⟨2, [byte (0xc0 ||| wc.sshiftRight 6), byte (0x80 ||| wc &&& 0x3f)]⟩
  else if wc < 0xd800 ∨ wc - 0xe000 < 0x2000 then
    ⟨3, [byte (0xe0 ||| wc.sshiftRight 12), byte (0x80 ||| wc.sshiftRight 6 &&& 0x3f),
      byte (0x80 ||| wc &&& 0x3f)]⟩
  else if wc - 0x10000 < 0x100000 then
    ⟨4, [byte (0xf0 ||| wc.sshiftRight 18), byte (0x80 ||| wc.sshiftRight 12 &&& 0x3f),
      byte (0x80 ||| wc.sshiftRight 6 &&& 0x3f), byte (0x80 ||| wc &&& 0x3f)]⟩
  else ⟨minus1, []⟩

/-- A return of `c16rtomb`, with the state left. -/
structure C16r where
  ret : ℕ
  out : List UInt8
  st : Word
  deriving DecidableEq, Repr

def c16rtomb (utf8 s : Bool) (c16 : BitVec 16) (x : Word) : C16r :=
  let u : Word := c16.setWidth 32
  if s = false then if x ≠ 0 then ⟨minus1, [], 0⟩ else ⟨1, [], x⟩
  else if x = 0 ∧ u - 0xd800 < 0x400 then ⟨0, [], (u - 0xd7c0) <<< 10⟩
  else if x ≠ 0 then
    if 0x400 ≤ u - 0xdc00 then ⟨minus1, [], 0⟩
    else
      let r := wcrtomb utf8 s (x + u - 0xdc00)
      ⟨r.ret, r.out, 0⟩
  else
    let r := wcrtomb utf8 s u
    ⟨r.ret, r.out, x⟩

/-- A return of `mbrtoc16`: the value, the state left and the unit stored. -/
structure Mbc16 where
  ret : ℕ
  st : Word
  c16 : Option (BitVec 16)
  deriving DecidableEq, Repr

/-- `mbrtoc16` of bytes. -/
def mbrtoc16Bytes (utf8 : Bool) (s : List UInt8) (pending : Word) : Mbc16 :=
  if 0 < pending.toInt then ⟨minus3, 0, some (pending.setWidth 16)⟩
  else
    let m := mbrtowc utf8 (some s) pending
    match m.wc with
    | some wc =>
      if m.ret ≤ 4 then
        if 0x10000 ≤ wc.toInt then
          ⟨m.ret, (wc &&& 0x3ff) + 0xdc00, some ((0xd7c0 + wc.sshiftRight 10).setWidth 16)⟩
        else ⟨m.ret, m.st, some (wc.setWidth 16)⟩
      else ⟨m.ret, m.st, none⟩
    | none => ⟨m.ret, m.st, none⟩

/-- `mbrtoc16`; a null source is the null character, and nothing is stored then. -/
def mbrtoc16 (utf8 : Bool) (src : Option (List UInt8)) (pending : Word) : Mbc16 :=
  match src with
  | none => { mbrtoc16Bytes utf8 [0] pending with c16 := none }
  | some s => mbrtoc16Bytes utf8 s pending

/-! ### `wcrtomb` is the standard encoding -/

variable {x wc : Word} {n : ℕ}

lemma toNat_byte (h : x.toNat < 256) : (byte x).toNat = x.toNat := by
  unfold byte
  exact mod_eq_of_lt h

lemma toNat_sshiftRight (h : x.toNat < 2 ^ 31) (n : ℕ) : (x.sshiftRight n).toNat = x.toNat / 2 ^ n := by
  rw [BitVec.sshiftRight_eq_of_msb_false (BitVec.msb_eq_false_iff_two_mul_lt.2 (by omega)),
    BitVec.toNat_ushiftRight, shiftRight_eq_div_pow]

lemma byte_lead (hi k : ℕ) (hx : x.toNat = n) (hk : n < 2 ^ k) (hhi : hi <<< k < 256)
    (hsum : hi <<< k + n < 256) :
    byte (BitVec.ofNat 32 (hi <<< k) ||| x) = UInt8.ofNat (n + hi <<< k) := by
  apply UInt8.toNat_inj.1
  have hor : (BitVec.ofNat 32 (hi <<< k) ||| x).toNat = hi <<< k + n := by
    rw [BitVec.toNat_or, hx, BitVec.toNat_ofNat, mod_eq_of_lt (by omega), shiftLeft_add_eq_or_of_lt hk]
  rw [toNat_byte (by omega), UInt8.toNat_ofNat_of_lt' (show _ < 256 by omega)]
  omega

lemma byte_cont (x : Word) : byte (0x80 ||| x &&& 0x3f) = UInt8.ofNat (x.toNat % 64 + 128) := by
  have hx : (x &&& 0x3f).toNat = x.toNat % 64 := by
    exact and_two_pow_sub_one_eq_mod x.toNat 6
  exact byte_lead 2 6 hx (mod_lt _ (by decide)) (by decide)
    (by have := mod_lt x.toNat (show 0 < 64 by decide); omega)

lemma lt_ofNat_iff (hn : n < 2 ^ 32) : wc < BitVec.ofNat 32 n ↔ wc.toNat < n := by
  rw [BitVec.lt_def, BitVec.toNat_ofNat, mod_eq_of_lt hn]

lemma sub_lt_iff {a : ℕ} (ha : a < 2 ^ 32) (hn : a + n ≤ 2 ^ 32) (hlt : n < 2 ^ 32) :
    wc - BitVec.ofNat 32 a < BitVec.ofNat 32 n ↔ a ≤ wc.toNat ∧ wc.toNat < a + n := by
  rw [lt_ofNat_iff hlt, BitVec.toNat_sub, BitVec.toNat_ofNat]
  omega

lemma wcrtomb_tests (wc : Word) : (wc < 0x80 ↔ wc.toNat < 0x80) ∧ (wc < 0x800 ↔ wc.toNat < 0x800) ∧
    ((wc < 0xd800 ∨ wc - 0xe000 < 0x2000) ↔
      (wc.toNat < 0xd800 ∨ 0xe000 ≤ wc.toNat ∧ wc.toNat < 0x10000)) ∧
    (wc - 0x10000 < 0x100000 ↔ 0x10000 ≤ wc.toNat ∧ wc.toNat < 0x110000) :=
  ⟨lt_ofNat_iff (by decide), lt_ofNat_iff (by decide),
    or_congr (lt_ofNat_iff (by decide)) (sub_lt_iff (by decide) (by decide) (by decide)),
    sub_lt_iff (by decide) (by decide) (by decide)⟩

/-- **`wcrtomb` produces the standard encoding.** -/
theorem wcrtomb_wide (c : Char) :
    wcrtomb true true (wide c) = ⟨(utf8EncodeChar c).length, utf8EncodeChar c⟩ := by
  have hx := toNat_wide c
  have hvalid : c.toNat.isValidChar := c.valid
  have hshift : ∀ n, ((wide c).sshiftRight n).toNat = c.toNat / 2 ^ n := by
    intro n
    rw [toNat_sshiftRight (by omega), hx]
  have hcont : ∀ n, byte (0x80 ||| (wide c).sshiftRight n &&& 0x3f) =
      UInt8.ofNat (c.toNat / 2 ^ n % 64 + 128) := by
    intro n
    rw [byte_cont, hshift]
  have hlast : byte (0x80 ||| wide c &&& 0x3f) = UInt8.ofNat (c.toNat % 64 + 128) := by
    rw [byte_cont, hx]
  obtain ⟨ht1, ht2, ht3, ht4⟩ := wcrtomb_tests (wide c)
  unfold wcrtomb
  rw [encode_eq, leadOf, if_neg (by decide)]
  by_cases h1 : c.toNat < 0x80
  · have hb : byte (wide c) = UInt8.ofNat c.toNat := by
      apply UInt8.toNat_inj.1
      rw [toNat_byte (by omega), hx, UInt8.toNat_ofNat_of_lt' (show _ < 256 by omega)]
    rw [if_pos (ht1.2 h1), if_pos h1]
    rfl
  rw [if_neg (mt ht1.1 h1), if_neg h1, if_neg (by decide)]
  by_cases h2 : c.toNat < 0x800
  · have hlead : byte (0xc0 ||| (wide c).sshiftRight 6) = UInt8.ofNat (c.toNat / 2 ^ 6 + 192) :=
      byte_lead 6 5 (hshift 6) (by omega) (by decide) (by omega)
    rw [if_pos (ht2.2 h2), if_pos h2, hlast, hlead]
    simp only [conts, pow_zero, Nat.div_one]
    rfl
  rw [if_neg (mt ht2.1 h2), if_neg h2]
  by_cases h3 : c.toNat < 0x10000
  · have hlead : byte (0xe0 ||| (wide c).sshiftRight 12) = UInt8.ofNat (c.toNat / 2 ^ 12 + 224) :=
      byte_lead 14 4 (hshift 12) (by omega) (by decide) (by omega)
    rw [if_pos (ht3.2 (by omega)), if_pos h3, hlast, hcont, hlead]
    simp only [conts, pow_zero, Nat.div_one]
    rfl
  · have hlead : byte (0xf0 ||| (wide c).sshiftRight 18) = UInt8.ofNat (c.toNat / 2 ^ 18 + 240) :=
      byte_lead 30 3 (hshift 18) (by omega) (by decide) (by omega)
    rw [if_neg (by rw [ht3]; omega), if_pos (ht4.2 (by omega)), if_neg h3, hlast, hcont, hcont, hlead]
    simp only [conts, pow_zero, Nat.div_one]
    rfl

/-- **`wcrtomb` encodes scalar values only.** -/
theorem wcrtomb_encodes (h : (wcrtomb true true wc).ret ≠ minus1) : ∃ c, wc = wide c := by
  obtain ⟨ht1, ht2, ht3, ht4⟩ := wcrtomb_tests wc
  have hvalid : wc.toNat.isValidChar := by
    by_contra hno
    refine h ?_
    unfold wcrtomb
    rw [if_neg (by decide), if_neg (by rw [ht1]; omega), if_neg (by decide), if_neg (by rw [ht2]; omega),
      if_neg (by rw [ht3]; omega), if_neg (by rw [ht4]; omega)]
  obtain ⟨c, hc⟩ := exists_char hvalid
  refine ⟨c, BitVec.eq_of_toNat_eq ?_⟩
  rw [toNat_wide, hc]

/-! ### UTF-16 -/

def utf16 (c : Char) : List (BitVec 16) :=
  if c.toNat < 0x10000 then [.ofNat 16 c.toNat]
  else [.ofNat 16 (0xd800 + (c.toNat - 0x10000) / 0x400),
    .ofNat 16 (0xdc00 + (c.toNat - 0x10000) % 0x400)]

/-- The units given to `c16rtomb` one by one: the bytes it stores and the state it leaves, unless a call
returns -1. -/
def c16Run (st : Word) : List (BitVec 16) → Option (List UInt8 × Word)
  | [] => some ([], st)
  | u :: us =>
    let r := c16rtomb true true u st
    if r.ret = minus1 then none else (c16Run r.st us).map fun q => (r.out ++ q.1, q.2)

/-- The bytes read by `mbrtoc16` until it returns -2: the units it stores and the state it leaves,
unless a call returns -1. -/
def mbc16Run : ℕ → Word → List UInt8 → Option (List (BitVec 16) × Word)
  | 0, _, _ => none
  | fuel + 1, st, s =>
    let m := mbrtoc16 true (some s) st
    if m.ret = minus1 then none
    else if m.ret = minus2 then some ([], m.st)
    else
      let s := if m.ret = minus3 then s else s.drop (if m.ret = 0 then 1 else m.ret)
      (mbc16Run fuel m.st s).map fun q => (m.c16.toList ++ q.1, q.2)

section C16rtomb

variable {u : BitVec 16} {c : Char} {x : Word}

lemma toNat_unit (u : BitVec 16) : (u.setWidth 32 : Word).toNat = u.toNat := by
  rw [BitVec.toNat_setWidth]
  exact mod_eq_of_lt (by have := u.isLt; omega)

lemma c16rtomb_tests (u : BitVec 16) :
    ((u.setWidth 32 : Word) - 0xd800 < 0x400 ↔ 0xd800 ≤ u.toNat ∧ u.toNat < 0xdc00) ∧
    (0x400 ≤ (u.setWidth 32 : Word) - 0xdc00 ↔ ¬(0xdc00 ≤ u.toNat ∧ u.toNat < 0xe000)) := by
  have hhigh : (u.setWidth 32 : Word) - 0xd800 < 0x400 ↔ _ :=
    sub_lt_iff (by decide) (by decide) (by decide)
  have hlow : (u.setWidth 32 : Word) - 0xdc00 < 0x400 ↔ _ :=
    sub_lt_iff (by decide) (by decide) (by decide)
  rw [toNat_unit] at hhigh hlow
  refine ⟨hhigh, ?_⟩
  rw [← hlow, BitVec.not_lt]

lemma c16rtomb_char (hu : u.toNat = c.toNat) :
    c16rtomb true true u 0 = ⟨(utf8EncodeChar c).length, utf8EncodeChar c, 0⟩ := by
  have hvalid : c.toNat.isValidChar := c.valid
  have hwide : (u.setWidth 32 : Word) = wide c := by
    apply BitVec.eq_of_toNat_eq
    rw [toNat_unit, hu, toNat_wide]
  unfold c16rtomb
  rw [if_neg (by decide), if_neg fun h => by have := (c16rtomb_tests u).1.1 h.2; omega,
    if_neg fun h => h rfl, hwide, wcrtomb_wide]

lemma c16rtomb_high (hlo : 0xd800 ≤ u.toNat) (hhi : u.toNat < 0xdc00) :
    ∃ st, c16rtomb true true u 0 = ⟨0, [], st⟩ ∧ st.toNat = (u.toNat - 0xd7c0) * 0x400 := by
  refine ⟨((u.setWidth 32 : Word) - 0xd7c0) <<< 10, ?_, ?_⟩
  · unfold c16rtomb
    simp only
    rw [if_neg (by decide), if_pos ⟨trivial, (c16rtomb_tests u).1.2 ⟨hlo, hhi⟩⟩]
  · have hsub : ((u.setWidth 32 : Word) - 0xd7c0).toNat = u.toNat - 0xd7c0 := by
      rw [BitVec.toNat_sub_of_le (by rw [BitVec.le_def, toNat_unit]; show 0xd7c0 ≤ _; omega)]
      rfl
    rw [BitVec.toNat_shiftLeft]
    omega

lemma c16rtomb_low (hx : x ≠ 0) (hlo : 0xdc00 ≤ u.toNat) (hhi : u.toNat < 0xe000)
    (hc : c.toNat = x.toNat + (u.toNat - 0xdc00)) :
    c16rtomb true true u x = ⟨(utf8EncodeChar c).length, utf8EncodeChar c, 0⟩ := by
  have hlt := toNat_lt c
  have hwide : x + (u.setWidth 32 : Word) - 0xdc00 = wide c := by
    apply BitVec.eq_of_toNat_eq
    have hadd : (x + (u.setWidth 32 : Word)).toNat = x.toNat + u.toNat := by
      rw [BitVec.toNat_add, toNat_unit]
      omega
    rw [BitVec.toNat_sub_of_le (by rw [BitVec.le_def]; show 0xdc00 ≤ _; omega), toNat_wide]
    show _ - 0xdc00 = _
    omega
  unfold c16rtomb
  rw [if_neg (by decide), if_neg fun h => hx h.1, if_pos hx,
    if_neg (by rw [(c16rtomb_tests u).2]; exact fun h => h ⟨hlo, hhi⟩), hwide, wcrtomb_wide]

lemma c16rtomb_unpaired (hx : x ≠ 0) (hu : ¬(0xdc00 ≤ u.toNat ∧ u.toNat < 0xe000)) :
    (c16rtomb true true u x).ret = minus1 := by
  unfold c16rtomb
  rw [if_neg (by decide), if_neg fun h => hx h.1, if_pos hx, if_pos ((c16rtomb_tests u).2.2 hu)]

lemma c16rtomb_lone (hlo : 0xdc00 ≤ u.toNat) (hhi : u.toNat < 0xe000) :
    (c16rtomb true true u 0).ret = minus1 := by
  by_contra hne
  unfold c16rtomb at hne
  rw [if_neg (by decide), if_neg fun h => by have := (c16rtomb_tests u).1.1 h.2; omega] at hne
  obtain ⟨c, hc⟩ := wcrtomb_encodes hne
  have hvalid : c.toNat.isValidChar := c.valid
  rw [← toNat_wide, ← hc, toNat_unit] at hvalid
  omega

end C16rtomb

lemma c16Run_char (c : Char) (us : List (BitVec 16)) :
    c16Run 0 (utf16 c ++ us) = (c16Run 0 us).map fun q => (utf8EncodeChar c ++ q.1, q.2) := by
  have hlt := toNat_lt c
  have hlen : (utf8EncodeChar c).length ≠ minus1 := by
    have := length_encode_le c
    unfold minus1
    omega
  unfold utf16
  split
  · have hu : (BitVec.ofNat 16 c.toNat).toNat = c.toNat := by
      exact mod_eq_of_lt (by omega)
    rw [singleton_append, c16Run, c16rtomb_char hu]
    simp only [if_neg hlen]
  · set hi : BitVec 16 := .ofNat 16 (0xd800 + (c.toNat - 0x10000) / 0x400) with hhi
    set lo : BitVec 16 := .ofNat 16 (0xdc00 + (c.toNat - 0x10000) % 0x400) with hlo
    have hhiNat : hi.toNat = 0xd800 + (c.toNat - 0x10000) / 0x400 := by
      rw [BitVec.toNat_ofNat]
      exact mod_eq_of_lt (by omega)
    have hloNat : lo.toNat = 0xdc00 + (c.toNat - 0x10000) % 0x400 := by
      rw [BitVec.toNat_ofNat]
      exact mod_eq_of_lt (by omega)
    obtain ⟨st, hst, hstNat⟩ := c16rtomb_high (u := hi) (by omega) (by omega)
    have hne : st ≠ 0 := by
      rintro rfl
      have hzero : (0 : Word).toNat = 0 := rfl
      omega
    have hpair : c16rtomb true true lo st = ⟨(utf8EncodeChar c).length, utf8EncodeChar c, 0⟩ :=
      c16rtomb_low hne (by omega) (by omega) (by omega)
    rw [cons_append, singleton_append, c16Run, hst]
    simp only
    rw [c16Run, hpair]
    simp only [if_neg hlen]
    cases c16Run 0 us <;> rfl

/-- **The units of a sequence of scalar values are encoded.** -/
theorem c16Run_utf16 (cs : List Char) :
    c16Run 0 (cs.flatMap utf16) = some (cs.flatMap utf8EncodeChar, 0) := by
  induction cs with
  | nil => rfl
  | cons c cs ih =>
    rw [flatMap_cons, c16Run_char, ih]
    rfl

/-- **What `c16rtomb` encodes to its end is a sequence of scalar values.** -/
theorem utf16_of_c16Run {us : List (BitVec 16)} {out : List UInt8} (h : c16Run 0 us = some (out, 0)) :
    ∃ cs : List Char, us = cs.flatMap utf16 := by
  -- by the number of units, because a pair is taken at once
  induction hn : us.length using Nat.strong_induction_on generalizing us out with
  | _ n ih =>
  have hrest : ∀ c us', us = utf16 c ++ us' → us'.length < n → ∃ cs : List Char,
      us = cs.flatMap utf16 := by
    rintro c us' rfl hlt
    rw [c16Run_char] at h
    obtain ⟨⟨out', st⟩, hq, heq⟩ := map_eq_some_iff.1 h
    cases (mk.inj heq).2
    obtain ⟨cs, rfl⟩ := ih _ hlt hq rfl
    exact ⟨c :: cs, rfl⟩
  cases us with
  | nil => exact ⟨[], rfl⟩
  | cons u us =>
    rw [length_cons] at hn
    by_cases hhigh : 0xd800 ≤ u.toNat ∧ u.toNat < 0xdc00
    · obtain ⟨st, hst, hstNat⟩ := c16rtomb_high hhigh.1 hhigh.2
      have hne : st ≠ 0 := by
        rintro rfl
        have hzero : (0 : Word).toNat = 0 := rfl
        omega
      rw [c16Run, hst] at h
      simp only at h
      cases us with
      | nil =>
        cases (mk.inj (some.inj h)).2
        exact absurd rfl hne
      | cons v us =>
        by_cases hlow : 0xdc00 ≤ v.toNat ∧ v.toNat < 0xe000
        · obtain ⟨c, hc⟩ := exists_char (x := st.toNat + (v.toNat - 0xdc00))
            (by unfold Nat.isValidChar; omega)
          refine hrest c us ?_ (by rw [length_cons] at hn; omega)
          have hpair : utf16 c = [u, v] := by
            unfold utf16
            rw [if_neg (by omega)]
            rw [cons.injEq, cons.injEq]
            refine ⟨BitVec.eq_of_toNat_eq ?_, BitVec.eq_of_toNat_eq ?_, rfl⟩
            · rw [BitVec.toNat_ofNat]
              omega
            · rw [BitVec.toNat_ofNat]
              omega
          rw [hpair]
          rfl
        · rw [c16Run, if_pos (c16rtomb_unpaired hne hlow)] at h
          cases h
    · by_cases hlow : 0xdc00 ≤ u.toNat ∧ u.toNat < 0xe000
      · rw [c16Run, if_pos (c16rtomb_lone hlow.1 hlow.2)] at h
        cases h
      · obtain ⟨c, hc⟩ := exists_char (x := u.toNat) (by unfold Nat.isValidChar; omega)
        refine hrest c us ?_ (by omega)
        have hunit : utf16 c = [u] := by
          unfold utf16
          rw [if_pos (by omega), hc, BitVec.ofNat_toNat, BitVec.setWidth_eq]
        rw [hunit]
        rfl

section Mbrtoc16

variable {c : Char} {st : Word} {s : List UInt8}

lemma mbrtoc16_pending {lo : ℕ} (hst : st.toNat = lo) (hpos : 0 < lo) (hlt : lo < 2 ^ 16) :
    mbrtoc16 true (some s) st = ⟨minus3, 0, some (.ofNat 16 lo)⟩ := by
  have hint : st.toInt = lo := by
    rw [BitVec.toInt_eq_toNat_of_lt (by omega), hst]
  have hunit : st.setWidth 16 = BitVec.ofNat 16 lo := by
    apply BitVec.eq_of_toNat_eq
    rw [BitVec.toNat_setWidth, hst, BitVec.toNat_ofNat]
  unfold mbrtoc16 mbrtoc16Bytes
  simp only
  rw [if_pos (by omega), hunit]

variable {k fuel : ℕ}

lemma mbrtoc16_small (hk : k ≤ 4) (hc : c.toNat < 0x10000)
    (hm : mbrtowc true (some s) 0 = ⟨k, 0, some (wide c)⟩) :
    mbrtoc16 true (some s) 0 = ⟨k, 0, some (.ofNat 16 c.toNat)⟩ := by
  have hint : (wide c).toInt = c.toNat := by
    rw [BitVec.toInt_eq_toNat_of_lt (by rw [toNat_wide]; omega), toNat_wide]
  have hunit : (wide c).setWidth 16 = BitVec.ofNat 16 c.toNat := by
    apply BitVec.eq_of_toNat_eq
    rw [BitVec.toNat_setWidth, toNat_wide, BitVec.toNat_ofNat]
  unfold mbrtoc16 mbrtoc16Bytes
  simp only [hm]
  rw [if_neg (by decide), if_pos hk, if_neg (by omega), hunit]

lemma mbrtoc16_large (hk : k ≤ 4) (hc : 0x10000 ≤ c.toNat)
    (hm : mbrtowc true (some s) 0 = ⟨k, 0, some (wide c)⟩) :
    ∃ st : Word, st.toNat = 0xdc00 + (c.toNat - 0x10000) % 0x400 ∧ mbrtoc16 true (some s) 0 =
      ⟨k, st, some (.ofNat 16 (0xd800 + (c.toNat - 0x10000) / 0x400))⟩ := by
  have hlt := toNat_lt c
  have hint : (wide c).toInt = c.toNat := by
    rw [BitVec.toInt_eq_toNat_of_lt (by rw [toNat_wide]; omega), toNat_wide]
  have hlow : (wide c &&& 0x3ff).toNat = c.toNat % 0x400 := by
    exact and_two_pow_sub_one_eq_mod c.toNat 10
  have hhigh : (0xd7c0 + (wide c).sshiftRight 10).setWidth 16 =
      BitVec.ofNat 16 (0xd800 + (c.toNat - 0x10000) / 0x400) := by
    apply BitVec.eq_of_toNat_eq
    rw [BitVec.toNat_setWidth, BitVec.toNat_add, toNat_sshiftRight (by rw [toNat_wide]; omega),
      toNat_wide, BitVec.toNat_ofNat]
    show (0xd7c0 + _) % _ % _ = _
    omega
  refine ⟨(wide c &&& 0x3ff) + 0xdc00, ?_, ?_⟩
  · show (_ + 0xdc00) % _ = _
    omega
  · unfold mbrtoc16 mbrtoc16Bytes
    simp only [hm]
    rw [if_neg (by decide), if_pos hk, if_pos (by omega), hhigh]

lemma mbc16Run_char (pos : 0 < k) (hk : k ≤ s.length) (enc : utf8EncodeChar c = s.take k)
    (hfuel : s.length < fuel) :
    ∃ fuel', (s.drop k).length < fuel' ∧
      mbc16Run fuel 0 s = (mbc16Run fuel' 0 (s.drop k)).map fun q => (utf16 c ++ q.1, q.2) := by
  have hm := (mbrtowc_reads stateOf_initial s).eq_char hk enc
  have hlen : (utf8EncodeChar c).length = k := by
    rw [enc, length_take]
    omega
  have hk4 : k ≤ 4 := hlen ▸ length_encode_le c
  have hnull : c.toNat = 0 → k = 1 := by
    intro h0
    rw [← hlen, encode_eq, h0]
    rfl
  have hret : (if c.toNat = 0 then 0 else k) ≤ 4 := by
    split <;> omega
  have hcons : (if (if c.toNat = 0 then 0 else k) = 0 then 1 else if c.toNat = 0 then 0 else k) = k := by
    split_ifs <;> omega
  have hminus : ∀ r ∈ [minus1, minus2, minus3], (if c.toNat = 0 then 0 else k) ≠ r := by
    intro r hr h
    have hbig : ∀ r ∈ [minus1, minus2, minus3], 4 < r := by decide
    have := hbig r hr
    omega
  obtain _ | f := fuel
  · omega
  unfold utf16
  rcases lt_or_ge c.toNat 0x10000 with hsmall | hlarge
  · refine ⟨f, by rw [length_drop]; omega, ?_⟩
    rw [if_pos hsmall, mbc16Run, mbrtoc16_small hret hsmall hm]
    rw [if_neg (hminus _ (by simp)), if_neg (hminus _ (by simp)), if_neg (hminus _ (by simp)), hcons]
    rfl
  · have hk2 : k = 4 := by
      rw [← hlen, encode_eq, length_cons, length_conts, leadOf, if_neg (by omega),
        if_neg (by omega), if_neg (by omega)]
    obtain ⟨st, hst, hcall⟩ := mbrtoc16_large hret hlarge hm
    obtain ⟨f, rfl⟩ : ∃ f', f = f' + 1 := ⟨f - 1, by omega⟩
    refine ⟨f, by rw [length_drop]; omega, ?_⟩
    rw [if_neg (by omega), mbc16Run, hcall]
    simp only
    rw [if_neg (hminus _ (by simp)), if_neg (hminus _ (by simp)), if_neg (hminus _ (by simp)), hcons,
      mbc16Run, mbrtoc16_pending hst (by omega) (by omega)]
    simp only
    rw [if_neg (by decide), if_pos trivial]
    cases mbc16Run f 0 (s.drop k) <;> rfl

/-- **The bytes of a sequence of scalar values are read to their units.** -/
theorem mbc16Run_encode (cs : List Char) (hfuel : (cs.flatMap utf8EncodeChar).length < fuel) :
    mbc16Run fuel 0 (cs.flatMap utf8EncodeChar) = some (cs.flatMap utf16, 0) := by
  induction cs generalizing fuel with
  | nil =>
    obtain _ | f := fuel
    · omega
    rfl
  | cons c cs ih =>
    rw [flatMap_cons] at hfuel ⊢
    have hpos : 0 < (utf8EncodeChar c).length := by
      rw [String.length_utf8EncodeChar]
      exact c.utf8Size_pos
    obtain ⟨f, hf, heq⟩ := mbc16Run_char
      hpos (by rw [length_append]; omega)
      take_left.symm hfuel
    rw [drop_left] at hf heq
    rw [heq, ih hf]
    rfl

/-- **What `mbrtoc16` reads to its end is a sequence of scalar values.** -/
theorem encode_of_mbc16Run {us : List (BitVec 16)} (hfuel : s.length < fuel)
    (h : mbc16Run fuel 0 s = some (us, 0)) :
    ∃ cs : List Char, s = cs.flatMap utf8EncodeChar := by
  induction hn : s.length using Nat.strong_induction_on generalizing s us fuel with
  | _ n ih =>
  have hread := mbrtowc_reads stateOf_initial s
  generalize hm : mbrtowc true (some s) 0 = m at hread
  have hpass : m.wc = none → mbrtoc16 true (some s) 0 = ⟨m.ret, m.st, none⟩ := by
    intro hwc
    unfold mbrtoc16 mbrtoc16Bytes
    simp only [hm]
    rw [if_neg (by decide), hwc]
  cases hread with
  | char c k pos le enc =>
    obtain ⟨f, hf, heq⟩ := mbc16Run_char pos le enc hfuel
    rw [heq] at h
    obtain ⟨⟨us', st⟩, hq, hpair⟩ := map_eq_some_iff.1 h
    cases (mk.inj hpair).2
    obtain ⟨cs, hcs⟩ := ih _ (by rw [length_drop]; omega) hf hq rfl
    refine ⟨c :: cs, ?_⟩
    rw [flatMap_cons, ← hcs, enc, nil_append, take_append_drop]
  | more st state =>
    obtain _ | f := fuel
    · omega
    rw [mbc16Run, hpass rfl] at h
    simp only at h
    cases (mk.inj (some.inj h)).2
    rcases state with ⟨_, rfl⟩ | ⟨w, _, hpack⟩
    · exact ⟨[], rfl⟩
    · exact absurd rfl hpack.ne_zero
  | dead dead =>
    obtain _ | f := fuel
    · omega
    rw [mbc16Run, hpass rfl] at h
    cases h

end Mbrtoc16

/-! ### Both directions -/

/-- The units that `mbrtoc16` reads from a byte string. -/
def decode16 (s : List UInt8) : Option (List (BitVec 16) × Word) := mbc16Run (s.length + 1) 0 s

/-- **Encoding and decoding are inverse to each other** in a UTF-8 locale.

`mbrtowc` reads back, whatever follows, what `wcrtomb` has produced, and `wcrtomb` produces the bytes
that `mbrtowc` has consumed.  `mbrtoc16` reads back the units that `c16rtomb` has encoded up to the end
of a character, `c16rtomb` produces the bytes that `mbrtoc16` has read up to the end of a character, and
all this happens for every sequence of scalar values. -/
theorem encode_decode_inverse : (∀ (wc : Word) (t : List UInt8), (wcrtomb true true wc).ret ≠ minus1 →
      let r := wcrtomb true true wc
      let m := mbrtowc true (some (r.out ++ t)) 0
      r.ret = r.out.length ∧ m.wc = some wc ∧ consumed m = r.out.length) ∧
    (∀ (s : List UInt8) (wc : Word), (mbrtowc true (some s) 0).wc = some wc →
      let k := consumed (mbrtowc true (some s) 0)
      k ≤ s.length ∧ wcrtomb true true wc = ⟨k, s.take k⟩) ∧
    (∀ us out, c16Run 0 us = some (out, 0) → decode16 out = some (us, 0)) ∧
    (∀ s us, decode16 s = some (us, 0) → c16Run 0 us = some (s, 0)) ∧
    ∀ cs : List Char, c16Run 0 (cs.flatMap utf16) = some (cs.flatMap utf8EncodeChar, 0) ∧
      decode16 (cs.flatMap utf8EncodeChar) = some (cs.flatMap utf16, 0) := by
  have hread : ∀ s, Reads [] s (mbrtowc true (some s) 0) := mbrtowc_reads stateOf_initial
  refine ⟨fun wc t hret => ?_, fun s wc hwc => ?_, fun us out h => ?_, fun s us h => ?_, fun cs => ?_⟩
  · obtain ⟨c, rfl⟩ := wcrtomb_encodes hret
    have hpos : 0 < (utf8EncodeChar c).length := by
      rw [String.length_utf8EncodeChar]
      exact c.utf8Size_pos
    have hexact := (hread (utf8EncodeChar c ++ t)).exact
    have hchar := (hexact.char c (utf8EncodeChar c).length).2
      ⟨hpos, by rw [length_append]; omega, take_left.symm⟩
    rw [wcrtomb_wide]
    exact ⟨rfl, hchar⟩
  · obtain ⟨c, rfl⟩ := (hread s).stored hwc
    obtain ⟨-, hle, henc⟩ := ((hread s).exact.char c _).1 ⟨hwc, rfl⟩
    refine ⟨hle, ?_⟩
    rw [wcrtomb_wide, henc, nil_append, length_take, min_eq_left hle]
  · obtain ⟨cs, rfl⟩ := utf16_of_c16Run h
    rw [c16Run_utf16] at h
    cases some.inj h
    exact mbc16Run_encode cs (lt_succ_self _)
  · obtain ⟨cs, rfl⟩ := encode_of_mbc16Run (lt_succ_self _) h
    rw [decode16, mbc16Run_encode cs (lt_succ_self _)] at h
    cases some.inj h
    exact c16Run_utf16 cs
  · exact ⟨c16Run_utf16 cs, mbc16Run_encode cs (lt_succ_self _)⟩

end Musl.Multibyte
