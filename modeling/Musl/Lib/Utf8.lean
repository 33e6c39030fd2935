import Mathlib

/-!
# Prefixes of UTF-8 encodings

The standard encoding of a Unicode scalar value is `String.utf8EncodeChar`.  A byte string is read from
its front: it starts with an encoding, or it is a proper prefix of one (`Incomplete`), or neither is
possible any more (`Dead`).

A non-empty incomplete string is described by a `Window`: how many bytes are missing, the value of the
bytes so far, and the interval that the next byte must lie in.  Shortest form, the surrogates and the
upper limit restrict the byte after the first one only.
-/

namespace Musl.Lib.Utf8

open String (utf8EncodeChar)
open List

def Incomplete (l : List UInt8) : Prop := ∃ c, l <+: utf8EncodeChar c ∧ l ≠ utf8EncodeChar c

/-- The string neither begins with an encoding nor can be continued to one. -/
def Dead (l : List UInt8) : Prop := ∀ c, ¬l <+: utf8EncodeChar c ∧ ¬utf8EncodeChar c <+: l

/-- The last `n` bytes of the encoding of `x`. -/
def conts : ℕ → ℕ → List UInt8
  | 0, _ => []
  | n + 1, x => UInt8.ofNat (x / 64 ^ n % 64 + 128) :: conts n x

/-- `more + 1` bytes are missing, those so far have the value `value`, and the next one is in
`[lo, hi]`. -/
structure Window where
  more : ℕ
  value : ℕ
  lo : ℕ
  hi : ℕ
  deriving DecidableEq, Repr

namespace Window

def Has (w : Window) (x : ℕ) : Prop :=
  x / 64 ^ (w.more + 1) = w.value ∧ w.lo ≤ x / 64 ^ w.more % 64 + 128 ∧
    x / 64 ^ w.more % 64 + 128 ≤ w.hi

/-- The window after the byte `b`. -/
def next (w : Window) (b : UInt8) : Window := ⟨w.more - 1, w.value * 64 + (b.toNat - 128), 128, 191⟩

/-- **The window of the string `l`**: an encoding begins with `l` exactly when its code point is in the
window, every code point of the window is a scalar value, and the bounds are those of some
continuation byte. -/
structure Describes (w : Window) (l : List UInt8) : Prop where
  has : ∀ c : Char, l <+: utf8EncodeChar c ↔ w.Has c.toNat
  tail : ∀ c : Char, l <+: utf8EncodeChar c → utf8EncodeChar c = l ++ conts (w.more + 1) c.toNat
  valid : ∀ x, w.Has x → x.isValidChar
  bounds : 128 ≤ w.lo ∧ w.lo ≤ w.hi ∧ w.hi ≤ 191

end Window

/-- The window after the first byte of an encoding of two bytes or more. -/
def leadWindow (b : UInt8) : Option Window :=
  let n := b.toNat
  if n < 0xc2 then none
  else if n < 0xe0 then some ⟨0, n - 0xc0, 128, 191⟩
  else if n < 0xf0 then
    some ⟨1, n - 0xe0, if n = 0xe0 then 0xa0 else 128, if n = 0xed then 0x9f else 191⟩
  else if n < 0xf5 then
    some ⟨2, n - 0xf0, if n = 0xf0 then 0x90 else 128, if n = 0xf4 then 0x8f else 191⟩
  else none

/-! ### The encodings -/

/-- The first byte of the encoding of `x` and the number of bytes after it. -/
def leadOf (x : ℕ) : ℕ × ℕ :=
  if x < 0x80 then (x, 0)
  else if x < 0x800 then (x / 64 + 0xc0, 1)
  else if x < 0x10000 then (x / 4096 + 0xe0, 2)
  else (x / 262144 + 0xf0, 3)

lemma toNat_lt (c : Char) : c.toNat < 0x110000 := by
  have hvalid : c.toNat.isValidChar := c.valid
  omega

lemma encode_eq (c : Char) :
    utf8EncodeChar c = UInt8.ofNat (leadOf c.toNat).1 :: conts (leadOf c.toNat).2 c.toNat := by
  have hc := toNat_lt c
  have hval : c.val.toNat = c.toNat := rfl
  unfold utf8EncodeChar leadOf
  simp only [hval]
  generalize c.toNat = x at hc
  by_cases h1 : x < 0x80
  · rw [if_pos (by omega), if_pos h1]
    rfl
  rw [if_neg (by omega), if_neg h1]
  by_cases h2 : x < 0x800
  · rw [if_pos (by omega), if_pos h2]
    simp only [conts, pow_zero, Nat.div_one]
    congr 2
    omega
  rw [if_neg (by omega), if_neg h2]
  by_cases h3 : x < 0x10000
  · rw [if_pos (by omega), if_pos h3]
    simp only [conts, pow_zero, Nat.div_one]
    congr 2
    omega
  · rw [if_neg (by omega), if_neg h3]
    simp only [conts, pow_zero, Nat.div_one]
    congr 2
    omega

variable {b : UInt8} {c d : Char} {l : List UInt8}

lemma singleton_prefix_iff : [b] <+: utf8EncodeChar c ↔ (leadOf c.toNat).1 = b.toNat := by
  have hc := toNat_lt c
  have hlt : (leadOf c.toNat).1 < 256 := by
    unfold leadOf
    split_ifs <;> omega
  rw [encode_eq, cons_prefix_cons]
  simp only [ nil_prefix, and_true]
  constructor
  · rintro rfl
    exact (UInt8.toNat_ofNat_of_lt' hlt).symm
  · intro h
    rw [h, UInt8.ofNat_toNat]

@[simp]
lemma length_conts (n x : ℕ) : (conts n x).length = n := by
  induction n with
  | zero => rfl
  | succ n ih => rw [conts, length_cons, ih]

/-- No encoding is a proper prefix of another: the first byte determines the length. -/
lemma encode_prefix_eq (h : utf8EncodeChar c <+: utf8EncodeChar d) :
    utf8EncodeChar c = utf8EncodeChar d := by
  have hlead : (leadOf c.toNat).1 = (leadOf d.toNat).1 := by
    have hc : [UInt8.ofNat (leadOf c.toNat).1] <+: utf8EncodeChar c := by
      rw [encode_eq]
      exact ⟨_, rfl⟩
    exact (singleton_prefix_iff.1 hc).trans (singleton_prefix_iff.1 (hc.trans h)).symm
  have hlen : (leadOf c.toNat).2 = (leadOf d.toNat).2 := by
    unfold leadOf at hlead ⊢
    split_ifs at hlead ⊢ <;> simp only at hlead ⊢ <;> omega
  refine h.eq_of_length ?_
  rw [encode_eq c, encode_eq d, length_cons, length_cons, length_conts, length_conts, hlen]

lemma encode_inj (h : utf8EncodeChar c = utf8EncodeChar d) : c = d := by
  have hc := ByteArray.utf8DecodeChar?_utf8EncodeChar_append (b := ByteArray.empty) (c := c)
  rw [h, ByteArray.utf8DecodeChar?_utf8EncodeChar_append] at hc
  exact (Option.some.inj hc).symm

lemma Incomplete.not_begins (h : Incomplete l) (c : Char) : ¬utf8EncodeChar c <+: l := by
  obtain ⟨d, hd, hne⟩ := h
  intro hc
  have heq := encode_prefix_eq (hc.trans hd)
  rw [heq] at hc
  exact hne (hd.eq_of_length_le hc.length_le)

lemma Dead.append (h : Dead l) (t : List UInt8) : Dead (l ++ t) := by
  intro c
  refine ⟨fun hc => (h c).1 ((prefix_append l t).trans hc), fun hc => ?_⟩
  rcases prefix_or_prefix_of_prefix hc (prefix_append l t) with h' | h'
  · exact (h c).2 h'
  · exact (h c).1 h'

lemma exists_char {x : ℕ} (h : x.isValidChar) : ∃ c : Char, c.toNat = x :=
  ⟨Char.ofNatAux x h, rfl⟩

/-- **The window after the first byte.** -/
theorem leadWindow_describes {w : Window} (h : leadWindow b = some w) : w.Describes [b] := by
  have htail : ∀ c, [b] <+: utf8EncodeChar c → (leadOf c.toNat).2 = w.more + 1 →
      utf8EncodeChar c = [b] ++ conts (w.more + 1) c.toNat := by
    intro c hc hlen
    rw [encode_eq, singleton_prefix_iff.1 hc, UInt8.ofNat_toNat, hlen]
    rfl
  unfold leadWindow at h
  simp only at h
  split_ifs at h with h1 h2 h3 h4 h5 h6 h7 h8 h9 <;> cases h
  all_goals
    constructor
    · intro c
      have hvalid : c.toNat.isValidChar := c.valid
      rw [singleton_prefix_iff]
      unfold leadOf Window.Has
      simp only [pow_one]
      split_ifs <;> omega
    · intro c hc
      refine htail c hc ?_
      have hlead := singleton_prefix_iff.1 hc
      unfold leadOf at hlead ⊢
      split_ifs at hlead ⊢ <;> simp only at hlead ⊢ <;> omega
    · intro x hx
      unfold Window.Has at hx
      simp only [pow_one] at hx
      omega
    · simp only
      omega

lemma not_lead (h : leadWindow b = none) (hb : 128 ≤ b.toNat) : Dead [b] := by
  have hno : ∀ c, ¬[b] <+: utf8EncodeChar c := by
    intro c hc
    have hlead := singleton_prefix_iff.1 hc
    have hlt := toNat_lt c
    unfold leadWindow at h
    simp only at h
    unfold leadOf at hlead
    split_ifs at h hlead <;> simp only at hlead <;> omega
  intro c
  refine ⟨hno c, fun hc => hno c ?_⟩
  rw [encode_eq] at hc ⊢
  rw [cons_prefix_cons] at hc ⊢
  exact ⟨hc.1.symm, nil_prefix⟩

lemma ascii_encode (hb : b.toNat < 128) : ∃ c : Char, c.toNat = b.toNat ∧ utf8EncodeChar c = [b] := by
  obtain ⟨c, hc⟩ := exists_char (x := b.toNat) (by unfold Nat.isValidChar; omega)
  refine ⟨c, hc, ?_⟩
  rw [encode_eq, hc, leadOf, if_pos hb, UInt8.ofNat_toNat]
  rfl

namespace Window.Describes

variable {w : Window} {l : List UInt8} {b : UInt8}

variable (h : w.Describes l)

include h

lemma exists_has : ∃ c : Char, w.Has c.toNat := by
  obtain ⟨hlo, hle, hhi⟩ := h.bounds
  have hpos : 0 < 64 ^ w.more := by positivity
  have hdiv : (w.value * 64 + (w.lo - 128)) * 64 ^ w.more / 64 ^ w.more =
      w.value * 64 + (w.lo - 128) := Nat.mul_div_cancel _ hpos
  have hhas : w.Has ((w.value * 64 + (w.lo - 128)) * 64 ^ w.more) := by
    unfold Has
    rw [pow_succ, ← Nat.div_div_eq_div_mul]
    omega
  obtain ⟨c, hc⟩ := exists_char (h.valid _ hhas)
  exact ⟨c, hc ▸ hhas⟩

lemma incomplete : Incomplete l := by
  obtain ⟨c, hc⟩ := h.exists_has
  have hl := (h.has c).2 hc
  refine ⟨c, hl, fun heq => ?_⟩
  have hlen := congrArg length (h.tail c hl)
  rw [← heq, length_append, length_conts] at hlen
  omega

lemma append_iff {c : Char} :
    l ++ [b] <+: utf8EncodeChar c ↔ w.Has c.toNat ∧ c.toNat / 64 ^ w.more % 64 + 128 = b.toNat := by
  have hbyte : ∀ n, n % 64 + 128 < 256 := fun n => by omega
  constructor
  · intro hc
    have hl := (prefix_append l [b]).trans hc
    refine ⟨(h.has c).1 hl, ?_⟩
    rw [h.tail c hl, prefix_append_right_inj, conts, cons_prefix_cons] at hc
    rw [hc.1, UInt8.toNat_ofNat_of_lt' (hbyte _)]
  · rintro ⟨hhas, hb⟩
    have hl := (h.has c).2 hhas
    rw [h.tail c hl, prefix_append_right_inj, conts, cons_prefix_cons, hb, UInt8.ofNat_toNat]
    exact ⟨rfl, nil_prefix⟩

lemma dead (hb : b.toNat < w.lo ∨ w.hi < b.toNat) : Dead (l ++ [b]) := by
  have hno : ∀ c, ¬l ++ [b] <+: utf8EncodeChar c := by
    intro c hc
    obtain ⟨hhas, heq⟩ := h.append_iff.1 hc
    unfold Has at hhas
    omega
  intro c
  refine ⟨hno c, fun hc => ?_⟩
  rcases prefix_concat_iff.1 hc with heq | hl
  · exact hno c (heq ▸ prefix_rfl)
  · exact h.incomplete.not_begins c hl

lemma last (hmore : w.more = 0) (hlo : w.lo ≤ b.toNat) (hhi : b.toNat ≤ w.hi) :
    ∃ c : Char, c.toNat = (w.next b).value ∧ utf8EncodeChar c = l ++ [b] := by
  have hbounds := h.bounds
  have hhas : w.Has (w.next b).value := by
    unfold Has next
    rw [hmore, pow_zero, pow_one, Nat.div_one]
    simp only
    omega
  obtain ⟨c, hc⟩ := exists_char (h.valid _ hhas)
  have hpre : l ++ [b] <+: utf8EncodeChar c := by
    refine h.append_iff.2 ⟨hc ▸ hhas, ?_⟩
    rw [hc, hmore, pow_zero, Nat.div_one]
    simp only [next]
    omega
  refine ⟨c, hc, (hpre.eq_of_length ?_).symm⟩
  rw [h.tail c ((prefix_append l [b]).trans hpre), hmore]
  rw [length_append, length_append, length_conts]
  rfl

lemma next (hmore : 0 < w.more) (hlo : w.lo ≤ b.toNat) (hhi : b.toNat ≤ w.hi) :
    (w.next b).Describes (l ++ [b]) := by
  obtain ⟨hb1, -, hb3⟩ := h.bounds
  obtain ⟨n, hn⟩ : ∃ n, w.more = n + 1 := ⟨w.more - 1, by omega⟩
  have hnext : w.next b = ⟨n, w.value * 64 + (b.toNat - 128), 128, 191⟩ := by
    rw [Window.next, hn]
    rfl
  have hhas : ∀ x, (w.next b).Has x ↔ w.Has x ∧ x / 64 ^ w.more % 64 + 128 = b.toNat := by
    intro x
    rw [hnext]
    unfold Has
    rw [hn]
    simp only
    rw [pow_succ 64 (n + 1), ← Nat.div_div_eq_div_mul]
    omega
  refine ⟨fun c => h.append_iff.trans (hhas c.toNat).symm, fun c hc => ?_, fun x hx => ?_, ?_⟩
  · have hl := (prefix_append l [b]).trans hc
    rw [h.tail c hl, hnext, conts, ← hn, (h.append_iff.1 hc).2, UInt8.ofNat_toNat, append_assoc]
    rfl
  · exact h.valid x ((hhas x).1 hx).1
  · rw [hnext]
    simp only
    omega

end Window.Describes

end Musl.Lib.Utf8
