import Musl.Lib.Utf8

/-!
# Restartable decoding: `mbrtowc`

`mbrtowc` keeps what it knows of an incomplete character in one 32-bit word: the interval of the next
byte in the upper six bits, a mark for every further byte, and the value so far.  Each byte shifts the
word by six.  `0` is the initial state.
-/

namespace Musl.Multibyte

open Musl.Lib.Utf8 List Option Nat Bool
open String (utf8EncodeChar)

abbrev Word : Type := BitVec 32

/-! ### The code -/

/-- A byte as an `unsigned`. -/
def word (b : UInt8) : Word := b.toBitVec.setWidth 32

def OOB (c : Word) (b : UInt8) : Bool :=
  (((word b >>> 3) - 0x10) ||| ((word b >>> 3) + c.sshiftRight 26)) &&& ~~~7 != 0

def R (a b : Word) : Word := (if a = 0x80 then 0x40 - b else 0 - a) <<< 23

def SA : Word := 0xc2
def SB : Word := 0xf4

/-- `C(x)` of the table. -/
def rowC (x : Word) : Word := if x < 2 then -1 else R 0x80 0xc0 ||| x

/-- `D(x)` of the table. -/
def rowD (x : Word) : Word := rowC (x + 16)

/-- `E(x)` of the table. -/
def rowE (x : Word) : Word :=
  (if x = 0 then R 0xa0 0xc0 else if x = 0xd then R 0x80 0xa0 else R 0x80 0xc0) |||
    R 0x80 0xc0 >>> 6 ||| x

/-- `F(x)` of the table. -/
def rowF (x : Word) : Word :=
  (if 5 ≤ x then 0 else if x = 0 then R 0x90 0xc0 else if x = 4 then R 0x80 0x90 else R 0x80 0xc0) |||
    R 0x80 0xc0 >>> 6 ||| R 0x80 0xc0 >>> 12 ||| x

/-- The state after each first byte from `SA` to `SB`. -/
def bittab : List Word :=
  ([0x2, 0x3, 0x4, 0x5, 0x6, 0x7, 0x8, 0x9, 0xa, 0xb, 0xc, 0xd, 0xe, 0xf] : List Word).map rowC ++
  ([0x0, 0x1, 0x2, 0x3, 0x4, 0x5, 0x6, 0x7, 0x8, 0x9, 0xa, 0xb, 0xc, 0xd, 0xe,
    0xf] : List Word).map rowD ++
  ([0x0, 0x1, 0x2, 0x3, 0x4, 0x5, 0x6, 0x7, 0x8, 0x9, 0xa, 0xb, 0xc, 0xd, 0xe,
    0xf] : List Word).map rowE ++
  ([0x0, 0x1, 0x2, 0x3, 0x4] : List Word).map rowF

/-- `bittab[b - SA]`. -/
def leadState (b : UInt8) : Word := bittab.getD (word b - SA).toNat 0

/-- `b - SA > SB - SA`: no first byte of an encoding of two bytes or more. -/
def notLead (b : UInt8) : Bool := SB - SA < word b - SA

/-- `c<<6 | b-0x80`. -/
def shiftIn (c : Word) (b : UInt8) : Word := c <<< 6 ||| (word b - 0x80)

/-- `b - 0x80u >= 0x40`. -/
def notCont (b : UInt8) : Bool := 0x40 ≤ word b - 0x80

def codeUnit (b : UInt8) : Word := 0xdfff &&& b.toBitVec.signExtend 32

/-- `(size_t)-1`, `(size_t)-2` and `(size_t)-3`. -/
def minus1 : ℕ := 2 ^ 64 - 1
def minus2 : ℕ := 2 ^ 64 - 2
def minus3 : ℕ := 2 ^ 64 - 3

lemma minus2_ne : minus2 ≠ minus1 := by decide

/-- A return of `mbrtowc`: the value returned, the state left, and what was stored at `wc`. -/
structure Mbr where
  ret : ℕ
  st : Word
  wc : Option Word
  deriving DecidableEq, Repr

/-- The `ilseq` exit; `errno` is `EILSEQ`. -/
def ilseq : Mbr := ⟨minus1, 0, none⟩

/-- The loop of `mbrtowc`, at the byte `b`. -/
def mbrtowcLoop (N : ℕ) (c : Word) (b : UInt8) : List UInt8 → Mbr
  | [] =>
    let c := shiftIn c b
    if c &&& 1#32 <<< 31 = 0 then ⟨N, 0, some c⟩ else ⟨minus2, c, none⟩
  | b' :: rest =>
    let c := shiftIn c b
    if c &&& 1#32 <<< 31 = 0 then ⟨N - (rest.length + 1), 0, some c⟩
    else if notCont b' then ilseq else mbrtowcLoop N c b' rest

/-- From `if (n)` on. -/
def mbrtowcRest (N : ℕ) (c : Word) : List UInt8 → Mbr
  | [] => ⟨minus2, c, none⟩
  | b :: rest => if OOB c b then ilseq else mbrtowcLoop N c b rest

/-- `mbrtowc`, in a UTF-8 locale or in the C locale; `src` has the `n` bytes that may be read. -/
def mbrtowc (utf8 : Bool) (src : Option (List UInt8)) (c : Word) : Mbr :=
  match src with
  | none => if c ≠ 0 then ilseq else ⟨0, c, none⟩
  | some [] => ⟨minus2, c, none⟩
  | some (b :: rest) =>
    if c = 0 then
      if b < 0x80 then ⟨if b = 0 then 0 else 1, c, some (word b)⟩
      else if utf8 = false then ⟨1, c, some (codeUnit b)⟩
      else if notLead b then ilseq
      else mbrtowcRest (rest.length + 1) (leadState b) rest
    else mbrtowcRest (rest.length + 1) c (b :: rest)

/-- `mbtowc` of a string that is not null, with at most `n` bytes; what it returns and what it
stores.  After the bytes of the string comes a zero. -/
def mbtowc (utf8 : Bool) (s : List UInt8) (n : ℕ) : ℤ × Option Word :=
  let b := s.getD 0 0
  if n = 0 then (-1, none)
  else if b < 0x80 then (if b = 0 then 0 else 1, some (word b))
  else if !utf8 then (1, some (codeUnit b))
  else if notLead b then (-1, none)
  else
    let c := leadState b
    if n < 4 ∧ (c <<< (6 * n - 6)) &&& 1#32 <<< 31 ≠ 0 then (-1, none)
    else if OOB c (s.getD 1 0) then (-1, none)
    else
      let c := shiftIn c (s.getD 1 0)
      if c &&& 1#32 <<< 31 = 0 then (2, some c)
      else if notCont (s.getD 2 0) then (-1, none)
      else
        let c := shiftIn c (s.getD 2 0)
        if c &&& 1#32 <<< 31 = 0 then (3, some c)
        else if notCont (s.getD 3 0) then (-1, none)
        else (4, some (shiftIn c (s.getD 3 0)))

/-! ### The word of a window -/

def intervals : List (ℕ × ℕ) := [(0x80, 0xbf), (0xa0, 0xbf), (0x80, 0x9f), (0x90, 0xbf), (0x80, 0x8f)]

def upper (lo hi : ℕ) : ℕ := if lo = 0x80 then 64 - (hi + 1 - 0x40) / 8 else 64 - lo / 8

def marks : ℕ → ℕ
  | 0 => 0
  | 1 => 0x03000000
  | _ => 0x030c0000

/-- **The word packs the window.** -/
structure Packs (c : Word) (w : Window) : Prop where
  toNat_eq : c.toNat = upper w.lo w.hi * 2 ^ 26 + marks w.more + w.value
  interval : (w.lo, w.hi) ∈ intervals
  more : w.more ≤ 2
  value : w.value < 2 ^ (15 - 6 * w.more)

lemma leadWindow_table : ∀ b : Fin 256, ∀ w ∈ leadWindow (UInt8.ofFin b),
    (leadState (UInt8.ofFin b)).toNat = upper w.lo w.hi * 2 ^ 26 + marks w.more + w.value ∧
    (w.lo, w.hi) ∈ intervals ∧ w.more ≤ 2 ∧ w.value < 2 ^ (15 - 6 * w.more) := by
  decide +kernel

variable {b : UInt8} {pre s : List UInt8} {st : Word}

/-- **The table has the window of every first byte.** -/
theorem leadState_packs {w : Window} (h : leadWindow b = some w) : Packs (leadState b) w := by
  obtain ⟨hword, hint, hmore, hvalue⟩ := leadWindow_table b.toFin w h
  exact ⟨hword, hint, hmore, hvalue⟩

lemma notLead_table : ∀ b : Fin 256, 128 ≤ b.val →
    (notLead (UInt8.ofFin b) = true ↔ leadWindow (UInt8.ofFin b) = none) := by
  decide +kernel

lemma notLead_iff (hb : 128 ≤ b.toNat) : notLead b = true ↔ leadWindow b = none :=
  notLead_table b.toFin hb

lemma notCont_table : ∀ b : Fin 256, (notCont (UInt8.ofFin b) = true ↔ b.val < 0x80 ∨ 0xbf < b.val) := by
  decide +kernel

lemma notCont_iff (b : UInt8) : notCont b = true ↔ b.toNat < 0x80 ∨ 0xbf < b.toNat :=
  notCont_table b.toFin

lemma oob_table : ∀ i ∈ intervals, ∀ b : Fin 256, ((((word (UInt8.ofFin b) >>> 3) - 0x10) |||
        ((word (UInt8.ofFin b) >>> 3) + BitVec.ofInt 32 (upper i.1 i.2 - 64))) &&& ~~~7 != 0) = true ↔
      b.val < i.1 ∨ i.2 < b.val := by
  decide +kernel

section Packing

variable {c : Word} {w : Window} {b : UInt8}

section

variable (h : Packs c w)

include h

lemma Packs.bounds : 32 ≤ upper w.lo w.hi ∧ upper w.lo w.hi < 64 ∧ marks w.more + w.value < 2 ^ 26 := by
  have hup : ∀ i ∈ intervals, 32 ≤ upper i.1 i.2 ∧ upper i.1 i.2 < 64 := by decide
  obtain ⟨h1, h2⟩ := hup _ h.interval
  refine ⟨h1, h2, ?_⟩
  have hvalue := h.value
  have hmore := h.more
  have h0 : marks 0 = 0 := rfl
  have h1 : marks 1 = 0x03000000 := rfl
  have h2 : marks 2 = 0x030c0000 := rfl
  interval_cases hw : w.more <;> omega

lemma Packs.ne_zero : c ≠ 0 := by
  rintro rfl
  have hword := h.toNat_eq
  have hbounds := h.bounds
  have hzero : (0 : Word).toNat = 0 := rfl
  omega

lemma Packs.sshiftRight : c.sshiftRight 26 = BitVec.ofInt 32 (upper w.lo w.hi - 64) := by
  obtain ⟨h1, -, h3⟩ := h.bounds
  have hword := h.toNat_eq
  apply BitVec.eq_of_toInt_eq
  have hint : c.toInt = c.toNat - 2 ^ 32 := by
    rw [BitVec.toInt_eq_toNat_cond, if_neg (by omega)]
    rfl
  rw [BitVec.toInt_sshiftRight, Int.shiftRight_eq_div_pow, BitVec.toInt_ofInt]
  rw [Int.bmod_eq_of_le (by omega) (by omega)]
  omega

/-- **`OOB` is the interval of the window.** -/
theorem Packs.oob_iff : OOB c b = true ↔ b.toNat < w.lo ∨ w.hi < b.toNat := by
  unfold OOB
  rw [h.sshiftRight]
  exact oob_table _ h.interval b.toFin

lemma Packs.lo_le : 0x80 ≤ w.lo ∧ w.hi ≤ 0xbf := by
  have hall : ∀ i ∈ intervals, 0x80 ≤ i.1 ∧ i.2 ≤ 0xbf := by decide
  exact hall _ h.interval

end

lemma toNat_word (b : UInt8) : (word b).toNat = b.toNat := by
  unfold word
  rw [BitVec.toNat_setWidth]
  exact mod_eq_of_lt (by have := b.toNat_lt; omega)

lemma toNat_shift (hlo : 0x80 ≤ b.toNat) (hhi : b.toNat ≤ 0xbf) :
    (shiftIn c b).toNat = c.toNat % 2 ^ 26 * 64 + (b.toNat - 0x80) := by
  have hd : (word b - 0x80).toNat = b.toNat - 0x80 := by
    rw [BitVec.toNat_sub_of_le (by rw [BitVec.le_def]; exact hlo)]
    rfl
  have hs : (c <<< 6).toNat = (c.toNat % 2 ^ 26) <<< 6 := by
    rw [BitVec.toNat_shiftLeft]
    omega
  rw [shiftIn, BitVec.toNat_or, hd, hs, ← shiftLeft_add_eq_or_of_lt (by omega), shiftLeft_eq]

lemma Packs.shift_last (h : Packs c w) (hmore : w.more = 0) (hlo : w.lo ≤ b.toNat)
    (hhi : b.toNat ≤ w.hi) :
    (shiftIn c b).toNat = (w.next b).value ∧ (w.next b).value < 2 ^ 21 := by
  have hb := h.lo_le
  have hword := h.toNat_eq
  have hvalue := h.value
  have hmarks : marks w.more = 0 := by rw [hmore]; rfl
  rw [toNat_shift (by omega) (by omega)]
  rw [hmore] at hvalue
  unfold Window.next
  simp only
  omega

/-- **A byte that is not the last one** shifts the window. -/
theorem Packs.shift (h : Packs c w) (hmore : 0 < w.more) (hlo : w.lo ≤ b.toNat) (hhi : b.toNat ≤ w.hi) :
    Packs (shiftIn c b) (w.next b) := by
  obtain ⟨hb1, hb2⟩ := h.lo_le
  obtain ⟨n, hn⟩ : ∃ n, w.more = n + 1 := ⟨w.more - 1, by omega⟩
  have hnext : w.next b = ⟨n, w.value * 64 + (b.toNat - 128), 128, 191⟩ := by
    rw [Window.next, hn]
    rfl
  have hword := h.toNat_eq
  have hvalue := h.value
  have hbounds := h.bounds
  have hle := h.more
  rw [hn] at hword hvalue hbounds hle
  have hcases : n = 0 ∨ n = 1 := by omega
  have hmarks : marks (n + 1) * 64 = upper 128 191 * 2 ^ 26 + marks n := by
    rcases hcases with rfl | rfl <;> decide
  rw [hnext]
  refine ⟨?_, mem_cons_self, ?_, ?_⟩
  · rw [toNat_shift (by omega) (by omega)]
    simp only
    omega
  · simp only
    omega
  · rcases hcases with rfl | rfl <;> norm_num only at hvalue ⊢ <;> omega

lemma mark_eq_zero_iff : c &&& 1#32 <<< 31 = 0 ↔ c.toNat < 2 ^ 31 := by
  have hbit : 1#32 <<< 31 = BitVec.twoPow 32 31 := rfl
  rw [hbit, BitVec.and_twoPow, ← BitVec.msb_eq_getLsbD_last c]
  by_cases h : c.toNat < 2 ^ 31
  · have hmsb : c.msb = false := BitVec.msb_eq_false_iff_two_mul_lt.2 (by omega)
    rw [hmsb]
    exact ⟨fun _ => h, fun _ => rfl⟩
  · have hmsb : c.msb = true := BitVec.msb_eq_true_iff_two_mul_ge.2 (by omega)
    rw [hmsb]
    exact ⟨fun h0 => absurd h0 (by decide), fun h' => absurd h' h⟩

end Packing

/-! ### One call -/

/-- The word is the state after the bytes `l` of an incomplete character. -/
def StateOf (c : Word) (l : List UInt8) : Prop :=
  (c = 0 ∧ l = []) ∨ ∃ w : Window, w.Describes l ∧ Packs c w

def wide (c : Char) : Word := c.val.toBitVec

lemma toNat_wide (c : Char) : (wide c).toNat = c.toNat := rfl

/-- **A call reads `s` after the bytes `pre`**: a character that ends in `s`, or all of `s` as a part of
one, or `s` up to a byte that no encoding can have there. -/
inductive Reads (pre s : List UInt8) : Mbr → Prop
  | char (c : Char) (k : ℕ) (pos : 0 < k) (le : k ≤ s.length)
      (enc : utf8EncodeChar c = pre ++ s.take k) :
      Reads pre s ⟨if c.toNat = 0 then 0 else k, 0, some (wide c)⟩
  | more (st : Word) (state : StateOf st (pre ++ s)) : Reads pre s ⟨minus2, st, none⟩
  | dead (dead : Dead (pre ++ s)) : Reads pre s ilseq

lemma stateOf_initial : StateOf 0 [] := .inl ⟨rfl, rfl⟩

lemma StateOf.incomplete {c : Word} {l : List UInt8} (h : StateOf c l) : Incomplete l := by
  rcases h with ⟨_, rfl⟩ | ⟨w, hw, _⟩
  · refine ⟨'a', nil_prefix, ?_⟩
    decide
  · exact hw.incomplete

section Call

variable {c : Word} {w : Window} {b : UInt8} {l pre s rest : List UInt8} {N : ℕ}

section

variable (hw : w.Describes (pre ++ s)) (hc : Packs c w)

include hw hc

lemma reads_last (hmore : w.more = 0) (hlo : w.lo ≤ b.toNat) (hhi : b.toNat ≤ w.hi) :
    Reads pre (s ++ b :: rest) ⟨s.length + 1, 0, some (shiftIn c b)⟩ := by
  obtain ⟨d, hd, henc⟩ := hw.last hmore hlo hhi
  have hval := hc.shift_last hmore hlo hhi
  have hwide : shiftIn c b = wide d := by
    apply BitVec.eq_of_toNat_eq
    rw [hval.1, toNat_wide, hd]
  have hne : d.toNat ≠ 0 := by
    intro h0
    rw [encode_eq, h0] at henc
    have hb : b = 0 := (append_eq_singleton_iff.1 henc.symm).elim
      (fun h => (cons.inj h.2).1) fun h => absurd h.2 (cons_ne_nil _ _)
    have := hc.lo_le
    rw [hb] at hlo
    have hzero : (0 : UInt8).toNat = 0 := rfl
    omega
  have htake : (s ++ b :: rest).take (s.length + 1) = s ++ [b] := by
    rw [take_append, take_of_length_le (by omega), Nat.add_sub_cancel_left]
    rfl
  have hread : Reads pre (s ++ b :: rest) ⟨if d.toNat = 0 then 0 else s.length + 1, 0, some (wide d)⟩ :=
    .char d (s.length + 1) (succ_pos _) (by rw [length_append, length_cons]; omega)
      (by rw [henc, htake, append_assoc])
  rwa [if_neg hne, ← hwide] at hread

lemma mbrtowcLoop_reads (hlo : w.lo ≤ b.toNat) (hhi : b.toNat ≤ w.hi)
    (hN : N = s.length + 1 + rest.length) :
    Reads pre (s ++ b :: rest) (mbrtowcLoop N c b rest) := by
  induction rest generalizing c w b s with
  | nil =>
    unfold mbrtowcLoop
    rcases Nat.eq_zero_or_pos w.more with hmore | hmore
    · obtain ⟨hval, hlt⟩ := hc.shift_last hmore hlo hhi
      rw [if_pos (mark_eq_zero_iff.2 (by omega)), hN]
      exact reads_last hw hc hmore hlo hhi
    · have hc' := hc.shift hmore hlo hhi
      have hbounds := hc'.bounds
      rw [if_neg (by rw [mark_eq_zero_iff, hc'.toNat_eq]; omega)]
      refine .more _ (.inr ⟨_, ?_, hc'⟩)
      rw [← append_assoc]
      exact hw.next hmore hlo hhi
  | cons b' rest ih =>
    unfold mbrtowcLoop
    rcases Nat.eq_zero_or_pos w.more with hmore | hmore
    · obtain ⟨hval, hlt⟩ := hc.shift_last hmore hlo hhi
      rw [if_pos (mark_eq_zero_iff.2 (by omega)), hN, length_cons, Nat.add_sub_cancel]
      exact reads_last hw hc hmore hlo hhi
    · have hc' := hc.shift hmore hlo hhi
      have hw' := hw.next hmore hlo hhi
      have hbounds := hc'.bounds
      rw [if_neg (by rw [mark_eq_zero_iff, hc'.toNat_eq]; omega)]
      split
      · rename_i hnot
        refine .dead ?_
        have hdead := hw'.dead ((notCont_iff b').1 hnot)
        rw [append_assoc] at hdead
        have := hdead.append rest
        rwa [append_assoc, append_assoc] at this
      · rename_i hcont
        rw [not_eq_true, ← not_eq_true, notCont_iff] at hcont
        rw [append_assoc] at hw'
        have := ih hw' hc' (b := b') (by show 128 ≤ _; omega) (by show _ ≤ 191; omega)
          (by rw [hN, length_append, length_cons, length_cons, length_nil]; omega)
        rwa [append_assoc] at this

lemma mbrtowcRest_reads (hN : N = s.length + rest.length) :
    Reads pre (s ++ rest) (mbrtowcRest N c rest) := by
  cases rest with
  | nil =>
    rw [append_nil]
    exact .more c (.inr ⟨w, hw, hc⟩)
  | cons b rest =>
    rw [mbrtowcRest]
    split
    · rename_i hoob
      have hdead := (hw.dead (hc.oob_iff.1 hoob)).append rest
      rw [append_assoc, append_assoc] at hdead
      exact .dead hdead
    · rename_i hoob
      rw [hc.oob_iff] at hoob
      exact mbrtowcLoop_reads hw hc (by omega) (by omega) (by rw [hN, length_cons]; omega)

end

/-- **One call in a UTF-8 locale.** -/
theorem mbrtowc_reads (h : StateOf c pre) (s : List UInt8) : Reads pre s (mbrtowc true (some s) c) := by
  cases s with
  | nil =>
    refine .more c ?_
    rwa [append_nil]
  | cons b rest =>
    unfold mbrtowc
    rcases h with ⟨rfl, rfl⟩ | ⟨w, hw, hc⟩
    · simp only [if_true, true_eq_false, if_false]
      split
      · rename_i hb
        obtain ⟨d, hd, henc⟩ := ascii_encode hb
        have hread : Reads [] (b :: rest) ⟨if d.toNat = 0 then 0 else 1, 0, some (wide d)⟩ :=
          .char d 1 (by omega) (by rw [length_cons]; omega) (by rw [henc]; rfl)
        have hwide : word b = wide d := by
          apply BitVec.eq_of_toNat_eq
          rw [toNat_wide, hd, toNat_word]
        have hzero : b = 0 ↔ d.toNat = 0 := by
          rw [hd]
          exact UInt8.toNat_inj.symm
        simp only [hzero, hwide]
        exact hread
      · rename_i hb
        have hge : 128 ≤ b.toNat := by
          exact Nat.le_of_not_lt hb
        split
        · rename_i hno
          have hdead := (not_lead ((notLead_iff hge).1 hno) hge).append rest
          exact .dead hdead
        · rename_i hlead
          rw [notLead_iff hge] at hlead
          obtain ⟨w, hw⟩ := ne_none_iff_exists'.1 hlead
          have hdesc : w.Describes ([] ++ [b]) := leadWindow_describes hw
          exact mbrtowcRest_reads hdesc (leadState_packs hw) (by rw [length_singleton]; omega)
    · simp only [if_neg hc.ne_zero]
      exact mbrtowcRest_reads (s := []) (by rwa [append_nil]) hc
        (by rw [length_nil, length_cons]; omega)

end Call

/-- The bytes that a call which returned a character has consumed; the null character returns 0. -/
def consumed (m : Mbr) : ℕ := if m.ret = 0 then 1 else m.ret

/-- **A call is exact**, where `pre` are the bytes of the character that earlier calls have read: it
returns a character exactly when its last byte is consumed, -2 exactly when the bytes so far are a
proper prefix of an encoding, and -1 exactly when they neither begin with one nor can be continued to
one. -/
structure Exact (pre s : List UInt8) (m : Mbr) : Prop where
  char : ∀ (c : Char) (k : ℕ), (m.wc = some (wide c) ∧ consumed m = k) ↔
    (0 < k ∧ k ≤ s.length ∧ utf8EncodeChar c = pre ++ s.take k)
  more : m.ret = minus2 ↔ Incomplete (pre ++ s)
  ilseq : m.ret = minus1 ↔ Dead (pre ++ s)

section Exactness

variable {pre s : List UInt8} {m : Mbr} {c d : Char} {k : ℕ}

lemma wide_inj (h : wide c = wide d) : c = d := by
  apply Char.ext
  exact UInt32.toBitVec_inj.1 h

lemma length_encode_le (c : Char) : (utf8EncodeChar c).length ≤ 4 := by
  rw [String.length_utf8EncodeChar]
  exact c.utf8Size_le_four

variable {l : List UInt8}

lemma encode_unique (hc : utf8EncodeChar c <+: l) (hd : utf8EncodeChar d <+: l) : c = d := by
  rcases prefix_or_prefix_of_prefix hc hd with h | h
  · exact encode_inj (encode_prefix_eq h)
  · exact (encode_inj (encode_prefix_eq h)).symm

lemma encode_prefix_of_take (h : utf8EncodeChar c = pre ++ s.take k) : utf8EncodeChar c <+: pre ++ s := by
  rw [h, prefix_append_right_inj]
  exact take_prefix k s

lemma incomplete_not_dead (h : Incomplete l) : ¬Dead l := by
  obtain ⟨c, hc, _⟩ := h
  exact fun hdead => (hdead c).1 hc

lemma Reads.exact (h : Reads pre s m) : Exact pre s m := by
  cases h with
  | char c k pos le enc =>
    have hpre := encode_prefix_of_take enc
    have hk : k ≤ 4 := by
      have hlen := length_encode_le c
      rw [enc, length_append, length_take] at hlen
      omega
    have hcons : consumed ⟨if c.toNat = 0 then 0 else k, 0, some (wide c)⟩ = k := by
      unfold consumed
      by_cases h0 : c.toNat = 0
      · -- the null character is one byte
        rw [encode_eq, h0] at enc
        have hlen := congrArg length enc
        rw [length_append, length_take] at hlen
        simp only [h0, if_true]
        have : (UInt8.ofNat (leadOf 0).1 :: conts (leadOf 0).2 0).length = 1 := rfl
        omega
      · simp only [if_neg h0]
        rw [if_neg (by omega)]
    refine ⟨fun d j => ?_, ?_, ?_⟩
    · rw [hcons]
      constructor
      · rintro ⟨hwc, rfl⟩
        cases wide_inj (some.inj hwc)
        exact ⟨pos, le, enc⟩
      · rintro ⟨-, hj, hd⟩
        cases encode_unique hpre (encode_prefix_of_take hd)
        refine ⟨rfl, ?_⟩
        have hlen := congrArg length (enc.symm.trans hd)
        simp only [length_append, length_take] at hlen
        omega
    · refine iff_of_false ?_ fun hinc => hinc.not_begins c hpre
      show ¬(if c.toNat = 0 then 0 else k) = minus2
      unfold minus2
      split <;> omega
    · refine iff_of_false ?_ fun hdead => (hdead c).2 hpre
      show ¬(if c.toNat = 0 then 0 else k) = minus1
      unfold minus1
      split <;> omega
  | more st state =>
    have hinc := state.incomplete
    refine ⟨fun d j => iff_of_false ?_ ?_, iff_of_true rfl hinc, iff_of_false minus2_ne ?_⟩
    · rintro ⟨h, _⟩
      cases h
    · rintro ⟨_, _, hd⟩
      exact hinc.not_begins d (encode_prefix_of_take hd)
    · exact incomplete_not_dead hinc
  | dead dead =>
    refine ⟨fun d j => iff_of_false ?_ ?_, iff_of_false (by decide) ?_, iff_of_true rfl dead⟩
    · rintro ⟨h, _⟩
      cases h
    · rintro ⟨_, _, hd⟩
      exact (dead d).2 (encode_prefix_of_take hd)
    · exact fun hinc => incomplete_not_dead hinc dead

lemma Reads.stored {wc : Word} (h : Reads pre s m) (hwc : m.wc = some wc) : ∃ c, wc = wide c := by
  cases h with
  | char c k pos le enc => exact ⟨c, (some.inj hwc).symm⟩
  | more st state => cases hwc
  | dead dead => cases hwc

lemma Reads.eq_char (h : Reads pre s m) (le : k ≤ s.length) (enc : utf8EncodeChar c = pre ++ s.take k) :
    m = ⟨if c.toNat = 0 then 0 else k, 0, some (wide c)⟩ := by
  have hpre := encode_prefix_of_take enc
  cases h with
  | char d j pos' le' enc' =>
    cases encode_unique hpre (encode_prefix_of_take enc')
    have hlen := congrArg length (enc.symm.trans enc')
    simp only [length_append, length_take] at hlen
    rw [show j = k by omega]
  | more st state => exact absurd hpre (state.incomplete.not_begins c)
  | dead dead => exact absurd hpre (dead c).2

end Exactness

/-! ### Any number of calls -/

/-- Where a decoding stands: it waits for more bytes in a state, or `mbrtowc` has returned -1. -/
inductive Status where
  | waiting (st : Word)
  | failed
  deriving DecidableEq, Repr

/-- The characters that were returned, and where the decoding stands. -/
structure Fed where
  chars : List Word
  status : Status
  deriving DecidableEq, Repr

/-- A chunk is given to `mbrtowc`, and what a call leaves of it to the next one, until a call returns -2
or -1. -/
def feedChunk : ℕ → Word → List UInt8 → Fed
  | 0, st, _ => ⟨[], .waiting st⟩
  | fuel + 1, st, s =>
    let m := mbrtowc true (some s) st
    if m.ret = minus1 then ⟨[], .failed⟩
    else if m.ret = minus2 then ⟨[], .waiting m.st⟩
    else
      let r := feedChunk fuel m.st (s.drop (consumed m))
      ⟨m.wc.toList ++ r.chars, r.status⟩

def feed (st : Word) : List (List UInt8) → Fed
  | [] => ⟨[], .waiting st⟩
  | s :: chunks =>
    let r := feedChunk (s.length + 1) st s
    match r.status with
    | .failed => r
    | .waiting st' =>
      let q := feed st' chunks
      ⟨r.chars ++ q.chars, q.status⟩

/-- **The bytes `l` are decoded as the standard has it**: they are the encodings of the characters
followed by a rest; a decoding that waits is in the state of this rest, one that has failed is at a rest
that no encoding begins or continues. -/
def Decoded (l : List UInt8) (r : Fed) : Prop :=
  ∃ (cs : List Char) (rest : List UInt8), r.chars = cs.map wide ∧ l = cs.flatMap utf8EncodeChar ++ rest ∧
    match r.status with
    | .failed => Dead rest
    | .waiting st => StateOf st rest

lemma Decoded.of_char {c : Char} {k : ℕ} {r : Fed} (enc : utf8EncodeChar c = pre ++ s.take k)
    (h : Decoded (s.drop k) r) : Decoded (pre ++ s) ⟨wide c :: r.chars, r.status⟩ := by
  obtain ⟨cs, rest, hchars, hl, hst⟩ := h
  refine ⟨c :: cs, rest, ?_, ?_, hst⟩
  · rw [map_cons, hchars]
  · rw [flatMap_cons, enc, append_assoc, append_assoc, ← hl, take_append_drop]

lemma feedChunk_decoded {fuel : ℕ} (hst : StateOf st pre) (hfuel : s.length < fuel) :
    Decoded (pre ++ s) (feedChunk fuel st s) := by
  induction fuel generalizing st pre s with
  | zero => omega
  | succ fuel ih =>
    have hread := mbrtowc_reads hst s
    have hexact := hread.exact
    unfold feedChunk
    generalize mbrtowc true (some s) st = m at hread hexact
    cases hread with
    | char c k pos le enc =>
      have hpre := encode_prefix_of_take enc
      have hk := ((hexact.char c k).2 ⟨pos, le, enc⟩).2
      rw [if_neg fun h => (hexact.ilseq.1 h c).2 hpre,
        if_neg fun h => (hexact.more.1 h).not_begins c hpre, hk]
      refine Decoded.of_char enc ?_
      refine ih stateOf_initial ?_
      rw [length_drop]
      omega
    | more st' state =>
      exact ⟨[], _, rfl, rfl, state⟩
    | dead dead =>
      exact ⟨[], _, rfl, rfl, dead⟩

lemma feed_decoded (hst : StateOf st pre) (chunks : List (List UInt8)) :
    Decoded (pre ++ chunks.flatten) (feed st chunks) := by
  induction chunks generalizing st pre with
  | nil =>
    rw [flatten_nil, append_nil]
    exact ⟨[], pre, rfl, rfl, hst⟩
  | cons s chunks ih =>
    obtain ⟨cs, rest, hchars, hl, hrest⟩ := feedChunk_decoded hst (lt_succ_self s.length)
    unfold feed
    simp only
    rw [flatten_cons, ← append_assoc, hl]
    split
    · rename_i hfail
      rw [hfail] at hrest
      refine ⟨cs, rest ++ chunks.flatten, hchars, append_assoc _ _ _, ?_⟩
      rw [hfail]
      exact hrest.append _
    · rename_i st' hwait
      rw [hwait] at hrest
      obtain ⟨cs', rest', hchars', hl', hrest'⟩ := ih hrest
      refine ⟨cs ++ cs', rest', ?_, ?_, hrest'⟩
      · rw [hchars, hchars', map_append]
      · rw [append_assoc, hl', flatMap_append, append_assoc]

/-- **Restartable decoding is exact and independent of the chunks.**  Whatever chunks a byte string is
cut into, the characters returned are those whose encodings it begins with; decoding waits exactly as
long as the rest is a proper prefix of an encoding and fails exactly when it is dead; and the next call
in a waiting state is exact for every chunk. -/
theorem mbrtowc_exact (chunks : List (List UInt8)) :
    ∃ (cs : List Char) (rest : List UInt8), (feed 0 chunks).chars = cs.map wide ∧
      chunks.flatten = cs.flatMap utf8EncodeChar ++ rest ∧ match (feed 0 chunks).status with
      | .failed => Dead rest
      | .waiting st => Incomplete rest ∧ ∀ s, Exact rest s (mbrtowc true (some s) st) := by
  obtain ⟨cs, rest, hchars, hl, hrest⟩ := feed_decoded stateOf_initial chunks
  refine ⟨cs, rest, hchars, hl, ?_⟩
  cases hstatus : (feed 0 chunks).status with
  | failed =>
    rw [hstatus] at hrest
    exact hrest
  | waiting st =>
    rw [hstatus] at hrest
    exact ⟨hrest.incomplete, fun s => (mbrtowc_reads hrest s).exact⟩

/-- U+20AC and U+10FFFF, cut inside of both characters. -/
example : feed 0 [[0xe2], [0x82, 0xac, 0xf4], [], [0x8f, 0xbf], [0xbf]] =
    ⟨[0x20ac, 0x10ffff], .waiting 0⟩ := by decide

/-- A surrogate fails at its second byte. -/
example : (feed 0 [[0x41, 0xed], [0xa0]]) = ⟨[0x41], .failed⟩ := by decide

end Musl.Multibyte
