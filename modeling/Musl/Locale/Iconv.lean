import Musl.Multibyte.Wcrtomb

/-!
# Conversion between Unicode encodings: `iconv`

One iteration of the loop decodes a character, encodes it if there is room for it, and then steps
over it.  The input may end in the middle of a character and the output may be full at any point, so
a caller goes on where a call has stopped.  With `UTF-16` and `UTF-32` the first bytes decide the
byte order, which the descriptor then remembers.
-/

namespace Musl.Locale

open Musl.Lib.Utf8 Musl.Multibyte List Option Nat Prod
open String (utf8EncodeChar)

/-! ### The code -/

inductive Fixed where
  | utf8
  | utf16be
  | utf16le
  | utf32be
  | utf32le
  deriving DecidableEq, Repr

/-- An argument of `iconv_open`. -/
inductive Charset where
  | fixed (t : Fixed)
  | utf16
  | utf32
  deriving DecidableEq, Repr

/-- The type in the table `charmaps`; its last bits are the byte order. -/
def Charset.code : Charset → ℕ
  | .fixed .utf32be => 0xc0
  | .fixed .utf16le => 0xc1
  | .fixed .utf16be => 0xc2
  | .fixed .utf32le => 0xc3
  | .fixed .utf8 => 0xc8
  | .utf16 => 0xca
  | .utf32 => 0xcb

def get16 (s : List UInt8) (e : ℕ) : ℕ :=
  let e := e % 2
  (s.getD e 0).toNat * 0x100 + (s.getD (1 - e) 0).toNat

/-- The bytes that `put_16` stores. -/
def put16 (c e : ℕ) : List UInt8 :=
  if e % 2 = 0 then [UInt8.ofNat (c >>> 8), UInt8.ofNat c] else [UInt8.ofNat c, UInt8.ofNat (c >>> 8)]

def get32 (s : List UInt8) (e : ℕ) : ℕ :=
  let e := e % 4
  (s.getD e 0).toNat * 0x1000000 + (s.getD (e ^^^ 1) 0).toNat * 0x10000 +
    (s.getD (e ^^^ 2) 0).toNat * 0x100 +
    (s.getD (e ^^^ 3) 0).toNat

/-- The bytes that `put_32` stores. -/
def put32 (c e : ℕ) : List UInt8 :=
  [0, 1, 2, 3].map fun k => UInt8.ofNat (c >>> (24 - 8 * (k ^^^ (e % 4))))

/-- A decoded character and its length, or one of the two ways to stop. -/
inductive Decoded where
  | char (c l : ℕ)
  | ilseq
  | starved
  deriving DecidableEq, Repr

/-- `case UTF_8` -/
def decodeUtf8 : List UInt8 → Decoded
  | [] => .starved
  | b :: s =>
    let m := mbrtowc true (some (b :: s)) 0
    if b.toNat < 128 then .char b.toNat 1
    else if m.ret = minus1 then .ilseq
    else if m.ret = minus2 then .starved
    else .char (m.wc.getD 0).toNat m.ret

/-- `case UTF_32BE` and `UTF_32LE`; the differences of unsigned numbers are written as intervals. -/
def decodeUtf32 (e : ℕ) (s : List UInt8) : Decoded :=
  if s.length < 4 then .starved
  else if (0xd800 ≤ get32 s e ∧ get32 s e < 0xe000) ∨ 0x110000 ≤ get32 s e then .ilseq
  else .char (get32 s e) 4

/-- `case UTF_16BE` and `UTF_16LE` -/
def decodeUtf16 (e : ℕ) (s : List UInt8) : Decoded :=
  let c := get16 s e
  let d := get16 (s.drop 2) e
  if s.length < 2 then .starved
  else if 0xdc00 ≤ c ∧ c < 0xe000 then .ilseq
  else if 0xd800 ≤ c ∧ c < 0xdc00 then
    if s.length < 4 then .starved
    else if ¬(0xdc00 ≤ d ∧ d < 0xe000) then .ilseq
    else .char ((c - 0xd7c0) <<< 10 + (d - 0xdc00)) 4
  else .char c 2

/-- The first `switch` of the loop, once the byte order is known. -/
def decode : Fixed → List UInt8 → Decoded
  | .utf8 => decodeUtf8
  | .utf16be => decodeUtf16 (Charset.fixed .utf16be).code
  | .utf16le => decodeUtf16 (Charset.fixed .utf16le).code
  | .utf32be => decodeUtf32 (Charset.fixed .utf32be).code
  | .utf32le => decodeUtf32 (Charset.fixed .utf32le).code

/-- The bytes to write for a character, or one of the two ways to stop. -/
inductive Encoded where
  | bytes (bs : List UInt8)
  | toobig
  | ilseq
  deriving DecidableEq, Repr

/-- `case UTF_8` of the second `switch`. -/
def encodeUtf8 (c outb : ℕ) : Encoded :=
  let r := wcrtomb true true (BitVec.ofNat 32 c)
  if outb < 4 ∧ outb < r.ret then .toobig
  else if 4 < r.ret then .ilseq
  else .bytes r.out

/-- `case UTF_16` -/
def encodeUtf16 (e c outb : ℕ) : Encoded :=
  if c < 0x10000 then
    if outb < 2 then .toobig else .bytes (put16 c e)
  else if outb < 4 then .toobig
  else .bytes (put16 ((c - 0x10000) >>> 10 ||| 0xd800) e ++ put16 ((c - 0x10000) &&& 0x3ff ||| 0xdc00) e)

/-- `case UTF_32` -/
def encodeUtf32 (e c outb : ℕ) : Encoded := if outb < 4 then .toobig else .bytes (put32 c e)

/-- The second `switch` of the loop; `UTF_32` becomes `UTF_32BE`. -/
def encode (totype : Charset) (c outb : ℕ) : Encoded :=
  match totype with
  | .fixed .utf8 => encodeUtf8 c outb
  | .fixed .utf16be => encodeUtf16 totype.code c outb
  | .fixed .utf16le => encodeUtf16 totype.code c outb
  | .utf16 => encodeUtf16 totype.code c outb
  | .utf32 => encodeUtf32 (Charset.fixed .utf32be).code c outb
  | .fixed .utf32be => encodeUtf32 totype.code c outb
  | .fixed .utf32le => encodeUtf32 totype.code c outb

inductive Errno where
  | E2BIG
  | EILSEQ
  | EINVAL
  deriving DecidableEq, Repr

/-- What a call does: the bytes written, how many were read, and the error. -/
structure Result where
  out : List UInt8
  used : ℕ
  err : Option Errno
  deriving DecidableEq, Repr

def Result.andThen (r r' : Result) : Result := ⟨r.out ++ r'.out, r.used + r'.used, r'.err⟩

/-- The loop, once the byte order is known. -/
def convLoop (t : Fixed) (totype : Charset) : ℕ → List UInt8 → ℕ → Result
  | 0, _, _ => ⟨[], 0, none⟩
  | fuel + 1, inp, outb =>
    if inp = [] then ⟨[], 0, none⟩
    else
      match decode t inp with
      | .starved => ⟨[], 0, some .EINVAL⟩
      | .ilseq => ⟨[], 0, some .EILSEQ⟩
      | .char c l =>
        match encode totype c outb with
        | .toobig => ⟨[], 0, some .E2BIG⟩
        | .ilseq => ⟨[], 0, some .EILSEQ⟩
        | .bytes bs =>
          Result.andThen ⟨bs, l, none⟩ (convLoop t totype fuel (inp.drop l) (outb - bs.length))

/-- A conversion descriptor; `state` is that of a `stateful_cd`, missing if it is 0. -/
structure Cd where
  source : Charset
  target : Charset
  state : Option Fixed
  deriving DecidableEq, Repr

/-- `case UTF_16` and `case UTF_32`, which only the first iteration can meet: the byte order, and
the length of a byte order mark.  Nothing if there are not enough bytes. -/
def detect (cd : Cd) (inp : List UInt8) : Option (Fixed × ℕ) :=
  match cd.source, cd.state with
  | .fixed t, _ => some (t, 0)
  | .utf16, some t => some (t, 0)
  | .utf32, some t => some (t, 0)
  | .utf16, none =>
    let c := get16 inp 0
    if inp.length < 2 then none
    else some (if c = 0xfffe then .utf16le else .utf16be, if c = 0xfffe ∨ c = 0xfeff then 2 else 0)
  | .utf32, none =>
    let c := get32 inp 0
    if inp.length < 4 then none
    else some (if c = 0xfffe0000 then .utf32le else .utf32be,
      if c = 0xfffe0000 ∨ c = 0xfeff then 4 else 0)

/-- `scd->state` once the byte order is known. -/
def Cd.remember (cd : Cd) (t : Fixed) : Cd :=
  match cd.source with
  | .fixed _ => cd
  | _ => { cd with state := some t }

/-- `iconv`, with the input and the room for the output; every iteration that goes on reads a byte
at least. -/
def iconv (cd : Cd) (inp : List UInt8) (outb : ℕ) : Result × Cd :=
  if inp = [] then (⟨[], 0, none⟩, cd)
  else
    match detect cd inp with
    | none => (⟨[], 0, some .EINVAL⟩, cd)
    | some (t, l) =>
      (Result.andThen ⟨[], l, none⟩ (convLoop t cd.target inp.length (inp.drop l) outb), cd.remember t)

/-! ### What is promised -/

def be16 (u : ℕ) : List UInt8 := [UInt8.ofNat (u / 0x100), UInt8.ofNat u]

def be32 (u : ℕ) : List UInt8 :=
  [UInt8.ofNat (u / 0x1000000), UInt8.ofNat (u / 0x10000), UInt8.ofNat (u / 0x100), UInt8.ofNat u]

def Fixed.bytes : Fixed → Char → List UInt8
  | .utf8, c => utf8EncodeChar c
  | .utf16be, c => (utf16 c).flatMap fun u => be16 u.toNat
  | .utf16le, c => (utf16 c).flatMap fun u => (be16 u.toNat).reverse
  | .utf32be, c => be32 c.toNat
  | .utf32le, c => (be32 c.toNat).reverse

/-- The encoding that is written; without a byte order it is big-endian. -/
def Charset.written : Charset → Fixed
  | .fixed t => t
  | .utf16 => .utf16be
  | .utf32 => .utf32be

/-- Input and output stand at the end of the same characters, after a byte order mark if there was one. -/
def AtBoundary (cd : Cd) (inp : List UInt8) (r : Result) : Prop :=
  (r.used = 0 ∧ r.out = []) ∨ ∃ t l, detect cd inp = some (t, l) ∧ ∃ cs : List Char,
    inp.take r.used = inp.take l ++ cs.flatMap t.bytes ∧ r.out = cs.flatMap cd.target.written.bytes

/-- A sequence of calls, each with so many bytes of the input that is left, and so much room for
output. -/
def drive (cd : Cd) : List (ℕ × ℕ) → List UInt8 → Result
  | [], _ => ⟨[], 0, none⟩
  | [(m, outb)], inp => (iconv cd (inp.take m) outb).1
  | (m, outb) :: call :: calls, inp =>
    let r := iconv cd (inp.take m) outb
    Result.andThen r.1 (drive r.2 (call :: calls) (inp.drop r.1.used))

/-- The calls go on until one returns `EILSEQ`, or has got all of the input and does not return
`E2BIG`. -/
def Completes (cd : Cd) : List (ℕ × ℕ) → List UInt8 → Prop
  | [], _ => False
  | [(m, outb)], inp =>
    (iconv cd (inp.take m) outb).1.err = some .EILSEQ ∨
      (inp.length ≤ m ∧ (iconv cd (inp.take m) outb).1.err ≠ some .E2BIG)
  | (m, outb) :: call :: calls, inp =>
    let r := iconv cd (inp.take m) outb
    Completes r.2 (call :: calls) (inp.drop r.1.used)

/-! ### UTF-8 -/

variable {inp s : List UInt8} {m e c l : ℕ} {t : Fixed} {cd : Cd} {r : Result}

lemma decodeUtf8_cases (hne : inp ≠ []) :
    (∃ (ch : Char) (k : ℕ), 0 < k ∧ k ≤ inp.length ∧ utf8EncodeChar ch = inp.take k ∧
      decodeUtf8 inp = .char ch.toNat k) ∨
    (Incomplete inp ∧ decodeUtf8 inp = .starved) ∨ (Dead inp ∧ decodeUtf8 inp = .ilseq) := by
  obtain ⟨b, s, rfl⟩ := exists_cons_of_ne_nil hne
  by_cases hascii : b.toNat < 128
  · obtain ⟨ch, hch, henc⟩ := ascii_encode hascii
    refine .inl ⟨ch, 1, one_pos, by rw [length_cons]; omega, henc, ?_⟩
    simp [decodeUtf8, if_pos hascii, hch]
  · have hreads := mbrtowc_reads stateOf_initial (b :: s)
    simp only [decodeUtf8, if_neg hascii]
    generalize mbrtowc true (some (b :: s)) 0 = m at hreads
    cases hreads with
    | char ch k pos le enc =>
      have hk : k ≤ 4 := by
        have hlen := length_encode_le ch
        rw [enc, nil_append, length_take] at hlen
        omega
      have hzero : ch.toNat ≠ 0 := by
        intro hnul
        -- The null character is the byte 0.
        obtain ⟨j, rfl⟩ := Nat.exists_eq_add_of_lt pos
        rw [encode_eq, hnul, nil_append] at enc
        have hhead := congrArg head? enc
        rw [take_succ_cons, head?_cons, head?_cons, some.injEq] at hhead
        apply hascii
        rw [← hhead]
        decide
      refine .inl ⟨ch, k, pos, le, enc, ?_⟩
      have h1 : ¬k = minus1 := by simp only [minus1]; omega
      have h2 : ¬k = minus2 := by simp only [minus2]; omega
      simp [if_neg hzero, if_neg h1, if_neg h2, toNat_wide]
    | more st state => exact .inr (.inl ⟨state.incomplete, by simp [if_neg minus2_ne]⟩)
    | dead dead => exact .inr (.inr ⟨dead, by simp [ilseq]⟩)

lemma decodeUtf8_take (h : decodeUtf8 (inp.take m) ≠ .starved) :
    decodeUtf8 (inp.take m) = decodeUtf8 inp := by
  have hne : inp.take m ≠ [] := by
    intro hnil
    rw [hnil] at h
    exact h rfl
  have hne' : inp ≠ [] := by
    intro hnil
    rw [hnil, take_nil] at hne
    exact hne rfl
  rcases decodeUtf8_cases hne with ⟨ch, k, -, hle, henc, heq⟩ | ⟨-, heq⟩ | ⟨hdead, heq⟩
  · have hfront : utf8EncodeChar ch <+: inp := by
      rw [henc]
      exact ( take_prefix k _).trans ( take_prefix m inp)
    rcases decodeUtf8_cases hne' with ⟨ch', k', -, hle', henc', heq'⟩ | ⟨hmore, -⟩ | ⟨hdead, -⟩
    · have hsame : ch = ch' := encode_unique hfront (by rw [henc']; exact take_prefix k' inp)
      have hlen := congrArg length henc
      have hlen' := congrArg length henc'
      rw [length_take, ← hsame] at hlen'
      rw [length_take] at hlen
      rw [heq, heq', hsame, show k = k' by omega]
    · exact absurd hfront (hmore.not_begins ch)
    · exact absurd hfront (hdead ch).2
  · exact absurd heq h
  · have hdead' : Dead inp := by
      rw [← take_append_drop m inp]
      exact hdead.append _
    rcases decodeUtf8_cases hne' with ⟨ch', k', -, -, henc', -⟩ | ⟨hmore, -⟩ | ⟨-, heq'⟩
    · exact absurd (henc' ▸ take_prefix k' inp) (hdead' ch').2
    · exact absurd hdead' (incomplete_not_dead hmore)
    · rw [heq, heq']

/-! ### Units of two and of four bytes -/

lemma ofNat_eq_iff {n : ℕ} {b : UInt8} : UInt8.ofNat n = b ↔ n % 256 = b.toNat := by
  rw [← UInt8.toNat_inj, UInt8.toNat_ofNat']

lemma get16_lt (s : List UInt8) (e : ℕ) : get16 s e < 0x10000 := by
  have hhigh := (s.getD (e % 2) 0).toNat_lt
  have hlow := (s.getD (1 - e % 2) 0).toNat_lt
  simp only [get16]
  omega

lemma get16_take (hm : 2 ≤ m) (e : ℕ) : get16 (s.take m) e = get16 s e := by
  have hget : ∀ i < 2, (s.take m).getD i 0 = s.getD i 0 := by
    intro i hi
    rw [getD_eq_getElem?_getD, getD_eq_getElem?_getD, getElem?_take_of_lt (by omega)]
  simp only [get16, hget (e % 2) (by omega), hget (1 - e % 2) (by omega)]

lemma xor_lt_four : ∀ e < 4, ∀ k < 4, e ^^^ k < 4 := by decide

lemma get32_take (hm : 4 ≤ m) (e : ℕ) : get32 (s.take m) e = get32 s e := by
  have hget : ∀ i < 4, (s.take m).getD i 0 = s.getD i 0 := by
    intro i hi
    rw [getD_eq_getElem?_getD, getD_eq_getElem?_getD, getElem?_take_of_lt (by omega)]
  have he : e % 4 < 4 := by omega
  simp only [get32, hget _ he, hget _ (xor_lt_four _ he 1 (by decide)),
    hget _ (xor_lt_four _ he 2 (by decide)),
    hget _ (xor_lt_four _ he 3 (by decide))]

lemma be16_get16 (b0 b1 : UInt8) (s : List UInt8) :
    be16 (get16 (b0 :: b1 :: s) 0xc2) = [b0, b1] ∧ (be16 (get16 (b0 :: b1 :: s) 0xc1)).reverse =
    [b0, b1] := by
  have h0 := b0.toNat_lt
  have h1 := b1.toNat_lt
  simp [be16, get16, ofNat_eq_iff]
  omega

lemma be32_get32 (b0 b1 b2 b3 : UInt8) (s : List UInt8) :
    be32 (get32 (b0 :: b1 :: b2 :: b3 :: s) 0xc0) = [b0, b1, b2, b3] ∧
      (be32 (get32 (b0 :: b1 :: b2 :: b3 :: s) 0xc3)).reverse = [b0, b1, b2, b3] := by
  have h0 := b0.toNat_lt
  have h1 := b1.toNat_lt
  have h2 := b2.toNat_lt
  have h3 := b3.toNat_lt
  simp [be32, get32, ofNat_eq_iff]
  omega

lemma decodeUtf32_take (h : decodeUtf32 e (s.take m) ≠ .starved) :
    decodeUtf32 e (s.take m) = decodeUtf32 e s := by
  have hlen : ¬(s.take m).length < 4 := fun hshort => h (if_pos hshort)
  have hboth : 4 ≤ m ∧ ¬s.length < 4 := by
    rw [length_take] at hlen
    omega
  simp only [decodeUtf32, if_neg hlen, if_neg hboth.2, get32_take hboth.1]

lemma decodeUtf16_take (h : decodeUtf16 e (s.take m) ≠ .starved) :
    decodeUtf16 e (s.take m) = decodeUtf16 e s := by
  have hlen : ¬(s.take m).length < 2 := fun hshort => h (if_pos hshort)
  have hboth : 2 ≤ m ∧ ¬s.length < 2 := by
    rw [length_take] at hlen
    omega
  simp only [decodeUtf16, if_neg hlen, get16_take hboth.1] at h ⊢
  rw [if_neg hboth.2]
  by_cases hlow : 0xdc00 ≤ get16 s e ∧ get16 s e < 0xe000
  · simp [if_pos hlow]
  by_cases hhigh : 0xd800 ≤ get16 s e ∧ get16 s e < 0xdc00
  · -- The second unit has to be there in both.
    rw [if_neg hlow, if_pos hhigh] at h
    have hlen4 : ¬(s.take m).length < 4 := fun hshort => h (if_pos hshort)
    have hboth4 : 2 ≤ m - 2 ∧ ¬s.length < 4 := by
      rw [length_take] at hlen4
      omega
    simp only [if_neg hlow, if_neg hlen4, if_neg hboth4.2, drop_take, get16_take hboth4.1]
  · simp only [if_neg hhigh]

lemma decode_take (h : decode t (inp.take m) ≠ .starved) : decode t (inp.take m) = decode t inp := by
  cases t with
  | utf8 => exact decodeUtf8_take h
  | utf16be => exact decodeUtf16_take h
  | utf16le => exact decodeUtf16_take h
  | utf32be => exact decodeUtf32_take h
  | utf32le => exact decodeUtf32_take h

lemma exists_two (h : 2 ≤ s.length) : ∃ b0 b1 rest, s = b0 :: b1 :: rest := by
  match s, h with
  | b0 :: b1 :: rest, _ => exact ⟨b0, b1, rest, rfl⟩

lemma exists_four (h : 4 ≤ s.length) : ∃ b0 b1 b2 b3 rest, s = b0 :: b1 :: b2 :: b3 :: rest := by
  match s, h with
  | b0 :: b1 :: b2 :: b3 :: rest, _ => exact ⟨b0, b1, b2, b3, rest, rfl⟩

lemma decodeUtf32_char (h : decodeUtf32 e s = .char c l) :
    ∃ ch : Char, c = ch.toNat ∧ get32 s e = ch.toNat ∧ l = 4 ∧ 4 ≤ s.length := by
  simp only [decodeUtf32] at h
  split_ifs at h with hlen hbad
  obtain ⟨hc, hl⟩ := Decoded.char.inj h
  have hvalid : (get32 s e).isValidChar := by
    omega
  obtain ⟨ch, hch⟩ := exists_char hvalid
  exact ⟨ch, hc.symm.trans hch.symm, hch.symm, hl.symm, Nat.le_of_not_lt hlen⟩

lemma decodeUtf16_char (h : decodeUtf16 e s = .char c l) : ∃ ch : Char, c = ch.toNat ∧
      ((l = 2 ∧ 2 ≤ s.length ∧ (utf16 ch).map (·.toNat) = [get16 s e]) ∨
        (l = 4 ∧ 4 ≤ s.length ∧ (utf16 ch).map (·.toNat) = [get16 s e, get16 (s.drop 2) e])) := by
  have hlt := get16_lt s e
  simp only [decodeUtf16] at h
  split_ifs at h with hlen hlow hhigh hlen4 hpair
  · obtain ⟨hc, hl⟩ := Decoded.char.inj h
    generalize get16 s e = u at *
    generalize get16 (s.drop 2) e = v at *
    have hvalid : c.isValidChar := by
      omega
    obtain ⟨ch, hch⟩ := exists_char hvalid
    refine ⟨ch, hch.symm, .inr ⟨hl.symm, Nat.le_of_not_lt hlen4, ?_⟩⟩
    have hlarge : ¬ch.toNat < 0x10000 := by omega
    have hu : 0xd800 + (ch.toNat - 0x10000) / 0x400 = u := by omega
    have hv : 0xdc00 + (ch.toNat - 0x10000) % 0x400 = v := by omega
    simp only [utf16, if_neg hlarge, map_cons, map_nil, BitVec.toNat_ofNat, hu, hv]
    rw [mod_eq_of_lt (by omega), mod_eq_of_lt (by omega)]
  · obtain ⟨hc, hl⟩ := Decoded.char.inj h
    generalize get16 s e = u at *
    have hvalid : u.isValidChar := by
      omega
    obtain ⟨ch, hch⟩ := exists_char hvalid
    refine ⟨ch, hc.symm.trans hch.symm, .inl ⟨hl.symm, Nat.le_of_not_lt hlen, ?_⟩⟩
    have hsmall : ch.toNat < 0x10000 := by omega
    rw [utf16, if_pos hsmall, map_singleton, BitVec.toNat_ofNat, hch, mod_eq_of_lt (by omega)]

lemma bytes_utf16be (ch : Char) : Fixed.utf16be.bytes ch = ((utf16 ch).map (·.toNat)).flatMap be16 := by
  rw [Fixed.bytes, flatMap_map]

lemma bytes_utf16le (ch : Char) :
    Fixed.utf16le.bytes ch = ((utf16 ch).map (·.toNat)).flatMap fun u => (be16 u).reverse := by
  rw [Fixed.bytes, flatMap_map]

lemma decodeUtf16_bytes (unit : ℕ → List UInt8)
    (hunit : ∀ b0 b1 s, unit (get16 (b0 :: b1 :: s) e) = [b0, b1])
    (h : decodeUtf16 e s = .char c l) :
    ∃ ch : Char, c = ch.toNat ∧ ((utf16 ch).map (·.toNat)).flatMap unit = s.take l ∧ 0 < l ∧
    l ≤ s.length := by
  obtain ⟨ch, hc, ⟨rfl, hlen, hunits⟩ | ⟨rfl, hlen, hunits⟩⟩ := decodeUtf16_char h
  · obtain ⟨b0, b1, rest, rfl⟩ := exists_two hlen
    exact ⟨ch, hc, by simp [hunits, hunit], by decide, hlen⟩
  · obtain ⟨b0, b1, b2, b3, rest, rfl⟩ := exists_four hlen
    exact ⟨ch, hc, by simp [hunits, hunit], by decide, hlen⟩

lemma decode_char (h : decode t inp = .char c l) :
    ∃ ch : Char, c = ch.toNat ∧ t.bytes ch = inp.take l ∧ 0 < l ∧ l ≤ inp.length := by
  cases t with
  | utf8 =>
    have hne : inp ≠ [] := by
      intro hnil
      rw [hnil] at h
      cases h
    rcases decodeUtf8_cases hne with ⟨ch, k, hpos, hle, henc, heq⟩ | ⟨-, heq⟩ | ⟨-, heq⟩
    · obtain ⟨hc, hl⟩ := Decoded.char.inj (heq.symm.trans h)
      exact ⟨ch, hc.symm, hl ▸ henc, hl ▸ hpos, hl ▸ hle⟩
    · exact absurd (heq.symm.trans h) (by simp)
    · exact absurd (heq.symm.trans h) (by simp)
  | utf16be =>
    simp only [bytes_utf16be]
    exact decodeUtf16_bytes be16 (fun b0 b1 s => (be16_get16 b0 b1 s).1) h
  | utf16le =>
    simp only [bytes_utf16le]
    exact decodeUtf16_bytes (fun u => (be16 u).reverse) (fun b0 b1 s => (be16_get16 b0 b1 s).2) h
  | utf32be =>
    obtain ⟨ch, hc, hget, rfl, hlen⟩ := decodeUtf32_char h
    obtain ⟨b0, b1, b2, b3, rest, rfl⟩ := exists_four hlen
    refine ⟨ch, hc, ?_, by decide, hlen⟩
    rw [Fixed.bytes, ← hget]
    exact (be32_get32 b0 b1 b2 b3 rest).1
  | utf32le =>
    obtain ⟨ch, hc, hget, rfl, hlen⟩ := decodeUtf32_char h
    obtain ⟨b0, b1, b2, b3, rest, rfl⟩ := exists_four hlen
    refine ⟨ch, hc, ?_, by decide, hlen⟩
    rw [Fixed.bytes, ← hget]
    exact (be32_get32 b0 b1 b2 b3 rest).2

/-! ### Writing a character -/

lemma put16_eq (c e : ℕ) : put16 c e = if e % 2 = 0 then be16 c else (be16 c).reverse := by
  simp only [put16, shiftRight_eq_div_pow]
  rfl

lemma put32_eq (c : ℕ) : put32 c 0xc0 = be32 c ∧ put32 c 0xc3 = (be32 c).reverse := by
  simp [put32, be32, shiftRight_eq_div_pow]

lemma or_surrogate {x : ℕ} (hx : x < 0x400) : x ||| 0xd800 = 0xd800 + x ∧ x ||| 0xdc00 = 0xdc00 + x := by
  constructor
  · rw [Nat.or_comm]
    exact (shiftLeft_add_eq_or_of_lt (i := 10) hx 0x36).symm
  · rw [Nat.or_comm]
    exact (shiftLeft_add_eq_or_of_lt (i := 10) hx 0x37).symm

lemma length_put16 (c e : ℕ) : (put16 c e).length = 2 := by
  rw [put16]
  split_ifs <;> rfl

lemma encodeUtf16_eq (e : ℕ) (ch : Char) (outb : ℕ) : encodeUtf16 e ch.toNat outb =
      if outb < (((utf16 ch).map (·.toNat)).flatMap (put16 · e)).length then .toobig
      else .bytes (((utf16 ch).map (·.toNat)).flatMap (put16 · e)) := by
  have hlt := toNat_lt ch
  by_cases hsmall : ch.toNat < 0x10000
  · have hunits : (utf16 ch).map (·.toNat) = [ch.toNat] := by
      rw [utf16, if_pos hsmall, map_singleton, BitVec.toNat_ofNat, mod_eq_of_lt hsmall]
    simp [encodeUtf16, if_pos hsmall, hunits, length_put16]
  · have hunits : (utf16 ch).map (·.toNat) =
        [0xd800 + (ch.toNat - 0x10000) / 0x400, 0xdc00 + (ch.toNat - 0x10000) % 0x400] := by
      rw [utf16, if_neg hsmall, map_cons, map_singleton, BitVec.toNat_ofNat, BitVec.toNat_ofNat,
        mod_eq_of_lt (by omega), mod_eq_of_lt (by omega)]
    have hhigh : (ch.toNat - 0x10000) >>> 10 ||| 0xd800 = 0xd800 + (ch.toNat - 0x10000) / 0x400 := by
      rw [shiftRight_eq_div_pow]
      exact (or_surrogate (by omega)).1
    have hlow : (ch.toNat - 0x10000) &&& 0x3ff ||| 0xdc00 = 0xdc00 + (ch.toNat - 0x10000) % 0x400 := by
      rw [show 0x3ff = 2 ^ 10 - 1 from rfl, and_two_pow_sub_one_eq_mod]
      exact (or_surrogate (by omega)).2
    simp [encodeUtf16, if_neg hsmall, hunits, hhigh, hlow, length_put16]

lemma encodeUtf8_eq (ch : Char) (outb : ℕ) : encodeUtf8 ch.toNat outb =
      if outb < (utf8EncodeChar ch).length then .toobig else .bytes (utf8EncodeChar ch) := by
  have hwide : BitVec.ofNat 32 ch.toNat = wide ch := by
    apply BitVec.eq_of_toNat_eq
    rw [toNat_wide, BitVec.toNat_ofNat]
    have := toNat_lt ch
    omega
  have hlen := length_encode_le ch
  simp only [encodeUtf8, hwide, wcrtomb_wide]
  by_cases hroom : outb < (utf8EncodeChar ch).length
  · rw [if_pos ⟨by omega, hroom⟩, if_pos hroom]
  · rw [if_neg (fun h => hroom h.2), if_neg (by omega), if_neg hroom]

lemma encode_eq_bytes (totype : Charset) (ch : Char) (outb : ℕ) : encode totype ch.toNat outb =
      if outb < (totype.written.bytes ch).length then .toobig else .bytes (totype.written.bytes ch) := by
  have hbig : ∀ e,
      e % 2 = 0 → ((utf16 ch).map (·.toNat)).flatMap (put16 · e) = Fixed.utf16be.bytes ch := by
    intro e he
    simp [bytes_utf16be, put16_eq, if_pos he]
  have hlittle : ((utf16 ch).map (·.toNat)).flatMap (put16 · 0xc1) = Fixed.utf16le.bytes ch := by
    simp only [bytes_utf16le, put16_eq]
    rfl
  have hfour : (be32 ch.toNat).length = 4 := rfl
  match totype with
  | .fixed .utf8 => exact encodeUtf8_eq ch outb
  | .fixed .utf16be => exact (encodeUtf16_eq 0xc2 ch outb).trans (by rw [hbig 0xc2 rfl]; rfl)
  | .fixed .utf16le => exact (encodeUtf16_eq 0xc1 ch outb).trans (by rw [hlittle]; rfl)
  | .utf16 => exact (encodeUtf16_eq 0xca ch outb).trans (by rw [hbig 0xca rfl]; rfl)
  | .fixed .utf32be =>
    simp [encode, encodeUtf32, Charset.code, (put32_eq _).1, Charset.written, Fixed.bytes, hfour]
  | .utf32 =>
    simp only [encode, encodeUtf32, Charset.code, (put32_eq _).1, Charset.written, Fixed.bytes,
      hfour]
  | .fixed .utf32le =>
    simp [encode, encodeUtf32, Charset.code, (put32_eq _).2, Charset.written, Fixed.bytes, hfour]

lemma length_bytes_le (t : Fixed) (ch : Char) : (t.bytes ch).length ≤ 4 := by
  have hunits : (utf16 ch).length ≤ 2 := by
    rw [utf16]
    split_ifs <;> simp
  cases t with
  | utf8 => exact length_encode_le ch
  | utf16be =>
    simp [Fixed.bytes, be16]
    omega
  | utf16le =>
    simp [Fixed.bytes, be16]
    omega
  | utf32be => exact le_rfl
  | utf32le => exact le_rfl

/-! ### The loop -/

@[simp] lemma nothing_andThen (e : Option Errno) (r : Result) : Result.andThen ⟨[], 0, e⟩ r = r := by
  simp [Result.andThen]

@[simp] lemma andThen_nothing (r : Result) : r.andThen ⟨[], 0, r.err⟩ = r := by
  simp [Result.andThen]

lemma andThen_assoc (r r' r'' : Result) : (r.andThen r').andThen r'' = r.andThen (r'.andThen r'') := by
  simp [Result.andThen, add_assoc]

section Loop

variable {t : Fixed} {totype : Charset}

/-- A conversion to the end of the input or to an error in it, without any limit on the output. -/
inductive Free (t : Fixed) (totype : Charset) : List UInt8 → Result → Prop
  | done : Free t totype [] ⟨[], 0, none⟩
  | starved {inp : List UInt8} (hne : inp ≠ []) (h : decode t inp = .starved) :
      Free t totype inp ⟨[], 0, some .EINVAL⟩
  | ilseq {inp : List UInt8} (hne : inp ≠ []) (h : decode t inp = .ilseq) :
  Free t totype inp ⟨[], 0, some .EILSEQ⟩
  | char {inp : List UInt8} {ch : Char} {l : ℕ} {r : Result} (hne : inp ≠ [])
  (h : decode t inp = .char ch.toNat l) (hrest : Free t totype (inp.drop l) r) :
      Free t totype inp (Result.andThen ⟨totype.written.bytes ch, l, none⟩ r)

lemma toNat_char_inj {c d : Char} (h : c.toNat = d.toNat) : c = d := by
  apply Char.ext
  exact UInt32.toNat_inj.1 h

lemma Free.unique {inp : List UInt8} {r r' : Result} (h : Free t totype inp r)
    (h' : Free t totype inp r') :
    r = r' := by
  induction h generalizing r' with
  | done =>
    cases h' with
    | done => rfl
    | starved hne _ => exact absurd rfl hne
    | ilseq hne _ => exact absurd rfl hne
    | char hne _ _ => exact absurd rfl hne
  | starved hne hdecode =>
    cases h' with
    | done => exact absurd rfl hne
    | starved _ _ => rfl
    | ilseq _ hother => exact absurd (hdecode.symm.trans hother) (by simp)
    | char _ hother _ => exact absurd (hdecode.symm.trans hother) (by simp)
  | ilseq hne hdecode =>
    cases h' with
    | done => exact absurd rfl hne
    | starved _ hother => exact absurd (hdecode.symm.trans hother) (by simp)
    | ilseq _ _ => rfl
    | char _ hother _ => exact absurd (hdecode.symm.trans hother) (by simp)
  | char hne hdecode hrest ih =>
    cases h' with
    | done => exact absurd rfl hne
    | starved _ hother => exact absurd (hdecode.symm.trans hother) (by simp)
    | ilseq _ hother => exact absurd (hdecode.symm.trans hother) (by simp)
    | char _ hother hrest' =>
      obtain ⟨hc, rfl⟩ := Decoded.char.inj (hdecode.symm.trans hother)
      rw [toNat_char_inj hc, ih hrest']

/-- A call stopped here: the input that is left can be gone on with, or there is nothing more to do. -/
structure Stops (F F' : List UInt8 → Result → Prop) (inp : List UInt8) (m : ℕ) (r : Result) : Prop where
  goOn : ∀ r', F' (inp.drop r.used) r' → F inp (r.andThen r')
  finished : (r.err = some .EILSEQ ∨ (inp.length ≤ m ∧ r.err ≠ some .E2BIG)) →
    F' (inp.drop r.used) ⟨[], 0, r.err⟩

section Nothing

variable {F : List UInt8 → Result → Prop} {inp : List UInt8} {m : ℕ} {e : Option Errno}

lemma Stops.nothing (h : (e = some .EILSEQ ∨ (inp.length ≤ m ∧ e ≠ some .E2BIG)) → F inp ⟨[], 0, e⟩) :
    Stops F F inp m ⟨[], 0, e⟩ := by
  refine ⟨fun r' hr' => ?_, h⟩
  rwa [nothing_andThen]

lemma Stops.short (he : e ≠ some .EILSEQ) (h : inp.length ≤ m → F inp ⟨[], 0, e⟩) :
    Stops F F inp m ⟨[], 0, e⟩ :=
  .nothing fun hcase => h (hcase.resolve_left he).1

lemma Stops.empty (hnil : inp.take m = []) (hdone : F [] ⟨[], 0, none⟩) :
    Stops F F inp m ⟨[], 0, none⟩ := by
  refine .short (by simp) fun hall => ?_
  rw [take_of_length_le hall] at hnil
  rwa [hnil]

end Nothing

section

variable (t : Fixed) (totype : Charset) (fuel : ℕ) (inp : List UInt8)

lemma convLoop_stops (m outb : ℕ) (hfuel : (inp.take m).length ≤ fuel) :
    Stops (Free t totype) (Free t totype) inp m (convLoop t totype fuel (inp.take m) outb) := by
  induction fuel generalizing inp m outb with
  | zero => exact .empty (length_eq_zero_iff.1 (le_zero.1 hfuel)) .done
  | succ fuel ih =>
    by_cases hnil : inp.take m = []
    · rw [convLoop, if_pos hnil]
      exact .empty hnil .done
    have hne : inp ≠ [] := by
      intro heq
      rw [heq, take_nil] at hnil
      exact hnil rfl
    rw [convLoop, if_neg hnil]
    cases hdecode : decode t (inp.take m) with
    | starved =>
      refine .short (by simp) fun hall => ?_
      rw [take_of_length_le hall] at hdecode
      exact .starved hne hdecode
    | ilseq =>
      refine .nothing fun _ => ?_
      rw [decode_take (by rw [hdecode]; simp)] at hdecode
      exact .ilseq hne hdecode
    | char c l =>
      obtain ⟨ch, rfl, -, hpos, hle⟩ := decode_char hdecode
      have hwhole : decode t inp = .char ch.toNat l := by
        rw [← hdecode, decode_take (by rw [hdecode]; simp)]
      simp only [encode_eq_bytes]
      by_cases hroom : outb < (totype.written.bytes ch).length
      · rw [if_pos hroom]
        exact .nothing fun hcase => absurd rfl (hcase.resolve_left (by simp)).2
      · rw [if_neg hroom, drop_take]
        have hrest := ih (inp.drop l) (m - l) (outb - (totype.written.bytes ch).length)
          (by rw [length_take, length_drop]; rw [length_take] at hfuel hle; omega)
        dsimp only
        obtain ⟨hgoOn, hfinished⟩ := hrest
        rw [drop_drop] at hfinished
        constructor
        · intro r' hr'
          rw [andThen_assoc]
          apply Free.char hne hwhole
          apply hgoOn
          rwa [drop_drop]
        · intro hcase
          apply hfinished
          rcases hcase with hill | ⟨hall, hbig⟩
          · exact .inl hill
          · exact .inr ⟨by rw [length_drop]; omega, hbig⟩

lemma convLoop_boundary (outb : ℕ) :
    ∃ cs : List Char, inp.take (convLoop t totype fuel inp outb).used = cs.flatMap t.bytes ∧
      (convLoop t totype fuel inp outb).out = cs.flatMap totype.written.bytes := by
  induction fuel generalizing inp outb with
  | zero => exact ⟨[], rfl, rfl⟩
  | succ fuel ih =>
    rw [convLoop]
    by_cases hnil : inp = []
    · rw [if_pos hnil]
      exact ⟨[], by rw [hnil]; rfl, rfl⟩
    rw [if_neg hnil]
    cases hdecode : decode t inp with
    | starved => exact ⟨[], rfl, rfl⟩
    | ilseq => exact ⟨[], rfl, rfl⟩
    | char c l =>
      obtain ⟨ch, rfl, hbytes, -, -⟩ := decode_char hdecode
      simp only [encode_eq_bytes]
      by_cases hroom : outb < (totype.written.bytes ch).length
      · rw [if_pos hroom]
        exact ⟨[], rfl, rfl⟩
      · rw [if_neg hroom]
        obtain ⟨cs, hused, hout⟩ := ih (inp.drop l) (outb - (totype.written.bytes ch).length)
        refine ⟨ch :: cs, ?_, ?_⟩
        · simp only [Result.andThen]
          rw [take_add, hused, ← hbytes, flatMap_cons]
        · simp only [Result.andThen]
          rw [hout, flatMap_cons]

end

lemma convLoop_room (fuel : ℕ) (inp : List UInt8) (outb : ℕ) (hroom : 4 * inp.length ≤ outb) :
    (convLoop t totype fuel inp outb).err ≠ some .E2BIG := by
  induction fuel generalizing inp outb with
  | zero => simp [convLoop]
  | succ fuel ih =>
    rw [convLoop]
    by_cases hnil : inp = []
    · simp [hnil]
    rw [if_neg hnil]
    cases hdecode : decode t inp with
    | starved => simp
    | ilseq => simp
    | char c l =>
      obtain ⟨ch, rfl, -, hpos, hle⟩ := decode_char hdecode
      have hlen := length_bytes_le totype.written ch
      simp only [encode_eq_bytes]
      rw [if_neg (by omega)]
      exact ih (inp.drop l) _ (by rw [length_drop]; omega)

end Loop

/-! ### Calls -/

lemma detect_take {x : Fixed × ℕ} (h : detect cd (inp.take m) = some x) : detect cd inp = some x := by
  obtain ⟨source, target, state⟩ := cd
  match source, state with
  | .fixed t, _ => exact h
  | .utf16, some t => exact h
  | .utf32, some t => exact h
  | .utf16, none =>
    have hlen : ¬(inp.take m).length < 2 := by
      intro hshort
      simp only [detect, if_pos hshort] at h
      cases h
    have hboth : 2 ≤ m ∧ ¬inp.length < 2 := by
      rw [length_take] at hlen
      omega
    simp only [detect, if_neg hlen, get16_take hboth.1] at h
    simp only [detect, if_neg hboth.2]
    exact h
  | .utf32, none =>
    have hlen : ¬(inp.take m).length < 4 := by
      intro hshort
      simp only [detect, if_pos hshort] at h
      cases h
    have hboth : 4 ≤ m ∧ ¬inp.length < 4 := by
      rw [length_take] at hlen
      omega
    simp only [detect, if_neg hlen, get32_take hboth.1] at h
    simp only [detect, if_neg hboth.2]
    exact h

lemma detect_remember (h : detect cd inp = some (t, l)) (inp' : List UInt8) :
    detect (cd.remember t) inp' = some (t, 0) := by
  obtain ⟨source, target, state⟩ := cd
  match source, state with
  | .fixed t', _ =>
    simp only [detect, some.injEq, mk.injEq] at h
    simp [Cd.remember, detect, h.1]
  | .utf16, _ => rfl
  | .utf32, _ => rfl

/-- A conversion without any limit, from a descriptor in its state. -/
inductive FreeCd (cd : Cd) : List UInt8 → Result → Prop
  | done : FreeCd cd [] ⟨[], 0, none⟩
  | starved {inp : List UInt8} (hne : inp ≠ []) (h : detect cd inp = none) :
  FreeCd cd inp ⟨[], 0, some .EINVAL⟩
  | loop {inp : List UInt8} {t : Fixed} {l : ℕ} {r : Result} (hne : inp ≠ [])
  (h : detect cd inp = some (t, l))
      (hloop : Free t cd.target (inp.drop l) r) : FreeCd cd inp (Result.andThen ⟨[], l, none⟩ r)

lemma FreeCd.unique {r' : Result} (h : FreeCd cd inp r) (h' : FreeCd cd inp r') : r = r' := by
  cases h with
  | done =>
    cases h' with
    | done => rfl
    | starved hne _ => exact absurd rfl hne
    | loop hne _ _ => exact absurd rfl hne
  | starved hne hdetect =>
    cases h' with
    | done => exact absurd rfl hne
    | starved _ _ => rfl
    | loop _ hother _ => exact absurd (hdetect.symm.trans hother) (by simp)
  | loop hne hdetect hloop =>
    cases h' with
    | done => exact absurd rfl hne
    | starved _ hother => exact absurd (hdetect.symm.trans hother) (by simp)
    | loop _ hother hloop' =>
      obtain ⟨rfl, rfl⟩ := mk.inj (some.inj (hdetect.symm.trans hother))
      rw [hloop.unique hloop']

lemma FreeCd.free (h : FreeCd cd inp r) (hdetect : ∀ inp, detect cd inp = some (t, 0)) :
    Free t cd.target inp r := by
  cases h with
  | done => exact .done
  | starved _ hnone => exact absurd ((hdetect inp).symm.trans hnone) (by simp)
  | loop _ hother hloop =>
    obtain ⟨rfl, rfl⟩ := mk.inj (some.inj ((hdetect inp).symm.trans hother))
    rwa [nothing_andThen]

lemma Free.freeCd (h : Free t cd.target inp r) (hdetect : ∀ inp, detect cd inp = some (t, 0)) :
    FreeCd cd inp r := by
  by_cases hnil : inp = []
  · subst hnil
    rw [h.unique .done]
    exact .done
  · rw [← nothing_andThen none r]
    exact .loop hnil (hdetect inp) h

section

variable (cd : Cd)

lemma target_remember (t : Fixed) : (cd.remember t).target = cd.target := by
  obtain ⟨source, -, -⟩ := cd
  cases source <;> rfl

lemma iconv_free (inp : List UInt8) (m outb : ℕ) {cd' : Cd} (h : iconv cd (inp.take m) outb = (r, cd')) :
    Stops (FreeCd cd) (FreeCd cd') inp m r := by
  rw [iconv] at h
  by_cases hnil : inp.take m = []
  · rw [if_pos hnil] at h
    obtain ⟨rfl, rfl⟩ := mk.inj h
    exact .empty hnil .done
  have hne : inp ≠ [] := by
    intro heq
    rw [heq, take_nil] at hnil
    exact hnil rfl
  rw [if_neg hnil] at h
  cases hdetect : detect cd (inp.take m) with
  | none =>
    rw [hdetect] at h
    obtain ⟨rfl, rfl⟩ := mk.inj h
    refine .short (by simp) fun hall => ?_
    rw [take_of_length_le hall] at hdetect
    exact .starved hne hdetect
  | some x =>
    obtain ⟨t, l⟩ := x
    rw [hdetect] at h
    obtain ⟨rfl, rfl⟩ := mk.inj h
    have hwhole := detect_take hdetect
    have hknown := detect_remember hwhole
    rw [drop_take]
    obtain ⟨hgoOn, hfinished⟩ := convLoop_stops t cd.target (inp.take m).length (inp.drop l) (m - l) outb
      (by rw [length_take, length_take, length_drop]; omega)
    simp only [drop_drop] at hgoOn hfinished
    constructor
    · intro r' hr'
      rw [andThen_assoc]
      apply FreeCd.loop hne hwhole
      apply hgoOn
      have hfree := hr'.free hknown
      rwa [target_remember] at hfree
    · intro hcase
      refine Free.freeCd ?_ hknown
      rw [target_remember]
      apply hfinished
      rcases hcase with hill | ⟨hall, hbig⟩
      · exact .inl hill
      · exact .inr ⟨by rw [length_drop]; omega, hbig⟩

lemma drive_free (calls : List (ℕ × ℕ)) (inp : List UInt8) (h : Completes cd calls inp) :
    FreeCd cd inp (drive cd calls inp) := by
  induction calls generalizing cd inp with
  | nil => exact h.elim
  | cons call calls ih =>
    obtain ⟨m, outb⟩ := call
    obtain ⟨hgoOn, hfinished⟩ := iconv_free cd inp m outb rfl
    cases calls with
    | nil =>
      have hlast := hgoOn _ (hfinished h)
      rwa [andThen_nothing] at hlast
    | cons call calls => exact hgoOn _ (ih _ _ h)

lemma iconv_whole (inp : List UInt8) {outb : ℕ} (hroom : 4 * inp.length ≤ outb) :
    FreeCd cd inp (iconv cd inp outb).1 := by
  have hcomplete : Completes cd [(inp.length, outb)] inp := by
    refine .inr ⟨le_rfl, ?_⟩
    rw [take_length, iconv]
    split_ifs with hnil
    · simp
    · cases hdetect : detect cd inp with
      | none => simp
      | some x => exact convLoop_room _ _ _ (by rw [length_drop]; omega)
  have hfree := drive_free cd _ inp hcomplete
  rwa [drive, take_length] at hfree

lemma iconv_boundary (inp : List UInt8) (outb : ℕ) : AtBoundary cd inp (iconv cd inp outb).1 := by
  rw [iconv]
  split_ifs with hnil
  · exact .inl ⟨rfl, rfl⟩
  · cases hdetect : detect cd inp with
    | none => exact .inl ⟨rfl, rfl⟩
    | some x =>
      obtain ⟨t, l⟩ := x
      obtain ⟨cs, hused, hout⟩ := convLoop_boundary t cd.target inp.length (inp.drop l) outb
      refine .inr ⟨t, l, hdetect, cs, ?_, ?_⟩
      · simp only [Result.andThen]
        rw [take_add, hused]
      · simpa [Result.andThen] using hout

end

/-- Converting in pieces, with any fragments of the input and any room for the output, gives what
one call with all of the input and enough room gives; and every call ends between characters. -/
theorem iconv_restartable (cd : Cd) (inp : List UInt8) :
    (∀ calls outb, Completes cd calls inp → 4 * inp.length ≤ outb →
      drive cd calls inp = (iconv cd inp outb).1) ∧ ∀ outb, AtBoundary cd inp (iconv cd inp outb).1 := by
  constructor
  · intro calls outb hcalls hroom
    exact (drive_free cd calls inp hcalls).unique (iconv_whole cd inp hroom)
  · exact iconv_boundary cd inp

/-- From UTF-16 with a byte order mark to UTF-8: a fragment that ends in a character, a call without
room for it, and two more, of which the last finds half a unit. -/
theorem iconv_restartable_bom :
    drive ⟨.utf16, .fixed .utf8, none⟩ [(3, 9), (4, 0), (4, 9), (9, 9)]
    [0xff, 0xfe, 0x3d, 0xd8, 0x00, 0xde, 0x41] =
      ⟨[0xf0, 0x9f, 0x98, 0x80], 6, some .EINVAL⟩ := by
  have hwhole :=
    (iconv_restartable ⟨.utf16, .fixed .utf8, none⟩ [0xff, 0xfe, 0x3d, 0xd8, 0x00, 0xde, 0x41]).1
    [(3, 9), (4, 0), (4, 9), (9, 9)] 28 (by simp only [Completes]; decide +kernel) (by decide)
  -- the pieces give what one call gives, and that one is computed
  rw [hwhole]
  decide +kernel

end Musl.Locale
