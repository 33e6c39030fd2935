import Musl.Time.Strftime

/-!
# Reading times

`strptime` reads the fields of a `struct tm` from a string as the conversions of a format say.  A
number has at most as many digits as the greatest value of its field, or as the width allows.
-/

namespace Musl.Time.Strptime

open Musl.Lib.Numeral Musl.Time.Tz Musl.Time.Strftime List Nat

/-! ### The code -/

def isSpace (c : Char) : Bool := c = ' ' || '\t' ≤ c && c ≤ '\r'

/-- `*s - '0'`. -/
def digitVal (c : Char) : ℤ := (c.toNat : ℤ) - 48

/-- The loop of `numeric_range`: `for (i=1; i<=min+range && isdigit(*s); i*=10) *dest = *dest * 10 +
*s++ - '0';` -/
def rangeLoop (bound : ℤ) : ℤ → ℤ → List Char → ℤ × List Char
  | _, dest, [] => (dest, [])
  | i, dest, c :: s =>
    if i ≤ bound ∧ isDigit c then rangeLoop bound (i * 10)
    (dest * 10 + digitVal c) s else (dest, c :: s)

/-- From the label `numeric_range` on: the value of `*dest` and `s`. -/
def numericRange (min range adj : ℤ) (s : List Char) : Option (ℤ × List Char) :=
  if ¬isDigit (peek s) then none
  else
    let r := rangeLoop (min + range) 1 0 s
    if u32 (r.1 - min) ≥ range then none else some (r.1 - adj, r.2)

/-- The loop of `numeric_digits`: `for (*dest=i=0; i<w && isdigit(*s); i++) *dest = *dest * 10 +
*s++ - '0';` -/
def digitsLoop (w : ℤ) : ℤ → ℤ → List Char → ℤ × List Char
  | _, dest, [] => (dest, [])
  | i, dest, c :: s =>
    if i < w ∧ isDigit c then digitsLoop w (i + 1) (dest * 10 + digitVal c) s else (dest, c :: s)

/-- From the label `numeric_digits` on. -/
def numericDigits (w adj : ℤ) (s : List Char) : Option (ℤ × List Char) :=
  let neg := peek s = '-'
  let s := if peek s = '+' ∨ peek s = '-' then s.tail else s
  if ¬isDigit (peek s) then none
  else
    let r := digitsLoop w 0 0 s
    some ((if neg then -r.1 else r.1) - adj, r.2)

/-- `strncasecmp(s, ex, len)` with `len` the length of `ex`: the rest of `s` if it begins with `ex`. -/
def skipText (same : Char → Char → Bool) : List Char → List Char → Option (List Char)
  | [], s => some s
  | _ :: _, [] => none
  | e :: ex, c :: s => if same e c then skipText same ex s else none

def sameCase (a b : Char) : Bool := a.toLower = b.toLower

/-- From the label `symbolic_range` on; the texts are tried from the last one on. -/
def symbolicRange (items : ℕ → List Char) (range : ℕ) (s : List Char) : ℕ → Option (ℤ × List Char)
  | 0 => none
  | i + 1 =>
    match skipText sameCase (items i) s with
    | some s => some (((i % range : ℕ) : ℤ), s)
    | none => symbolicRange items range s i

/-- The variables of `strptime`. -/
structure Scan where
  s : List Char
  tm : LocalTm
  wantCentury : ℕ
  century : ℤ
  relyear : ℤ

def Scan.store (st : Scan) (set : ℤ → Tm → Tm) (r : Option (ℤ × List Char)) : Option Scan :=
  r.map fun (v, s) => { st with s := s, tm := { st.tm with tm := set v st.tm.tm } }

/-- `s = strptime(s, fmt, tm); if (!s) return 0;` -/
def Scan.nested (st : Scan) (r : Option (List Char × LocalTm)) : Option Scan :=
  r.map fun (s, tm) => { st with s := s, tm := tm }

/-- `while (*s == '0' && isdigit(s[1])) s++;` is `skipZeros`; `tmp` and the rest of `s` for `%F`. -/
def copyDate (w : ℤ) (s : List Char) : List Char × List Char :=
  let sgn := if peek s = '-' ∨ peek s = '+' then s.take 1 else []
  let s := skipZeros (s.drop sgn.length)
  let room := (min (if w < 0 then 19 else w.toNat) 19) - sgn.length
  (sgn ++ s.take room, s.drop room)

/-- `while ((*s|32) - 'a' <= 'z' - 'a') s++;`, which does not stop at the end of the string. -/
def skipZone : List Char → Option (List Char)
  | [] => none
  | c :: s => if c.toNat ||| 32 ≤ 122 then skipZone s else some (c :: s)

/-- `%p`. -/
def readAmPm (loc : TimeLocale) (st : Scan) : Option Scan :=
  match skipText sameCase loc.amStr st.s with
  | some s =>
    some { st with s := s, tm := { st.tm with tm := { st.tm.tm with hour := st.tm.tm.hour.tmod 12 } } }
  | none =>
    match skipText sameCase loc.pmStr st.s with
    | some s =>
      some { st with
        s := s
        tm := { st.tm with tm := { st.tm.tm with hour := st.tm.tm.hour.tmod 12 + 12 } } }
    | none => none

/-- `%z`. -/
def readOffset (st : Scan) : Option Scan :=
  if peek st.s = '+' ∨ peek st.s = '-' then
    match st.s.tail with
    | a :: b :: c :: d :: s =>
      if isDigit a ∧ isDigit b ∧ isDigit c ∧ isDigit d then
        let off := digitVal a * 36000 + digitVal b * 3600 + digitVal c * 600 + digitVal d * 60
        some { st with s := s, tm := { st.tm with gmtoff := if peek st.s = '-' then -off else off } }
      else none
    | _ => none
  else none

/-- `%Z`. -/
def readZone (tzname : List Char × List Char) (st : Scan) : Option Scan :=
  match skipText (· == ·) tzname.1 st.s with
  | some s => some { st with s := s, tm := { st.tm with isdst := 0 } }
  | none =>
    match skipText (· == ·) tzname.2 st.s with
    | some s => some { st with s := s, tm := { st.tm with isdst := 1 } }
    | none => (skipZone st.s).map fun s => { st with s := s }

/-- `%s`, which is only read. -/
def readSecs (st : Scan) : Option Scan :=
  let s := if peek st.s = '-' then st.s.tail else st.s
  if ¬isDigit (peek s) then none else some { st with s := s.dropWhile isDigit }

/-- The conversion `c` with the width `w`; `recu` is `strptime`. -/
def convert (recu : List Char → List Char → LocalTm → Option (List Char × LocalTm)) (loc : TimeLocale)
    (tzname : List Char × List Char) (c : Char) (w : ℤ) (st : Scan) : Option Scan :=
  match c with
  | 'a' | 'A' => st.store (fun v tm => { tm with wday := v })
      (symbolicRange (fun i => if i < 7 then loc.abday i else loc.day (i - 7)) 7 st.s 14)
  | 'b' | 'B' | 'h' => st.store (fun v tm => { tm with mon := v })
      (symbolicRange (fun i => if i < 12 then loc.abmon i else loc.mon (i - 12)) 12 st.s 24)
  | 'c' => st.nested (recu st.s loc.dTFmt st.tm)
  | 'C' => (numericDigits (if w < 0 then 2 else w) 0 st.s).map fun (v, s) =>
      { st with s := s, century := v, wantCentury := st.wantCentury ||| 2 }
  | 'd' | 'e' => st.store (fun v tm => { tm with mday := v }) (numericRange 1 31 0 st.s)
  | 'D' => st.nested (recu st.s "%m/%d/%y".toList st.tm)
  | 'F' =>
    let d := copyDate w st.s
    st.nested ((recu d.1 "%12Y-%m-%d".toList st.tm).map fun (p, tm) => (p ++ d.2, tm))
  | 'H' => st.store (fun v tm => { tm with hour := v }) (numericRange 0 24 0 st.s)
  | 'I' => st.store (fun v tm => { tm with hour := v }) (numericRange 1 12 0 st.s)
  | 'j' => st.store (fun v tm => { tm with yday := v }) (numericRange 1 366 1 st.s)
  | 'm' => st.store (fun v tm => { tm with mon := v }) (numericRange 1 12 1 st.s)
  | 'M' => st.store (fun v tm => { tm with min := v }) (numericRange 0 60 0 st.s)
  | 'n' | 't' => some { st with s := st.s.dropWhile isSpace }
  | 'p' => readAmPm loc st
  | 'r' => st.nested (recu st.s loc.tFmtAmpm st.tm)
  | 'R' => st.nested (recu st.s "%H:%M".toList st.tm)
  | 's' => readSecs st
  | 'S' => st.store (fun v tm => { tm with sec := v }) (numericRange 0 61 0 st.s)
  | 'T' => st.nested (recu st.s "%H:%M:%S".toList st.tm)
  | 'U' | 'W' => st.store (fun _ tm => tm) (numericRange 0 54 0 st.s)
  | 'V' => st.store (fun _ tm => tm) (numericRange 1 53 0 st.s)
  | 'g' => st.store (fun _ tm => tm) (numericDigits 2 0 st.s)
  | 'G' => st.store (fun _ tm => tm) (numericDigits (if w < 0 then 4 else w) 0 st.s)
  | 'u' => st.store (fun v tm => { tm with wday := v }) (numericRange 1 7 0 st.s)
  | 'w' => st.store (fun v tm => { tm with wday := v }) (numericRange 0 7 0 st.s)
  | 'x' => st.nested (recu st.s loc.dFmt st.tm)
  | 'X' => st.nested (recu st.s loc.tFmt st.tm)
  | 'y' => (numericDigits 2 0 st.s).map fun (v, s) =>
      { st with s := s, relyear := v, wantCentury := st.wantCentury ||| 1 }
  | 'Y' => Scan.store { st with wantCentury := 0 } (fun v tm => { tm with year := v })
      (numericDigits (if w < 0 then 4 else w) 1900 st.s)
  | 'z' => readOffset st
  | 'Z' => readZone tzname st
  | '%' => if peek st.s = '%' then some { st with s := st.s.tail } else none
  | _ => none

/-- The width of a conversion, -1 if there is none, and the format from the conversion on. -/
def parseWidth (f : List Char) : ℤ × List Char :=
  let f := if peek f = '+' then f.tail else f
  if isDigit (peek f) then (toInt (strtoul f).1, (strtoul f).2) else (-1, f)

/-- `while (*f)`, for at most so many rounds. -/
def scanLoop (conv : Char → ℤ → Scan → Option Scan) : ℕ → List Char → Scan → Option Scan
  | 0, _, _ => none
  | _ + 1, [], st => some st
  | rounds + 1, c :: f, st =>
    if c ≠ '%' then
      if isSpace c then scanLoop conv rounds f { st with s := st.s.dropWhile isSpace }
      else if peek st.s ≠ c then none
      else scanLoop conv rounds f { st with s := st.s.tail }
    else
      let r := parseWidth f
      match conv (peek r.2) r.1 st with
      | none => none
      | some st => scanLoop conv rounds r.2.tail st

/-- The year from `%C` and `%y`. -/
def Scan.finish (st : Scan) : List Char × LocalTm :=
  if st.wantCentury ≠ 0 then
    let year := if st.wantCentury &&& 2 ≠ 0 then st.relyear + (st.century * 100 - 1900)
      else if st.relyear ≤ 68 then st.relyear + 100 else st.relyear
    (st.s, { st.tm with tm := { st.tm.tm with year := year } })
  else (st.s, st.tm)

/-- `strptime(s, f, tm)`, which may call itself so many times: the rest of the string and `*tm`, no
value for a null pointer. -/
def strptime (loc : TimeLocale) (tzname : List Char × List Char) :
    ℕ → List Char → List Char → LocalTm → Option (List Char × LocalTm)
  | 0, _, _, _ => none
  | depth + 1, s, f, tm =>
    (scanLoop (convert (strptime loc tzname depth) loc tzname) (f.length + 1) f
      ⟨s, tm, 0, 0, 0⟩).map Scan.finish

/-! ### Numbers -/

def NoDigit (rest : List Char) : Prop := isDigit (peek rest) = false

/-- The number of digits that follow `v`. -/
def digitsValue (v : ℤ) (ds : List Char) : ℤ := ds.foldl (fun v c => v * 10 + digitVal c) v

/-- The text consists of digits and denotes the number. -/
structure Denotes (ds : List Char) (n : ℤ) : Prop where
  ne_nil : ds ≠ []
  digits : ∀ c ∈ ds, isDigit c = true
  value : digitsValue 0 ds = n

variable {c : Char} {rest ds run : List Char} {i n v adj year : ℤ} {w : ℕ}

lemma NoDigit.cons (h : NoDigit (c :: rest)) : isDigit c = false := h

lemma rangeLoop_spec {bound : ℤ} (hrest : NoDigit rest) (hds : ∀ c ∈ ds, isDigit c = true) (hi : 0 ≤ i)
    (hbound : i * 10 ^ ds.length ≤ bound * 10) (v : ℤ) :
    rangeLoop bound i v (ds ++ rest) = (digitsValue v ds, rest) := by
  induction ds generalizing i v with
  | nil =>
    cases rest with
    | nil => rfl
    | cons c rest =>
      rw [nil_append, rangeLoop, if_neg (by simp [hrest.cons])]
      rfl
  | cons d ds ih =>
    have hd := hds d mem_cons_self
    rw [length_cons, pow_succ] at hbound
    have hpow : 1 ≤ 10 ^ ds.length := one_le_pow₀ (by norm_num)
    have hle : i ≤ bound := by nlinarith
    rw [cons_append, rangeLoop, if_pos ⟨hle, hd⟩,
      ih (forall_mem_cons.1 hds).2 (by omega) (by rw [mul_assoc, mul_comm 10]; exact hbound)]
    rfl

lemma digitsLoop_spec {w : ℤ} (hrest : NoDigit rest) (hds : ∀ c ∈ ds, isDigit c = true)
    (hw : i + ds.length ≤ w)
    (v : ℤ) : digitsLoop w i v (ds ++ rest) = (digitsValue v ds, rest) := by
  induction ds generalizing i v with
  | nil =>
    cases rest with
    | nil => rfl
    | cons c rest =>
      rw [nil_append, digitsLoop, if_neg (by simp [hrest.cons])]
      rfl
  | cons d ds ih =>
    have hd := hds d mem_cons_self
    rw [length_cons] at hw
    rw [cons_append, digitsLoop, if_pos ⟨by omega, hd⟩, ih (forall_mem_cons.1 hds).2 (by omega)]
    rfl

lemma isDigit_ofNat {d : ℕ} (hd : d < 10) :
    isDigit (Char.ofNat (48 + d)) = true ∧ digitVal (Char.ofNat (48 + d)) = d := by
  interval_cases d <;> decide

lemma digitsValue_map {ds : List ℕ} (hds : ∀ d ∈ ds, d < 10) (v : ℕ) :
    digitsValue v (ds.map fun d => Char.ofNat (48 + d)) = value 10 v ds := by
  induction ds generalizing v with
  | nil => rfl
  | cons d ds ih =>
    have hd := (isDigit_ofNat (hds d mem_cons_self)).2
    have hrec := ih (forall_mem_cons.1 hds).2 (10 * v + d)
    rw [value_cons, ← hrec, map_cons, digitsValue, foldl_cons, hd, digitsValue]
    push_cast
    rw [mul_comm]

lemma Denotes.of_decimal (n : ℕ) : Denotes (decimal n) n := by
  refine ⟨text_ne_nil n, ?_, ?_⟩
  · intro c hc
    obtain ⟨d, hd, rfl⟩ := mem_map.1 hc
    exact (isDigit_ofNat (lt_of_mem_numeral (by decide) hd)).1
  · have hvalue := digitsValue_map (fun d (hd : d ∈ numeral 10 n) => lt_of_mem_numeral (by decide) hd) 0
    rwa [value_numeral] at hvalue

lemma Denotes.zeros (h : Denotes ds n) (k : ℕ) : Denotes (replicate k '0' ++ ds) n := by
  induction k with
  | zero => exact h
  | succ k ih =>
    exact ⟨by simp, forall_mem_cons.2 ⟨by decide, ih.digits⟩, ih.value⟩

lemma Denotes.exists_cons (h : Denotes ds n) : ∃ d ds', ds = d :: ds' ∧ isDigit d = true := by
  cases ds with
  | nil => exact absurd rfl h.ne_nil
  | cons d ds' => exact ⟨d, ds', rfl, h.digits d mem_cons_self⟩

lemma length_sign_le (v : ℤ) : (sign v).length ≤ 1 := by
  rw [sign]
  split_ifs <;> simp

lemma printZeros_nonneg (h0 : 0 ≤ v) (hw : 0 < w) (hv : v < 10 ^ w) :
    Denotes (printZeros w v) v ∧ (printZeros w v).length = w := by
  have hsign : sign v = [] := if_neg (by omega)
  have hlen : (decimal v.natAbs).length ≤ w := by
    refine length_text_le (by decide) hw ?_
    zify
    rwa [abs_of_nonneg h0]
  constructor
  · rw [printZeros, hsign]
    have hden := Denotes.of_decimal v.natAbs
    rw [Int.natAbs_of_nonneg h0] at hden
    exact hden.zeros _
  · simp only [printZeros, printInt, hsign, nil_append, length_append, length_replicate]
    omega

lemma printZeros_neg (h0 : v < 0) (hw : 0 < w) (hv : -v < 10 ^ w) :
    ∃ ds, printZeros w v = '-' :: ds ∧ Denotes ds (-v) ∧ ds.length ≤ w := by
  have hsign : sign v = ['-'] := if_pos h0
  have habs : v.natAbs = -v := by omega
  have hlen : (decimal v.natAbs).length ≤ w := by
    refine length_text_le (by decide) hw ?_
    zify
    rwa [abs_of_neg h0]
  refine ⟨replicate (w - (printInt v).length) '0' ++ decimal v.natAbs, ?_, ?_, ?_⟩
  · rw [printZeros, hsign]
    rfl
  · have hden := Denotes.of_decimal v.natAbs
    rw [habs] at hden
    exact hden.zeros _
  · simp only [printInt, length_append, length_replicate]
    omega

lemma numericRange_spec {min range : ℤ} {t : List Char} (hden : Denotes t v) (hrest : NoDigit rest)
    (hlen : 10 ^ t.length ≤ (min + range) * 10) (hmin : min ≤ v) (hmax : v < min + range)
    (hrange : range < 2 ^ 32) :
    numericRange min range adj (t ++ rest) = some (v - adj, rest) := by
  obtain ⟨d, ds, hcons, hd⟩ := hden.exists_cons
  have hpeek : isDigit (peek (t ++ rest)) = true := by rw [hcons]; exact hd
  have hloop := rangeLoop_spec hrest hden.digits (i := 1) (by decide) (by rwa [one_mul]) 0
  have hu32 : u32 (v - min) = v - min := Int.emod_eq_of_lt (by omega) (by omega)
  simp only [numericRange, hpeek, not_true_eq_false, if_false, hloop, hden.value]
  rw [if_neg (by omega)]

lemma numericDigits_spec {w : ℤ} (hden : Denotes ds |v|) (hrest : NoDigit rest) (hlen : ds.length ≤ w) :
    numericDigits w adj (sign v ++ ds ++ rest) = some (v - adj, rest) := by
  obtain ⟨d, ds', hcons, hd⟩ := hden.exists_cons
  have hpeek : peek (ds ++ rest) = d := by rw [hcons]; rfl
  have hloop := digitsLoop_spec (w := w) (i := 0) hrest hden.digits (by omega) 0
  rw [hden.value] at hloop
  have hne : d ≠ '-' ∧ d ≠ '+' := by
    constructor
    · rintro rfl
      exact absurd hd (by decide)
    · rintro rfl
      exact absurd hd (by decide)
  by_cases hneg : v < 0
  · have hsign : sign v ++ ds ++ rest = '-' :: (ds ++ rest) := by
      rw [sign, if_pos hneg]
      rfl
    have hcond : peek ('-' :: (ds ++ rest)) = '+' ∨ peek ('-' :: (ds ++ rest)) = '-' := .inr rfl
    simp only [numericDigits, hsign, if_pos hcond, tail_cons, hpeek, hd, not_true_eq_false,
      if_false, hloop]
    rw [show peek ('-' :: (ds ++ rest)) = '-' from rfl]
    simp [abs_of_neg hneg]
  · have hsign : sign v ++ ds ++ rest = ds ++ rest := by
      rw [sign, if_neg hneg]
      rfl
    have hcond : ¬(d = '+' ∨ d = '-') := fun h => h.elim hne.2 hne.1
    simp only [numericDigits, hsign, hpeek, if_neg hcond, hd, not_true_eq_false, hloop]
    simp [hne.1, abs_of_nonneg (not_lt.1 hneg)]

/-! ### Formats as sequences of pieces -/

/-- A conversion of a format with what is printed for it, what reading it does, and the literal
characters that follow. -/
structure Piece where
  spec : List Char
  conv : Char
  width : ℤ
  text : List Char
  set : LocalTm → LocalTm
  run : List Char

def format (ps : List Piece) : List Char := ps.flatMap fun p => '%' :: (p.spec ++ p.run)

def output (ps : List Piece) : List Char := ps.flatMap fun p => p.text ++ p.run

def setAll (ps : List Piece) (tm : LocalTm) : LocalTm := ps.foldl (fun tm p => p.set tm) tm

def NoSpace (rest : List Char) : Prop := isSpace (peek rest) = false

def Literal (c : Char) : Prop := c ≠ '%' ∧ c ≠ '\x00' ∧ isDigit c = false

/-- `strftime` prints the text of the piece. -/
structure Piece.Prints (conv : Char → Option Char → Option (List Char)) (p : Piece) : Prop where
  spec : ∀ f, parseSpec (p.spec ++ f) = ⟨none, false, 0, p.conv, p.conv :: f⟩
  text : conv p.conv none = some p.text

/-- `strptime` reads the text of the piece, whatever comes after it unless it is a digit. -/
structure Piece.Reads (conv : Char → ℤ → Scan → Option Scan) (p : Piece) : Prop where
  spec : ∀ f, parseWidth (p.spec ++ f) = (p.width, p.conv :: f)
  text : ∀ rest tm, NoDigit rest → conv p.conv p.width ⟨p.text ++ rest, tm, 0, 0, 0⟩ = some ⟨rest,
    p.set tm, 0, 0, 0⟩
  noSpace : ∀ rest, NoSpace (p.text ++ rest)

/-- The runs consist of literal characters, and only the last one may be empty. -/
def Separated : List (List Char) → Prop
  | [] => True
  | run :: runs => (∀ c ∈ run, Literal c) ∧ (run = [] → runs = []) ∧ Separated runs

lemma formatLoop_run {conv : Char → Option Char → Option (List Char)} {n : ℕ}
    (hrun : ∀ c ∈ run, c ≠ '%') (rounds : ℕ)
    (f out : List Char) (hn : out.length + run.length < n) :
    formatLoop conv year n (rounds + run.length)
    (run ++ f) out = formatLoop conv year n rounds f (out ++ run) := by
  induction run generalizing out with
  | nil => rw [append_nil, nil_append, length_nil, add_zero]
  | cons c run ih =>
    rw [length_cons] at hn
    rw [length_cons, ← add_assoc, cons_append, formatLoop, if_neg (by omega)]
    simp only [if_pos (hrun c mem_cons_self)]
    rw [ih (forall_mem_cons.1 hrun).2 (out ++ [c])
      (by rw [length_append, length_singleton]; omega), append_assoc]
    rfl

variable {ps : List Piece} {conv : Char → ℤ → Scan → Option Scan}

/-- **The pieces are printed one after the other.** -/
theorem formatLoop_pieces {conv : Char → Option Char → Option (List Char)} {n : ℕ}
    (hps : ∀ p ∈ ps, p.Prints conv)
    (hsep : Separated (ps.map Piece.run)) (rounds : ℕ) (out : List Char)
    (hn : out.length + (output ps).length < n) (hrounds : (format ps).length < rounds) :
    formatLoop conv year n rounds (format ps) out = some (out ++ output ps) := by
  induction ps generalizing out rounds with
  | nil =>
    obtain _ | k := rounds
    · omega
    have hlt : ¬out.length ≥ n := by
      omega
    rw [show format [] = [] from rfl, formatLoop, if_neg hlt]
    simp [output]
  | cons p ps ih =>
    obtain ⟨hspec, htext⟩ := hps p mem_cons_self
    obtain ⟨hlit, -, hsep⟩ := hsep
    have hformat : format (p :: ps) = '%' :: (p.spec ++ (p.run ++ format ps)) := by simp [format]
    have houtput : output (p :: ps) = p.text ++ p.run ++ output ps := by simp [output]
    rw [houtput, length_append, length_append] at hn
    rw [hformat, length_cons, length_append, length_append] at hrounds
    obtain ⟨k, rfl⟩ : ∃ k, rounds = k + p.run.length + 1 := ⟨rounds - p.run.length - 1, by omega⟩
    rw [hformat, formatLoop, if_neg (by omega)]
    simp only [ne_eq, hspec]
    rw [show peek (p.conv :: (p.run ++ format ps)) = p.conv from rfl, htext]
    simp only [tail_cons, putField, ne_eq, not_true_eq_false, if_false]
    rw [take_of_length_le (by omega),
      formatLoop_run (fun c hc => (hlit c hc).1) k _ _ (by rw [length_append]; omega),
      ih (forall_mem_cons.1 hps).2 hsep k _ (by simp only [length_append]; omega) (by omega), houtput]
    simp

lemma dropWhile_append_noSpace (hrest : NoSpace rest) :
    (run ++ rest).dropWhile isSpace = run.dropWhile isSpace ++ rest := by
  induction run with
  | nil =>
    cases rest with
    | nil => rfl
    | cons c rest =>
      have hc : isSpace c = false := hrest
      simp [hc]
  | cons c run ih =>
    rw [cons_append, dropWhile_cons, dropWhile_cons]
    split_ifs
    · exact ih
    · rfl

/-- Literal characters match themselves.  White space in the format skips all white space that was
printed, so that the rest of it matches nothing. -/
lemma scanLoop_run (hrun : ∀ c ∈ run, c ≠ '%')
    (hspace : (∀ c ∈ run, isSpace c = false) ∨ NoSpace rest) (rounds : ℕ)
    (f : List Char) (tm : LocalTm) {s : List Char}
    (hs : s = run ++ rest ∨ s = run.dropWhile isSpace ++ rest) :
    scanLoop conv (rounds + run.length)
    (run ++ f) ⟨s, tm, 0, 0, 0⟩ = scanLoop conv rounds f ⟨rest, tm, 0, 0, 0⟩ := by
  induction run generalizing s with
  | nil =>
    obtain rfl : s = rest := by simpa using hs
    rfl
  | cons c run ih =>
    have hrun' := (forall_mem_cons.1 hrun).2
    have hspace' : (∀ c ∈ run, isSpace c = false) ∨ NoSpace rest :=
      hspace.imp_left fun h c' hc' => h c' (mem_cons_of_mem c hc')
    rw [length_cons, ← add_assoc, cons_append, scanLoop, if_pos (hrun c mem_cons_self)]
    by_cases hc : isSpace c = true
    · have hrest : NoSpace rest := hspace.resolve_left fun h => by simp [h c mem_cons_self] at hc
      rw [if_pos hc]
      refine ih hrun' hspace' (.inr ?_)
      rcases hs with rfl | rfl
      · rw [dropWhile_append_noSpace hrest, dropWhile_cons, if_pos hc]
      · rw [dropWhile_append_noSpace hrest, dropWhile_cons, if_pos hc, dropWhile_idempotent]
    · have hs' : s = c :: (run ++ rest) := by
        rcases hs with rfl | rfl
        · rfl
        · rw [dropWhile_cons, if_neg hc]
          rfl
      rw [if_neg hc, hs']
      simp only [show peek (c :: (run ++ rest)) = c from rfl, ne_eq]
      exact ih hrun' hspace' (.inl rfl)

lemma output_noSpace (hps : ∀ p ∈ ps, p.Reads conv) (hne : ps ≠ []) (rest : List Char) :
    NoSpace (output ps ++ rest) := by
  obtain ⟨p, ps, rfl⟩ := exists_cons_of_ne_nil hne
  have hp := (hps p mem_cons_self).noSpace (p.run ++ output ps ++ rest)
  rwa [show p.text ++ (p.run ++ output ps ++ rest) = output (p :: ps) ++ rest by simp [output]] at hp

/-- **The pieces are read one after the other.** -/
theorem scanLoop_pieces (hps : ∀ p ∈ ps, p.Reads conv) (hsep : Separated (ps.map Piece.run))
    (hrest : NoDigit rest)
    (hspace : (∀ p ∈ ps, ∀ c ∈ p.run, isSpace c = false) ∨ NoSpace rest) (rounds : ℕ) (tm : LocalTm)
    (hrounds : (format ps).length < rounds) :
    scanLoop conv rounds (format ps) ⟨output ps ++ rest, tm, 0, 0, 0⟩ = some ⟨rest, setAll ps tm, 0,
      0, 0⟩ := by
  induction ps generalizing tm rounds with
  | nil =>
    obtain _ | k := rounds
    · omega
    rfl
  | cons p ps ih =>
    obtain ⟨hspec, htext, -⟩ := hps p mem_cons_self
    obtain ⟨hlit, hlast, hsep⟩ := hsep
    have hformat : format (p :: ps) = '%' :: (p.spec ++ (p.run ++ format ps)) := by simp [format]
    have houtput : output (p :: ps) ++ rest = p.text ++ (p.run ++ (output ps ++ rest)) := by simp [output]
    rw [hformat, length_cons, length_append, length_append] at hrounds
    obtain ⟨k, rfl⟩ : ∃ k, rounds = k + p.run.length + 1 := ⟨rounds - p.run.length - 1, by omega⟩
    have hdigit : NoDigit (p.run ++ (output ps ++ rest)) := by
      cases hrun : p.run with
      | nil =>
        rw [map_eq_nil_iff.1 (hlast hrun)]
        exact hrest
      | cons c run => exact (hlit c (hrun ▸ mem_cons_self)).2.2
    have hnext : (∀ c ∈ p.run, isSpace c = false) ∨ NoSpace (output ps ++ rest) := by
      by_cases hnil : ps = []
      · subst hnil
        exact hspace.imp_left fun h => h p mem_cons_self
      · exact .inr (output_noSpace (forall_mem_cons.1 hps).2 hnil rest)
    rw [hformat, houtput, scanLoop]
    simp only [hspec]
    rw [show peek (p.conv :: (p.run ++ format ps)) = p.conv from rfl, htext _ tm hdigit]
    simp only [tail_cons]
    rw [scanLoop_run (fun c hc => (hlit c hc).1) hnext k (format ps) (p.set tm) (.inl rfl)]
    exact ih (forall_mem_cons.1 hps).2 hsep (hspace.imp_left fun h q hq => h q (mem_cons_of_mem p hq))
      k (p.set tm) (by omega)

/-! ### The conversions -/

/-- The fields are in their ranges, and the year has at most four digits. -/
structure InRange (tm : Tm) : Prop where
  year : -9999 ≤ tm.year + 1900 ∧ tm.year + 1900 ≤ 9999
  mon : 0 ≤ tm.mon ∧ tm.mon ≤ 11
  mday : 1 ≤ tm.mday ∧ tm.mday ≤ 31
  hour : 0 ≤ tm.hour ∧ tm.hour ≤ 23
  min : 0 ≤ tm.min ∧ tm.min ≤ 59
  sec : 0 ≤ tm.sec ∧ tm.sec ≤ 60
  yday : 0 ≤ tm.yday ∧ tm.yday ≤ 365

lemma isSpace_of_isDigit (h : isDigit c = true) : isSpace c = false := by
  simp only [isDigit, Bool.and_eq_true, decide_eq_true_eq] at h
  have hspace : c ≠ ' ' := by
    rintro rfl
    exact absurd h.1 (by decide)
  have hle : ¬c ≤ '\r' := fun hle => absurd (h.1.trans hle) (by decide)
  simp [isSpace, hspace, hle]

lemma Denotes.noSpace (h : Denotes ds n) (rest : List Char) : NoSpace (ds ++ rest) := by
  obtain ⟨d, -, rfl, hd⟩ := h.exists_cons
  exact isSpace_of_isDigit hd

def field (c : Char) (w : ℕ) (v : ℤ) (set : LocalTm → LocalTm) (run : List Char) : Piece :=
  ⟨[c], c, -1, printZeros w v, set, run⟩

lemma field_reads {set : LocalTm → LocalTm} (min range adj : ℤ) (setField : ℤ → Tm → Tm)
    (hconv : ∀ st, conv c (-1) st = st.store setField (numericRange min range adj st.s))
    (hset : ∀ tm, { tm with tm := setField (v - adj) tm.tm } = set tm)
    (hspec : ∀ f, parseWidth (c :: f) = (-1, c :: f))
    (h0 : 0 ≤ v) (hw : 0 < w) (hv : v < 10 ^ w) (hlen : 10 ^ w ≤ (min + range) * 10) (hmin : min ≤ v)
    (hmax : v < min + range) (hrange : range < 2 ^ 32) : (field c w v set run).Reads conv := by
  obtain ⟨hden, hlength⟩ := printZeros_nonneg h0 hw hv
  refine ⟨hspec, ?_, hden.noSpace⟩
  intro rest tm hrest
  simp only [field, hconv]
  rw [numericRange_spec hden hrest (by rwa [hlength]) hmin hmax hrange, ← hset]
  rfl

/-- The fields of a `struct tm` that are printed as numbers. -/
inductive Field where
  | year | mon | mday | hour | min | sec | yday
  deriving DecidableEq, Repr

namespace Field

def get : Field → Tm → ℤ
  | .year, tm => tm.year
  | .mon, tm => tm.mon
  | .mday, tm => tm.mday
  | .hour, tm => tm.hour
  | .min, tm => tm.min
  | .sec, tm => tm.sec
  | .yday, tm => tm.yday

def set : Field → ℤ → Tm → Tm
  | .year, v, tm => { tm with year := v }
  | .mon, v, tm => { tm with mon := v }
  | .mday, v, tm => { tm with mday := v }
  | .hour, v, tm => { tm with hour := v }
  | .min, v, tm => { tm with min := v }
  | .sec, v, tm => { tm with sec := v }
  | .yday, v, tm => { tm with yday := v }

/-- The conversion of a field, the number of digits, and `min`, `range` and `adj` in `strptime`. -/
def row : Field → Char × ℕ × ℤ × ℤ × ℤ
  | .year => ('Y', 4, 0, 0, 1900)
  | .mon => ('m', 2, 1, 12, 1)
  | .mday => ('d', 2, 1, 31, 0)
  | .hour => ('H', 2, 0, 24, 0)
  | .min => ('M', 2, 0, 60, 0)
  | .sec => ('S', 2, 0, 61, 0)
  | .yday => ('j', 3, 1, 366, 1)

lemma row_ok : ∀ fld : Field, fld ≠ .year →
    0 ≤ fld.row.2.2.1 ∧ 0 < fld.row.2.1 ∧ fld.row.2.2.1 + fld.row.2.2.2.1 ≤ 10 ^ fld.row.2.1 ∧
      10 ^ fld.row.2.1 ≤ (fld.row.2.2.1 + fld.row.2.2.2.1) * 10 ∧ fld.row.2.2.2.1 < 2 ^ 32
  | .year, h => absurd rfl h
  | .mon, _ | .mday, _ | .hour, _ | .min, _ | .sec, _ | .yday, _ => by decide

def shown (fld : Field) (tm : Tm) : ℤ := fld.get tm + fld.row.2.2.2.2

def piece (tm : LocalTm) (fld : Field) : List Char → Piece :=
  field fld.row.1 fld.row.2.1 (fld.shown tm.tm) fun x => { x with tm := fld.set (fld.get tm.tm) x.tm }

end Field

def marked (tm : LocalTm) (mark : Char) : List Field → List Piece
  | [] => []
  | [fld] => [fld.piece tm []]
  | fld :: fld' :: fs => fld.piece tm [mark] :: marked tm mark (fld' :: fs)

section Pieces

variable {tm : LocalTm} (h : InRange tm.tm) (fld : Field) (run : List Char)
  (recu : List Char → List Char → LocalTm → Option (List Char × LocalTm)) (loc : TimeLocale)
  (tzname : List Char × List Char)

include h

lemma InRange.shown (hfld : fld ≠ .year) :
    fld.row.2.2.1 ≤ fld.shown tm.tm ∧ fld.shown tm.tm < fld.row.2.2.1 + fld.row.2.2.2.1 := by
  obtain ⟨-, hmon, hmday, hhour, hmin, hsec, hyday⟩ := h
  cases fld <;> simp only [Field.shown, Field.get, Field.row] <;> first | omega | exact absurd rfl hfld

lemma year_text : ∃ ds, printZeros 4 (tm.tm.year + 1900) = sign (tm.tm.year + 1900) ++ ds ∧
    Denotes ds |tm.tm.year + 1900| ∧ ds.length ≤ 4 := by
  have hv := h.year
  by_cases hneg : tm.tm.year + 1900 < 0
  · obtain ⟨ds, htext, hden, hlen⟩ := printZeros_neg hneg (w := 4) (by decide) (by omega)
    exact ⟨ds, by rw [htext, sign, if_pos hneg]; rfl, by rwa [abs_of_neg hneg], hlen⟩
  · obtain ⟨hden, hlen⟩ := printZeros_nonneg (not_lt.1 hneg) (w := 4) (by decide) (by omega)
    exact ⟨_, by rw [sign, if_neg hneg]; rfl, by rwa [abs_of_nonneg (not_lt.1 hneg)], hlen.le⟩

variable {ds rest : List Char} {n v : ℤ} {depth : ℕ} {ps : List Piece} {c : Char} {fs : List Field}

omit h in
lemma year_noSpace (hden : Denotes ds n) (rest : List Char) : NoSpace (sign v ++ ds ++ rest) := by
  rw [sign]
  split_ifs
  · exact (rfl : isSpace '-' = false)
  · exact hden.noSpace rest

omit h in
lemma year_reads (spec : List Char) {w : ℤ} (hspec : ∀ f, parseWidth (spec ++ f) = (w, 'Y' :: f))
    (hden : Denotes ds |tm.tm.year + 1900|) (hlen : ds.length ≤ if w < 0 then 4 else w) :
    Piece.Reads (convert recu loc tzname)
      { Field.year.piece tm run with
        spec := spec, width := w, text := sign (tm.tm.year + 1900) ++ ds } := by
  refine ⟨hspec, ?_, year_noSpace hden⟩
  intro rest x hrest
  have hconv : ∀ st, convert recu loc tzname 'Y' w st = Scan.store { st with wantCentury := 0 }
      (fun v tm => { tm with year := v }) (numericDigits (if w < 0 then 4 else w) 1900 st.s) :=
        fun st => rfl
  simp only [Field.piece, field, Field.row, hconv]
  rw [numericDigits_spec hden hrest hlen]
  simp [Scan.store, Field.set, Field.get]

lemma Field.piece_reads : (fld.piece tm run).Reads (convert recu loc tzname) := by
  by_cases hfld : fld = .year
  · subst hfld
    obtain ⟨ds, htext, hden, hlen⟩ := year_text h
    have hreads :=
      year_reads run recu loc tzname ['Y'] (w := -1) (fun f => rfl) hden (by simpa using hlen)
    rwa [← htext] at hreads
  have hv := h.shown fld hfld
  have hrow := fld.row_ok hfld
  refine field_reads fld.row.2.2.1 fld.row.2.2.2.1 fld.row.2.2.2.2 fld.set (fun st => ?_) (fun x =>
    ?_) (fun f => ?_)
    (by omega) hrow.2.1 (by omega) hrow.2.2.2.1 hv.1 hv.2 hrow.2.2.2.2
  · cases fld <;> first | rfl | exact absurd rfl hfld
  · rw [shown, add_sub_cancel_right]
  · cases fld <;> rfl

omit h in
lemma skipZeros_of_ne {d : Char} (hd : d ≠ '0') (t : List Char) : skipZeros (d :: t) = d :: t := by
  unfold skipZeros
  split
  · next heq => exact absurd (cons.inj heq).1 hd
  · rfl

omit h in
lemma skipZeros_spec (hden : Denotes ds n) (hrest : NoDigit rest) :
    ∃ ds', skipZeros (ds ++ rest) = ds' ++ rest ∧ Denotes ds' n ∧ ds'.length ≤ ds.length := by
  induction ds with
  | nil => exact absurd rfl hden.ne_nil
  | cons d ds ih =>
    by_cases hd : d = '0'
    · subst hd
      cases ds with
      | nil =>
        refine ⟨['0'], ?_, hden, le_rfl⟩
        cases rest with
        | nil => rfl
        | cons c rest =>
          have hc : isDigit c = false := hrest
          simp [skipZeros, hc]
      | cons e ds =>
        have hden' : Denotes (e :: ds) n := ⟨by simp, (forall_mem_cons.1 hden.digits).2, hden.value⟩
        obtain ⟨ds', heq, hds', hlen⟩ := ih hden'
        refine ⟨ds', ?_, hds', le_succ_of_le hlen⟩
        rw [← heq]
        simp [skipZeros, hden'.digits e mem_cons_self]
    · exact ⟨d :: ds, skipZeros_of_ne hd _, hden, le_rfl⟩

omit h in
lemma parseWidth_12 (f : List Char) : parseWidth ('1' :: '2' :: 'Y' :: f) = (12, 'Y' :: f) := by
  have hdigits : ∀ c ∈ [49, 50], Stdlib.Strtol.IsDigit 10 c := by
    exact forall_mem_cons.2 ⟨⟨1, by decide, rfl⟩, forall_mem_singleton.2 ⟨2, by decide, rfl⟩⟩
  have hstop : ¬Stdlib.Strtol.IsDigit 10 89 := by
    rintro ⟨d, hd, hval⟩
    have h34 : d = 34 := (Option.some.inj hval).symm
    omega
  have hnum : Stdlib.Strtol.strtoul ([49, 50] ++ 89 :: f.map Char.toUInt8) 10 = (12, none, 2) :=
    Stdlib.Strtol.strtoul_of_digits (by simp) hdigits hstop (by decide)
  have hwidth : strtoul ('1' :: '2' :: 'Y' :: f) = (12, 'Y' :: f) := by
    have hmap : ('1' :: '2' :: 'Y' :: f).map Char.toUInt8 = [49, 50] ++ 89 :: f.map Char.toUInt8 := rfl
    rw [strtoul, hmap, hnum]
    rfl
  have hcond : ¬peek ('1' :: '2' :: 'Y' :: f) = '+' := by
    show ¬ '1' = '+'
    decide
  have hdigit : isDigit (peek ('1' :: '2' :: 'Y' :: f)) = true := rfl
  have hint : toInt ((12 : ℕ) : ℤ) = 12 := by decide
  rw [parseWidth, if_neg hcond, if_pos hdigit, hwidth, hint]

omit h in
lemma strptime_pieces (hps : ∀ p ∈ ps, p.Reads (convert (strptime loc tzname depth) loc tzname))
    (hsep : Separated (ps.map Piece.run)) (hrest : NoDigit rest)
    (hspace : (∀ p ∈ ps, ∀ c ∈ p.run, isSpace c = false) ∨ NoSpace rest) (x : LocalTm) :
    strptime loc tzname (depth + 1) (output ps ++ rest) (format ps) x = some (rest, setAll ps x) := by
  rw [strptime, scanLoop_pieces hps hsep hrest hspace _ x (lt_succ_self _)]
  rfl

def composite (c : Char) (ps : List Piece) (run : List Char) : Piece :=
  ⟨[c], c, -1, output ps, setAll ps, run⟩

omit h in
lemma marked_runs (tm : LocalTm) (hc : c = ':' ∨ c = '-') (fs : List Field) :
    Separated ((marked tm c fs).map Piece.run) ∧
    ∀ p ∈ marked tm c fs, ∀ x ∈ p.run, isSpace x = false := by
  have hlit : Literal c ∧ isSpace c = false := by
    rcases hc with rfl | rfl <;> exact ⟨by unfold Literal; decide, by decide⟩
  induction fs with
  | nil => simp [marked, Separated]
  | cons fld fs ih =>
    cases fs with
    | nil => simp [marked, Separated, Field.piece, field]
    | cons fld' fs => simpa [marked, Separated, Field.piece, field, hlit] using ih

lemma marked_reads (mark : Char) (fs : List Field) :
    ∀ p ∈ marked tm mark fs, p.Reads (convert recu loc tzname) := by
  induction fs with
  | nil => simp [marked]
  | cons fld fs ih =>
    cases fs with
    | nil => simpa [marked] using fld.piece_reads h [] recu loc tzname
    | cons fld' fs => exact forall_mem_cons.2 ⟨fld.piece_reads h [mark] recu loc tzname, ih⟩

lemma markedPiece_reads (hc : c = ':' ∨ c = '-') (hne : fs ≠ []) {d : Char}
    (hconv : ∀ st, convert (strptime loc tzname (depth + 1)) loc tzname d (-1) st =
      st.nested (strptime loc tzname (depth + 1) st.s (format (marked tm c fs)) st.tm))
    (hspec : ∀ f, parseWidth (d :: f) = (-1, d :: f)) :
    (composite d (marked tm c fs) run).Reads (convert (strptime loc tzname (depth + 1)) loc tzname) := by
  obtain ⟨hsep, hspace⟩ := marked_runs tm hc fs
  have hps := marked_reads h (strptime loc tzname depth) loc tzname c fs
  refine ⟨hspec, ?_, ?_⟩
  · intro rest x hrest
    simp only [composite, hconv]
    rw [strptime_pieces loc tzname hps hsep hrest (.inl hspace) x]
    rfl
  · exact output_noSpace hps
      (by cases fs with | nil => exact absurd rfl hne | cons f fs => cases fs <;> simp [marked])

lemma length_marked (mark : Char) (fs : List Field) (hne : fs ≠ []) (hfs : .year ∉ fs) :
    (output (marked tm mark fs)).length + 1 = (fs.map fun fld => fld.row.2.1 + 1).sum := by
  induction fs with
  | nil => exact absurd rfl hne
  | cons fld fs ih =>
    rw [mem_cons, not_or] at hfs
    have hv := h.shown fld (Ne.symm hfs.1)
    have hrow := fld.row_ok (Ne.symm hfs.1)
    have hlen := (printZeros_nonneg (v := fld.shown tm.tm) (by omega) hrow.2.1 (by omega)).2
    cases fs with
    | nil => simp [marked, output, Field.piece, field, hlen]
    | cons fld' fs =>
      have hrec := ih (by simp) hfs.2
      rw [marked, output, flatMap_cons, ← output, map_cons, sum_cons]
      simp only [Field.piece, field, length_append, length_singleton]
      omega

def dayPieces (tm : LocalTm) : List Piece := marked tm '-' [.mon, .mday]

lemma copyDate_spec (rest : List Char) : ∃ ds k, Denotes ds |tm.tm.year + 1900| ∧ ds.length ≤ 4 ∧
      copyDate (-1) (output (marked tm '-' [.year, .mon, .mday]) ++ rest) =
        (sign (tm.tm.year + 1900) ++ ds ++ '-' :: output (dayPieces tm) ++ rest.take k, rest.drop k) := by
  obtain ⟨ds, htext, hden, hlen⟩ := year_text h
  obtain ⟨tail, htail⟩ : ∃ tail, tail = '-' :: output (dayPieces tm) := ⟨_, rfl⟩
  have htailLen : tail.length = 6 := by
    rw [htail]
    exact length_marked h '-' _ (by simp) (by decide)
  have hnodigit : NoDigit (tail ++ rest) := by
    rw [htail]
    exact (rfl : isDigit '-' = false)
  obtain ⟨ds', hskip, hden', hlen'⟩ := skipZeros_spec hden hnodigit
  have hout : output (marked tm '-' [.year, .mon, .mday]) ++ rest =
      sign (tm.tm.year + 1900) ++ (ds ++ (tail ++ rest)) := by
    have hyear : (Field.year.piece tm ['-']).text = sign (tm.tm.year + 1900) ++ ds := htext
    rw [htail, marked, output, flatMap_cons, hyear]
    simp [Field.piece, field, dayPieces, output]
  -- the sign is copied, and what follows it
  have hsign : (if peek (sign (tm.tm.year + 1900) ++ (ds ++ (tail ++ rest))) = '-' ∨
      peek (sign (tm.tm.year + 1900) ++ (ds ++ (tail ++ rest))) = '+' then
        (sign (tm.tm.year + 1900) ++ (ds ++ (tail ++ rest))).take 1
          else []) = sign (tm.tm.year + 1900) := by
    obtain ⟨d, -, rfl, hd⟩ := hden.exists_cons
    by_cases hneg : tm.tm.year + 1900 < 0
    · rw [sign, if_pos hneg]
      rfl
    · have hcond : ¬(d = '-' ∨ d = '+') := by
        rintro (rfl | rfl)
        · exact absurd hd (by decide)
        · exact absurd hd (by decide)
      rw [sign, if_neg hneg]
      exact if_neg hcond
  refine ⟨ds', 19 - (sign (tm.tm.year + 1900)).length - (ds'.length + 6), hden', hlen'.trans hlen, ?_⟩
  have hsignLen := length_sign_le (tm.tm.year + 1900)
  have hroom : min (if (-1 : ℤ) < 0 then 19 else (-1 : ℤ).toNat) 19 = 19 := by decide
  rw [hout, copyDate]
  simp only [hsign, drop_left, hskip, hroom]
  rw [← append_assoc ds', take_append, drop_append, take_of_length_le (by rw [length_append]; omega),
    drop_of_length_le (by rw [length_append]; omega), length_append, htailLen, htail]
  simp

omit h in
lemma NoDigit.take (hrest : NoDigit rest) (k : ℕ) : NoDigit (rest.take k) := by
  cases k with
  | zero => exact (rfl : isDigit '\x00' = false)
  | succ k =>
    cases rest with
    | nil => exact (rfl : isDigit '\x00' = false)
    | cons c rest => exact hrest

lemma datePiece_reads (depth : ℕ) : (composite 'F' (marked tm '-' [.year, .mon, .mday]) run).Reads
    (convert (strptime loc tzname (depth + 1)) loc tzname) := by
  have hdate := marked_reads h (strptime loc tzname depth) loc tzname '-' [.year, .mon, .mday]
  refine ⟨fun f => rfl, ?_, output_noSpace hdate (by simp [marked])⟩
  intro rest x hrest
  obtain ⟨ds, k, hden, hlen, hcopy⟩ := copyDate_spec h rest
  -- the date as it is read from `tmp`
  obtain ⟨y, hy⟩ : ∃ y, y = { Field.year.piece tm ['-'] with
    spec := ['1', '2', 'Y'], width := 12, text := sign (tm.tm.year + 1900) ++ ds } := ⟨_, rfl⟩
  have hps : ∀ p ∈ y :: dayPieces tm, p.Reads (convert (strptime loc tzname depth) loc tzname) :=
    forall_mem_cons.2 ⟨hy ▸ year_reads _ _ loc tzname _ parseWidth_12 hden (by norm_num; omega),
      marked_reads h _ loc tzname '-' [.mon, .mday]⟩
  obtain ⟨hsep, hspace⟩ := marked_runs tm (.inr rfl) [.year, .mon, .mday]
  have hread := strptime_pieces loc tzname hps (by subst hy; exact hsep) (hrest.take k)
    (.inl (by subst hy; exact forall_mem_cons.2 (forall_mem_cons.1 hspace))) x
  have hconv : ∀ recu st, convert recu loc tzname 'F' (-1) st = st.nested
      ((recu (copyDate (-1) st.s).1 (format (y :: dayPieces tm)) st.tm).map fun r =>
        (r.1 ++ (copyDate (-1) st.s).2, r.2)) := by
    subst hy
    exact fun recu st => rfl
  have htmp : sign (tm.tm.year + 1900) ++ ds ++ '-' :: output (dayPieces tm) =
      output (y :: dayPieces tm) := by
    simp [output, hy, Field.piece, field]
  have hset : setAll (y :: dayPieces tm) x = setAll (marked tm '-' [.year, .mon, .mday]) x := by
    subst hy
    rfl
  simp only [composite, hconv, hcopy, htmp, hread, hset, Option.map_some, take_append_drop]
  rfl

omit h in
lemma strftimeL_pieces {n : ℕ} (hps : ∀ p ∈ ps, p.Prints (fmt1 (strftimeL loc tm depth 100) loc tm))
    (hsep : Separated (ps.map Piece.run)) (hn : (output ps).length < n) :
    strftimeL loc tm (depth + 1) n (format ps) = some (output ps) := by
  rw [strftimeL, formatLoop_pieces hps hsep _ _ (by simpa using hn) (lt_succ_self _)]
  rfl

omit h in
lemma parseSpec_plain (hflag : c ∉ ['-', '_', '0', '+', 'E', 'O']) (hdigit : isDigit c = false)
    (f : List Char) :
    parseSpec (c :: f) = ⟨none, false, 0, c, c :: f⟩ := by
  simp only [mem_cons, not_or] at hflag
  obtain ⟨h1, h2, h3, h4, h5, h6⟩ := hflag
  simp [parseSpec, peek, h1, h2, h3, h4, h5, h6, hdigit]

lemma Field.piece_prints (out : List Char → Option (List Char)) :
    (fld.piece tm run).Prints (fmt1 out loc tm) := by
  refine ⟨fun f => parseSpec_plain (by cases fld <;> decide) (by cases fld <;> decide) f, ?_⟩
  have hv := h.year
  cases fld with
  | year =>
    show (if _ then _ else _) = _
    rw [if_neg (by omega)]
    rfl
  | mon | yday => rfl
  | _ => simp only [Field.piece, Field.shown, Field.row, add_zero]; rfl

lemma marked_prints (mark : Char) (fs : List Field) (out : List Char → Option (List Char)) :
    ∀ p ∈ marked tm mark fs, p.Prints (fmt1 out loc tm) := by
  induction fs with
  | nil => simp [marked]
  | cons fld fs ih =>
    cases fs with
    | nil => simpa [marked] using fld.piece_prints h [] loc out
    | cons fld' fs => exact forall_mem_cons.2 ⟨fld.piece_prints h [mark] loc out, ih⟩

lemma markedPiece_prints (hc : c = ':' ∨ c = '-') {d : Char}
    (hconv : fmt1 (strftimeL loc tm (depth + 1) 100) loc tm d none =
      recuStrftime (strftimeL loc tm (depth + 1) 100) (format (marked tm c fs)))
    (hspec : ∀ f, parseSpec (d :: f) = ⟨none, false, 0, d, d :: f⟩)
    (hlen : 0 < (output (marked tm c fs)).length ∧ (output (marked tm c fs)).length < 100) :
    (composite d (marked tm c fs) run).Prints (fmt1 (strftimeL loc tm (depth + 1) 100) loc tm) := by
  refine ⟨hspec, ?_⟩
  obtain ⟨x, t, hcons⟩ := exists_cons_of_ne_nil (ne_nil_of_length_pos hlen.1)
  simp only [composite, hconv, recuStrftime]
  rw [strftimeL_pieces loc (marked_prints h loc c fs _) (marked_runs tm hc fs).1 hlen.2, hcons]

lemma length_date : 0 < (output (marked tm '-' [.year, .mon, .mday])).length ∧
    (output (marked tm '-' [.year, .mon, .mday])).length < 100 := by
  obtain ⟨ds, htext, -, hlen⟩ := year_text h
  have hsign := length_sign_le (tm.tm.year + 1900)
  have hday := length_marked h '-' [.mon, .mday] (by simp) (by decide)
  have hyear : (Field.year.piece tm ['-']).text = sign (tm.tm.year + 1900) ++ ds := htext
  rw [marked, output, flatMap_cons, hyear, ← output]
  simp only [length_append, Field.piece, field, length_singleton]
  simp only [Field.row, map_cons, map_nil, sum_cons, sum_nil] at hday
  omega

end Pieces

/-! ### The round trip -/

inductive Conv where
  | Y | m | d | H | M | S | j | F | R | T
  deriving DecidableEq, Repr

namespace Conv

def char : Conv → Char
  | Y => 'Y'
  | m => 'm'
  | d => 'd'
  | H => 'H'
  | M => 'M'
  | S => 'S'
  | j => 'j'
  | F => 'F'
  | R => 'R'
  | T => 'T'

def fields : Conv → List Field
  | Y => [.year]
  | m => [.mon]
  | d => [.mday]
  | H => [.hour]
  | M => [.min]
  | S => [.sec]
  | j => [.yday]
  | F => [.year, .mon, .mday]
  | R => [.hour, .min]
  | T => [.hour, .min, .sec]

def piece (tm : LocalTm) (c : Conv) : List Char → Piece :=
  match c with
  | F => composite 'F' (marked tm '-' F.fields)
  | R => composite 'R' (marked tm ':' R.fields)
  | T => composite 'T' (marked tm ':' T.fields)
  | c => (c.fields.headD .year).piece tm

variable {tm : LocalTm} (c : Conv) (run : List Char)

lemma piece_spec : (c.piece tm run).spec = [c.char] := by cases c <;> rfl

lemma piece_run : (c.piece tm run).run = run := by cases c <;> rfl

lemma piece_reads (h : InRange tm.tm) (loc : TimeLocale) (tzname : List Char × List Char) (depth : ℕ) :
    (c.piece tm run).Reads (convert (strptime loc tzname (depth + 1)) loc tzname) := by
  cases c with
  | F => exact datePiece_reads h run loc tzname depth
  | R | T =>
    exact markedPiece_reads h run loc tzname (.inl rfl) (by simp [fields]) (fun st => rfl) (fun f =>
      rfl)
  | _ => exact Field.piece_reads h _ run _ loc tzname

lemma piece_prints (h : InRange tm.tm) (loc : TimeLocale) (depth : ℕ) :
    (c.piece tm run).Prints (fmt1 (strftimeL loc tm (depth + 1) 100) loc tm) := by
  have htime := length_marked h ':' T.fields (by simp [fields]) (by decide)
  have hminute := length_marked h ':' R.fields (by simp [fields]) (by decide)
  simp only [fields, Field.row, map_cons, map_nil, sum_cons, sum_nil] at htime hminute
  cases c with
  | F =>
    exact markedPiece_prints h run loc (.inr rfl) rfl (parseSpec_plain (by decide) (by decide))
      (length_date h)
  | R =>
    exact markedPiece_prints h run loc (.inl rfl) rfl (parseSpec_plain (by decide) (by decide))
      (by simp only [fields]; omega)
  | T =>
    exact markedPiece_prints h run loc (.inl rfl) rfl (parseSpec_plain (by decide) (by decide))
      (by simp only [fields]; omega)
  | _ => exact Field.piece_prints h _ run loc _

lemma get_set (x : LocalTm) (fld : Field) :
    fld.get ((c.piece tm run).set x).tm = if fld ∈ c.fields then fld.get tm.tm else fld.get x.tm := by
  cases c <;> cases fld <;> rfl

end Conv

/-- A format: conversions with literal characters before, between and after them. -/
structure Format where
  head : List Char
  items : List (Conv × List Char)
  head_literal : ∀ c ∈ head, Literal c
  separated : Separated (items.map Prod.snd)

namespace Format

variable (f : Format)

def text : List Char := f.head ++ f.items.flatMap fun i => '%' :: i.1.char :: i.2

def pieces (tm : LocalTm) : List Piece := f.items.map fun i => i.1.piece tm i.2

lemma text_eq (tm : LocalTm) : f.text = f.head ++ format (f.pieces tm) := by
  simp [text, format, pieces, flatMap_map, Conv.piece_spec, Conv.piece_run]

lemma separated_pieces (tm : LocalTm) : Separated ((f.pieces tm).map Piece.run) := by
  have hruns : (f.pieces tm).map Piece.run = f.items.map Prod.snd := by
    simp [pieces, Conv.piece_run]
  exact hruns ▸ f.separated

lemma get_setAll (tm : LocalTm) (fld : Field) (items : List (Conv × List Char)) (x : LocalTm)
    (h : fld.get x.tm = fld.get tm.tm ∨ ∃ i ∈ items, fld ∈ i.1.fields) :
    fld.get (setAll (items.map fun i => i.1.piece tm i.2) x).tm = fld.get tm.tm := by
  induction items generalizing x with
  | nil => simpa [setAll] using h
  | cons i items ih =>
    refine ih ((i.1.piece tm i.2).set x) ?_
    rw [Conv.get_set]
    by_cases hmem : fld ∈ i.1.fields
    · exact .inl (if_pos hmem)
    · rw [if_neg hmem]
      refine h.imp_right ?_
      rintro ⟨k, hk, hfld⟩
      rcases mem_cons.1 hk with rfl | hk
      · exact absurd hfld hmem
      · exact ⟨k, hk, hfld⟩

end Format

/-- **`strptime` undoes `strftime`.**  The string that a format gives for fields in their ranges is
read back as a whole with the same format, and the fields that the format prints are restored. -/
theorem strptime_strftime (tm : LocalTm) (h : InRange tm.tm) (f : Format) (loc : TimeLocale)
    (tzname : List Char × List Char) :
    ∃ out, (∀ depth ≥ 2, ∀ n > out.length, strftimeL loc tm depth n f.text = some out) ∧
      ∀ depth ≥ 2, ∀ x, ∃ y, strptime loc tzname depth out f.text x = some ([], y) ∧
        ∀ i ∈ f.items, ∀ fld ∈ i.1.fields, fld.get y.tm = fld.get tm.tm := by
  have hhead : ∀ c ∈ f.head, c ≠ '%' := fun c hc => (f.head_literal c hc).1
  have hlen : (f.head ++ format (f.pieces tm)).length + 1 =
      (format (f.pieces tm)).length + 1 + f.head.length := by
    rw [length_append]
    omega
  refine ⟨f.head ++ output (f.pieces tm), ?_, ?_⟩
  · intro depth hdepth n hn
    obtain ⟨k, rfl⟩ : ∃ k, depth = k + 1 + 1 := ⟨depth - 2, by omega⟩
    have hps : ∀ p ∈ f.pieces tm, p.Prints (fmt1 (strftimeL loc tm (k + 1) 100) loc tm) := by
      intro p hp
      obtain ⟨i, -, rfl⟩ := mem_map.1 hp
      exact i.1.piece_prints i.2 h loc k
    rw [length_append] at hn
    rw [strftimeL, f.text_eq tm, hlen, formatLoop_run hhead _ _ _ (by rw [length_nil]; omega), nil_append,
      formatLoop_pieces hps (f.separated_pieces tm) _ _ (by omega) (lt_succ_self _)]
  · intro depth hdepth x
    obtain ⟨k, rfl⟩ : ∃ k, depth = k + 1 + 1 := ⟨depth - 2, by omega⟩
    have hps : ∀ p ∈ f.pieces tm, p.Reads (convert (strptime loc tzname (k + 1)) loc tzname) := by
      intro p hp
      obtain ⟨i, -, rfl⟩ := mem_map.1 hp
      exact i.1.piece_reads i.2 h loc tzname k
    have hnil : NoSpace [] := (rfl : isSpace '\x00' = false)
    have hspace : NoSpace (output (f.pieces tm)) := by
      by_cases hempty : f.pieces tm = []
      · rw [hempty]
        exact hnil
      · simpa using output_noSpace hps hempty []
    refine ⟨setAll (f.pieces tm) x, ?_, ?_⟩
    · have hend : NoDigit [] := (rfl : isDigit '\x00' = false)
      have hloop := scanLoop_pieces hps (f.separated_pieces tm) hend (.inr hnil) _ x (lt_succ_self _)
      rw [append_nil] at hloop
      rw [strptime, f.text_eq tm, hlen, scanLoop_run hhead (.inr hspace) _ _ x (.inl rfl), hloop]
      rfl
    · intro i hi fld hfld
      exact Format.get_setAll tm fld f.items x (.inr ⟨i, hi, hfld⟩)

/-- 4 March of the year -5. -/
def minusFive : LocalTm := ⟨⟨-1905, 2, 4, 0, 62, 0, 0, 0⟩, 0, 0, "UTC"⟩

/-- The format `%F`. -/
def dateFormat : Format := ⟨[], [(.F, [])], by simp, by simp [Separated]⟩

/-- The date is printed as `-005-03-04` and read back. -/
theorem strptime_strftime_date : InRange minusFive.tm ∧
    ∃ out, (∀ depth ≥ 2, ∀ n > out.length,
      strftimeL cLocale minusFive depth n dateFormat.text = some out) ∧
      ∀ depth ≥ 2, ∀ x, ∃ y,
      strptime cLocale (['U', 'T', 'C'], []) depth out dateFormat.text x = some ([], y) ∧
        ∀ i ∈ dateFormat.items, ∀ fld ∈ i.1.fields, fld.get y.tm = fld.get minusFive.tm := by
  have hrange : InRange minusFive.tm :=
    ⟨by decide, by decide, by decide, by decide, by decide, by decide, by decide⟩
  exact ⟨hrange, strptime_strftime minusFive hrange dateFormat cLocale (['U', 'T', 'C'], [])⟩

end Musl.Time.Strptime
