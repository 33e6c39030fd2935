import Musl.Stdlib.Strtol
import Musl.Time.Zone

/-!
# Printing times

`__strftime_l` copies a format and replaces its conversions by what `__strftime_fmt_1` makes of the
fields of a `struct tm`; a conversion that stands for a format again is expanded into a buffer of
100 bytes.
-/

namespace Musl.Time.Strftime

open Musl.Lib.Calendar Musl.Lib.Numeral Musl.Time.Tz

/-! ### The week -/

/-- The conversion to `unsigned`. -/
def u32 (x : ℤ) : ℤ := x % 2 ^ 32

/-- `is_leap(y)`; the year counts from 1900. -/
def isLeap (y : ℤ) : Bool :=
  let y := if y > intMax - 1900 then y - 2000 else y
  let y := y + 1900
  y.tmod 4 = 0 && (y.tmod 100 ≠ 0 || y.tmod 400 = 0)

def weekNum (tm : Tm) : ℤ :=
  let val := u32 (tm.yday + 7 - u32 (tm.wday + 6) % 7) / 7
  let val := if u32 (tm.wday + 371 - tm.yday - 2) % 7 ≤ 2 then val + 1 else val
  if val = 0 then
    let dec31 := u32 (tm.wday + 7 - tm.yday - 1) % 7
    if dec31 = 4 ∨ dec31 = 5 ∧ isLeap (tm.year.tmod 400 - 1) then 53 else 52
  else if val = 53 then
    let jan1 := u32 (tm.wday + 371 - tm.yday) % 7
    if jan1 ≠ 4 ∧ (jan1 ≠ 3 ∨ ¬isLeap tm.year) then 1 else 53
  else val

/-- The value of `%G`. -/
def weekYear (tm : Tm) : ℤ :=
  if tm.yday < 3 ∧ weekNum tm ≠ 1 then tm.year + 1900 - 1
  else if tm.yday > 360 ∧ weekNum tm = 1 then tm.year + 1900 + 1
  else tm.year + 1900

/-! ### Conversions -/

structure TimeLocale where
  abday : ℕ → List Char
  day : ℕ → List Char
  abmon : ℕ → List Char
  mon : ℕ → List Char
  amStr : List Char
  pmStr : List Char
  dTFmt : List Char
  dFmt : List Char
  tFmt : List Char
  tFmtAmpm : List Char

def cLocale : TimeLocale where
  abday i := (["Sun", "Mon", "Tue", "Wed", "Thu", "Fri", "Sat"].getD i "").toList
  day i := (["Sunday", "Monday", "Tuesday", "Wednesday", "Thursday", "Friday",
    "Saturday"].getD i "").toList
  abmon i := (["Jan", "Feb", "Mar", "Apr", "May", "Jun", "Jul", "Aug", "Sep", "Oct", "Nov",
    "Dec"].getD i "").toList
  mon i := (["January", "February", "March", "April", "May", "June", "July", "August", "September",
    "October", "November",
    "December"].getD i "").toList
  amStr := "AM".toList
  pmStr := "PM".toList
  dTFmt := "%a %b %e %T %Y".toList
  dFmt := "%m/%d/%y".toList
  tFmt := "%H:%M:%S".toList
  tFmtAmpm := "%I:%M:%S %p".toList

def decimal (n : ℕ) : List Char := text (fun d => Char.ofNat (48 + d)) 10 n

/-- The sign of a number as `%d` prints it. -/
def sign (v : ℤ) : List Char := if v < 0 then ['-'] else []

/-- `%lld`. -/
def printInt (v : ℤ) : List Char := sign v ++ decimal v.natAbs

/-- `%*lld`. -/
def printSpaces (width : ℕ) (v : ℤ) : List Char :=
  List.replicate (width - (printInt v).length) ' ' ++ printInt v

/-- `%0*lld`. -/
def printZeros (width : ℕ) (v : ℤ) : List Char :=
  sign v ++ List.replicate (width - (printInt v).length) '0' ++ decimal v.natAbs

/-- `%+.4ld`. -/
def printOffset (v : ℤ) : List Char :=
  (if v < 0 then '-' else '+') :: (List.replicate (4 - (decimal v.natAbs).length) '0' ++ decimal v.natAbs)

/-- From the label `number` on. -/
def number (pad : Option Char) (defPad : Char) (width : ℕ) (val : ℤ) : List Char :=
  match pad.getD defPad with
  | '-' => printInt val
  | '_' => printSpaces width val
  | _ => printZeros width val

/-- From the label `recu_strftime` on: `recu` is `__strftime_l` with the buffer `*s`. -/
def recuStrftime (recu : List Char → Option (List Char)) (fmt : List Char) : Option (List Char) :=
  match recu fmt with
  | some (c :: t) => some (c :: t)
  | _ => none

/-- A field of the locale, or `-` for a value that it has no text for. -/
def nlStrcat (items : ℕ → List Char) (x : ℤ) (last : ℤ) : Option (List Char) :=
  if u32 x > last then some ['-'] else some (items x.toNat)

/-- `__strftime_fmt_1(s, l, f, tm, loc, pad)`; no value for a null pointer. -/
def fmt1 (recu : List Char → Option (List Char)) (loc : TimeLocale) (tm : LocalTm) (f : Char)
    (pad : Option Char) :
    Option (List Char) :=
  match f with
  | 'a' => nlStrcat loc.abday tm.tm.wday 6
  | 'A' => nlStrcat loc.day tm.tm.wday 6
  | 'h' | 'b' => nlStrcat loc.abmon tm.tm.mon 11
  | 'B' => nlStrcat loc.mon tm.tm.mon 11
  | 'c' => recuStrftime recu loc.dTFmt
  | 'C' => some (number pad '0' 2 ((1900 + tm.tm.year).tdiv 100))
  | 'e' => some (number pad '_' 2 tm.tm.mday)
  | 'd' => some (number pad '0' 2 tm.tm.mday)
  | 'D' => recuStrftime recu "%m/%d/%y".toList
  | 'F' => recuStrftime recu "%Y-%m-%d".toList
  | 'g' => some (number pad '0' 2 ((weekYear tm.tm).tmod 100))
  | 'G' => some (number pad '0' 4 (weekYear tm.tm))
  | 'H' => some (number pad '0' 2 tm.tm.hour)
  | 'I' =>
    some (number pad '0' 2 (if tm.tm.hour = 0 then 12 else if tm.tm.hour > 12 then tm.tm.hour - 12
      else tm.tm.hour))
  | 'j' => some (number pad '0' 3 (tm.tm.yday + 1))
  | 'm' => some (number pad '0' 2 (tm.tm.mon + 1))
  | 'M' => some (number pad '0' 2 tm.tm.min)
  | 'n' => some ['\n']
  | 'p' => some (if tm.tm.hour ≥ 12 then loc.pmStr else loc.amStr)
  | 'r' => recuStrftime recu loc.tFmtAmpm
  | 'R' => recuStrftime recu "%H:%M".toList
  | 's' => some (number pad '0' 1 (tmToSecs tm.tm - tm.gmtoff))
  | 'S' => some (number pad '0' 2 tm.tm.sec)
  | 't' => some ['\t']
  | 'T' => recuStrftime recu "%H:%M:%S".toList
  | 'u' => some (number pad '0' 1 (if tm.tm.wday ≠ 0 then tm.tm.wday else 7))
  | 'U' => some (number pad '0' 2 (u32 (tm.tm.yday + 7 - tm.tm.wday) / 7))
  | 'W' => some (number pad '0' 2 (u32 (tm.tm.yday + 7 - u32 (tm.tm.wday + 6) % 7) / 7))
  | 'V' => some (number pad '0' 2 (weekNum tm.tm))
  | 'w' => some (number pad '0' 1 tm.tm.wday)
  | 'x' => recuStrftime recu loc.dFmt
  | 'X' => recuStrftime recu loc.tFmt
  | 'y' => some (number pad '0' 2 |(tm.tm.year + 1900).tmod 100|)
  | 'Y' =>
    if tm.tm.year + 1900 ≥ 10000 then some ('+' :: printInt (tm.tm.year + 1900))
    else some (number pad '0' 4 (tm.tm.year + 1900))
  | 'z' => if tm.isdst < 0 then some []
    else some (printOffset ((tm.gmtoff.tdiv 3600) * 100 + (tm.gmtoff.tmod 3600).tdiv 60))
  | 'Z' => some (if tm.isdst < 0 then [] else tm.zone.toList)
  | '%' => some ['%']
  | _ => none

/-! ### Formats -/

def isDigit (c : Char) : Bool := '0' ≤ c && c ≤ '9'

/-- What stands between `%` and the conversion. -/
structure Spec where
  pad : Option Char
  plus : Bool
  width : ℕ
  /-- `*p`, the character after the width. -/
  conv : Char
  /-- The format from the conversion on. -/
  rest : List Char

/-- `*f`. -/
def peek (f : List Char) : Char := f.headD '\x00'

/-- `strtoul(f, &p, 10)`: the number and `p`. -/
def strtoul (f : List Char) : ℕ × List Char :=
  let r := Stdlib.Strtol.strtoul (f.map Char.toUInt8) 10
  (r.1, f.drop r.2.2)

/-- The flags, the width and the modifier after `%`. -/
def parseSpec (f : List Char) : Spec :=
  let (pad, f) := if peek f = '-' ∨ peek f = '_' ∨ peek f = '0' then (some (peek f), f.tail)
    else (none, f)
  let (plus, f) := if peek f = '+' then (true, f.tail) else (false, f)
  let (width, p) := if isDigit (peek f) then strtoul f else (0, f)
  let width :=
    if peek p = 'C' ∨ peek p = 'F' ∨ peek p = 'G' ∨
      peek p = 'Y' then (if width = 0 ∧ p ≠ f then 1 else width) else 0
  ⟨pad, plus, width, peek p, if peek p = 'E' ∨ peek p = 'O' then p.tail else p⟩

/-- `if (*t == '+' || *t == '-') t++, k--;` -/
def skipSign (t : List Char) : List Char := if peek t = '+' ∨ peek t = '-' then t.tail else t

/-- `for (; *t == '0' && t[1] - '0' < 10U; t++, k--);` -/
def skipZeros : List Char → List Char
  | '0' :: c :: t => if isDigit c then skipZeros (c :: t) else '0' :: c :: t
  | t => t

/-- The sign and zeros that a width asks for, stored in a buffer of `n` bytes. -/
def putWidth (year : ℤ) (spec : Spec) (n : ℕ) (out t : List Char) : List Char :=
  let k := t.length
  let width := if spec.width < k then k else spec.width
  let d := (t.takeWhile isDigit).length
  let (out, width) :=
    if year < -1900 then (out ++ ['-'], width - 1)
    else if spec.plus ∧ d + (width - k) ≥ (if spec.conv = 'C' then 3 else 5) then (out ++ ['+'],
      width - 1)
    else (out, width)
  out ++ List.replicate (min (width - k) (n - out.length)) '0'

def putField (year : ℤ) (spec : Spec) (n : ℕ) (out t : List Char) : List Char :=
  if spec.width ≠ 0 then
    let t := skipZeros (skipSign t)
    let out := putWidth year spec n out t
    out ++ t.take (n - out.length)
  else out ++ t.take (n - out.length)

/-- `for (l=0; l<n; f++)`, for at most so many rounds; `conv` is `__strftime_fmt_1`, `out` what was
stored. -/
def formatLoop (conv : Char → Option Char → Option (List Char)) (year : ℤ) (n : ℕ) :
    ℕ → List Char → List Char → Option (List Char)
  | 0, _, _ => none
  | rounds + 1, f, out =>
    if out.length ≥ n then none
    else
      match f with
      | [] => some out
      | c :: f =>
        if c ≠ '%' then formatLoop conv year n rounds f (out ++ [c])
        else
          let spec := parseSpec f
          match conv (peek spec.rest) spec.pad with
          | none => none
          | some t => formatLoop conv year n rounds spec.rest.tail (putField year spec n out t)

/-- `__strftime_l(s, n, f, tm, loc)`, which may call itself so many times: the text, whose length is
returned, or no value if 0 is returned because of the format or the size. -/
def strftimeL (loc : TimeLocale) (tm : LocalTm) : ℕ → ℕ → List Char → Option (List Char)
  | 0, _, _ => none
  | depth + 1, n, f =>
    formatLoop (fmt1 (strftimeL loc tm depth 100) loc tm) tm.tm.year n (f.length + 1) f []

/-! ### The week of ISO 8601 -/

structure RealDate (tm : Tm) : Prop where
  year : intMin ≤ tm.year ∧ tm.year ≤ intMax
  yday : 0 ≤ tm.yday ∧ tm.yday < 365 + leapDay (tm.year + 1900)
  wday : tm.wday = weekday (yearStart (tm.year + 1900) + tm.yday)

lemma tmod_eq_zero_iff (a b : ℤ) : a.tmod b = 0 ↔ a % b = 0 :=
  (Int.dvd_iff_tmod_eq_zero (a := b) (b := a)).symm.trans Int.dvd_iff_emod_eq_zero

lemma isLeap_iff (y : ℤ) : isLeap y = true ↔ IsLeap (y + 1900) := by
  simp only [isLeap, IsLeap, Bool.and_eq_true, Bool.or_eq_true, decide_eq_true_eq, Ne, tmod_eq_zero_iff]
  split_ifs <;> omega

lemma isLeap_before_iff (y : ℤ) : isLeap (y.tmod 400 - 1) = true ↔ IsLeap (y + 1899) := by
  have hmod : (y.tmod 400 - y) % 400 = 0 := by
    rw [Int.tmod_def]
    omega
  rw [isLeap_iff, IsLeap, IsLeap]
  omega

lemma weekNum_eq (tm : Tm) (h : RealDate tm) {x : ℤ} (hx : x = tm.yday - (tm.wday + 6) % 7 + 3) :
    weekNum tm = if x < 0 then (x + 365 + leapDay (tm.year + 1899)) / 7 + 1
      else if x < 365 + leapDay (tm.year + 1900) then x / 7 + 1 else 1 := by
  have hyday := h.yday
  have hwday := weekday_bounds (yearStart (tm.year + 1900) + tm.yday)
  rw [← h.wday] at hwday
  have hleap := leapDay_cases (tm.year + 1900)
  have hleap' := leapDay_cases (tm.year + 1899)
  have hthis : isLeap tm.year = true ↔ leapDay (tm.year + 1900) = 1 := by
    rw [isLeap_iff, leapDay_eq_one_iff]
  have hbefore : isLeap (tm.year.tmod 400 - 1) = true ↔ leapDay (tm.year + 1899) = 1 := by
    rw [isLeap_before_iff, leapDay_eq_one_iff]
  -- nothing wraps around, except for `dec31`, which matters only in the first days of January
  have hval : (if u32 (tm.wday + 371 - tm.yday - 2) % 7 ≤
    2 then u32 (tm.yday + 7 - u32 (tm.wday + 6) % 7) / 7 + 1
      else u32 (tm.yday + 7 - u32 (tm.wday + 6) % 7) / 7) = x / 7 + 1 := by
    unfold u32
    split_ifs <;> omega
  have hjan : u32 (tm.wday + 371 - tm.yday) % 7 = (tm.wday + 371 - tm.yday) % 7 := by
    unfold u32
    omega
  have hdec : x < 0 → u32 (tm.wday + 7 - tm.yday - 1) % 7 = (tm.wday + 7 - tm.yday - 1) % 7 := by
    intro hneg
    have hsmall : u32 (tm.wday + 7 - tm.yday - 1) = tm.wday + 7 - tm.yday - 1 :=
      Int.emod_eq_of_lt (by omega) (by omega)
    rw [hsmall]
  simp only [weekNum, hthis, hbefore]
  split_ifs <;> omega

/-- **The week of ISO 8601.**  For a day of the calendar `week_num` and the year of `%G` are the
number of its week and the year to which the week belongs. -/
theorem weekNum_iso (tm : Tm) (h : RealDate tm) :
    IsIsoWeek (yearStart (tm.year + 1900) + tm.yday) (weekYear tm) (weekNum tm) := by
  have hyday := h.yday
  have hwday := weekday_bounds (yearStart (tm.year + 1900) + tm.yday)
  obtain ⟨x, hx⟩ : ∃ x, x = tm.yday - (tm.wday + 6) % 7 + 3 := ⟨_, rfl⟩
  have hthursday : thursday (yearStart (tm.year + 1900) + tm.yday) = yearStart (tm.year + 1900) + x := by
    rw [thursday, ← h.wday, hx]
    ring
  have hweek := weekNum_eq tm h hx
  have hleap := leapDay_cases (tm.year + 1900)
  have hleap' := leapDay_cases (tm.year + 1899)
  have hyear : weekYear tm = if x < 0 then tm.year + 1899
      else if x < 365 + leapDay (tm.year + 1900) then tm.year + 1900 else tm.year + 1901 := by
    unfold weekYear
    split_ifs at hweek ⊢ <;> omega
  have hsucc := yearStart_succ (tm.year + 1899)
  have hsucc1 := yearStart_succ (tm.year + 1900)
  have hsucc2 := yearStart_succ (tm.year + 1901)
  have hleap2 := leapDay_cases (tm.year + 1901)
  rw [show tm.year + 1899 + 1 = tm.year + 1900 by ring] at hsucc
  rw [show tm.year + 1900 + 1 = tm.year + 1901 by ring] at hsucc1
  rw [IsIsoWeek, YearOf, hyear]
  split_ifs with hlt hmid
  · rw [show tm.year + 1899 + 1 = tm.year + 1900 by ring]
    omega
  · rw [show tm.year + 1900 + 1 = tm.year + 1901 by ring]
    omega
  · omega

/-- Saturday, 1 January 2000. -/
theorem weekNum_iso_2000 : RealDate ⟨100, 0, 1, 6, 0, 0, 0, 0⟩ ∧ IsIsoWeek (yearStart 2000) 1999 52 := by
  have hdate : RealDate ⟨100, 0, 1, 6, 0, 0, 0, 0⟩ := ⟨by decide, by decide, by decide⟩
  exact ⟨hdate, weekNum_iso _ hdate⟩

end Musl.Time.Strftime
