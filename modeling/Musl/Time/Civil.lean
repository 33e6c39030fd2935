import Musl.Lib.Calendar

/-!
# Civil time

`__secs_to_tm` splits a time into the fields of a `struct tm`, by way of years that begin in March, so
that the leap day is the last day of a year and the last year of a cycle has it or not.
`__tm_to_secs` puts the fields together again by another count of the leap days.

The C variables are `int` and `long long`; on the range that the first test of `__secs_to_tm` leaves
none of them overflows, so that integers stand for both.
-/

namespace Musl.Time

open Musl.Lib.Calendar List Prod

/-! ### The code -/

def intMin : ℤ := -2147483648
def intMax : ℤ := 2147483647

/-- `2000-03-01 (mod 400 year, immediately after feb29`. -/
def leapoch : ℤ := 946684800 + 86400 * (31 + 29)

def daysPer400Y : ℤ := 365 * 400 + 97
def daysPer100Y : ℤ := 365 * 100 + 24
def daysPer4Y : ℤ := 365 * 4 + 1

/-- `q = a / b; r = a % b; if (r < 0) { r += b; q--; }`. -/
def divFix (a b : ℤ) : ℤ × ℤ :=
  if a.tmod b < 0 then (a.tdiv b - 1, a.tmod b + b) else (a.tdiv b, a.tmod b)

/-- `days_in_month`, from March on. -/
def daysInMonth : List ℤ := [31, 30, 31, 30, 31, 31, 30, 31, 30, 31, 31, 29]

/-- `for (months=0; days_in_month[months] <= remdays; months++) remdays -= days_in_month[months];` -/
def monthLoop : List ℤ → ℤ → ℤ → ℤ × ℤ
  | [], months, remdays => (months, remdays)
  | d :: ds, months, remdays =>
    if d ≤ remdays then monthLoop ds (months + 1) (remdays - d) else (months, remdays)

/-- The fields of a `struct tm` that `__secs_to_tm` sets. -/
structure Tm where
  year : ℤ
  mon : ℤ
  mday : ℤ
  wday : ℤ
  yday : ℤ
  hour : ℤ
  min : ℤ
  sec : ℤ
  deriving DecidableEq, Repr

/-- `q = rem / len; if (q == n) q--; rem -= q * len;` -/
def takeCycles (rem len n : ℤ) : ℤ × ℤ :=
  let q := if rem.tdiv len = n then rem.tdiv len - 1 else rem.tdiv len
  (q, rem - q * len)

/-- The cascade of cycles: the years since March 2000 (as `remyears`, `q_cycles`, `c_cycles` and
`qc_cycles`) and the day of the year that begins in March. -/
def marchCascade (days : ℤ) : (ℤ × ℤ × ℤ × ℤ) × ℤ :=
  let qc := divFix days daysPer400Y
  let c := takeCycles qc.2 daysPer100Y 4
  let q := takeCycles c.2 daysPer4Y 25
  let y := takeCycles q.2 365 4
  ((y.1, q.1, c.1, qc.1), y.2)

/-- `__secs_to_tm`; `none` is the return of -1. -/
def secsToTm (t : ℤ) : Option Tm :=
  if t < intMin * 31622400 ∨ intMax * 31622400 < t then none
  else
    let d := divFix (t - leapoch) 86400
    let days := d.1
    let remsecs := d.2
    let wday := (3 + days).tmod 7
    let wday := if wday < 0 then wday + 7 else wday
    let cascade := marchCascade days
    let remyears := cascade.1.1
    let qCycles := cascade.1.2.1
    let cCycles := cascade.1.2.2.1
    let qcCycles := cascade.1.2.2.2
    let remdays := cascade.2
    let leap : ℤ := if remyears = 0 ∧ (qCycles ≠ 0 ∨ cCycles = 0) then 1 else 0
    let yday := remdays + 31 + 28 + leap
    let yday := if 365 + leap ≤ yday then yday - (365 + leap) else yday
    let years := remyears + 4 * qCycles + 100 * cCycles + 400 * qcCycles
    let l := monthLoop daysInMonth 0 remdays
    let months := if 10 ≤ l.1 then l.1 - 12 else l.1
    let years := if 10 ≤ l.1 then years + 1 else years
    if intMax < years + 100 ∨ years + 100 < intMin then none
    else some
      { year := years + 100
        mon := months + 2
        mday := l.2 + 1
        wday := wday
        yday := yday
        hour := remsecs.tdiv 3600
        min := (remsecs.tdiv 60).tmod 60
        sec := remsecs.tmod 60 }

/-- `__year_to_secs`, with `is_leap`; the year counts from 1900. -/
def yearToSecs (year : ℤ) : ℤ × ℤ :=
  if (year - 2) % 2 ^ 64 ≤ 136 then
    let leaps := (year - 68) >>> (2 : ℕ)
    if (year - 68) % 4 = 0 then (31536000 * (year - 70) + 86400 * (leaps - 1), 1)
    else (31536000 * (year - 70) + 86400 * leaps, 0)
  else
    let d := divFix (year - 100) 400
    let cycles := d.1
    let rem := d.2
    let centuries : ℤ := if rem = 0 then 0 else if 200 ≤ rem then if 300 ≤ rem then 3 else 2
      else if 100 ≤ rem then 1 else 0
    let rem' := rem - 100 * centuries
    let isLeap : ℤ := if rem = 0 then 1 else if rem' = 0 then 0 else if rem'.tmod 4 = 0 then 1 else 0
    let leaps : ℤ := if rem = 0 then 0 else if rem' = 0 then 0 else rem'.tdiv 4
    let leaps := leaps + (97 * cycles + 24 * centuries - isLeap)
    ((year - 100) * 31536000 + leaps * 86400 + 946684800 + 86400, isLeap)

def secsThroughMonth : List ℤ :=
  [0, 31 * 86400, 59 * 86400, 90 * 86400, 120 * 86400, 151 * 86400, 181 * 86400, 212 * 86400,
    243 * 86400, 273 * 86400, 304 * 86400, 334 * 86400]

def monthToSecs (month isLeap : ℤ) : ℤ :=
  let t := secsThroughMonth.getD month.toNat 0
  if isLeap ≠ 0 ∧ 2 ≤ month then t + 86400 else t

def tmToSecs (tm : Tm) : ℤ :=
  let d := divFix tm.mon 12
  let year := if 12 ≤ tm.mon ∨ tm.mon < 0 then tm.year + d.1 else tm.year
  let month := if 12 ≤ tm.mon ∨ tm.mon < 0 then d.2 else tm.mon
  let y := yearToSecs year
  y.1 + monthToSecs month y.2 + 86400 * (tm.mday - 1) + 3600 * tm.hour + 60 * tm.min + tm.sec

/-! ### Division -/

variable {b a c q ry rem y t : ℤ} {k : ℕ}

/-- **The fix-up makes the division a floor division.** -/
theorem divFix_eq (a : ℤ) (hb : 0 < b) : divFix a b = (a / b, a % b) := by
  unfold divFix
  rw [Int.tmod_eq_emod, Int.tdiv_eq_ediv]
  have hr := Int.emod_nonneg a hb.ne'
  have hlt := Int.emod_lt_of_pos a hb
  have hsign : b.sign = 1 := Int.sign_eq_one_of_pos hb
  have habs : b.natAbs = b := Int.natAbs_of_nonneg hb.le
  by_cases h : 0 ≤ a ∨ b ∣ a
  · rw [if_pos h, if_pos h, if_neg (by omega)]
    simp
  · rw [if_neg h, if_neg h, habs, hsign, if_pos (by omega)]
    simp

lemma tdiv_of_nonneg (ha : 0 ≤ a) : a.tdiv b = a / b := Int.tdiv_eq_ediv_of_nonneg ha

lemma tmod_of_nonneg (ha : 0 ≤ a) : a.tmod b = a % b := Int.tmod_eq_emod_of_nonneg ha

/-! ### The year that begins in March -/

/-- The years since March 2000 and the day of the year that begins in March, with the cascade that finds
them. -/
structure MarchDay (days ry q c qc rem : ℤ) : Prop where
  days_eq : days = 365 * (ry + 4 * q + 100 * c + 400 * qc) + (q + 24 * c + 97 * qc) + rem
  ry_bounds : 0 ≤ ry ∧ ry ≤ 3
  q_bounds : 0 ≤ q ∧ q ≤ 24
  c_bounds : 0 ≤ c ∧ c ≤ 3
  rem_bounds : 0 ≤ rem ∧ rem ≤ 365
  last : rem = 365 → ry = 3 ∧ (q = 24 → c = 3)

/-- A cycle of `n` parts of length `len` and up to one day more: the last day belongs to the last part. -/
lemma takeCycles_eq (rem len n : ℤ) (hlen : 1 < len) (hn : 0 < n) (h0 : 0 ≤ rem) (h1 : rem ≤ n * len) :
    ∃ q, takeCycles rem len n = (q, rem - q * len) ∧ 0 ≤ q ∧ q ≤ n - 1 ∧ 0 ≤ rem - q * len ∧
      rem - q * len ≤ len ∧ (rem - q * len = len → rem = n * len) := by
  unfold takeCycles
  rw [tdiv_of_nonneg h0]
  have hdiv := Int.emod_add_mul_ediv rem len
  have hmod0 := Int.emod_nonneg rem (show len ≠ 0 by omega)
  have hmod1 := Int.emod_lt_of_pos rem (show 0 < len by omega)
  have hq0 : 0 ≤ rem / len := Int.ediv_nonneg h0 (by omega)
  have hqn : rem / len ≤ n := by
    apply Int.ediv_le_of_le_mul (by omega)
    exact h1
  refine ⟨_, rfl, ?_⟩
  split
  · rename_i heq
    have hrem : rem = n * len := by
      nlinarith
    rw [heq, hrem]
    refine ⟨by omega, le_refl _, by nlinarith, by nlinarith, fun _ => rfl⟩
  · refine ⟨hq0, by omega, by nlinarith, by nlinarith, fun h => ?_⟩
    nlinarith

/-- **The cascade finds the year and the day.** -/
theorem marchCascade_eq (days : ℤ) : ∃ ry q c rem,
    marchCascade days = ((ry, q, c, days / 146097), rem) ∧ MarchDay days ry q c (days / 146097) rem := by
  have hr0 := Int.emod_nonneg days (show 146097 ≠ 0 by decide)
  obtain ⟨c, hc, hc1, hc2, hc3, hc4, hc5⟩ := takeCycles_eq (days % 146097) 36524 4
    (by decide) (by decide) hr0 (by omega)
  obtain ⟨q, hq, hq1, -, hq3, hq4, hq5⟩ := takeCycles_eq (days % 146097 - c * 36524) 1461 25
    (by decide) (by decide) hc3 (by omega)
  obtain ⟨y, hy, hy1, hy2, hy3, hy4, hy5⟩ :=
    takeCycles_eq (days % 146097 - c * 36524 - q * 1461) 365 4
      (by decide) (by decide) hq3 (by omega)
  refine ⟨y, q, c, days % 146097 - c * 36524 - q * 1461 - y * 365, ?_, ?_⟩
  · unfold marchCascade
    rw [divFix_eq days (by decide)]
    simp [daysPer400Y, daysPer100Y, daysPer4Y, hc, hq, hy]
  · exact ⟨by omega, ⟨hy1, by omega⟩, ⟨hq1, by omega⟩, ⟨hc1, by omega⟩, ⟨hy3, hy4⟩, fun h => by omega⟩

lemma march_first (qc : ℤ) (hry : 0 ≤ ry ∧ ry ≤ 3) (hq : 0 ≤ q ∧ q ≤ 24) (hc : 0 ≤ c ∧ c ≤ 3) :
    yearStart (2000 + (ry + 4 * q + 100 * c + 400 * qc)) + 59 + leapDay
    (2000 + (ry + 4 * q + 100 * c + 400 * qc)) =
      11017 + 365 * (ry + 4 * q + 100 * c + 400 * qc) + (q + 24 * c + 97 * qc) := by
  have h := leapDay_cases (2000 + (ry + 4 * q + 100 * c + 400 * qc))
  unfold IsLeap at h
  unfold yearStart
  omega

/-- **The loop over the months** stops at the month that holds the day. -/
theorem monthLoop_eq {l : List ℤ} (m rem : ℤ) (h0 : 0 ≤ rem) (h1 : rem < l.sum) :
    ∃ k < l.length, monthLoop l m rem = (m + k, rem - (l.take k).sum) ∧ (l.take k).sum ≤ rem ∧
      rem < (l.take (k + 1)).sum := by
  induction l generalizing m rem with
  | nil =>
    rw [sum_nil] at h1
    omega
  | cons d ds ih =>
    rw [monthLoop]
    rw [sum_cons] at h1
    split
    · obtain ⟨k, hk, heq, hle, hlt⟩ := ih (m + 1) (rem - d) (by omega) (by omega)
      refine ⟨k + 1, by rw [length_cons]; omega, ?_, ?_, ?_⟩
      · rw [heq, take_succ_cons, sum_cons]
        rw [mk.injEq]
        omega
      · rw [take_succ_cons, sum_cons]
        omega
      · rw [take_succ_cons, sum_cons]
        omega
    · refine ⟨0, by rw [length_cons]; omega, ?_, ?_, ?_⟩
      · simp
      · simpa using h0
      · simp only [take_succ_cons, take_zero, sum_cons, sum_nil]
        omega

/-- The month of the calendar: the months from March to December are of the year `y`, January and
February of the next one. -/
lemma march_month (hk : k < 12) (hle : (daysInMonth.take k).sum ≤ rem)
    (hlt : rem < (daysInMonth.take (k + 1)).sum)
    (hlast : rem = 365 → leapDay (y + 1) = 1) : let year := if 10 ≤ k then y + 1 else y
    let mon := if 10 ≤ k then k - 10 else k + 2
    monthStart year mon + (rem - (daysInMonth.take k).sum) =
        (if 10 ≤ k then rem - 306 else rem + 59 + leapDay y) ∧
      rem - (daysInMonth.take k).sum < monthLength year mon := by
  have h0 := leapDay_cases (y + 1)
  interval_cases k <;> simp [daysInMonth, monthStart, monthLength] at hle hlt ⊢ <;> omega

/-! ### The inverse -/

/-- **`__year_to_secs` counts the days of the calendar.** -/
theorem yearToSecs_eq (hlo : -2 ^ 62 < y) (hhi : y < 2 ^ 62) :
    yearToSecs (y - 1900) = (86400 * yearStart y, leapDay y) := by
  have h := leapDay_cases y
  unfold IsLeap at h
  unfold yearToSecs
  split
  · -- 1902 to 2038: every fourth year is a leap year
    have hrange : 1902 ≤ y ∧ y ≤ 2038 := by omega
    have hshift : (y - 1900 - 68) >>> (2 : ℕ) = (y - 1968) / 4 := by
      rw [Int.shiftRight_eq_div_pow]
      omega
    unfold yearStart
    split <;> rw [mk.injEq] <;> omega
  · rw [divFix_eq _ (by decide)]
    simp only
    have hrem0 := Int.emod_nonneg (y - 1900 - 100) (show 400 ≠ 0 by decide)
    have hrem1 := Int.emod_lt_of_pos (y - 1900 - 100) (show 0 < 400 by decide)
    have hdiv := Int.emod_add_mul_ediv (y - 1900 - 100) 400
    generalize (y - 1900 - 100) % 400 = r at hrem0 hrem1 hdiv
    generalize (y - 1900 - 100) / 400 = cycles at hdiv
    -- the century of the cycle
    obtain ⟨c, hc, hc0, hc1⟩ : ∃ c, (if r = 0 then 0 else if 200 ≤ r then if 300 ≤ r then 3 else 2
        else if 100 ≤ r then 1 else 0) = c ∧ 0 ≤ r - 100 * c ∧ r - 100 * c < 100 := by
      refine ⟨_, rfl, ?_⟩
      split_ifs <;> omega
    rw [hc, tmod_of_nonneg hc0, tdiv_of_nonneg hc0]
    have hr : ∃ r', r' = r - 100 * c := ⟨_, rfl⟩
    obtain ⟨r', hr'⟩ := hr
    -- the year and its leap day by cycle, century and year of the century
    have hy : y = 2000 + 400 * cycles + 100 * c + r' := by omega
    have h4 : (y - 1) / 4 = 499 + 100 * cycles + 25 * c + (r' + 3) / 4 := by omega
    have h100 : (y - 1) / 100 = 19 + 4 * cycles + c + (r' + 99) / 100 := by omega
    have h400 : (y - 1) / 400 = 4 + cycles + (r + 399) / 400 := by omega
    have hleap : (y % 4 = 0 ↔ r' % 4 = 0) ∧ (y % 100 = 0 ↔ r' = 0) ∧ (y % 400 = 0 ↔ r = 0) := by omega
    generalize leapDay y = d at h
    unfold yearStart
    rw [mk.injEq, h100, h400]
    clear hleap h4 h100 h400 hc hdiv
    split_ifs <;> omega

/-- **`__month_to_secs` counts the days of the months.** -/
theorem monthToSecs_eq (y : ℤ) {m : ℕ} (hm : m ≤ 11) :
    monthToSecs m (leapDay y) = 86400 * monthStart y m := by
  rcases leapDay_cases y with ⟨_, h⟩ | ⟨_, h⟩ <;>
    interval_cases m <;> simp [monthToSecs, secsThroughMonth, monthStart, monthLength, h]

/-! ### Both -/

/-- **The fields of `t`**, in the year `y` of the calendar. -/
structure IsCivil (t y : ℤ) (tm : Tm) : Prop where
  year : tm.year = y - 1900
  mon : 0 ≤ tm.mon ∧ tm.mon ≤ 11
  mday : 1 ≤ tm.mday ∧ tm.mday ≤ monthLength y tm.mon.toNat
  day : t / 86400 = yearStart y + monthStart y tm.mon.toNat + (tm.mday - 1)
  yday : t / 86400 = yearStart y + tm.yday
  wday : tm.wday = (t / 86400 + 4) % 7
  time : t % 86400 = 3600 * tm.hour + 60 * tm.min + tm.sec
  hour : 0 ≤ tm.hour ∧ tm.hour ≤ 23
  min : 0 ≤ tm.min ∧ tm.min ≤ 59
  sec : 0 ≤ tm.sec ∧ tm.sec ≤ 59

lemma IsCivil.tmToSecs {tm : Tm} (h : IsCivil t y tm) (hlo : -2 ^ 62 < y) (hhi : y < 2 ^ 62) :
    tmToSecs tm = t := by
  obtain ⟨m, hm⟩ := Int.eq_ofNat_of_zero_le h.mon.1
  have hmon := h.mon
  have hday := h.day
  have htime := h.time
  unfold Time.tmToSecs
  simp only [if_neg (show ¬(12 ≤ tm.mon ∨ tm.mon < 0) by omega), h.year, yearToSecs_eq hlo hhi]
  rw [hm] at hmon hday ⊢
  rw [Int.toNat_natCast] at hday
  rw [monthToSecs_eq y (by omega)]
  omega

lemma march_leap (qc : ℤ) (hry : 0 ≤ ry ∧ ry ≤ 3) (hq : 0 ≤ q ∧ q ≤ 24) (hc : 0 ≤ c ∧ c ≤ 3) :
    (if ry = 0 ∧ (q ≠ 0 ∨ c = 0) then (1 : ℤ) else 0) =
    leapDay (2000 + (ry + 4 * q + 100 * c + 400 * qc)) := by
  have h := leapDay_cases (2000 + (ry + 4 * q + 100 * c + 400 * qc))
  unfold IsLeap at h
  split <;> omega

lemma march_last (qc : ℤ) (hry : ry = 3) (hq : 0 ≤ q ∧ q ≤ 24) (hlast : q = 24 → c = 3) :
    leapDay (2000 + (ry + 4 * q + 100 * c + 400 * qc) + 1) = 1 := by
  have h := leapDay_cases (2000 + (ry + 4 * q + 100 * c + 400 * qc) + 1)
  unfold IsLeap at h
  omega

lemma wday_eq (days : ℤ) :
    (if (3 + days).tmod 7 < 0 then (3 + days).tmod 7 + 7 else (3 + days).tmod 7) = (3 + days) % 7 := by
  have h := congrArg snd (divFix_eq (3 + days) (show 0 < 7 by decide))
  unfold divFix at h
  split at h <;> rename_i hneg
  · rw [if_pos hneg]
    exact h
  · rw [if_neg hneg]
    exact h

lemma year_of_rejected (hy : YearOf (t / 86400) y) (h : t < intMin * 31622400 ∨ intMax * 31622400 < t) :
    ¬(intMin ≤ y - 1900 ∧ y - 1900 ≤ intMax) := by
  obtain ⟨h1, h2⟩ := hy
  unfold yearStart at h1 h2
  unfold intMin intMax at *
  omega

lemma march_january (hk : k < 12) (hle : (daysInMonth.take k).sum ≤ rem)
    (hlt : rem < (daysInMonth.take (k + 1)).sum) :
    10 ≤ k ↔ 306 ≤ rem := by
  interval_cases k <;> simp [daysInMonth] at hle hlt ⊢ <;> omega

/-- The fields that `__secs_to_tm` makes of a day `rem` of the year that begins in March of `y`, in the
`k`-th month from March on, and of the seconds of the day. -/
def marchTm (y rem : ℤ) (k : ℕ) (days secs : ℤ) : Tm where
  year := (if 10 ≤ k then y + 1 else y) - 1900
  mon := (if 10 ≤ k then (k : ℤ) - 12 else k) + 2
  mday := rem - (daysInMonth.take k).sum + 1
  wday := (3 + days) % 7
  yday := if 10 ≤ k then rem - 306 else rem + 59 + leapDay y
  hour := secs / 3600
  min := secs / 60 % 60
  sec := secs % 60

/-- **These fields are those of the calendar.** -/
theorem marchTm_civil {days : ℤ} (hk : k < 12) (hle : (daysInMonth.take k).sum ≤ rem)
    (hlt : rem < (daysInMonth.take (k + 1)).sum) (hlast : rem = 365 → leapDay (y + 1) = 1)
    (hdays : t / 86400 = days + 11017) (hy : t / 86400 = yearStart y + 59 + leapDay y + rem)
    (hrem : 0 ≤ rem ∧ rem ≤ 365) : YearOf (t / 86400) (if 10 ≤ k then y + 1 else y) ∧
      IsCivil t (if 10 ≤ k then y + 1 else y) (marchTm y rem k days (t % 86400)) := by
  have hjan := march_january hk hle hlt
  have hmonth := march_month hk hle hlt hlast
  have hsucc := yearStart_succ y
  have hsucc' := yearStart_succ (y + 1)
  have hl := leapDay_cases y
  have hl' := leapDay_cases (y + 1)
  -- the fields of the time of the day do not depend on the month
  have hciv : ∀ year (m : ℕ), (marchTm y rem k days (t % 86400)).year = year - 1900 →
      (marchTm y rem k days (t % 86400)).mon = m → m ≤ 11 →
      rem - (daysInMonth.take k).sum < monthLength year m →
      t / 86400 = yearStart year + monthStart year m + (rem - (daysInMonth.take k).sum) →
      t / 86400 = yearStart year + (marchTm y rem k days (t % 86400)).yday →
      IsCivil t year (marchTm y rem k days (t % 86400)) := by
    intro year m hyear hmon hm hlen hday hyday
    refine ⟨hyear, by omega, ?_, ?_, hyday, ?_, ?_, ?_, ?_, ?_⟩
    · rw [hmon, Int.toNat_natCast]
      simp only [marchTm]
      omega
    · rw [hmon, Int.toNat_natCast]
      simp only [marchTm]
      omega
    all_goals
      simp only [marchTm]
      omega
  by_cases h10 : 10 ≤ k
  · simp only [if_pos h10] at hmonth
    rw [if_pos h10]
    refine ⟨⟨by omega, by omega⟩, hciv (y + 1) (k - 10) ?_ ?_ (by omega) hmonth.2 (by omega) ?_⟩
    · simp [marchTm, if_pos h10]
    · simp only [marchTm]
      omega
    · simp only [marchTm]
      omega
  · simp only [if_neg h10] at hmonth
    rw [if_neg h10]
    refine ⟨⟨by omega, by omega⟩, hciv y (k + 2) ?_ ?_ (by omega) hmonth.2 (by omega) ?_⟩
    · simp [marchTm, if_neg h10]
    · simp only [marchTm]
      omega
    · simp only [marchTm]
      omega

/-- **What `__secs_to_tm` computes.** -/
theorem secsToTm_eq (t : ℤ) : ∃ y tm, YearOf (t / 86400) y ∧ IsCivil t y tm ∧
    secsToTm t = if intMin ≤ y - 1900 ∧ y - 1900 ≤ intMax then some tm else none := by
  have hdays : t / 86400 = (t - leapoch) / 86400 + 11017 := by
    unfold leapoch
    omega
  have hsecs : (t - leapoch) % 86400 = t % 86400 := by
    unfold leapoch
    omega
  obtain ⟨ry, q, c, rem, hcascade, hM⟩ := marchCascade_eq ((t - leapoch) / 86400)
  have hfirst := march_first ((t - leapoch) / 86400 / 146097) hM.ry_bounds hM.q_bounds hM.c_bounds
  have hleap := march_leap ((t - leapoch) / 86400 / 146097) hM.ry_bounds hM.q_bounds hM.c_bounds
  have hlast := fun h =>
    march_last ((t - leapoch) / 86400 / 146097) (hM.last h).1 hM.q_bounds (hM.last h).2
  have hdaysEq := hM.days_eq
  have hsum : daysInMonth.sum = 366 := rfl
  obtain ⟨hrem0, hrem1⟩ := hM.rem_bounds
  obtain ⟨k, hk, hloop, hle, hlt⟩ := monthLoop_eq (l := daysInMonth) 0 rem hrem0 (by omega)
  have hciv := marchTm_civil
    hk hle hlt hlast hdays (by omega) ⟨hrem0, hrem1⟩
  refine ⟨_, _, hciv.1, hciv.2, ?_⟩
  have hjan := march_january hk hle hlt
  have ht0 := Int.emod_nonneg t (show 86400 ≠ 0 by decide)
  unfold secsToTm
  by_cases hrej : t < intMin * 31622400 ∨ intMax * 31622400 < t
  · rw [if_pos hrej, if_neg (year_of_rejected hciv.1 hrej)]
  rw [if_neg hrej, divFix_eq _ (by decide)]
  simp only [hcascade, hloop, hleap, hsecs, wday_eq, tdiv_of_nonneg ht0, tmod_of_nonneg ht0, zero_add]
  rw [tmod_of_nonneg (Int.ediv_nonneg ht0 (by decide))]
  generalize ry + 4 * q + 100 * c + 400 * ((t - leapoch) / 86400 / 146097) = n
  have hk10 : (10 : ℤ) ≤ k ↔ 10 ≤ k := by omega
  simp only [hk10]
  have hyear : (if 10 ≤ k then n + 1 else n) + 100 =
      (if 10 ≤ k then 2000 + n + 1 else 2000 + n) - 1900 := by
    split <;> omega
  have hyday : (if 365 + leapDay (2000 + n) ≤ rem + 31 + 28 + leapDay (2000 + n) then
      rem + 31 + 28 + leapDay (2000 + n) - (365 + leapDay (2000 + n)) else
      rem + 31 + 28 + leapDay (2000 + n)) = if 10 ≤ k then rem - 306 else rem + 59 + leapDay
        (2000 + n) := by
    split <;> split <;> omega
  rw [hyear, hyday]
  by_cases hfit : intMin ≤ (if 10 ≤ k then 2000 + n + 1 else 2000 + n) - 1900 ∧
      (if 10 ≤ k then 2000 + n + 1 else 2000 + n) - 1900 ≤ intMax
  · rw [if_neg (by rw [not_or, not_lt, not_lt]; exact ⟨hfit.2, hfit.1⟩), if_pos hfit]
    rfl
  · rw [if_pos (by rw [not_and_or, not_le, not_le] at hfit; exact hfit.symm), if_neg hfit]

/-- **Civil time is exact.**  `__secs_to_tm` fails exactly when the calendar year of `t`, counted from
1900, is no `int`; otherwise its fields are those of `t`, and `__tm_to_secs` makes `t` of them. -/
theorem secsToTm_exact (t : ℤ) : ∃ y, YearOf (t / 86400) y ∧
    (secsToTm t = none ↔ ¬(intMin ≤ y - 1900 ∧ y - 1900 ≤ intMax)) ∧
    ∀ tm, secsToTm t = some tm → IsCivil t y tm ∧ tmToSecs tm = t := by
  obtain ⟨y, tm, hy, hcivil, heq⟩ := secsToTm_eq t
  refine ⟨y, hy, ?_, ?_⟩
  · rw [heq]
    split
    · rename_i hfit
      exact iff_of_false (Option.some_ne_none tm) (not_not.2 hfit)
    · rename_i hfit
      exact iff_of_true rfl hfit
  · intro tm' h
    rw [heq] at h
    split at h
    · rename_i hfit
      cases Option.some.inj h
      refine ⟨hcivil, hcivil.tmToSecs ?_ ?_⟩
      · unfold intMin intMax at hfit
        omega
      · unfold intMin intMax at hfit
        omega
    · cases h

end Musl.Time
