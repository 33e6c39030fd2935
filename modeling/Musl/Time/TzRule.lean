import Musl.Time.Zone

/-!
# The rules `Mm.n.d`

`rule_to_secs` looks for the weekday of the first of the month, goes on to the next day with the
weekday of the rule, and then by weeks.  The remainder that gives the weekday has the sign of the
time, so that before 1970 it is the weekday less 7; one week is added to a negative difference of
weekdays, but none is taken off one that is too large.
-/

namespace Musl.Time.Tz

open Musl.Lib.Calendar

/-- The day that a rule names: the last one of the month in week 5. -/
def IsRuleDay (y : ℤ) (m n : ℕ) (d day : ℤ) : Prop :=
  if n = 5 then IsLastWeekday y m d day else IsNthWeekday y m d n day

/-- The first of the month is in 1970 or later, or it is a Sunday, or the weekday of the rule comes
before it, or the rule is about a fifth week that the month has. -/
def RuleWorks (y : ℤ) (m n : ℕ) (d : ℤ) : Prop :=
  1970 ≤ y ∨ weekday (monthFirst y m) = 0 ∨ d < weekday (monthFirst y m) ∨
    n = 5 ∧ d - weekday (monthFirst y m) + 28 < monthLength y m

instance (y : ℤ) (m n : ℕ) (d : ℤ) : Decidable (RuleWorks y m n d) := by
  unfold RuleWorks
  infer_instance

/-- The days from the first of a month on to the next one with a weekday. -/
def daysOn (first d : ℤ) : ℤ := (d - weekday first) % 7

variable {d y : ℤ} {m : ℕ}

lemma weekday_daysOn (first : ℤ) (hd : 0 ≤ d ∧ d < 7) : weekday (first + daysOn first d) = d := by
  unfold daysOn weekday
  omega

lemma daysOn_bounds (first d : ℤ) : 0 ≤ daysOn first d ∧ daysOn first d < 7 := by
  unfold daysOn
  omega

/-- `(int)((t + 4*86400) % (7*86400)) / 86400` at the beginning of a day. -/
lemma wday_tmod (first : ℤ) : ((86400 * first + 4 * 86400).tmod (7 * 86400)).tdiv 86400 =
      if 0 ≤ first + 4 ∨ weekday first = 0 then weekday first else weekday first - 7 := by
  have hmul : 86400 * first + 4 * 86400 = 86400 * (first + 4) := by ring
  have hweek : (7 * 86400 : ℤ) = 86400 * 7 := by ring
  rw [hmul, hweek, Int.mul_tmod_mul_of_pos _ _ (by decide), Int.mul_tdiv_cancel_left _ (by decide),
    Int.tmod_eq_emod]
  unfold weekday
  split_ifs <;> omega

lemma daysInMonth_eq (y : ℤ) (hm : m < 12) : daysInMonth (m + 1) (leapDay y) = monthLength y m := by
  interval_cases m <;> simp [daysInMonth, monthLength]

lemma first_nonneg_iff (hm : m < 12) : 0 ≤ monthFirst y m + 4 ↔ 1970 ≤ y := by
  have hmonth := monthStart_le y hm
  have hlen := monthLength_bounds y m
  have hsucc := yearStart_succ y
  unfold monthFirst
  constructor
  · intro h
    by_contra hlt
    have hmono := yearStart_mono (y := y + 1) (z := 1970) (by omega)
    rw [yearStart_epoch] at hmono
    omega
  · intro h
    have hmono := yearStart_mono h
    rw [yearStart_epoch] at hmono
    omega

lemma days_eq (hm : m < 12) {wday : ℤ} (hd : 0 ≤ d ∧ d < 7)
    (hwday : wday = if 0 ≤ monthFirst y m + 4 ∨ weekday (monthFirst y m) =
      0 then weekday (monthFirst y m) else weekday (monthFirst y m) - 7) :
    (if d - wday < 0 then d - wday + 7 else d - wday) =
      if 1970 ≤ y ∨ weekday (monthFirst y m) = 0 ∨
      d < weekday (monthFirst y m) then daysOn (monthFirst y m) d
      else daysOn (monthFirst y m) d + 7 := by
  have hw := weekday_bounds (monthFirst y m)
  simp only [first_nonneg_iff hm] at hwday
  unfold daysOn
  split_ifs <;> omega

lemma ruleToSecs_eq {year : ℤ} (hy : y = year + 1900) (hyear : intMin ≤ year ∧ year ≤ intMax)
    (m : Fin 12) (n : Fin 5) (d : Fin 7) (time : ℤ) :
    ∃ days, (days = if 1970 ≤ y ∨ weekday (monthFirst y m) = 0 ∨ (d : ℕ) < weekday (monthFirst y m)
        then daysOn (monthFirst y m) (d : ℕ) else daysOn (monthFirst y m) (d : ℕ) + 7) ∧
      ruleToSecs (.month m n d time) year = 86400 * (monthFirst y m + days +
        7 * if (n : ℕ) + 1 = 5 ∧ monthLength y m ≤ days + 28 then 3 else ((n : ℕ) : ℤ)) + time := by
  have hd : (0 : ℤ) ≤ d ∧ (d : ℤ) < 7 := ⟨by omega, by have := d.isLt; omega⟩
  have hyr : yearToSecs year = (86400 * yearStart y, leapDay y) := by
    unfold intMin intMax at hyear
    have hyr := yearToSecs_eq (y := y) (by omega) (by omega)
    rwa [hy, add_sub_cancel_right, ← hy] at hyr
  have hfirst : 86400 * yearStart y + monthToSecs m (leapDay y) = 86400 * monthFirst y m := by
    rw [monthToSecs_eq _ (by have := m.isLt; omega)]
    unfold monthFirst
    ring
  have hn : (n : ℤ) + 1 = 5 ↔ (n : ℕ) + 1 = 5 := by omega
  refine ⟨_, rfl, ?_⟩
  unfold ruleToSecs
  simp only [hyr, hfirst, daysInMonth_eq y m.isLt, days_eq m.isLt hd (wday_tmod (monthFirst y m)), hn]
  split_ifs <;> ring

/-- **The rules that name the right day.**  There is exactly one day of the month to be named, and
`rule_to_secs` gives its time if and only if the rule works in the year. -/
theorem ruleToSecs_month {year : ℤ} (hyear : intMin ≤ year ∧ year ≤ intMax) (m : Fin 12) (n : Fin 5)
    (d : Fin 7) (time : ℤ) :
    ∃ day, IsRuleDay (year + 1900) m (n + 1) d day ∧
    (∀ day', IsRuleDay (year + 1900) m (n + 1) d day' → day' = day) ∧
      (ruleToSecs (.month m n d time) year = 86400 * day + time ↔
        RuleWorks (year + 1900) m (n + 1) d) := by
  obtain ⟨y, hy⟩ : ∃ y, y = year + 1900 := ⟨_, rfl⟩
  obtain ⟨days, hdays, hsecs⟩ := ruleToSecs_eq hy hyear m n d time
  have hd : (0 : ℤ) ≤ d ∧ (d : ℤ) < 7 := ⟨by omega, by have := d.isLt; omega⟩
  have he := daysOn_bounds (monthFirst y m) d
  have hwd := weekday_daysOn (monthFirst y m) hd
  have hw := weekday_bounds (monthFirst y m)
  have hlen := monthLength_bounds y m
  rw [← hy]
  unfold IsRuleDay RuleWorks
  by_cases hn : (n : ℕ) + 1 = 5
  · -- the last one of the month
    have hon : (d : ℤ) < weekday (monthFirst y m) ∨
        daysOn (monthFirst y m) d = d - weekday (monthFirst y m) := by
      unfold daysOn
      omega
    simp only [if_pos hn, isLastWeekday_iff he hwd]
    refine ⟨_, rfl, fun day' h => h, ?_⟩
    split_ifs at hdays ⊢ <;> omega
  · simp only [if_neg hn, isNthWeekday_iff he hwd]
    refine ⟨monthFirst y m + daysOn (monthFirst y m) d + 7 * n, ⟨⟨?_, ?_⟩, ?_, ?_⟩, fun day' h => ?_, ?_⟩
    · omega
    · omega
    · omega
    · push_cast
      ring
    · rw [h.2.2]
      push_cast
      ring
    · simp only [hn, false_and, or_false]
      split_ifs at hdays with hworks
      · omega
      · omega

/-- New York since 2007, the second Sunday of March. -/
theorem ruleToSecs_month_march :
    ∃ day, IsRuleDay (124 + 1900) 2 2 0 day ∧ (∀ day', IsRuleDay (124 + 1900) 2 2 0 day' → day' = day) ∧
      ruleToSecs (.month 2 1 0 7200) 124 = 86400 * day + 7200 := by
  obtain ⟨day, hday, hunique, hiff⟩ := @ruleToSecs_month 124 (by decide) 2 1 0 7200
  exact ⟨day, hday, hunique, hiff.2 (by decide)⟩

/-- The first Wednesday of January 1969 was New Year's Day, 365 days before the epoch; the rule says
a week later. -/
theorem ruleToSecs_before_epoch :
    IsRuleDay (69 + 1900) 0 1 3 (-365) ∧ ruleToSecs (.month 0 0 3 7200) 69 = 86400 * (-358) + 7200 := by
  refine ⟨?_, by decide +kernel⟩
  have hwd : weekday (monthFirst 1969 0 + 0) = 3 := by decide
  exact (isNthWeekday_iff (by decide) hwd).2 ⟨⟨by decide, by decide⟩, le_rfl, by decide⟩

end Musl.Time.Tz
