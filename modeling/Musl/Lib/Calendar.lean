import Mathlib

/-!
# The proleptic Gregorian calendar

Days are counted from 1 January 1970, years are those of the calendar (the year 0 is 1 BC), months run
from 0 to 11.
-/

namespace Musl.Lib.Calendar

open Finset

def IsLeap (y : ℤ) : Prop := y % 4 = 0 ∧ (y % 100 ≠ 0 ∨ y % 400 = 0)

instance (y : ℤ) : Decidable (IsLeap y) := by
  unfold IsLeap
  infer_instance

def leapDay (y : ℤ) : ℤ := if IsLeap y then 1 else 0

def monthLength (y : ℤ) (m : ℕ) : ℤ :=
  if m = 1 then 28 + leapDay y else if m ∈ [3, 5, 8, 10] then 30 else 31

def monthStart (y : ℤ) : ℕ → ℤ
  | 0 => 0
  | m + 1 => monthStart y m + monthLength y m

/-- The day on which a year begins: 365 days for every year since 1970, and the leap days between. -/
def yearStart (y : ℤ) : ℤ := 365 * (y - 1970) + ((y - 1) / 4 - (y - 1) / 100 + (y - 1) / 400) - 477

def YearOf (day y : ℤ) : Prop := yearStart y ≤ day ∧ day < yearStart (y + 1)

lemma leapDay_cases (y : ℤ) : (IsLeap y ∧ leapDay y = 1) ∨ (¬IsLeap y ∧ leapDay y = 0) := by
  by_cases h : IsLeap y
  · exact .inl ⟨h, if_pos h⟩
  · exact .inr ⟨h, if_neg h⟩

lemma leapDay_eq_one_iff (y : ℤ) : leapDay y = 1 ↔ IsLeap y := by
  rcases leapDay_cases y with ⟨h, hday⟩ | ⟨h, hday⟩ <;> simp [h, hday]

lemma yearStart_epoch : yearStart 1970 = 0 := rfl

/-- **The length of a year.** -/
theorem yearStart_succ (y : ℤ) : yearStart (y + 1) = yearStart y + 365 + leapDay y := by
  have h := leapDay_cases y
  unfold IsLeap at h
  unfold yearStart
  omega

lemma yearStart_mono {y z : ℤ} (h : y ≤ z) : yearStart y ≤ yearStart z := by
  unfold yearStart
  omega

/-! ### Weekdays -/

/-- The day of the week, from Sunday on; 1 January 1970 was a Thursday. -/
def weekday (day : ℤ) : ℤ := (day + 4) % 7

def monthFirst (y : ℤ) (m : ℕ) : ℤ := yearStart y + monthStart y m

def InMonth (y : ℤ) (m : ℕ) (day : ℤ) : Prop :=
  monthFirst y m ≤ day ∧ day < monthFirst y m + monthLength y m

/-- The `n`-th day of a month, from 1 on, that falls on a weekday: `n - 1` days of the month before
it do. -/
def IsNthWeekday (y : ℤ) (m : ℕ) (d : ℤ) (n : ℕ) (day : ℤ) : Prop :=
  InMonth y m day ∧ weekday day = d ∧ ((Finset.Ico (monthFirst y m) day).filter fun x => weekday x =
    d).card + 1 = n

def IsLastWeekday (y : ℤ) (m : ℕ) (d day : ℤ) : Prop :=
  InMonth y m day ∧ weekday day = d ∧ ∀ x, InMonth y m x → weekday x = d → x ≤ day

lemma weekday_bounds (day : ℤ) : 0 ≤ weekday day ∧ weekday day < 7 := by
  unfold weekday
  omega

lemma monthLength_bounds (y : ℤ) (m : ℕ) : 28 ≤ monthLength y m ∧ monthLength y m ≤ 31 := by
  have h := leapDay_cases y
  unfold monthLength
  split_ifs <;> omega

lemma monthStart_le (y : ℤ) {m : ℕ} (hm : m < 12) :
    0 ≤ monthStart y m ∧ monthStart y m + monthLength y m ≤ 365 + leapDay y := by
  have h := leapDay_cases y
  interval_cases m <;> simp [monthStart, monthLength] <;> omega

lemma card_weekday {first e d : ℤ} (he : 0 ≤ e ∧ e < 7) (hd : weekday (first + e) = d) (k : ℕ) :
    ((Ico first (first + e + 7 * k)).filter fun x => weekday x = d).card = k := by
  have himage : ((Ico first (first + e + 7 * k)).filter fun x => weekday x = d) =
      (range k).image fun i : ℕ => first + e + 7 * i := by
    unfold weekday at hd ⊢
    ext x
    simp only [mem_filter, mem_Ico, mem_image, mem_range]
    constructor
    · rintro ⟨⟨hlo, hhi⟩, hx⟩
      exact ⟨((x - first - e) / 7).toNat, by omega, by omega⟩
    · rintro ⟨i, hi, rfl⟩
      exact ⟨⟨by omega, by omega⟩, by omega⟩
  rw [himage, card_image_of_injective _ fun i j hij => by simpa using hij, card_range]

/-! ### Weeks -/

/-- The Thursday of the week of a day; weeks begin on Mondays. -/
def thursday (day : ℤ) : ℤ := day - (weekday day + 6) % 7 + 3

/-- The week of ISO 8601 in which a day lies: it belongs to the year of its Thursday, and is
numbered by the Thursdays of that year. -/
def IsIsoWeek (day y w : ℤ) : Prop := YearOf (thursday day) y ∧ w = (thursday day - yearStart y) / 7 + 1

section Nth

variable {y d e day : ℤ} {m n : ℕ}

section

variable (he : 0 ≤ e ∧ e < 7) (hd : weekday (monthFirst y m + e) = d)

include he hd

lemma isNthWeekday_iff :
    IsNthWeekday y m d n day ↔ InMonth y m day ∧ 1 ≤ n ∧
    day = monthFirst y m + e + 7 * ((n : ℤ) - 1) := by
  constructor
  · rintro ⟨hmonth, hday, hcard⟩
    obtain ⟨k, hk⟩ : ∃ k : ℕ, day = monthFirst y m + e + 7 * k := by
      have hlo := hmonth.1
      unfold weekday at hd hday
      exact ⟨((day - monthFirst y m - e) / 7).toNat, by omega⟩
    rw [hk, card_weekday he hd] at hcard
    exact ⟨hmonth, by omega, by omega⟩
  · rintro ⟨hmonth, hn, hday⟩
    have hk : day = monthFirst y m + e + 7 * ((n - 1 : ℕ) : ℤ) := by omega
    refine ⟨hmonth, ?_, ?_⟩
    · unfold weekday at hd ⊢
      omega
    · rw [hk, card_weekday he hd]
      omega

lemma isLastWeekday_iff : IsLastWeekday y m d day ↔
      day = monthFirst y m + e + if e + 28 < monthLength y m then 28 else 21 := by
  have hlen := monthLength_bounds y m
  unfold IsLastWeekday InMonth
  unfold weekday at *
  constructor
  · rintro ⟨hmonth, hday, hlast⟩
    have h21 := hlast (monthFirst y m + e + 21) (by omega) (by omega)
    split_ifs with hlong
    · have h28 := hlast (monthFirst y m + e + 28) (by omega) (by omega)
      omega
    · omega
  · intro hday
    split_ifs at hday with hlong
    · exact ⟨by omega, by omega, fun x hx hxd => by omega⟩
    · exact ⟨by omega, by omega, fun x hx hxd => by omega⟩

end

end Nth

end Musl.Lib.Calendar
