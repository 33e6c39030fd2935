import Musl.Time.Civil

/-!
# Local time

`__secs_to_zone` decides between standard and daylight saving time by the two rules of `TZ`; `mktime`
asks it with a local time, and corrects its answer by `tm_isdst`.

Whatever the rules answer, they choose between the same two offsets: this is why `mktime` finds back the
time, in the hour that comes twice as well as about New Year.
-/

namespace Musl.Time.Tz

open Musl.Lib.Calendar Option Nat

/-! ### The code -/

/-- The conversion of a `long long` to `int`. -/
def toInt (x : ℤ) : ℤ := (x + 2147483648) % 4294967296 - 2147483648

def daysInMonth (m : ℕ) (isLeap : ℤ) : ℤ :=
  if m = 2 then 28 + isLeap else 30 + ((0xad5 >>> (m - 1) &&& 1 : ℕ) : ℤ)

/-- A rule of `TZ` as `getrule` stores it: a month, week and weekday (`rule[0] == 'M'`; month and week are
counted from 0 here), a day that is never 29 February (`'J'`), or a day from 0 on.  `time` is
`rule[4]`. -/
inductive Rule where
  | month (m : Fin 12) (n : Fin 5) (d : Fin 7) (time : ℤ)
  | julian (x time : ℤ)
  | day (x time : ℤ)
  deriving DecidableEq, Repr

def ruleToSecs (rule : Rule) (year : ℤ) : ℤ :=
  let y := yearToSecs year
  match rule with
  | .day x time => y.1 + 86400 * x + time
  | .julian x time =>
    let x := if x < 60 ∨ y.2 = 0 then x - 1 else x
    y.1 + 86400 * x + time
  | .month m n d time =>
    let t := y.1 + monthToSecs m y.2
    let wday := ((t + 4 * 86400).tmod (7 * 86400)).tdiv 86400
    let days := if (d : ℤ) - wday < 0 then d - wday + 7 else d - wday
    let n : ℤ := if (n : ℤ) + 1 = 5 ∧ daysInMonth (m + 1) y.2 ≤ days + 28 then 4 else n + 1
    t + 86400 * (days + 7 * (n - 1)) + time

/-- What `do_tzset` leaves for a `TZ` without a zone file: the offsets west of Greenwich, which come as
`int`, the rules and the names. -/
structure Zone where
  timezone : ℤ
  dstOff : ℤ
  daylight : Bool
  r0 : Rule
  r1 : Rule
  tzname : String × String
  timezone_int : intMin ≤ timezone ∧ timezone ≤ intMax
  dstOff_int : intMin ≤ dstOff ∧ dstOff ≤ intMax

/-- What `__secs_to_zone` stores. -/
structure ZoneAt where
  isdst : ℤ
  offset : ℤ
  oppoff : ℤ
  zonename : String
  deriving DecidableEq, Repr

/-- The label `std`. -/
def Zone.std (z : Zone) : ZoneAt := ⟨0, -z.timezone, -z.dstOff, z.tzname.1⟩

/-- The label `dst`. -/
def Zone.dst (z : Zone) : ZoneAt := ⟨1, -z.dstOff, -z.timezone, z.tzname.2⟩

/-- `while (__year_to_secs(y, 0) > t) y--;` -/
def yearDown (t : ℤ) : ℕ → ℤ → Option ℤ
  | 0, _ => none
  | fuel + 1, y => if t < (yearToSecs y).1 then yearDown t fuel (y - 1) else some y

/-- `while (__year_to_secs(y+1, 0) < t) y++;` -/
def yearUp (t : ℤ) : ℕ → ℤ → Option ℤ
  | 0, _ => none
  | fuel + 1, y => if (yearToSecs (y + 1)).1 < t then yearUp t fuel (y + 1) else some y

def yearSearch (fuel : ℕ) (t : ℤ) : Option ℤ := do
  let y ← yearDown t fuel (t.tdiv 31556952 + 70)
  yearUp t fuel y

/-- The comparison with the two changes of the year `y`. -/
def Zone.choose (z : Zone) (t y : ℤ) (isLocal : Bool) : ZoneAt :=
  let t0 := ruleToSecs z.r0 (toInt y)
  let t1 := ruleToSecs z.r1 (toInt y)
  let t0 := if isLocal then t0 else t0 + z.timezone
  let t1 := if isLocal then t1 else t1 + z.dstOff
  if t0 < t1 then
    if t0 ≤ t ∧ t < t1 then z.dst else z.std
  else
    if t1 ≤ t ∧ t < t0 then z.std else z.dst

/-- `__secs_to_zone`; `none` if the loops take more than `fuel` rounds. -/
def secsToZone (z : Zone) (fuel : ℕ) (t : ℤ) (isLocal : Bool) : Option ZoneAt :=
  if z.daylight then do
    let y ← yearSearch fuel t
    return z.choose t y isLocal
  else some z.std

/-- A `struct tm` with the fields that tell the zone. -/
structure LocalTm where
  tm : Tm
  isdst : ℤ
  gmtoff : ℤ
  zone : String
  deriving DecidableEq, Repr

inductive Errno where
  | EOVERFLOW
  deriving DecidableEq, Repr

/-- `__secs_to_zone(t, 0, ...)` and `__secs_to_tm` of the time at its offset. -/
def localTime (z : Zone) (fuel : ℕ) (t : ℤ) : Option (Except Errno LocalTm) := do
  let new ← secsToZone z fuel t false
  match secsToTm (t + new.offset) with
  | none => return .error .EOVERFLOW
  | some tm => return .ok ⟨tm, new.isdst, new.offset, new.zonename⟩

/-- `mktime`: the time and the new value of `*tm`.  `time_t` and `long long` have the same width, so that
`(time_t)t != t` does not occur. -/
def mktime (z : Zone) (fuel : ℕ) (tm : LocalTm) : Option (Except Errno (ℤ × LocalTm)) := do
  let t := tmToSecs tm.tm
  let new ← secsToZone z fuel t true
  let t := if 0 ≤ tm.isdst ∧ new.isdst ≠ tm.isdst then t - (new.oppoff - new.offset) else t
  let t := t - new.offset
  match ← localTime z fuel t with
  | .error e => return .error e
  | .ok new => return .ok (t, new)

/-! ### The search for the year -/

lemma yearStart_bounds (y : ℤ) : 31556952 * (y - 1970) - 259200 ≤ 86400 * yearStart y ∧
      86400 * yearStart y ≤ 31556952 * (y - 1970) + 259200 := by
  unfold yearStart
  omega

variable {y t : ℤ} {fuel : ℕ} {a : ZoneAt} {z : Zone}

lemma yearToSecs_fst (hlo : -2 ^ 61 < y) (hhi : y < 2 ^ 61) :
    (yearToSecs y).1 = 86400 * yearStart (y + 1900) := by
  have h := yearToSecs_eq (y := y + 1900) (by omega) (by omega)
  rw [add_sub_cancel_right] at h
  rw [h]

lemma yearDown_total (n k : ℕ) (hlo : -2 ^ 60 + n < y) (hhi : y < 2 ^ 60)
    (h : 31556952 * (y - n - 70) + 259200 ≤ t) :
    ∃ z, yearDown t (n + 1 + k) y = some z ∧ y - n ≤ z ∧ z ≤ y := by
  induction n generalizing y with
  | zero =>
    have hb := yearStart_bounds (y + 1900)
    refine ⟨y, ?_, by omega, le_refl y⟩
    rw [add_right_comm, yearDown, yearToSecs_fst (by omega) (by omega), if_neg (by omega)]
  | succ n ih =>
    rw [add_right_comm, yearDown]
    split
    · obtain ⟨z, hz, hz1, hz2⟩ := ih (y := y - 1) (by omega) (by omega) (by omega)
      exact ⟨z, hz, by omega, by omega⟩
    · exact ⟨y, rfl, by omega, le_refl y⟩

lemma yearUp_total (n k : ℕ) (hlo : -2 ^ 60 < y) (hhi : y + n < 2 ^ 60)
    (h : t ≤ 31556952 * (y + 1 + n - 70) - 259200) :
    ∃ z, yearUp t (n + 1 + k) y = some z := by
  induction n generalizing y with
  | zero =>
    have hb := yearStart_bounds (y + 1 + 1900)
    refine ⟨y, ?_⟩
    rw [add_right_comm, yearUp, yearToSecs_fst (by omega) (by omega), if_neg (by omega)]
  | succ n ih =>
    rw [add_right_comm, yearUp]
    split
    · obtain ⟨z, hz⟩ := ih (y := y + 1) (by omega) (by omega) (by omega)
      exact ⟨z, hz⟩
    · exact ⟨y, rfl⟩

/-- **The search ends**: the quotient is off by one year and a few days. -/
theorem yearSearch_total (hlo : -2 ^ 64 ≤ t) (hhi : t ≤ 2 ^ 64) (hfuel : 5 ≤ fuel) :
    ∃ y, yearSearch fuel t = some y := by
  have hq : 31556952 * t.tdiv 31556952 < t + 31556952 ∧ t < 31556952 * t.tdiv 31556952 + 31556952 := by
    rw [Int.tdiv_eq_ediv]
    have hsign : Int.sign 31556952 = 1 := rfl
    split <;> omega
  obtain ⟨k, rfl⟩ := Nat.exists_eq_add_of_le hfuel
  obtain ⟨y, hdown, hy1, hy2⟩ := yearDown_total (t := t) (y := t.tdiv 31556952 + 70) 2 (2 + k)
    (by omega) (by omega) (by omega)
  obtain ⟨z, hup⟩ := yearUp_total (t := t) (y := y) 4 k (by omega) (by omega) (by omega)
  refine ⟨z, ?_⟩
  rw [show 2 + 1 + (2 + k) = 5 + k by omega] at hdown
  simp only [yearSearch, hdown]
  exact hup

/-! ### The zone -/

def Zone.Answers (z : Zone) (a : ZoneAt) : Prop := a = z.std ∨ a = z.dst

lemma Zone.choose_answers (z : Zone) (t y : ℤ) (isLocal : Bool) : z.Answers (z.choose t y isLocal) := by
  simp only [Zone.choose]
  by_cases hlt : (if isLocal then ruleToSecs z.r0 (toInt y) else ruleToSecs z.r0 (toInt y) + z.timezone) <
      (if isLocal then ruleToSecs z.r1 (toInt y) else ruleToSecs z.r1 (toInt y) + z.dstOff)
  · rw [if_pos hlt]
    exact (ite_eq_or_eq _ _ _).symm
  · rw [if_neg hlt]
    exact ite_eq_or_eq _ _ _

/-- **The zone is one of two**, whatever the rules say. -/
theorem secsToZone_answers (z : Zone) (hfuel : 5 ≤ fuel) (hlo : -2 ^ 64 ≤ t) (hhi : t ≤ 2 ^ 64)
    (isLocal : Bool) :
    ∃ a, secsToZone z fuel t isLocal = some a ∧ z.Answers a := by
  unfold secsToZone
  split
  · obtain ⟨y, hy⟩ := yearSearch_total hlo hhi hfuel
    rw [hy]
    exact ⟨_, rfl, z.choose_answers t y isLocal⟩
  · exact ⟨_, rfl, .inl rfl⟩

lemma Zone.Answers.offset_bounds (h : z.Answers a) : -2 ^ 32 ≤ a.offset ∧ a.offset ≤ 2 ^ 32 := by
  have h1 := z.timezone_int
  have h2 := z.dstOff_int
  unfold intMin intMax at h1 h2
  rcases h with rfl | rfl
  · simp only [Zone.std]
    omega
  · simp only [Zone.dst]
    omega

/-- Either answer `b` to the local time of `t` leads back to `t`, by the offset that `tm_isdst` tells. -/
lemma Zone.Answers.corrected {b : ZoneAt} (ha : z.Answers a) (hb : z.Answers b) (t : ℤ) :
    (if 0 ≤ a.isdst ∧ b.isdst ≠ a.isdst then t + a.offset - (b.oppoff - b.offset) else t + a.offset) -
      b.offset = t := by
  rcases ha with rfl | rfl <;> rcases hb with rfl | rfl <;> simp [Zone.std, Zone.dst]
  · ring
  · ring

lemma tmToSecs_secsToTm {tm : Tm} (h : secsToTm t = some tm) : tmToSecs tm = t := by
  obtain ⟨y, tm', -, hcivil, heq⟩ := secsToTm_eq t
  rw [heq] at h
  split at h
  · rename_i hfit
    cases some.inj h
    unfold intMin intMax at hfit
    exact hcivil.tmToSecs (by omega) (by omega)
  · cases h

/-- **`mktime` inverts the local time.**  The local time of `t` is found, and where it is representable
`mktime` returns `t` for it and leaves it as it is. -/
theorem mktime_localTime (z : Zone) {fuel : ℕ} (hfuel : 5 ≤ fuel) {t : ℤ} (hlo : -2 ^ 63 ≤ t)
    (hhi : t < 2 ^ 63) : ∃ r, localTime z fuel t = some r ∧
      ∀ tm, r = .ok tm → mktime z fuel tm = some (.ok (t, tm)) := by
  obtain ⟨a, ha, hcases⟩ := secsToZone_answers z hfuel (t := t) (by omega) (by omega) false
  obtain ⟨hoff1, hoff2⟩ := hcases.offset_bounds
  obtain ⟨b, hb, hcases'⟩ := secsToZone_answers z hfuel (t := t + a.offset) (by omega) (by omega) true
  cases htm : secsToTm (t + a.offset) with
  | none =>
    refine ⟨.error .EOVERFLOW, ?_, fun tm h => by cases h⟩
    simp [localTime, ha, htm]
  | some tm =>
    have hlocal : localTime z fuel t = some (.ok ⟨tm, a.isdst, a.offset, a.zonename⟩) := by
      simp [localTime, ha, htm]
    refine ⟨_, hlocal, ?_⟩
    intro _ h
    cases h
    -- the time that `mktime` asks about is the local time, of which `tm` are the fields
    simp [mktime, tmToSecs_secsToTm htm, hb, hcases.corrected hcases' t, hlocal]

/-- `EST5EDT,M3.2.0,M11.1.0`. -/
def est5edt : Zone where
  timezone := 18000
  dstOff := 14400
  daylight := true
  r0 := .month 2 1 0 7200
  r1 := .month 10 0 0 7200
  tzname := ("EST", "EDT")
  timezone_int := by decide
  dstOff_int := by decide

/-- 5 November 2023, 1:30 for the first time: the hour comes again with standard time. -/
theorem mktime_localTime_fold : ∃ tm, localTime est5edt 5 1699162200 = some (.ok tm) ∧ tm.isdst = 1 ∧
    mktime est5edt 5 tm = some (.ok (1699162200, tm)) := by
  obtain ⟨r, hr, hm⟩ := mktime_localTime est5edt (le_refl 5) (t := 1699162200) (by decide) (by decide)
  refine ⟨⟨⟨123, 10, 5, 0, 308, 1, 30, 0⟩, 1, -14400, "EDT"⟩, by decide +kernel, rfl, hm _ ?_⟩
  apply some.inj
  rw [← hr]
  decide +kernel

/-! ### Universal time -/

def gmtimeR (t : ℤ) : Except Errno LocalTm :=
  (secsToTm t).elim (.error .EOVERFLOW) fun tm => .ok ⟨tm, 0, 0, "UTC"⟩

/-- `timegm`: the time and the new value of `*tm`. -/
def timegm (tm : LocalTm) : Except Errno (ℤ × LocalTm) :=
  let t := tmToSecs tm.tm
  (secsToTm t).elim (.error .EOVERFLOW) fun new => .ok (t, ⟨new, 0, 0, "UTC"⟩)

lemma timegm_eq_ok {t : ℤ} {tm tm' : LocalTm} :
    timegm tm = .ok (t, tm') ↔ tmToSecs tm.tm = t ∧ gmtimeR t = .ok tm' := by
  have hmap : timegm tm = (gmtimeR (tmToSecs tm.tm)).map (tmToSecs tm.tm, ·) := by
    rw [timegm, gmtimeR]
    generalize secsToTm _ = r
    cases r <;> rfl
  rw [hmap]
  constructor
  · intro h
    generalize hg : gmtimeR (tmToSecs tm.tm) = r at h
    cases r with
    | error e => cases h
    | ok new =>
      cases h
      exact ⟨rfl, hg⟩
  · rintro ⟨rfl, h⟩
    rw [h]
    rfl

/-- **`timegm` inverts `gmtime_r`**, and whatever fields it is given, it leaves those of the time
that it returns. -/
theorem timegm_gmtime (t : ℤ) (tm' : LocalTm) : (gmtimeR t = .ok tm' ↔ timegm tm' = .ok (t, tm')) ∧
    ((∃ tm, timegm tm = .ok (t, tm')) ↔ gmtimeR t = .ok tm') := by
  have hinv (h : gmtimeR t = .ok tm') : timegm tm' = .ok (t, tm') := by
    refine timegm_eq_ok.2 ⟨?_, h⟩
    rw [gmtimeR] at h
    generalize hnew : secsToTm t = r at h
    cases r with
    | none => cases h
    | some new =>
      cases h
      exact tmToSecs_secsToTm hnew
  exact ⟨⟨hinv, fun h => (timegm_eq_ok.1 h).2⟩, fun ⟨_, h⟩ => (timegm_eq_ok.1 h).2,
    fun h => ⟨tm', hinv h⟩⟩

end Musl.Time.Tz
