import FlowRulZ.Executor.Builtins
import Mathlib.Order.Monotone.Basic
import Mathlib.Tactic.SplitIfs

/-! # Dates of the Gregorian calendar

`now_iso` counts years from March, in eras of 400 years.  Its dates are compared with the number of days that the
calendar has up to a date.
-/

namespace FlowRulZ

namespace Calendar

def isLeap (y : Nat) : Bool := y % 4 = 0 ∧ (y % 100 ≠ 0 ∨ y % 400 = 0)

def daysInMonth (leap : Bool) (m : Nat) : Nat :=
  if m = 2 then 28 + leap.toNat else if m ∈ [4, 6, 9, 11] then 30 else 31

def daysOfYears (y : Nat) : Nat := 365 * y + y / 4 + y / 400 - y / 100

def daysOfMonths (leap : Bool) (m : Nat) : Nat := ((List.range (m - 1)).map fun k => daysInMonth leap (k + 1)).sum

/-- The days from the first of January of the year 1 up to a date, both counted. -/
def dayNumber (y m d : Nat) : Nat := daysOfYears (y - 1) + daysOfMonths (isLeap y) m + d

theorem daysOfYears_succ (y : Nat) : daysOfYears (y + 1) = daysOfYears y + 365 + (isLeap (y + 1)).toNat := by
  have fewer : y / 100 ≤ y / 4 := Nat.div_le_div_left (by decide) (by decide)
  unfold daysOfYears isLeap
  rw [Nat.succ_div, Nat.succ_div, Nat.succ_div]
  generalize y / 4 = p at *
  generalize y / 100 = q at *
  generalize y / 400 = r at *
  split_ifs <;> simp_all [Nat.dvd_iff_mod_eq_zero] <;> omega

/-- The days of an era without its leap days, as far as `now_iso` takes them off. -/
def commonDays (doe : Nat) : Nat := doe - doe / 1460 + doe / 36524 - doe / 146096

theorem commonDays_mono : Monotone commonDays := by
  refine monotone_nat_of_le_succ fun doe => ?_
  have fourth : doe / 1460 ≤ doe := Nat.div_le_self _ _
  have century : doe / 146096 ≤ doe / 36524 := Nat.div_le_div_left (by decide) (by decide)
  unfold commonDays
  rw [Nat.succ_div, Nat.succ_div, Nat.succ_div]
  generalize doe / 1460 = p at *
  generalize doe / 36524 = q at *
  generalize doe / 146096 = r at *
  split_ifs <;> omega

theorem commonDays_daysOfYears : ∀ yoe ≤ 400, 365 * yoe ≤ commonDays (daysOfYears yoe) ∧
    commonDays (daysOfYears (yoe + 1) - 1) < 365 * (yoe + 1) := by
  decide +kernel

/-- `now_iso` finds the year that has the day in it. -/
theorem year_of_day {doe : Nat} (inside : doe < 146097) :
    commonDays doe / 365 < 400 ∧ daysOfYears (commonDays doe / 365) ≤ doe ∧
      doe < daysOfYears (commonDays doe / 365 + 1) := by
  have most : commonDays doe ≤ 145999 := commonDays_mono (Nat.le_of_lt_succ inside)
  have lower := Nat.div_mul_le_self (commonDays doe) 365
  have upper := Nat.lt_div_mul_add (a := commonDays doe) (b := 365) (by decide)
  generalize commonDays doe / 365 = yoe at *
  refine ⟨by omega, ?_, ?_⟩
  · by_contra early
    cases yoe with
    | zero => exact early (Nat.zero_le _)
    | succ yoe =>
      have least := commonDays_mono (show doe ≤ daysOfYears (yoe + 1) - 1 by omega)
      have below := (commonDays_daysOfYears yoe (by omega)).2
      omega
  · by_contra late
    have greatest := commonDays_mono (show daysOfYears (yoe + 1) ≤ doe by omega)
    have above := (commonDays_daysOfYears (yoe + 1) (by omega)).1
    omega

theorem month_of_day : ∀ now next : Bool, ∀ doy < 365 + next.toNat,
    let mp := (5 * doy + 2) / 153
    let d := doy - (153 * mp + 2) / 5 + 1
    (mp < 10 → d ≤ daysInMonth now (mp + 3) ∧ daysOfMonths now (mp + 3) + d = 60 + now.toNat + doy) ∧
      (10 ≤ mp → mp ≤ 11 ∧ d ≤ daysInMonth next (mp - 9) ∧ daysOfMonths next (mp - 9) + d + 305 = doy) := by
  decide +kernel

theorem daysOfYears_era (yoe era : Nat) : daysOfYears (yoe + 400 * era) = 146097 * era + daysOfYears yoe := by
  have fourths : (yoe + 400 * era) / 4 = yoe / 4 + 100 * era := by omega
  have centuries : (yoe + 400 * era) / 100 = yoe / 100 + 4 * era := by omega
  have eras : (yoe + 400 * era) / 400 = yoe / 400 + era := by omega
  have fewer : yoe / 100 ≤ yoe / 4 := Nat.div_le_div_left (by decide) (by decide)
  unfold daysOfYears
  rw [eras]
  omega

theorem civilDate_eq (days : Nat) : ∃ y doy : Nat, daysOfYears y + doy = days + 719468 ∧
    doy < 365 + (isLeap (y + 1)).toNat ∧ ∃ mp, mp = (5 * doy + 2) / 153 ∧ civilDate days =
      (((if mp < 10 then y else y + 1 : Nat) : Int), ((if mp < 10 then mp + 3 else mp - 9 : Nat) : Int),
        ((doy - (153 * mp + 2) / 5 + 1 : Nat) : Int)) := by
  obtain ⟨era, doe, whole, inside⟩ : ∃ era doe, 146097 * era + doe = days + 719468 ∧ doe < 146097 :=
    ⟨_, _, Nat.div_add_mod (days + 719468) 146097, Nat.mod_lt _ (by decide)⟩
  obtain ⟨small, starts, ends⟩ := year_of_day inside
  have common : (doe : Int) - (doe : Int).tdiv 1460 + (doe : Int).tdiv 36524 - (doe : Int).tdiv 146096 = commonDays doe := by
    have fourths : doe / 1460 ≤ doe := Nat.div_le_self _ _
    have centuries : doe / 146096 ≤ doe / 36524 := Nat.div_le_div_left (by decide) (by decide)
    change (doe : Int) - (doe / 1460 : Nat) + (doe / 36524 : Nat) - (doe / 146096 : Nat) = _
    unfold commonDays
    generalize doe / 1460 = p, doe / 36524 = q, doe / 146096 = r at *
    omega
  have year : (commonDays doe : Int).tdiv 365 = (commonDays doe / 365 : Nat) := rfl
  generalize commonDays doe / 365 = yoe at *
  have bound : doe - daysOfYears yoe < 365 + (isLeap (yoe + 400 * era + 1)).toNat := by
    have next := daysOfYears_succ (yoe + 400 * era)
    rw [Nat.add_right_comm, daysOfYears_era, daysOfYears_era] at next
    rw [Nat.add_right_comm]
    omega
  refine ⟨yoe + 400 * era, doe - daysOfYears yoe, ?_, bound, _, rfl, ?_⟩
  · rw [daysOfYears_era]
    omega
  · have leap := Bool.toNat_le (isLeap (yoe + 400 * era + 1))
    have positive : (0 : Int) ≤ days + 719468 := by omega
    have eras : ((days : Int) + 719468).tdiv 146097 = era := by
      change ((days + 719468) / 146097 : Nat) = (era : Int)
      omega
    have rest : (days : Int) + 719468 - era * 146097 = doe := by omega
    have day : (doe : Int) - (365 * yoe + (yoe : Int).tdiv 4 - (yoe : Int).tdiv 100) = (doe - daysOfYears yoe : Nat) := by
      change (doe : Int) - (365 * yoe + (yoe / 4 : Nat) - (yoe / 100 : Nat)) = _
      unfold daysOfYears at starts ⊢
      omega
    generalize doe - daysOfYears yoe = doy at *
    have month : (5 * (doy : Int) + 2).tdiv 153 = ((5 * doy + 2) / 153 : Nat) := rfl
    have cut : ∀ mp : Nat, (153 * (mp : Int) + 2).tdiv 5 = ((153 * mp + 2) / 5 : Nat) := fun mp => rfl
    have within : (5 * doy + 2) / 153 < 12 ∧ (153 * ((5 * doy + 2) / 153) + 2) / 5 ≤ doy := by omega
    generalize (5 * doy + 2) / 153 = mp at *
    simp only [civilDate, if_pos positive, eras, rest, common, year, day, month, cut]
    split_ifs <;> simp only [Prod.mk.injEq] <;> omega

/-- The printed date and time are those of the calendar, and lead back to the seconds. -/
theorem nowIso_correct (secs nanos : Nat) : ∃ y m d hours mins sec : Nat,
    nowIso secs nanos = Text.padded 4 y ++ "-" ++ Text.padded 2 m ++ "-" ++ Text.padded 2 d ++ "T" ++
      Text.padded 2 hours ++ ":" ++ Text.padded 2 mins ++ ":" ++ Text.padded 2 sec ++ "." ++ Text.padded 9 nanos ++ "Z" ∧
    1 ≤ m ∧ m ≤ 12 ∧ 1 ≤ d ∧ d ≤ daysInMonth (isLeap y) m ∧ hours < 24 ∧ mins < 60 ∧ sec < 60 ∧
    ((dayNumber y m d : Int) - dayNumber 1970 1 1) * 86400 + hours * 3600 + mins * 60 + sec = secs := by
  obtain ⟨y, doy, whole, inside, mp, month, date⟩ := civilDate_eq (secs / 86400)
  have table := month_of_day (isLeap y) (isLeap (y + 1)) doy inside
  rw [← month] at table
  have epoch : dayNumber 1970 1 1 = 719163 := rfl
  have clock : secs % 86400 / 3600 < 24 ∧ secs % 86400 % 3600 / 60 < 60 ∧ secs % 86400 % 60 < 60 ∧ secs / 86400 * 86400 +
      secs % 86400 / 3600 * 3600 + secs % 86400 % 3600 / 60 * 60 + secs % 86400 % 60 = secs := by omega
  unfold nowIso
  rw [date, epoch]
  refine ⟨_, _, _, _, _, _, rfl, ?_⟩
  generalize secs / 86400 = days, secs % 86400 / 3600 = hours, secs % 86400 % 3600 / 60 = mins,
    secs % 86400 % 60 = sec at *
  simp only [Int.toNat_natCast, dayNumber]
  split_ifs with spring
  · obtain ⟨fits, sum⟩ := table.1 spring
    cases y with
    | zero =>
      have leap := Bool.toNat_le (isLeap 1)
      rw [show daysOfYears 0 = 0 from rfl] at whole
      omega
    | succ y =>
      rw [daysOfYears_succ] at whole
      rw [Nat.add_sub_cancel]
      omega
  · obtain ⟨winter, fits, sum⟩ := table.2 (by omega)
    rw [Nat.add_sub_cancel]
    omega

end Calendar

end FlowRulZ
