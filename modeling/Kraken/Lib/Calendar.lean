import Mathlib.Tactic
import Kraken.Lib.Rfc3339

/-! The Gregorian calendar over all years: months and days by their number since the start of
the year 0, moments by their seconds, and the clocks of a location. -/
namespace Calendar
open Rfc3339 (isLeap daysIn)

/- The leap years from the year 0 up to the one before `year`. -/
def leaps (year : Int) : Int := (year+3)/4 - (year+99)/100 + (year+399)/400

/- The days before a month, which counts from January of the year 0. -/
def monthStart (k : Int) : Int :=
  365*(k/12) + leaps (k/12) + (367*(k%12) + 5)/12 -
    (if k%12 < 2 then 0 else if isLeap (k/12) then 1 else 2)

/- The month of a day: the mean length of a month leads to it or to a neighbour. -/
def monthOf (day : Int) : Int :=
  if day < monthStart (day*4800/146097) then day*4800/146097 - 1
  else if monthStart (day*4800/146097 + 1) ≤ day then day*4800/146097 + 1
  else day*4800/146097

/- The moment at which the clocks show a time, and the time they show at a moment. -/
structure Location where
  moment : Int → Int
  clock : Int → Int

def UTC : Location := ⟨id,id⟩

structure Time where
  seconds : Int
  loc : Location

def Date (year month day hour minute second : Int) (loc : Location) : Time where
  seconds := loc.moment
    ((monthStart (12*year + month - 1) + (day-1))*86400 + hour*3600 + minute*60 + second)
  loc := loc

/- The number of the day, and the seconds of the day. -/
def Time.today (t : Time) : Int := t.loc.clock t.seconds / 86400

def Time.sinceMidnight (t : Time) : Int := t.loc.clock t.seconds % 86400

def Time.year (t : Time) : Int := monthOf t.today / 12

def Time.month (t : Time) : Int := monthOf t.today % 12 + 1

def Time.day (t : Time) : Int := t.today - monthStart (monthOf t.today) + 1

def Time.hour (t : Time) : Int := t.sinceMidnight / 3600

def Time.minute (t : Time) : Int := t.sinceMidnight / 60 % 60

def Time.second (t : Time) : Int := t.sinceMidnight % 60

def Time.AddDate (t : Time) (years months days : Int) : Time :=
  Date (t.year + years) (t.month + months) (t.day + days) t.hour t.minute t.second t.loc

/-! Months follow each other. -/

theorem leapYear (year : Int) : leaps (year+1) = leaps year + if isLeap year then 1 else 0 := by
  simp only [leaps,isLeap,Bool.and_eq_true,Bool.or_eq_true,decide_eq_true_eq,ne_eq]
  split_ifs with leap <;> omega

/- Months of one year, and the turn of the year. -/
theorem monthNext (k : Int) : monthStart (k+1) = monthStart k + daysIn (k%12 + 1).toNat (k/12) := by
  have leap := leapYear (k/12)
  rcases (show k%12 = 11 ∨ k%12 < 11 by omega) with last | earlier
  · have year : (k+1)/12 = k/12 + 1 := by omega
    have first : (k+1)%12 = 0 := by omega
    rw [monthStart,monthStart,year,first,last,leap]
    cases isLeap (k/12) <;> simp [daysIn] <;> omega
  · have year : (k+1)/12 = k/12 := by omega
    have next : (k+1)%12 = k%12 + 1 := by omega
    have low : 0 ≤ k%12 := by omega
    rw [monthStart,monthStart,year,next,daysIn]
    generalize k%12 = m at low earlier
    interval_cases m <;> cases isLeap (k/12) <;> simp <;> omega

theorem monthLonger (k : Int) : monthStart k + 28 ≤ monthStart (k+1) := by
  have days : 28 ≤ daysIn (k%12 + 1).toNat (k/12) := by
    rw [daysIn]
    split_ifs <;> decide
  have next := monthNext k
  omega

theorem monthStep (k : Int) (n : Nat) : monthStart k + 28*n ≤ monthStart (k+n) := by
  induction n with
  | zero => simp
  | succ n ih =>
    have next := monthLonger (k+n)
    rw [Nat.cast_succ,← add_assoc]
    omega

theorem monthStrict : StrictMono monthStart := by
  intro j k earlier
  have far := monthStep j (k-j).toNat
  have same : j + (k-j).toNat = k := by omega
  rw [same] at far
  omega

/- How far the start of a month is from that of months of the mean length. -/
theorem monthMean (k : Int) : 146097*k - 19200 ≤ 4800*monthStart k ∧
    4800*monthStart k ≤ 146097*k + 19200 := by
  rw [monthStart,leaps]
  split_ifs <;> omega

theorem monthOfBounds (day : Int) : monthStart (monthOf day) ≤ day ∧ day < monthStart
    (monthOf day + 1) := by
  have before := monthMean (day*4800/146097 - 1)
  have here := monthMean (day*4800/146097)
  have behind := monthMean (day*4800/146097 + 2)
  rw [monthOf]
  split_ifs with early late
  · rw [sub_add_cancel]
    omega
  · rw [add_assoc]
    exact ⟨late,by norm_num; omega⟩
  · omega

/-! A later time of the calendar is a later moment. -/

theorem addDateSeconds (t : Time) (years months days : Int) : (t.AddDate years months days).seconds =
    t.loc.moment ((monthStart (monthOf t.today + (12*years + months)) +
      (t.today - monthStart (monthOf t.today) + days))*86400 + t.sinceMidnight) := by
  have clock : t.hour*3600 + t.minute*60 + t.second = t.sinceMidnight := by
    rw [Time.hour,Time.minute,Time.second]
    omega
  have month : 12*(t.year + years) + (t.month + months) - 1 = monthOf t.today + (12*years + months) := by
    rw [Time.year,Time.month]
    omega
  have day : t.day + days - 1 = t.today - monthStart (monthOf t.today) + days := by
    rw [Time.day]
    omega
  rw [Time.AddDate,Date,month,day,← clock]
  simp only [add_assoc]

/- Of two moves, one of which goes at least as far in months and in days, both lead to the same
moment only when they are the same. -/
theorem addDateSame {t : Time} (utc : t.loc = UTC) {y m d y' m' d' : Int}
    (months : 12*y + m ≤ 12*y' + m') (days : d ≤ d') :
    t.AddDate y m d = t.AddDate y' m' d' ↔ 12*y + m = 12*y' + m' ∧ d = d' := by
  have read : ∀ years months days, (t.AddDate years months days).seconds =
      (monthStart (monthOf t.today + (12*years + months)) +
        (t.today - monthStart (monthOf t.today) + days))*86400 + t.sinceMidnight := by
    intro years months days
    rw [addDateSeconds,utc]
    rfl
  have place : ∀ years months days, (t.AddDate years months days).loc = t.loc := fun _ _ _ => rfl
  have order := monthStrict.le_iff_le (a := monthOf t.today + (12*y + m))
    (b := monthOf t.today + (12*y' + m'))
  constructor
  · intro same
    have moments := congrArg Time.seconds same
    rw [read,read] at moments
    have starts := order.mpr (by omega)
    have equal : monthStart (monthOf t.today + (12*y + m)) = monthStart (monthOf t.today + (12*y' + m')) := by
      omega
    have index := monthStrict.injective equal
    omega
  · rintro ⟨same,rfl⟩
    have moments : (t.AddDate y m d).seconds = (t.AddDate y' m' d).seconds := by
      rw [read,read,same]
    exact Time.mk.injEq _ _ _ _ ▸ ⟨moments,rfl⟩

end Calendar
