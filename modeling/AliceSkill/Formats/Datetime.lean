import AliceSkill.Formats.Digits
import Mathlib.Data.Option.Basic

/-!
# Time stamps

Aware points of time in UTC, as `datetime.isoformat` writes them.  Of the many
forms that `datetime.fromisoformat` reads, the one that is written is modelled.
-/

namespace Formats

open Text

def isLeapYear (year : ℕ) : Bool :=
  year % 4 = 0 && (year % 100 ≠ 0 || year % 400 = 0)

def daysInMonth (year month : ℕ) : ℕ :=
  if month = 2 then if isLeapYear year then 29 else 28
  else if month = 4 ∨ month = 6 ∨ month = 9 ∨ month = 11 then 30
  else 31

/-- A point of time of the calendar. -/
structure Datetime where
  year : ℕ
  month : ℕ
  day : ℕ
  hour : ℕ
  minute : ℕ
  second : ℕ
  microsecond : ℕ
  year_range : 1 ≤ year ∧ year ≤ 9999
  month_range : 1 ≤ month ∧ month ≤ 12
  day_range : 1 ≤ day ∧ day ≤ daysInMonth year month
  time_range : hour < 24 ∧ minute < 60 ∧ second < 60 ∧ microsecond < 1000000
  deriving DecidableEq

/-- The epoch. -/
def Datetime.epoch : Datetime :=
  ⟨1970, 1, 1, 0, 0, 0, 0, by decide, by decide, by decide, by decide⟩

/-- Microseconds are only written when there are any. -/
def fractionText (microsecond : ℕ) : Str :=
  if microsecond = 0 then [] else '.' :: pad 10 6 microsecond

def utcOffset : Str := ['+', '0', '0', ':', '0', '0']

/-- `value.isoformat()` -/
def Datetime.isoformat (d : Datetime) : Str :=
  pad 10 4 d.year ++ '-' :: (pad 10 2 d.month ++ '-' :: (pad 10 2 d.day ++
    'T' :: (pad 10 2 d.hour ++ ':' :: (pad 10 2 d.minute ++
      ':' :: (pad 10 2 d.second ++ (fractionText d.microsecond ++ utcOffset))))))

/-- A number of `w` digits and what follows it. -/
def scanPadded (w : ℕ) (t : Str) : Option (ℕ × Str) :=
  if w ≤ t.length then (readDigits 10 (t.take w)).map fun n => (n, t.drop w)
  else none

/-- A number of `w` digits with a separator in front. -/
def scanField (separator : Char) (w : ℕ) : Str → Option (ℕ × Str)
  | c :: t => if c = separator then scanPadded w t else none
  | [] => none

def scanFraction (t : Str) : Option (ℕ × Str) :=
  if t.head? = some '.' then scanField '.' 6 t else some (0, t)

/-- The point of time with the given fields, if there is one. -/
def Datetime.make (year month day hour minute second microsecond : ℕ) :
    Option Datetime :=
  if h : (1 ≤ year ∧ year ≤ 9999) ∧ (1 ≤ month ∧ month ≤ 12) ∧
      (1 ≤ day ∧ day ≤ daysInMonth year month) ∧
      hour < 24 ∧ minute < 60 ∧ second < 60 ∧ microsecond < 1000000 then
    some ⟨year, month, day, hour, minute, second, microsecond, h.1, h.2.1,
      h.2.2.1, h.2.2.2⟩
  else none

/-- `datetime.fromisoformat(text)` -/
def Datetime.fromisoformat (t : Str) : Option Datetime := do
  let (year, t) ← scanPadded 4 t
  let (month, t) ← scanField '-' 2 t
  let (day, t) ← scanField '-' 2 t
  let (hour, t) ← scanField 'T' 2 t
  let (minute, t) ← scanField ':' 2 t
  let (second, t) ← scanField ':' 2 t
  let (microsecond, t) ← scanFraction t
  if t = utcOffset then
    Datetime.make year month day hour minute second microsecond
  else none

/-! ## A time stamp is read back -/

theorem scanPadded_pad {w n : ℕ} (hn : n < 10 ^ w) (t : Str) :
    scanPadded w (pad 10 w n ++ t) = some (n, t) := by
  have hlen : w ≤ (pad 10 w n ++ t).length := by
    rw [List.length_append, length_pad]
    exact Nat.le_add_right _ _
  have htake : (pad 10 w n ++ t).take w = pad 10 w n :=
    List.take_left' (length_pad 10 w n)
  have hdrop : (pad 10 w n ++ t).drop w = t :=
    List.drop_left' (length_pad 10 w n)
  rw [scanPadded, if_pos hlen, htake, hdrop, readDigits_pad (by decide) hn]
  rfl

theorem scanField_pad {w n : ℕ} (hn : n < 10 ^ w) (c : Char) (t : Str) :
    scanField c w (c :: (pad 10 w n ++ t)) = some (n, t) := by
  rw [scanField, if_pos rfl, scanPadded_pad hn]

theorem scanFraction_fractionText {n : ℕ} (hn : n < 1000000) :
    scanFraction (fractionText n ++ utcOffset) = some (n, utcOffset) := by
  rw [fractionText]
  split_ifs with hzero
  · rw [hzero]
    rfl
  · rw [List.cons_append, scanFraction, List.head?_cons, if_pos rfl]
    exact scanField_pad hn '.' utcOffset

theorem Datetime.make_self (d : Datetime) :
    Datetime.make d.year d.month d.day d.hour d.minute d.second d.microsecond =
      some d := by
  rw [Datetime.make, dif_pos ⟨d.year_range, d.month_range, d.day_range,
    d.time_range⟩]

theorem daysInMonth_le (year month : ℕ) : daysInMonth year month ≤ 31 := by
  rw [daysInMonth]
  split_ifs <;> decide

/-- A time stamp that has been written is read back. -/
theorem Datetime.fromisoformat_isoformat (d : Datetime) :
    Datetime.fromisoformat d.isoformat = some d := by
  obtain ⟨-, hyear⟩ := d.year_range
  obtain ⟨-, hmonth⟩ := d.month_range
  obtain ⟨-, hday⟩ := d.day_range
  obtain ⟨hhour, hminute, hsecond, hmicrosecond⟩ := d.time_range
  have hdays := daysInMonth_le d.year d.month
  have hmake := d.make_self
  rw [Datetime.fromisoformat, Datetime.isoformat]
  simp only [Option.bind_eq_bind, Option.bind_some,
    scanPadded_pad (w := 4) (n := d.year) (by omega),
    scanField_pad (w := 2) (n := d.month) (by omega),
    scanField_pad (w := 2) (n := d.day) (by omega),
    scanField_pad (w := 2) (n := d.hour) (by omega),
    scanField_pad (w := 2) (n := d.minute) (by omega),
    scanField_pad (w := 2) (n := d.second) (by omega),
    scanFraction_fractionText hmicrosecond, if_true]
  exact hmake

end Formats
