import KernelOfTruth.Code.Cmos

/-!
# Unix time
-/

open KernelOfTruth.Code

namespace KernelOfTruth.Spec

/-! ## The calendar -/

def IsLeap (year : Nat) : Prop := year % 4 = 0 ∧ (year % 100 ≠ 0 ∨ year % 400 = 0)

instance (year : Nat) : Decidable (IsLeap year) := inferInstanceAs (Decidable (_ ∧ _))

def daysInMonth (year month : Nat) : Nat :=
  if month = 2 then if IsLeap year then 29 else 28
  else if month = 4 ∨ month = 6 ∨ month = 9 ∨ month = 11 then 30
  else 31

def daysInYear (year : Nat) : Nat := if IsLeap year then 366 else 365

structure DateTime where
  year : Nat
  month : Nat
  day : Nat
  hour : Nat
  minute : Nat
  second : Nat

/-- From 1970-01-01 00:00:00 to 2099-12-31 23:59:59. -/
structure DateTime.Valid (t : DateTime) : Prop where
  year : 1970 ≤ t.year ∧ t.year ≤ 2099
  month : 1 ≤ t.month ∧ t.month ≤ 12
  day : 1 ≤ t.day ∧ t.day ≤ daysInMonth t.year t.month
  hour : t.hour < 24
  minute : t.minute < 60
  second : t.second < 60

/-- The days from 1970-01-01 on that are before the year. -/
def daysBeforeYear (year : Nat) : Nat := ((List.range' 1970 (year - 1970)).map daysInYear).sum

def daysBeforeMonth (year month : Nat) : Nat := ((List.range' 1 (month - 1)).map (daysInMonth year)).sum

/-- The seconds since 1970-01-01 00:00:00. -/
def DateTime.unixTime (t : DateTime) : Nat :=
  (daysBeforeYear t.year + daysBeforeMonth t.year t.month + (t.day - 1)) * 86400 + t.hour * 3600 + t.minute * 60 + t.second

/-! ## The registers -/

/-- The binary and the 24-hour bit of the status register. -/
structure CmosFormat where
  binary : Bool
  hours24 : Bool
  deriving DecidableEq

def CmosFormat.encode (f : CmosFormat) (n : Nat) : Byte := if f.binary then BitVec.ofNat 8 n else BitVec.ofNat 8 (n / 10 * 16 + n % 10)

/-- In the 12-hour format noon and midnight are 12, and the highest bit is set from noon on. -/
def CmosFormat.encodeHour (f : CmosFormat) (hour : Nat) : Byte :=
  if f.hours24 then f.encode hour
  else f.encode (if hour % 12 = 0 then 12 else hour % 12) ||| if 12 ≤ hour then 0x80 else 0

/-- The registers present the time. -/
structure Presents (registers : CmosCommand → Byte) (f : CmosFormat) (t : DateTime) : Prop where
  seconds : registers .CMOS_Seconds = f.encode t.second
  minutes : registers .CMOS_Minutes = f.encode t.minute
  hours : registers .CMOS_Hours = f.encodeHour t.hour
  day : registers .CMOS_Day_Of_Month = f.encode t.day
  month : registers .CMOS_Month = f.encode t.month
  year : registers .CMOS_Year = f.encode (t.year % 100)
  century : registers .CMOS_Century = f.encode (t.year / 100)
  binary : f.binary = true ↔ registers .CMOS_Status_B &&& 0x04 ≠ 0
  hours24 : f.hours24 = true ↔ registers .CMOS_Status_B &&& 0x02 ≠ 0

/-- The time that is read is the Unix time. -/
def ReadsUnixTime (s : Cmos) (t : DateTime) : Prop :=
  ∃ rounds time s', (cmos_get_time_of_day rounds).run s = .ok (time, s') ∧ time.tv_sec.toNat = t.unixTime

end KernelOfTruth.Spec
