import KernelOfTruth.Code.Types

/-!
# `kernel/device/cmos.c`

An `int` has 32 bits, and wraps around when it overflows.
-/

namespace KernelOfTruth.Code

inductive CmosCommand
  | CMOS_Seconds
  | CMOS_Minutes
  | CMOS_Hours
  | CMOS_Day_Of_Month
  | CMOS_Month
  | CMOS_Year
  | CMOS_Century
  | CMOS_Status_B
  deriving DecidableEq

/-- What is in the registers at each read, and how many reads there have been. -/
structure Cmos where
  registers : Nat → CmosCommand → Byte
  reads : Nat

/-- The command is written to one port, and the register is read from the other. -/
def cmos_read (command : CmosCommand) : Kernel Cmos Byte := do
  let s ← get
  set { s with reads := s.reads + 1 }
  pure (s.registers s.reads command)

/-! ## Conversions -/

section Macros

variable {w : Nat}

def minutes_to_seconds (x : BitVec w) : BitVec w := x * 60
def hours_to_seconds (x : BitVec w) : BitVec w := minutes_to_seconds (x * 60)
def days_to_seconds (x : BitVec w) : BitVec w := hours_to_seconds (x * 24)

end Macros

abbrev CInt := BitVec 32

def standard_years_to_seconds (x : CInt) : CInt := days_to_seconds (365 * x)

def leap_days_since_1970 (x : Word) : Word := (x - 1972) / 4 - (x - 1970) / 100

/-- A byte as an `int`. -/
def toInt32 (x : Byte) : CInt := x.setWidth 32

/-- An `int` as a `uint64_t`. -/
def toWord (x : CInt) : Word := x.signExtend 64

/-- The results go back to a byte. -/
def CMOS_Convert_BCD (x : Byte) : Byte := ((toInt32 x &&& 0x0f) + toInt32 x / 16 * 10).setWidth 8

def CMOS_Convert_Hours_BCD (x : Byte) : Byte :=
  ((toInt32 x &&& 0x0f) + (toInt32 x &&& 0x70) / 16 * 10 ||| toInt32 x &&& 0x80).setWidth 8

def CMOS_Format_BCD : Byte := 0x04
def CMOS_Format_24_Hour : Byte := 0x02
def CMOS_Hour_PM_Bit : Byte := 0x80
def CMOS_Hour_Digits : Byte := 0x7f

def CMOS_Days_Per_Standard_Month : List Byte := [0, 31, 28, 31, 30, 31, 30, 31, 31, 30, 31, 30, 31]

/-! ## The time of day -/

/-- `struct timeval`. -/
structure Timeval where
  tv_sec : Word
  tv_usec : Word
  deriving DecidableEq

structure CmosTime where
  seconds1 : Byte
  century : Byte
  year_low : Byte
  month : Byte
  day_of_month : Byte
  hours : Byte
  minutes : Byte
  deriving DecidableEq

/-- The loop, for so many rounds at most. -/
def readLoop : Nat → Kernel Cmos CmosTime
  | 0 => throw .diverge
  | rounds + 1 => do
    let seconds1 ← cmos_read .CMOS_Seconds
    let century ← cmos_read .CMOS_Century
    let year_low ← cmos_read .CMOS_Year
    let month ← cmos_read .CMOS_Month
    let day_of_month ← cmos_read .CMOS_Day_Of_Month
    let hours ← cmos_read .CMOS_Hours
    let minutes ← cmos_read .CMOS_Minutes
    let seconds2 ← cmos_read .CMOS_Seconds
    if seconds1 ≠ seconds2 then readLoop rounds
    else pure ⟨seconds1, century, year_low, month, day_of_month, hours, minutes⟩

def convertBCD (format : Byte) (t : CmosTime) : CmosTime :=
  if format &&& CMOS_Format_BCD = 0 then
    ⟨CMOS_Convert_BCD t.seconds1, CMOS_Convert_BCD t.century, CMOS_Convert_BCD t.year_low, CMOS_Convert_BCD t.month,
      CMOS_Convert_BCD t.day_of_month, CMOS_Convert_Hours_BCD t.hours, CMOS_Convert_BCD t.minutes⟩
  else t

def convertHours (format : Byte) (t : CmosTime) : CmosTime :=
  if format &&& CMOS_Format_24_Hour = 0 ∧ t.hours &&& CMOS_Hour_PM_Bit ≠ 0 then
    { t with hours := ((toInt32 (t.hours &&& CMOS_Hour_Digits) + 12) % 24).setWidth 8 }
  else t

/-- The sum. Its first four terms are added as `int`. -/
def epochTime (t : CmosTime) (days : Byte) : Word :=
  let year := toWord (toInt32 t.century * 100 + toInt32 t.year_low)
  toWord (toInt32 t.seconds1 + minutes_to_seconds (toInt32 t.minutes) + hours_to_seconds (toInt32 t.hours) +
      days_to_seconds (toInt32 t.day_of_month)) +
    days_to_seconds (leap_days_since_1970 year) + toWord (days_to_seconds (toInt32 days)) +
    toWord (standard_years_to_seconds (toInt32 t.year_low))

/-- The time that is stored is returned. There is nothing to read behind the table of days. -/
def cmos_get_time_of_day (rounds : Nat) : Kernel Cmos Timeval := do
  let read ← readLoop rounds
  let format ← cmos_read .CMOS_Status_B
  let t := convertHours format (convertBCD format read)
  match CMOS_Days_Per_Standard_Month[t.month.toNat]? with
  | some days => pure ⟨epochTime t days, 0⟩
  | none => throw .page_fault

end KernelOfTruth.Code
