import KernelOfTruth.Spec.Clock
import KernelOfTruth.Rules
import Mathlib.Algebra.Group.Action.Defs
import Mathlib.Algebra.Order.BigOperators.Group.List
import Mathlib.Algebra.Order.Ring.Nat

/-!
# The clock

The years are counted from the start of the century, as an `int` that overflows from the year 69 on. So what is read is
before the Unix time in the first case, and a number above all Unix times in the second.
-/

open KernelOfTruth.Lib KernelOfTruth.Code KernelOfTruth.Spec KernelOfTruth.Rules

namespace KernelOfTruth.Clock

variable {s : Cmos} {f : CmosFormat} {t : DateTime} {E : Halt → Prop}

/-! ## Unix time -/

theorem daysInYear_ge (year : Nat) : 365 ≤ daysInYear year := by
  unfold daysInYear
  split <;> omega

theorem daysInYear_le (year : Nat) : daysInYear year ≤ 366 := by
  unfold daysInYear
  split <;> omega

theorem daysInMonth_le (year month : Nat) : daysInMonth year month ≤ 31 := by
  unfold daysInMonth
  repeat' split
  all_goals omega

theorem le_sum_range' {days : Nat → Nat} {least : Nat} (h : ∀ k, least ≤ days k) (start n : Nat) :
    n * least ≤ ((List.range' start n).map days).sum := by
  have hsum := List.card_nsmul_le_sum ((List.range' start n).map days) least (by
    intro x hx
    obtain ⟨k, -, rfl⟩ := List.mem_map.mp hx
    exact h k)
  rwa [List.length_map, List.length_range', smul_eq_mul] at hsum

theorem sum_range'_le {days : Nat → Nat} {most : Nat} (h : ∀ k, days k ≤ most) (start n : Nat) :
    ((List.range' start n).map days).sum ≤ n * most := by
  have hsum := List.sum_le_card_nsmul ((List.range' start n).map days) most (by
    intro x hx
    obtain ⟨k, -, rfl⟩ := List.mem_map.mp hx
    exact h k)
  rwa [List.length_map, List.length_range', smul_eq_mul] at hsum

theorem daysBeforeYear_ge (year : Nat) : (year - 1970) * 365 ≤ daysBeforeYear year := le_sum_range' daysInYear_ge ..

theorem daysBeforeYear_le (year : Nat) : daysBeforeYear year ≤ (year - 1970) * 366 := sum_range'_le daysInYear_le ..

theorem daysBeforeMonth_le (year month : Nat) : daysBeforeMonth year month ≤ (month - 1) * 31 :=
  sum_range'_le (daysInMonth_le year) ..

theorem unixTime_ge (t : DateTime) : (t.year - 1970) * 31536000 ≤ t.unixTime := by
  calc
    (t.year - 1970) * 31536000 = (t.year - 1970) * 365 * 86400 := (Nat.mul_assoc _ 365 86400).symm
    _ ≤ daysBeforeYear t.year * 86400 := Nat.mul_le_mul_right 86400 (daysBeforeYear_ge t.year)
    _ ≤ t.unixTime := by
      unfold DateTime.unixTime
      omega

theorem unixTime_lt (h : t.Valid) : t.unixTime < 2 ^ 33 := by
  have hyears := daysBeforeYear_le t.year
  have hmonths := daysBeforeMonth_le t.year t.month
  have hdays := daysInMonth_le t.year t.month
  have ⟨⟨_, _⟩, ⟨_, _⟩, ⟨_, _⟩, _, _, _⟩ := h
  unfold DateTime.unixTime
  omega

/-! ## What is read -/

/-- The registers of a time, as they are read. -/
def presented (f : CmosFormat) (t : DateTime) : CmosTime :=
  ⟨f.encode t.second, f.encode (t.year / 100), f.encode (t.year % 100), f.encode t.month, f.encode t.day,
    f.encodeHour t.hour, f.encode t.minute⟩

theorem wp_cmos_read {c : CmosCommand} {Q : Byte → Cmos → Prop} :
    wp (cmos_read c) Q E s ↔ Q (s.registers s.reads c) { s with reads := s.reads + 1 } := by
  unfold cmos_read
  rw [wp_bind, wp_get, wp_bind, wp_set, wp_pure]

theorem wp_readLoop {registers : Nat → CmosCommand → Byte} (h : ∀ n, Presents (registers n) f t) (rounds n : Nat) :
    wp (readLoop rounds) (fun time s' => time = presented f t ∧ s'.registers = registers) (fun _ => True)
      ⟨registers, n⟩ := by
  cases rounds with
  | zero =>
    unfold readLoop
    rw [wp_throw]
    trivial
  | succ rounds =>
    unfold readLoop
    iterate 8 rw [wp_bind, wp_cmos_read]
    -- The seconds are the same both times, so that this round is the last.
    rw [if_neg (not_not.mpr ((h _).seconds.trans (h _).seconds.symm)), wp_pure]
    simp only [(h _).seconds, (h _).century, (h _).year, (h _).month, (h _).day, (h _).hours, (h _).minutes]
    exact ⟨rfl, trivial⟩

theorem convert_BCD_encoded : ∀ n < 100, CMOS_Convert_BCD (BitVec.ofNat 8 (n / 10 * 16 + n % 10)) = BitVec.ofNat 8 n := by
  decide +kernel

theorem convertHours_century (format : Byte) (time : CmosTime) : (convertHours format time).century = time.century := by
  unfold convertHours
  split <;> rfl

theorem convertHours_year_low (format : Byte) (time : CmosTime) : (convertHours format time).year_low = time.year_low := by
  unfold convertHours
  split <;> rfl

/-- In both formats the year and the century are decoded. -/
theorem converted_year {format : Byte} (hf : f.binary = true ↔ format &&& 0x04 ≠ 0) (hy : t.year < 10000) :
    (convertHours format (convertBCD format (presented f t))).century = BitVec.ofNat 8 (t.year / 100) ∧
      (convertHours format (convertBCD format (presented f t))).year_low = BitVec.ofNat 8 (t.year % 100) := by
  rw [convertHours_century, convertHours_year_low]
  unfold convertBCD CMOS_Format_BCD
  by_cases hbits : format &&& 0x04 = 0
  · have hbinary : ¬ f.binary = true := fun hb => hf.mp hb hbits
    simp only [if_pos hbits, presented, CmosFormat.encode, if_neg hbinary]
    exact ⟨convert_BCD_encoded _ (by omega), convert_BCD_encoded _ (by omega)⟩
  · simp only [if_neg hbits, presented, CmosFormat.encode, if_pos (hf.mpr hbits)]
    exact ⟨trivial, trivial⟩

/-! ## The sum -/

theorem toNat_toWord {x : CInt} (h : x.toNat < 2 ^ 31) : (toWord x).toNat = x.toNat := by
  have hmsb : x.msb = false := BitVec.msb_eq_false_iff_two_mul_lt.mpr (by omega)
  unfold toWord
  rw [BitVec.signExtend_eq_setWidth_of_msb_false hmsb, BitVec.toNat_setWidth, Nat.mod_eq_of_lt (by omega)]

theorem toNat_toInt32 (x : Byte) : (toInt32 x).toNat = x.toNat := by
  have hx := x.isLt
  unfold toInt32
  rw [BitVec.toNat_setWidth, Nat.mod_eq_of_lt (by omega)]

theorem toNat_days_to_seconds {x : CInt} (h : x.toNat < 256) : (days_to_seconds x).toNat = x.toNat * 86400 := by
  unfold days_to_seconds hours_to_seconds minutes_to_seconds
  bv_omega

theorem clockSeconds_lt (seconds minutes hours day : Byte) :
    (toWord (toInt32 seconds + minutes_to_seconds (toInt32 minutes) + hours_to_seconds (toInt32 hours) +
      days_to_seconds (toInt32 day))).toNat < 23000000 := by
  have hseconds := seconds.isLt
  have hminutes := minutes.isLt
  have hhours := hours.isLt
  have hday := day.isLt
  have hdays := toNat_days_to_seconds (x := toInt32 day) (by rw [toNat_toInt32]; omega)
  have hsum : (toInt32 seconds + minutes_to_seconds (toInt32 minutes) + hours_to_seconds (toInt32 hours) +
      days_to_seconds (toInt32 day)).toNat = seconds.toNat + minutes.toNat * 60 + hours.toNat * 3600 + day.toNat * 86400 := by
    rw [← toNat_toInt32 seconds, ← toNat_toInt32 minutes, ← toNat_toInt32 hours, ← toNat_toInt32 day] at *
    unfold hours_to_seconds minutes_to_seconds
    bv_omega
  rw [toNat_toWord (by omega), hsum]
  omega

theorem monthSeconds_lt (days : Byte) : (toWord (days_to_seconds (toInt32 days))).toNat < 23000000 := by
  have hdays := days.isLt
  have hseconds := toNat_days_to_seconds (x := toInt32 days) (by rw [toNat_toInt32]; omega)
  rw [toNat_toInt32] at hseconds
  rw [toNat_toWord (by omega)]
  omega

theorem year_word {year : Nat} (h : year < 10000) :
    toWord (toInt32 (BitVec.ofNat 8 (year / 100)) * 100 + toInt32 (BitVec.ofNat 8 (year % 100))) = BitVec.ofNat 64 year := by
  have hcentury := toNat_toInt32 (BitVec.ofNat 8 (year / 100))
  have hyear := toNat_toInt32 (BitVec.ofNat 8 (year % 100))
  rw [BitVec.toNat_ofNat, Nat.mod_eq_of_lt (by omega)] at hcentury
  rw [BitVec.toNat_ofNat, Nat.mod_eq_of_lt (Nat.lt_trans (Nat.mod_lt year (by decide)) (by decide))] at hyear
  have hsum : (toInt32 (BitVec.ofNat 8 (year / 100)) * 100 + toInt32 (BitVec.ofNat 8 (year % 100))).toNat = year := by
    bv_omega
  apply BitVec.eq_of_toNat_eq
  rw [toNat_toWord (by omega), hsum, BitVec.toNat_ofNat, Nat.mod_eq_of_lt (by omega)]

/-- There is one day less than none before the first leap year. -/
theorem leapSeconds (k : Nat) (h : k < 130) :
    (days_to_seconds (leap_days_since_1970 (BitVec.ofNat 64 (1970 + k)))).toNat =
      if k < 2 then 2 ^ 64 - 86400 else ((k - 2) / 4 - k / 100) * 86400 := by
  revert k
  decide +kernel

/-- The product is an `int` up to the year 68. -/
theorem yearSeconds (n : Nat) (h : n < 100) :
    (toWord (standard_years_to_seconds (toInt32 (BitVec.ofNat 8 n)))).toNat =
      if n < 69 then n * 31536000 else 2 ^ 64 - 2 ^ 32 + n * 31536000 := by
  revert n
  decide +kernel

theorem sum_ne {year clock leap month years unix : Nat} (hyear : 1970 ≤ year ∧ year ≤ 2099) (hclock : clock < 23000000)
    (hleap : leap = if year - 1970 < 2 then 2 ^ 64 - 86400 else ((year - 1970 - 2) / 4 - (year - 1970) / 100) * 86400)
    (hmonth : month < 23000000)
    (hyears : years = if year % 100 < 69 then year % 100 * 31536000 else 2 ^ 64 - 2 ^ 32 + year % 100 * 31536000)
    (hlow : (year - 1970) * 31536000 ≤ unix) (hhigh : unix < 2 ^ 33) : (clock + leap + month + years) % 2 ^ 64 ≠ unix := by
  by_cases hcentury : year % 100 < 69
  · -- The years before 2000 are not counted.
    have hnew : 2000 ≤ year := by omega
    rw [if_neg (by omega)] at hleap
    rw [if_pos hcentury, show year % 100 = year - 2000 by omega] at hyears
    have hdays : leap ≤ 3000000 := by omega
    rw [Nat.mod_eq_of_lt (by omega)]
    omega
  · rw [if_neg hcentury] at hyears
    have hnegative : 2 ^ 64 - 2 ^ 32 ≤ years ∧ years ≤ 2 ^ 64 - 1000000000 := by omega
    by_cases hold : year - 1970 < 2
    · rw [if_pos hold] at hleap
      have hfirst : 70 ≤ year % 100 := by omega
      rw [show clock + leap + month + years = clock + month + (years - 86400) + 2 ^ 64 by omega, Nat.add_mod_right,
        Nat.mod_eq_of_lt (by omega)]
      omega
    · rw [if_neg hold] at hleap
      have hdays : leap ≤ 3000000 := by omega
      rw [Nat.mod_eq_of_lt (by omega)]
      omega

theorem epochTime_ne (h : t.Valid) {time : CmosTime} (days : Byte) (hcentury : time.century = BitVec.ofNat 8 (t.year / 100))
    (hyear : time.year_low = BitVec.ofNat 8 (t.year % 100)) : (epochTime time days).toNat ≠ t.unixTime := by
  obtain ⟨hfirst, hlast⟩ := h.year
  have hleap := leapSeconds (t.year - 1970) (by omega)
  have hyears := yearSeconds (t.year % 100) (Nat.mod_lt _ (by decide))
  rw [Nat.add_sub_cancel' hfirst] at hleap
  unfold epochTime
  simp only [hcentury, hyear]
  rw [year_word (by omega), BitVec.toNat_add, BitVec.toNat_add, BitVec.toNat_add, Nat.mod_add_mod, Nat.add_assoc,
    Nat.mod_add_mod, ← Nat.add_assoc]
  exact sum_ne h.year (clockSeconds_lt ..) hleap (monthSeconds_lt days) hyears (unixTime_ge t) (unixTime_lt h)

/-! ## The time of day -/

theorem wp_cmos_get_time_of_day (h : t.Valid) {registers : Nat → CmosCommand → Byte} (hp : ∀ n, Presents (registers n) f t)
    (rounds n : Nat) :
    wp (cmos_get_time_of_day rounds) (fun time _ => time.tv_sec.toNat ≠ t.unixTime) (fun _ => True) ⟨registers, n⟩ := by
  have hyear : t.year < 10000 := Nat.lt_of_le_of_lt h.year.2 (by decide)
  unfold cmos_get_time_of_day
  rw [wp_bind]
  refine wp_imp (wp_readLoop hp rounds n) ?_
  rintro _ ⟨_, reads⟩ ⟨rfl, rfl⟩
  rw [wp_bind, wp_cmos_read]
  obtain ⟨hcentury, hlow⟩ := converted_year (hp reads).binary hyear
  dsimp only
  split
  · rename_i days _
    rw [wp_pure]
    exact epochTime_ne h days hcentury hlow
  · rw [wp_throw]
    trivial

/-- **The clock never reads Unix time.** -/
theorem never_reads_unix_time (s : Cmos) (f : CmosFormat) (t : DateTime) (h : t.Valid)
    (hp : ∀ n, Presents (s.registers n) f t) : ¬ ReadsUnixTime s t := by
  rintro ⟨rounds, time, s', hrun, htime⟩
  have hwp := wp_cmos_get_time_of_day h hp rounds s.reads
  exact wp_ok hwp hrun htime

/-- 2016-06-15 12:34:56, in decimal digits and 24 hours. -/
def june2016 : DateTime := ⟨2016, 6, 15, 12, 34, 56⟩

def june2016Registers : CmosCommand → Byte
  | .CMOS_Seconds => 0x56
  | .CMOS_Minutes => 0x34
  | .CMOS_Hours => 0x12
  | .CMOS_Day_Of_Month => 0x15
  | .CMOS_Month => 0x06
  | .CMOS_Year => 0x16
  | .CMOS_Century => 0x20
  | .CMOS_Status_B => 0x02

theorem june2016_valid : june2016.Valid where
  year := by decide
  month := by decide
  day := by decide
  hour := by decide
  minute := by decide
  second := by decide

theorem june2016_presented : Presents june2016Registers ⟨false, true⟩ june2016 where
  seconds := by decide
  minutes := by decide
  hours := by decide
  day := by decide
  month := by decide
  year := by decide
  century := by decide
  binary := by decide
  hours24 := by decide

theorem june2016_not_unix_time : ¬ ReadsUnixTime ⟨fun _ => june2016Registers, 0⟩ june2016 :=
  never_reads_unix_time _ _ _ june2016_valid fun _ => june2016_presented

/-- The clock reads 1986-02-22 12:34:56. -/
theorem june2016_read_thirty_years_early :
    (∃ s', (cmos_get_time_of_day 1).run ⟨fun _ => june2016Registers, 0⟩ = .ok (⟨509459696, 0⟩, s')) ∧
      june2016.unixTime = 1465994096 := by
  refine ⟨⟨_, rfl⟩, ?_⟩
  decide

end KernelOfTruth.Clock
