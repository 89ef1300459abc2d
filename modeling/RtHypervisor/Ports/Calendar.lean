import RtHypervisor.Verified.Gregorian
import RtHypervisor.Ports.RtcTime

/-!
# `gmtime_r` and `timegm` against the calendar

`gmtime_r` returns the Gregorian date of a time, and `timegm` takes it back.  The field `tm_yday`
of `struct tm` is added here; `tm_isdst` is a constant.
-/

namespace RtHypervisor.Ports.RtcTime

open RtHypervisor.Verified.Gregorian

/-- `r->tm_yday`, as `gmtime_r` leaves it. -/
def gmtimeYday (timep : Nat) : Nat := (yearLoop (timep / spd / 365) 1970 (timep / spd)).2

/-- `tm_wday` of a number of days since 1 January 1970, which was a Thursday. -/
def weekday (days : Int) : Int := (4 + days) % 7

/-! ## Tables -/

theorem isleap_iff (y : Nat) : isleap y = true ↔ LeapYear y := by
  unfold isleap LeapYear
  rw [decide_eq_true_iff]
  omega

private theorem daysOfYear_eq (y : Nat) : daysOfYear y = yearLength y := by
  unfold daysOfYear yearLength leapDay
  by_cases h : LeapYear y
  · rw [if_pos ((isleap_iff y).mpr h), if_pos h]
  · rw [if_neg (fun hl => h ((isleap_iff y).mp hl)), if_neg h]

/-- `__spm` counts the days before a month of a year that is no leap year. -/
theorem monthStart_eq {m : Nat} (y : Nat) (hm : m ≤ 12) :
    monthStart y m = spm m + if 1 < m then leapDay y else 0 := by
  interval_cases m <;> simp [monthStart, monthLength, spm] <;> omega

theorem spm_mono {m k : Nat} (h : m ≤ k) (hk : k ≤ 12) : spm m ≤ spm k := by
  have hm := monthStart_eq 1 (h.trans hk)
  have hk' := monthStart_eq 1 hk
  have hzero : leapDay 1 = 0 := by decide
  have hmono := monthStart_mono 1 h
  rw [hm, hk', hzero] at hmono
  simpa using hmono

/-- The closed formula of `timegm` counts the days of whole years. -/
theorem daysOfYears_eq {years : Int} (h : 0 ≤ years) :
    daysOfYears years = daysSince 1970 years.toNat := by
  obtain ⟨n, rfl⟩ := Int.eq_ofNat_of_zero_le h
  have hsum := @daysSince_add 1970 (by decide) n
  have hquarter : ((n : Int) + 1).tdiv 4 = (n + 1) / 4 := Int.tdiv_eq_ediv_of_nonneg (by omega)
  unfold leapsBefore at hsum
  unfold daysOfYears
  simp only [hquarter, Int.toNat_natCast]
  by_cases hlate : (n : Int) ≥ 131
  · have hcentury : ((n : Int) - 131).tdiv 100 = (n - 131) / 100 :=
      Int.tdiv_eq_ediv_of_nonneg (by omega)
    rw [if_pos hlate, hcentury]
    split <;> omega
  · rw [if_neg hlate]
    omega

/-! ## `gmtime_r` -/

private theorem yearLoop_spec {n i work : Nat} (hi : 1970 ≤ i) :
    1970 ≤ (yearLoop n i work).1 ∧
      daysSince 1970 ((yearLoop n i work).1 - 1970) + (yearLoop n i work).2 =
        daysSince 1970 (i - 1970) + work := by
  induction n generalizing i work with
  | zero => exact ⟨hi, rfl⟩
  | succ n ih =>
      unfold yearLoop
      by_cases hge : work ≥ daysOfYear i
      · obtain ⟨hle, hsum⟩ := @ih (i + 1) (work - daysOfYear i) (by omega)
        have hyear : 1970 + (i - 1970) = i := Nat.add_sub_cancel' hi
        have hsucc : i + 1 - 1970 = i - 1970 + 1 := by omega
        rw [hsucc, daysSince_succ, hyear] at hsum
        rw [if_pos hge]
        refine ⟨hle, hsum.trans ?_⟩
        rw [daysOfYear_eq] at hge ⊢
        unfold yearLength at hge ⊢
        omega
      · rw [if_neg hge]
        exact ⟨hi, rfl⟩

/-- The month begins on the day or before it. -/
theorem monthLoop_start (work n : Nat) : spm (monthLoop work n) ≤ work := by
  induction n with
  | zero => exact Nat.zero_le work
  | succ n ih =>
      unfold monthLoop
      by_cases h : spm (n + 1) > work
      · rw [if_pos h]
        exact ih
      · rw [if_neg h]
        omega

/-- The month and the day of the month of a day of the year, as `gmtime_r` takes out the 29th of
February and puts it back. -/
theorem monthDay_spec {y work : Nat} (hwork : work < yearLength y) :
    let shifted := LeapYear y ∧ work > 58
    let mday : Nat := if shifted ∧ work = 59 then 2 else 1
    let rest := if shifted then work - 1 else work
    let mon := monthLoop rest 11
    mon < 12 ∧ 1 ≤ mday + rest - spm mon ∧ mday + rest - spm mon ≤ monthLength y mon ∧
      monthStart y mon + (mday + rest - spm mon - 1) = work := by
  intro shifted mday rest mon
  have hrest : rest = if LeapYear y ∧ work > 58 then work - 1 else work := rfl
  have hmday : mday = if (LeapYear y ∧ work > 58) ∧ work = 59 then 2 else 1 := rfl
  have hle : mon ≤ 11 := monthLoop_le rest 11
  have hstart : spm mon ≤ rest := monthLoop_start rest 11
  have hnext : mon < 11 → rest < spm (mon + 1) := monthLoop_next
  have hmonth := monthStart_eq y (show mon ≤ 12 by omega)
  unfold yearLength at hwork
  clear_value mon mday rest
  by_cases hleap : LeapYear y
  · have hday : leapDay y = 1 := if_pos hleap
    rw [hday] at hmonth hwork
    simp only [hleap, true_and] at hrest hmday
    refine ⟨by omega, ?_⟩
    rw [hmonth]
    split at hrest <;> split at hmday <;> interval_cases mon <;>
      simp [spm, monthLength, hday] at hstart hnext ⊢ <;> omega
  · have hday : leapDay y = 0 := if_neg hleap
    rw [hday] at hmonth hwork
    simp only [hleap, false_and, if_false] at hrest hmday
    refine ⟨by omega, ?_⟩
    rw [hmonth]
    interval_cases mon <;> simp [spm, monthLength, hday] at hstart hnext ⊢ <;> omega

/-- The date that `gmtime_r` finds. -/
def dateOf (timep : Nat) : Date :=
  let (i, work) := yearLoop (timep / spd / 365) 1970 (timep / spd)
  let shifted := LeapYear i ∧ work > 58
  let mday : Nat := if shifted ∧ work = 59 then 2 else 1
  let work := if shifted then work - 1 else work
  let mon := monthLoop work 11
  { year := i, mon := mon, mday := mday + work - spm mon }

private theorem dateOf_spec (timep : Nat) : (dateOf timep).Valid ∧ 1970 ≤ (dateOf timep).year ∧
    (dateOf timep).number 1970 = timep / spd ∧
    gmtimeYday timep = monthStart (dateOf timep).year (dateOf timep).mon +
      ((dateOf timep).mday - 1) := by
  have hends : (yearLoop (timep / spd / 365) 1970 (timep / spd)).2 <
      daysOfYear (yearLoop (timep / spd / 365) 1970 (timep / spd)).1 := yearLoop_ends (by omega)
  have hyears := @yearLoop_spec (timep / spd / 365) 1970 (timep / spd) le_rfl
  unfold gmtimeYday dateOf
  generalize yearLoop (timep / spd / 365) 1970 (timep / spd) = r at hends hyears
  obtain ⟨i, work⟩ := r
  rw [daysOfYear_eq] at hends
  obtain ⟨hmon, hfirst, hlast, hday⟩ := monthDay_spec hends
  obtain ⟨hle, hsum⟩ := hyears
  refine ⟨⟨hmon, hfirst, hlast⟩, hle, ?_, hday.symm⟩
  unfold Date.number
  rw [Nat.sub_self, daysSince_zero, Nat.zero_add] at hsum
  dsimp only at hsum hday ⊢
  omega

private theorem cast_add_sub {a b c : Nat} (h : 1 ≤ a + b - c) :
    (a : Int) + b - c = ((a + b - c : Nat) : Int) := by
  omega

private theorem gmtimeR_date (timep : Nat) :
    (gmtimeR timep).year = ((dateOf timep).year : Int) - 1900 ∧
      (gmtimeR timep).mon = (dateOf timep).mon ∧ (gmtimeR timep).mday = (dateOf timep).mday := by
  have hvalid := (dateOf_spec timep).1.first
  simp only [gmtimeR, dateOf, isleap_iff] at hvalid ⊢
  exact ⟨trivial, trivial, cast_add_sub hvalid⟩

private theorem gmtimeR_clock_eq (timep : Nat) :
    ((gmtimeR timep).hour * 60 + (gmtimeR timep).min) * 60 + (gmtimeR timep).sec =
      (timep % spd : Nat) := by
  simp only [gmtimeR, spd]
  omega

private theorem timegm_gmtimeR (timep : Nat) : (timegm (gmtimeR timep)).2 = timep := by
  obtain ⟨hvalid, hle, hnumber, _⟩ := dateOf_spec timep
  obtain ⟨hyear, hmon, hmday⟩ := gmtimeR_date timep
  have hclock := gmtimeR_clock_eq timep
  have hsplit := Nat.div_add_mod timep spd
  have hm := hvalid.mon
  have hfirst := hvalid.first
  have hmonth := monthStart_eq (dateOf timep).year (show (dateOf timep).mon ≤ 12 by omega)
  have hcast : (gmtimeR timep).year + 1900 = ((dateOf timep).year : Int) := by omega
  have hyears : (gmtimeR timep).year - 70 = (((dateOf timep).year - 1970 : Nat) : Int) := by omega
  have hdays := daysOfYears_eq (show 0 ≤ (gmtimeR timep).year - 70 by omega)
  have hlate : ¬(gmtimeR timep).year < 70 := by omega
  unfold Date.number at hnumber
  rw [hyears, Int.toNat_natCast] at hdays
  unfold timegm
  rw [normalise_of_inRange (gmtimeR_clock timep) (gmtimeR_dated timep)]
  simp only [if_neg hlate, hcast, isleap_iff, hyears, hdays, hmon, hmday, Int.toNat_natCast]
  have hleap : (if LeapYear (dateOf timep).year ∧ ((dateOf timep).mon : Int) > 1 then (1 : Int)
      else 0) =
        ((if 1 < (dateOf timep).mon then leapDay (dateOf timep).year else 0 : Nat) : Int) := by
    unfold leapDay
    by_cases hl : LeapYear (dateOf timep).year <;>
      by_cases hm' : 1 < (dateOf timep).mon <;> simp [hl, hm']
  rw [hleap]
  generalize (if 1 < (dateOf timep).mon then leapDay (dateOf timep).year else 0) = leap at hmonth
  have hspd : spd = 86400 := rfl
  rw [hspd] at hsplit hclock hnumber
  omega

/-- `gmtime_r` returns the date, the time of day, the day of the week and the day of the year of
every time, and `timegm` returns the time again. -/
theorem gmtimeR_calendar (timep : Nat) :
    ∃ d : Date, d.Valid ∧ 1970 ≤ d.year ∧
      (∀ e : Date, e.Valid → 1970 ≤ e.year → (e.number 1970 = timep / spd ↔ e = d)) ∧
      (gmtimeR timep).year = (d.year : Int) - 1900 ∧ (gmtimeR timep).mon = d.mon ∧
      (gmtimeR timep).mday = d.mday ∧ (gmtimeR timep).Clock ∧
      ((gmtimeR timep).hour * 60 + (gmtimeR timep).min) * 60 + (gmtimeR timep).sec =
        (timep % spd : Nat) ∧
      (gmtimeR timep).wday = weekday (timep / spd : Nat) ∧
      gmtimeYday timep = monthStart d.year d.mon + (d.mday - 1) ∧
      (timegm (gmtimeR timep)).2 = timep := by
  obtain ⟨hvalid, hle, hnumber, hyday⟩ := dateOf_spec timep
  obtain ⟨hyear, hmon, hmday⟩ := gmtimeR_date timep
  refine ⟨dateOf timep, hvalid, hle, ?_, hyear, hmon, hmday, gmtimeR_clock timep,
    gmtimeR_clock_eq timep, ?_, hyday, timegm_gmtimeR timep⟩
  · intro e he hele
    constructor
    · intro h
      exact he.eq_of_number hvalid hele hle (h.trans hnumber.symm)
    · intro h
      rw [h]
      exact hnumber
  · simp only [gmtimeR, weekday]

end RtHypervisor.Ports.RtcTime
