import Mathlib.Tactic

/-!
# Broken-down time

`gmtime_r` and `timegm`.  The fields of `struct tm` that no alarm looks at, the day of the year
and the summer time, are left out.
-/

namespace RtHypervisor.Ports.RtcTime

/-- `struct tm`. -/
structure Tm where
  sec : Int
  min : Int
  hour : Int
  mday : Int
  mon : Int
  year : Int
  wday : Int
deriving DecidableEq, Repr

/-- The time of day is in range. -/
structure Tm.Clock (t : Tm) : Prop where
  sec : 0 ≤ t.sec ∧ t.sec ≤ 59
  min : 0 ≤ t.min ∧ t.min ≤ 59
  hour : 0 ≤ t.hour ∧ t.hour ≤ 23

/-- `SPD`. -/
def spd : Nat := 24 * 60 * 60

/-- `__isleap`. -/
def isleap (year : Int) : Bool :=
  year % 4 = 0 ∧ (year % 100 ≠ 0 ∨ year % 400 = 0)

/-- `__spm`: the days before each month of a year that is not a leap year. -/
def spm (i : Nat) : Nat :=
  [0, 31, 59, 90, 120, 151, 181, 212, 243, 273, 304, 334, 365].getD i 0

/-- `isleap` of the year decides its length. -/
def daysOfYear (year : Nat) : Nat :=
  if isleap year then 366 else 365

/-- The loop over the years in `gmtime_r`: the year, and the days that are left. -/
def yearLoop : Nat → Nat → Nat → Nat × Nat
  | 0, i, work => (i, work)
  | n + 1, i, work =>
      if work ≥ daysOfYear i then yearLoop n (i + 1) (work - daysOfYear i) else (i, work)

/-- The loop over the months in `gmtime_r`. -/
def monthLoop (work : Nat) : Nat → Nat
  | 0 => 0
  | i + 1 => if spm (i + 1) > work then monthLoop work i else i + 1

/-- `gmtime_r`. -/
def gmtimeR (timep : Nat) : Tm :=
  let clock := timep % spd
  let days := timep / spd
  let (i, work) := yearLoop (days / 365) 1970 days
  let shifted := isleap i ∧ work > 58
  let mday : Nat := if shifted ∧ work = 59 then 2 else 1
  let work := if shifted then work - 1 else work
  let mon := monthLoop work 11
  { sec := clock % 60
    min := clock / 60 % 60
    hour := clock / 60 / 60
    wday := (4 + days) % 7
    year := i - 1900
    mon := mon
    mday := mday + work - spm mon }

/-- The loop of `timegm` that carries days into months; `n` bounds its rounds. -/
def carryDays : Nat → Tm → Tm
  | 0, t => t
  | n + 1, t =>
      if t.mday > spm (1 + t.mon).toNat then
        let mday := if t.mon = 1 ∧ isleap (t.year + 1900) then t.mday - 1 else t.mday
        let mday := mday - spm t.mon.toNat
        if t.mon + 1 > 11 then
          carryDays n { t with mday := mday, mon := 0, year := t.year + 1 }
        else
          carryDays n { t with mday := mday, mon := t.mon + 1 }
      else t

/-- What `timegm` does first: it brings the fields into range.  Twelve rounds of the last loop
take at least a day away. -/
def normalise (t : Tm) : Tm :=
  let t := if t.sec > 60 then
    { t with min := t.min + t.sec.tdiv 60, sec := t.sec.tmod 60 } else t
  let t := if t.min ≥ 60 then
    { t with hour := t.hour + t.min.tdiv 60, min := t.min.tmod 60 } else t
  let t := if t.hour ≥ 24 then
    { t with mday := t.mday + t.hour.tdiv 24, hour := t.hour.tmod 24 } else t
  let t := if t.mon ≥ 12 then
    { t with year := t.year + t.mon.tdiv 12, mon := t.mon.tmod 12 } else t
  carryDays (12 * t.mday.toNat + 12) t

/-- The days of whole years since 1970; `years` counts them. -/
def daysOfYears (years : Int) : Int :=
  let day := years * 365 + (years + 1).tdiv 4
  if years ≥ 131 then
    let years := (years - 131).tdiv 100
    let day := day - (years / 4 * 3 + 1)
    let years := years % 4
    day - (if years = 3 then years - 1 else years)
  else day

/-- `timegm`, with what it leaves in `*t`. -/
def timegm (t : Tm) : Tm × Int :=
  let years := t.year - 70
  let t := normalise t
  if t.year < 70 then (t, -1)
  else
    let leap : Int := if isleap (t.year + 1900) ∧ t.mon > 1 then 1 else 0
    let day := daysOfYears years + (spm t.mon.toNat + t.mday - 1 + leap)
    ({ t with wday := (day + 4).tmod 7 },
      ((day * 24 + t.hour) * 60 + t.min) * 60 + t.sec)

/-! ## What `gmtime_r` returns is in range -/

theorem yearLoop_ends {n i work : Nat} (h : work < 365 * (n + 1)) :
    (yearLoop n i work).2 < daysOfYear (yearLoop n i work).1 := by
  induction n generalizing i work with
  | zero =>
      have hyear : 365 ≤ daysOfYear i := by
        unfold daysOfYear
        split <;> omega
      simp only [yearLoop]
      omega
  | succ n ih =>
      have hyear : 365 ≤ daysOfYear i := by
        unfold daysOfYear
        split <;> omega
      by_cases hwork : work ≥ daysOfYear i
      · simp only [yearLoop, hwork, if_true]
        apply ih
        omega
      · simp only [yearLoop, hwork, if_false]
        omega

theorem monthLoop_le (work n : Nat) : monthLoop work n ≤ n := by
  induction n with
  | zero => exact Nat.le_refl 0
  | succ n ih =>
      simp only [monthLoop]
      split <;> omega

/-- The month is the last one that begins on the day or before it. -/
theorem monthLoop_next {work n : Nat} (h : monthLoop work n < n) :
    work < spm (monthLoop work n + 1) := by
  induction n with
  | zero => omega
  | succ n ih =>
      by_cases hn : spm (n + 1) > work
      · simp only [monthLoop, hn, if_true] at h ⊢
        by_cases hlt : monthLoop work n < n
        · exact ih hlt
        · have hle := monthLoop_le work n
          have heq : monthLoop work n = n := by omega
          rw [heq]
          exact hn
      · simp only [monthLoop, hn, if_false] at h
        omega

/-- A date that `timegm` leaves as it is. -/
structure Tm.Dated (t : Tm) : Prop where
  mon : 0 ≤ t.mon ∧ t.mon ≤ 11
  mday : t.mday ≤ spm (1 + t.mon).toNat

theorem gmtimeR_clock (timep : Nat) : (gmtimeR timep).Clock := by
  constructor <;> simp only [gmtimeR, spd] <;> omega

/-- The day of the month, by the day of the year and the month. -/
theorem mday_le {m0 work mon : Nat} (hmon : mon ≤ 11) (hm0 : m0 = 1 ∨ m0 = 2 ∧ work = 58)
    (hnext : mon < 11 → work < spm (mon + 1)) (hwork : work < 365) :
    m0 + work ≤ spm mon + spm (1 + mon) := by
  interval_cases mon <;> simp [spm] at hnext ⊢ <;> omega

theorem gmtimeR_dated (timep : Nat) : (gmtimeR timep).Dated := by
  have hends : (yearLoop (timep / spd / 365) 1970 (timep / spd)).2 <
      daysOfYear (yearLoop (timep / spd / 365) 1970 (timep / spd)).1 := yearLoop_ends (by omega)
  cases hloop : yearLoop (timep / spd / 365) 1970 (timep / spd) with
  | mk i work =>
      rw [hloop] at hends
      simp only [gmtimeR, hloop]
      have hfirst : (if (isleap i = true ∧ work > 58) ∧ work = 59 then 2 else 1) = 1 ∨
          (if (isleap i = true ∧ work > 58) ∧ work = 59 then 2 else 1) = 2 ∧
            (if isleap i = true ∧ work > 58 then work - 1 else work) = 58 := by
        by_cases hleap : isleap i = true ∧ work > 58
        · simp only [hleap, and_self, true_and, if_true]
          split <;> omega
        · simp [hleap]
      have hwork : (if isleap i = true ∧ work > 58 then work - 1 else work) < 365 := by
        unfold daysOfYear at hends
        by_cases hleap : isleap i = true
        · simp only [hleap, if_true, true_and] at hends ⊢
          split <;> omega
        · simpa [hleap] using hends
      generalize (if (isleap i = true ∧ work > 58) ∧ work = 59 then 2 else 1) = first at hfirst ⊢
      generalize (if isleap i = true ∧ work > 58 then work - 1 else work) = day at hfirst hwork ⊢
      have hmon := monthLoop_le day 11
      have hmday := mday_le hmon hfirst monthLoop_next hwork
      have hcast : ((1 : Int) + (monthLoop day 11 : Nat)).toNat = 1 + monthLoop day 11 := by omega
      constructor
      · simp only
        omega
      · simp only [hcast]
        omega

/-! ## `timegm` of a time in range -/

section

variable {t : Tm}

private theorem carryDays_of_dated (h : t.Dated) (n : Nat) : carryDays n t = t := by
  have hday := h.mday
  cases n with
  | zero => rfl
  | succ n =>
      simp only [carryDays]
      rw [if_neg (by omega)]

/-- Carrying days leaves the time of day alone. -/
theorem carryDays_clock (n : Nat) (t : Tm) :
    (carryDays n t).sec = t.sec ∧ (carryDays n t).min = t.min ∧
      (carryDays n t).hour = t.hour := by
  induction n generalizing t with
  | zero => exact ⟨rfl, rfl, rfl⟩
  | succ n ih =>
      by_cases hday : t.mday > spm (1 + t.mon).toNat
      · by_cases hmon : t.mon + 1 > 11
        · simp only [carryDays, hday, hmon, if_true]
          exact ih _
        · simp only [carryDays, hday, hmon, if_true, if_false]
          exact ih _
      · simp [carryDays, hday]

/-- A time of day in range comes back as it was. -/
theorem timegm_clock (h : t.Clock) :
    (timegm t).1.sec = t.sec ∧ (timegm t).1.min = t.min ∧ (timegm t).1.hour = t.hour := by
  have hsec : ¬ t.sec > 60 := by have := h.sec; omega
  have hmin : ¬ t.min ≥ 60 := by have := h.min; omega
  have hhour : ¬ t.hour ≥ 24 := by have := h.hour; omega
  have hnorm : (normalise t).sec = t.sec ∧ (normalise t).min = t.min ∧
      (normalise t).hour = t.hour := by
    simp only [normalise, hsec, hmin, hhour, if_false]
    split
    · exact carryDays_clock _ _
    · exact carryDays_clock _ _
  unfold timegm
  simp only
  split
  · exact hnorm
  · exact hnorm

theorem normalise_of_inRange (h : t.Clock) (hd : t.Dated) : normalise t = t := by
  have hsec : ¬ t.sec > 60 := by have := h.sec; omega
  have hmin : ¬ t.min ≥ 60 := by have := h.min; omega
  have hhour : ¬ t.hour ≥ 24 := by have := h.hour; omega
  have hmon : ¬ t.mon ≥ 12 := by have := hd.mon; omega
  simp only [normalise, hsec, hmin, hhour, hmon, if_false]
  exact carryDays_of_dated hd _

/-- The day of the week is all that `timegm` writes. -/
theorem timegm_inRange (h : t.Clock) (hd : t.Dated) :
    ∃ wday, (timegm t).1 = { t with wday := wday } := by
  simp only [timegm, normalise_of_inRange h hd]
  split
  · exact ⟨t.wday, rfl⟩
  · exact ⟨_, rfl⟩

/-- The day of the week does not count. -/
theorem timegm_wday (h : t.Clock) (hd : t.Dated) (wday : Int) :
    (timegm { t with wday := wday }).2 = (timegm t).2 := by
  have hclock : ({ t with wday := wday } : Tm).Clock := ⟨h.sec, h.min, h.hour⟩
  have hdated : ({ t with wday := wday } : Tm).Dated := ⟨hd.mon, hd.mday⟩
  simp only [timegm, normalise_of_inRange h hd, normalise_of_inRange hclock hdated]
  split <;> rfl

end

end RtHypervisor.Ports.RtcTime
