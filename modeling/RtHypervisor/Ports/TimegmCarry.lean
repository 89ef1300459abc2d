import RtHypervisor.Ports.Calendar

/-!
# `timegm` of fields out of range

`timegm` carries seconds, minutes, hours and months upwards and then takes months off the day.  It
counts the years before it carries the months into them, and the last loop compares the day with
`__spm[1 + tm_mon]` and takes off `__spm[tm_mon]`, the days before the months instead of the days
of the month.  This module says for which fields the result is right all the same.
-/

namespace RtHypervisor.Ports.RtcTime

open RtHypervisor.Verified.Gregorian

/-- `INT_MAX`. -/
def intMax : Int := 2 ^ 31 - 1

/-! ## The carries -/

/-- `tm_min` when the seconds are carried into it. -/
def minSum (t : Tm) : Int := if t.sec > 60 then t.min + t.sec.tdiv 60 else t.min

/-- `tm_hour` when the minutes are carried into it. -/
def hourSum (t : Tm) : Int := if minSum t ≥ 60 then t.hour + (minSum t).tdiv 60 else t.hour

/-- `tm_mday` when the hours are carried into it. -/
def mdaySum (t : Tm) : Int := if hourSum t ≥ 24 then t.mday + (hourSum t).tdiv 24 else t.mday

/-- `tm_year` when the months are carried into it. -/
def yearSum (t : Tm) : Int := if t.mon ≥ 12 then t.year + t.mon.tdiv 12 else t.year

/-- The fields as the last loop finds them. -/
def carried (t : Tm) : Tm :=
  { t with
    sec := if t.sec > 60 then t.sec.tmod 60 else t.sec
    min := if minSum t ≥ 60 then (minSum t).tmod 60 else minSum t
    hour := if hourSum t ≥ 24 then (hourSum t).tmod 24 else hourSum t
    mday := mdaySum t
    mon := if t.mon ≥ 12 then t.mon.tmod 12 else t.mon
    year := yearSum t }

private theorem normalise_eq (t : Tm) :
    normalise t = carryDays (12 * (mdaySum t).toNat + 12) (carried t) := by
  simp only [normalise, carried, minSum, hourSum, mdaySum, yearSum]
  split <;> split <;> split <;> split <;> simp_all

/-- `timegm` with the fields of type `int`: `none` when one of them overflows. -/
def timegmInt (t : Tm) : Option (Tm × Int) :=
  if minSum t ≤ intMax ∧ hourSum t ≤ intMax ∧ mdaySum t ≤ intMax ∧ yearSum t ≤ intMax ∧
      (normalise t).year + 1900 ≤ intMax then
    some (timegm t)
  else none

/-- `t->tm_yday`, as `timegm` leaves it; `old` is what was there. -/
def timegmYday (t : Tm) (old : Int) : Int :=
  let t := normalise t
  if t.year < 70 then old
  else
    let leap : Int := if isleap (t.year + 1900) ∧ t.mon > 1 then 1 else 0
    spm t.mon.toNat + t.mday - 1 + leap

/-! ## What the fields denote -/

/-- The days from 1 January 1970 to a day of a year since 1900. -/
def dayOf (year : Nat) (yday : Int) : Int :=
  (daysSince 1900 year : Int) - daysSince 1900 70 + yday

/-- The day that year, month and day denote, months and days counted on past their ends. -/
def dateDay (t : Tm) : Int :=
  let year := t.year.toNat + t.mon.toNat / 12
  dayOf year (monthStart (1900 + year) (t.mon.toNat % 12) + t.mday - 1)

/-- The time that the fields denote. -/
def denoted (t : Tm) : Int := ((dateDay t * 24 + t.hour) * 60 + t.min) * 60 + t.sec

/-- The fields that are asked about: non-negative, of type `int`, and from 1970 on. -/
structure InDomain (t : Tm) : Prop where
  sec : 0 ≤ t.sec ∧ t.sec ≤ intMax
  min : 0 ≤ t.min ∧ t.min ≤ intMax
  hour : 0 ≤ t.hour ∧ t.hour ≤ intMax
  mday : 1 ≤ t.mday ∧ t.mday ≤ intMax
  mon : 0 ≤ t.mon ∧ t.mon ≤ intMax
  year : 0 ≤ t.year ∧ t.year ≤ intMax
  epoch : 0 ≤ denoted t

/-- `timegm` returns the time that the fields denote, and leaves fields that denote it. -/
def Normalises (t : Tm) (old : Int) : Prop :=
  ∃ r, timegmInt t = some r ∧ r.2 = denoted t ∧ denoted r.1 = denoted t ∧
    r.1.wday = weekday (dateDay r.1) ∧ dayOf r.1.year.toNat (timegmYday t old) = dateDay r.1

/-- The fields that come out right: nothing is carried into the year, and the day lies before the
end of its month in `__spm`, or three rounds from January on have taken the right days off. -/
structure Carries (t : Tm) : Prop where
  min : minSum t ≤ intMax
  hour : hourSum t ≤ intMax
  years : 70 ≤ t.year ∧ t.year + 1900 ≤ intMax
  months : t.mon ≤ 11
  days : mdaySum t ≤ spm (1 + t.mon.toNat) ∨
    t.mon = 0 ∧ 121 + leapDay (1900 + t.year.toNat) < mdaySum t ∧
      mdaySum t ≤ 210 + leapDay (1900 + t.year.toNat)

section

variable {t s : Tm}

/-! ## The carries keep what the fields denote -/

private theorem tdiv_of_nonneg {a b : Int} (h : 0 ≤ a) :
    a.tdiv b = a / b := Int.tdiv_eq_ediv_of_nonneg h

private theorem tmod_of_nonneg {a b : Int} (h : 0 ≤ a) :
    a.tmod b = a % b := Int.tmod_eq_emod_of_nonneg h

/-- One carry takes whole units into the next field. -/
theorem carry_unit {a b n c : Int} (ha : 0 ≤ a) (hn : 0 < n) (hc : n ≤ c) :
    ∃ q, 0 ≤ q ∧ (if a ≥ c then a.tmod n else a) + n * q = a ∧
      (if a ≥ c then b + a.tdiv n else b) = b + q ∧ (if a ≥ c then a.tmod n else a) < c ∧
      0 ≤ (if a ≥ c then a.tmod n else a) := by
  by_cases h : a ≥ c
  · have hlt := Int.emod_lt_of_pos a hn
    refine ⟨a / n, Int.ediv_nonneg ha hn.le, ?_, ?_, ?_, ?_⟩
    · rw [if_pos h, tmod_of_nonneg ha]
      exact Int.emod_add_mul_ediv a n
    · rw [if_pos h, tdiv_of_nonneg ha]
    · rw [if_pos h, tmod_of_nonneg ha]
      omega
    · rw [if_pos h, tmod_of_nonneg ha]
      exact Int.emod_nonneg a hn.ne'
  · refine ⟨0, le_rfl, ?_, ?_, ?_, ?_⟩
    · rw [if_neg h]
      ring
    · rw [if_neg h, add_zero]
    · rw [if_neg h]
      omega
    · rw [if_neg h]
      exact ha

/-- The day, with the months in range. -/
structure InMonth (s : Tm) : Prop where
  mon : 0 ≤ s.mon ∧ s.mon ≤ 11
  year : 0 ≤ s.year

/-- The days from the beginning of the year, the day itself counted. -/
def dayValue (s : Tm) : Int := monthStart (1900 + s.year.toNat) s.mon.toNat + s.mday

private theorem dateDay_eq (h : InMonth s) : dateDay s = dayOf s.year.toNat (dayValue s - 1) := by
  have hmon := h.mon
  have hdiv : s.mon.toNat / 12 = 0 := by omega
  have hmod : s.mon.toNat % 12 = s.mon.toNat := by omega
  unfold dateDay dayValue
  rw [hdiv, hmod]
  rfl

/-- What the last loop finds. -/
structure Carried (t s : Tm) : Prop where
  month : InMonth s
  clock : 0 ≤ s.sec ∧ 0 ≤ s.min ∧ 0 ≤ s.hour
  denoted_eq : denoted s = denoted t
  mday : 1 ≤ s.mday
  year : s.year = t.year + t.mon / 12

private theorem carried_spec (h : InDomain t) : Carried t (carried t) := by
  have hsec := h.sec.1
  have hmin := h.min.1
  have hhour := h.hour.1
  have hmday := h.mday.1
  have hmon := h.mon.1
  have hyear := h.year.1
  obtain ⟨qs, hqs, hs, hs', hslt, hs0⟩ := @carry_unit t.sec t.min 60 61 hsec (by decide) (by decide)
  have hmin' : minSum t = t.min + qs := hs'
  obtain ⟨qm, hqm, hm, hm', hmlt, hm0⟩ :=
    @carry_unit (minSum t) t.hour 60 60 (by omega) (by decide) le_rfl
  have hhour' : hourSum t = t.hour + qm := hm'
  obtain ⟨qh, hqh, hh, hh', hhlt, hh0⟩ :=
    @carry_unit (hourSum t) t.mday 24 24 (by omega) (by decide) le_rfl
  have hmday' : mdaySum t = t.mday + qh := hh'
  obtain ⟨qy, hqy, hy, hy', hylt, hy0⟩ := @carry_unit t.mon t.year 12 12 hmon (by decide) le_rfl
  have hyear' : yearSum t = t.year + qy := hy'
  have cs : (carried t).sec = if t.sec ≥ 61 then t.sec.tmod 60 else t.sec := rfl
  have cm : (carried t).min = if minSum t ≥ 60 then (minSum t).tmod 60 else minSum t := rfl
  have ch : (carried t).hour = if hourSum t ≥ 24 then (hourSum t).tmod 24 else hourSum t := rfl
  have cd : (carried t).mday = t.mday + qh := hmday'
  have co : (carried t).mon = if t.mon ≥ 12 then t.mon.tmod 12 else t.mon := rfl
  have cy : (carried t).year = t.year + qy := hyear'
  rw [← cs] at hs hslt hs0
  rw [← cm] at hm hmlt hm0
  rw [← ch] at hh hhlt hh0
  rw [← co] at hy hylt hy0
  have hmonth : InMonth (carried t) := ⟨by omega, by omega⟩
  refine ⟨hmonth, ⟨hs0, hm0, hh0⟩, ?_, by omega, by omega⟩
  have hday : dateDay (carried t) = dateDay t + qh := by
    have hyears : (carried t).year.toNat + (carried t).mon.toNat / 12 =
        t.year.toNat + t.mon.toNat / 12 := by omega
    have hmonths : (carried t).mon.toNat % 12 = t.mon.toNat % 12 := by omega
    unfold dateDay
    rw [hyears, hmonths, cd]
    unfold dayOf
    dsimp only
    omega
  unfold denoted
  rw [hday]
  omega

/-! ## The last loop -/

/-- One round of the loop that carries days into months. -/
def carryRound (t : Tm) : Tm :=
  let mday := if t.mon = 1 ∧ isleap (t.year + 1900) then t.mday - 1 else t.mday
  let mday := mday - spm t.mon.toNat
  if t.mon + 1 > 11 then { t with mday := mday, mon := 0, year := t.year + 1 }
  else { t with mday := mday, mon := t.mon + 1 }

private theorem carryDays_succ (n : Nat) (t : Tm) : carryDays (n + 1) t =
    if t.mday > spm (1 + t.mon).toNat then carryDays n (carryRound t) else t := by
  by_cases hday : t.mday > spm (1 + t.mon).toNat
  · by_cases hmon : t.mon + 1 > 11
    · simp only [carryDays, carryRound, hday, hmon, if_true]
    · simp only [carryDays, carryRound, hday, hmon, if_true, if_false]
  · simp only [carryDays, hday, if_false]

/-- The leap day that the loop takes off in February. -/
def leapOf (s : Tm) : Int := leapDay (1900 + s.year.toNat)

private theorem isleap_year (hyear : 0 ≤ s.year) :
    (isleap (s.year + 1900) = true) ↔ LeapYear (1900 + s.year.toNat) := by
  have hcast : s.year + 1900 = ((1900 + s.year.toNat : Nat) : Int) := by omega
  rw [hcast, isleap_iff]

/-- What a round does to the day: in January, in February, later, and in December. -/
structure Round (s s' : Tm) : Prop where
  month : InMonth s'
  clock : s'.sec = s.sec ∧ s'.min = s.min ∧ s'.hour = s.hour
  mday : s'.mday = s.mday - spm s.mon.toNat - if s.mon = 1 then leapOf s else 0
  mon : s'.mon = if s.mon = 11 then 0 else s.mon + 1
  year : s'.year = if s.mon = 11 then s.year + 1 else s.year

private theorem carryRound_spec (h : InMonth s) : Round s (carryRound s) := by
  have hmon := h.mon
  have hyear := h.year
  have hfeb : (if s.mon = 1 ∧ isleap (s.year + 1900) then s.mday - 1 else s.mday) =
      s.mday - if s.mon = 1 then leapOf s else 0 := by
    unfold leapOf leapDay
    simp only [isleap_year hyear]
    by_cases hm : s.mon = 1 <;> by_cases hl : LeapYear (1900 + s.year.toNat) <;> simp [hm, hl]
  unfold carryRound
  rw [hfeb]
  by_cases hdec : s.mon + 1 > 11
  · have heq : s.mon = 11 := by omega
    rw [if_pos hdec]
    refine ⟨⟨⟨le_rfl, ?_⟩, ?_⟩, ⟨rfl, rfl, rfl⟩, ?_, ?_, ?_⟩
    · dsimp only
      omega
    · dsimp only
      omega
    · dsimp only
      omega
    · rw [if_pos heq]
    · rw [if_pos heq]
  · have hne : s.mon ≠ 11 := by omega
    rw [if_neg hdec]
    refine ⟨⟨⟨?_, ?_⟩, hyear⟩, ⟨rfl, rfl, rfl⟩, ?_, ?_, ?_⟩
    · dsimp only
      omega
    · dsimp only
      omega
    · dsimp only
      omega
    · rw [if_neg hne]
    · rw [if_neg hne]

private theorem leapDay_cases (y : Nat) : leapDay y = 0 ∨ leapDay y = 1 := by
  have hle := leapDay_le y
  omega

/-- How the value of the day changes in a round. -/
theorem Round.dayValue_eq {s' : Tm} (hs : InMonth s) (h : Round s s') :
    dayValue s' = dayValue s +
      if s.mon = 0 then 31 else if s.mon = 11 then -668 - leapOf s
      else (spm (s.mon.toNat + 1) : Int) - 2 * spm s.mon.toNat := by
  have hmon := hs.mon
  obtain ⟨m, hm⟩ := Int.eq_ofNat_of_zero_le hmon.1
  have hm11 : m ≤ 11 := by omega
  have hstart := monthStart_eq (1900 + s.year.toNat) (show m ≤ 12 by omega)
  have hmday := h.mday
  have hmon' := h.mon
  have hyear' := h.year
  unfold dayValue leapOf at *
  rw [hm] at hmday hmon' hyear' ⊢
  simp only [Int.toNat_natCast] at hmday hstart ⊢
  by_cases hdec : m = 11
  · subst hdec
    have hjan : s'.mon = 0 := hmon'
    rw [hjan, hstart]
    simp [spm, monthStart] at hmday ⊢
    omega
  · have hne : ¬((m : Int) = 11) := by omega
    rw [if_neg hne] at hmon' hyear' ⊢
    have hnext := monthStart_eq (1900 + s.year.toNat) (show m + 1 ≤ 12 by omega)
    have hsucc : ((m : Int) + 1).toNat = m + 1 := by omega
    rw [hmon', hyear', hsucc, hstart, hnext]
    interval_cases m <;> simp [spm] at hmday ⊢ <;> omega

/-- January may add to the value of the day, and every other round takes from it; the weight of
the years counts the rounds that begin a new one. -/
def weight (s : Tm) : Int := dayValue s + 636 * s.year + if s.mon = 0 then 31 else 0

theorem Round.weight_le {s' : Tm} (hs : InMonth s) (h : Round s s') :
    weight s' ≤ weight s ∧ (s.mon ≠ 0 → weight s' < weight s) ∧ s.year ≤ s'.year := by
  have hmon := hs.mon
  have hvalue := h.dayValue_eq hs
  have hmon' := h.mon
  have hyear' := h.year
  have hleap : leapOf s = 0 ∨ leapOf s = 1 := by
    unfold leapOf
    have := leapDay_cases (1900 + s.year.toNat)
    omega
  obtain ⟨m, hm⟩ := Int.eq_ofNat_of_zero_le hmon.1
  have hm11 : m ≤ 11 := by omega
  unfold weight
  rw [hm] at hvalue hmon' hyear' ⊢
  simp only [Int.toNat_natCast] at hvalue
  rw [hvalue, hmon', hyear']
  interval_cases m <;> simp [spm] <;> omega

/-- What the loop keeps, and that its rounds beyond January take from the day. -/
structure LoopRun (s s' : Tm) : Prop where
  month : InMonth s'
  clock : s'.sec = s.sec ∧ s'.min = s.min ∧ s'.hour = s.hour
  weight : weight s' ≤ weight s
  year : s.year ≤ s'.year

theorem LoopRun.refl (h : InMonth s) : LoopRun s s :=
  ⟨h, ⟨rfl, rfl, rfl⟩, le_rfl, le_rfl⟩

private theorem carryDays_run (n : Nat) (h : InMonth s) : LoopRun s (carryDays n s) := by
  induction n generalizing s with
  | zero => exact LoopRun.refl h
  | succ n ih =>
      rw [carryDays_succ]
      split
      · have hround := carryRound_spec h
        obtain ⟨hle, _, hyear⟩ := hround.weight_le h
        have hrest := ih hround.month
        have hc := hround.clock
        have hc' := hrest.clock
        refine ⟨hrest.month, ⟨?_, ?_, ?_⟩, hrest.weight.trans hle, hyear.trans hrest.year⟩
        · exact hc'.1.trans hc.1
        · exact hc'.2.1.trans hc.2.1
        · exact hc'.2.2.trans hc.2.2
      · exact LoopRun.refl h

/-- A round that does not start in January is felt in the end. -/
theorem carryDays_lt {n : Nat} (h : InMonth s) (hmon : s.mon ≠ 0)
    (hday : s.mday > spm (1 + s.mon).toNat) : weight (carryDays (n + 1) s) < weight s := by
  have hround := carryRound_spec h
  have hrest := carryDays_run n hround.month
  rw [carryDays_succ, if_pos hday]
  exact hrest.weight.trans_lt ((hround.weight_le h).2.1 hmon)

/-- The rounds that `normalise` allows are enough: two of them take a day away. -/
theorem carryDays_ends {n : Nat} (h : InMonth s)
    (hn : 2 * s.mday.toNat + (if s.mon = 0 then 1 else 0) < n) :
    (carryDays n s).mday ≤ spm (1 + (carryDays n s).mon).toNat := by
  induction n generalizing s with
  | zero => omega
  | succ n ih =>
      rw [carryDays_succ]
      split
      · next hday =>
          have hround := carryRound_spec h
          have hmday := hround.mday
          have hmon' := hround.mon
          have hmon := h.mon
          have hleap : 0 ≤ leapOf s := Int.natCast_nonneg _
          apply ih hround.month
          by_cases hjan : s.mon = 0
          · have hspm : (spm s.mon.toNat : Int) = 0 := by rw [hjan]; rfl
            rw [hjan] at hmon' hmday
            rw [if_pos hjan] at hn
            have hne : ¬(carryRound s).mon = 0 := by
              rw [hmon']
              decide
            rw [if_neg hne]
            simp only [Int.reduceEq, if_false] at hmday
            have hzero : (spm (0 : Int).toNat : Int) = 0 := rfl
            omega
          · have hspm : spm 1 ≤ spm s.mon.toNat := spm_mono (by omega) (by omega)
            have hnext : spm 1 ≤ spm (1 + s.mon).toNat := spm_mono (by omega) (by omega)
            have hone : spm 1 = 31 := rfl
            rw [if_neg hjan] at hn
            have hsub : (carryRound s).mday ≤ s.mday - 31 := by
              rw [hmday]
              split <;> omega
            split <;> omega
      · next hday => omega

/-! ## What `timegm` computes -/

private theorem leap_eq (h : InMonth s) : (spm s.mon.toNat : Int) + s.mday - 1 +
    (if isleap (s.year + 1900) ∧ s.mon > 1 then 1 else 0) = dayValue s - 1 := by
  have hmon := h.mon
  have hstart := monthStart_eq (1900 + s.year.toNat) (show s.mon.toNat ≤ 12 by omega)
  have hpast : s.mon > 1 ↔ 1 < s.mon.toNat := by omega
  unfold dayValue
  rw [hstart]
  unfold leapDay
  simp only [isleap_year h.year, hpast]
  by_cases hl : LeapYear (1900 + s.year.toNat) <;> by_cases hm : 1 < s.mon.toNat <;>
    simp only [hl, hm, and_true, and_false, if_true, if_false] <;>
    omega

/-- The years are those before the carries, the day is the one behind them. -/
theorem timegm_value (h : InMonth (normalise t)) (hlate : 70 ≤ (normalise t).year) :
    (timegm t).2 = (((daysOfYears (t.year - 70) + (dayValue (normalise t) - 1)) * 24 +
      (normalise t).hour) * 60 + (normalise t).min) * 60 + (normalise t).sec := by
  have hday := leap_eq h
  unfold timegm
  simp only [if_neg (show ¬(normalise t).year < 70 by omega)]
  rw [hday]

private theorem timegm_fields (hlate : 70 ≤ (normalise t).year) (h : InMonth (normalise t)) :
    (timegm t).1 = { normalise t with
      wday := (daysOfYears (t.year - 70) + (dayValue (normalise t) - 1) + 4).tmod 7 } := by
  have hday := leap_eq h
  unfold timegm
  simp only [if_neg (show ¬(normalise t).year < 70 by omega)]
  rw [hday]

private theorem daysSince_epoch {year : Int} (h : 70 ≤ year) :
    daysSince 1900 year.toNat = daysSince 1900 70 + daysSince 1970 (year - 70).toNat := by
  have hyears : year.toNat = 70 + (year - 70).toNat := by omega
  rw [hyears]
  exact daysSince_split 1900 70 (year - 70).toNat

/-- The closed formula, used of years before 1970, is off by some days. -/
theorem daysOfYears_le {year : Int} (h : 0 ≤ year) :
    daysOfYears (year - 70) ≤ dayOf year.toNat 17 := by
  have hsum := @daysSince_add 1900 (by decide) year.toNat
  have hsum70 := @daysSince_add 1900 (by decide) 70
  unfold leapsBefore at hsum hsum70
  unfold dayOf
  by_cases hlate : 70 ≤ year
  · have hsplit := daysSince_epoch hlate
    rw [daysOfYears_eq (by omega)]
    omega
  · have hquarter : (year - 70 + 1).tdiv 4 ≤ 0 := by
      have hneg := Int.neg_tdiv (-(year - 70 + 1)) 4
      have hpos := Int.tdiv_nonneg (show 0 ≤ -(year - 70 + 1) by omega)
        (show (0 : Int) ≤ 4 by decide)
      rw [neg_neg] at hneg
      omega
    unfold daysOfYears
    simp only [if_neg (show ¬year - 70 ≥ 131 by omega)]
    omega

private theorem daysOfYears_of_late {year : Int} (h : 70 ≤ year) :
    daysOfYears (year - 70) = dayOf year.toNat 0 := by
  have hsplit := daysSince_epoch h
  unfold dayOf
  rw [daysOfYears_eq (by omega)]
  omega

/-- The result is right when the day is, and never with years or months that are carried. -/
theorem timegm_right_iff (h : InDomain t) (hc : Carried t (carried t)) :
    (timegm t).2 = denoted t ↔ t.mon ≤ 11 ∧ 70 ≤ t.year ∧
      dayValue (normalise t) = dayValue (carried t) := by
  have hrun := carryDays_run (12 * (mdaySum t).toNat + 12) hc.month
  rw [← normalise_eq] at hrun
  have hyear0 := h.year.1
  have hmon0 := h.mon.1
  have hyear := hc.year
  have hepoch := h.epoch
  have hweight := hrun.weight
  have hbound := daysOfYears_le hyear0
  have hday := dateDay_eq hc.month
  have hden := hc.denoted_eq
  have hclock := hrun.clock
  unfold denoted at hden
  rw [hday] at hden
  have hjan : (if (normalise t).mon = 0 then (31 : Int) else 0) ≥ 0 := by split <;> decide
  have hjan' : (if (carried t).mon = 0 then (31 : Int) else 0) ≤ 31 := by split <;> decide
  unfold weight at hweight
  by_cases hlate : 70 ≤ (normalise t).year
  · rw [timegm_value hrun.month hlate, hclock.1, hclock.2.1, hclock.2.2]
    unfold dayOf at hden hbound
    unfold denoted at hepoch ⊢
    have hright : (((daysOfYears (t.year - 70) + (dayValue (normalise t) - 1)) * 24 +
        (carried t).hour) * 60 + (carried t).min) * 60 + (carried t).sec =
          ((dateDay t * 24 + t.hour) * 60 + t.min) * 60 + t.sec ↔
        daysOfYears (t.year - 70) + dayValue (normalise t) =
          (daysSince 1900 (carried t).year.toNat : Int) - daysSince 1900 70 +
            dayValue (carried t) := by
      omega
    rw [hright]
    constructor
    · intro heq
      by_cases hcarry : t.mon ≤ 11
      · have hsame : (carried t).year = t.year := by omega
        have hwrap := hrun.year
        rw [hsame] at heq hweight hwrap
        by_cases hearly : 70 ≤ t.year
        · have hyears := daysOfYears_of_late hearly
          unfold dayOf at hyears
          exact ⟨hcarry, hearly, by omega⟩
        · exfalso
          omega
      · exfalso
        have hmono := daysSince_mono 1900 (show t.year.toNat ≤ (carried t).year.toNat by omega)
        have hyears := hrun.year
        omega
    · rintro ⟨hcarry, hearly, hsame⟩
      have hyears := daysOfYears_of_late hearly
      have hyear' : (carried t).year = t.year := by omega
      unfold dayOf at hyears
      rw [hyear', hsame]
      omega
  · have hminus : (timegm t).2 = -1 := by
      unfold timegm
      simp only [if_pos (show (normalise t).year < 70 by omega)]
    have hyears := hrun.year
    rw [hminus]
    constructor
    · intro heq
      omega
    · rintro ⟨hcarry, hearly, _⟩
      omega

/-! ## The rounds from January on -/

private theorem carryDays_stop (n : Nat) (h : s.mday ≤ spm (1 + s.mon).toNat) :
    carryDays n s = s := by
  cases n with
  | zero => rfl
  | succ n => rw [carryDays_succ, if_neg (by omega)]

/-- The first three rounds from January on. -/
theorem january_rounds (h : InMonth s) (hjan : s.mon = 0) :
    ∃ s₁ s₂ s₃, carryRound s = s₁ ∧ carryRound s₁ = s₂ ∧ carryRound s₂ = s₃ ∧
      InMonth s₃ ∧ s₃.year = s.year ∧ s₁.mon = 1 ∧ s₂.mon = 2 ∧ s₃.mon = 3 ∧
      s₁.mday = s.mday ∧ s₂.mday = s.mday - 31 - leapOf s ∧ s₃.mday = s.mday - 90 - leapOf s ∧
      dayValue s₁ = dayValue s + 31 ∧ dayValue s₂ = dayValue s + 28 ∧
      dayValue s₃ = dayValue s := by
  have hspm : spm 0 = 0 ∧ spm 1 = 31 ∧ spm 2 = 59 ∧ spm 3 = 90 := ⟨rfl, rfl, rfl, rfl⟩
  have r₁ := carryRound_spec h
  have v₁ := r₁.dayValue_eq h
  have r₂ := carryRound_spec r₁.month
  have v₂ := r₂.dayValue_eq r₁.month
  have r₃ := carryRound_spec r₂.month
  have v₃ := r₃.dayValue_eq r₂.month
  have m₁ : (carryRound s).mon = 1 := by
    have hmon := r₁.mon
    rw [hjan] at hmon
    exact hmon
  have m₂ : (carryRound (carryRound s)).mon = 2 := by
    have hmon := r₂.mon
    rw [m₁] at hmon
    exact hmon
  have m₃ : (carryRound (carryRound (carryRound s))).mon = 3 := by
    have hmon := r₃.mon
    rw [m₂] at hmon
    exact hmon
  have y₁ : (carryRound s).year = s.year := by
    have hyear := r₁.year
    rw [hjan] at hyear
    exact hyear
  have y₂ : (carryRound (carryRound s)).year = s.year := by
    have hyear := r₂.year
    rw [m₁, y₁] at hyear
    exact hyear
  have y₃ : (carryRound (carryRound (carryRound s))).year = s.year := by
    have hyear := r₃.year
    rw [m₂, y₂] at hyear
    exact hyear
  have l₁ : leapOf (carryRound s) = leapOf s := by
    unfold leapOf
    rw [y₁]
  have d₁ : (carryRound s).mday = s.mday := by
    have hmday := r₁.mday
    rw [hjan] at hmday
    simpa [hspm.1] using hmday
  have d₂ : (carryRound (carryRound s)).mday = s.mday - 31 - leapOf s := by
    have hmday := r₂.mday
    rw [m₁, d₁, l₁] at hmday
    exact hmday
  have d₃ : (carryRound (carryRound (carryRound s))).mday = s.mday - 90 - leapOf s := by
    have hmday := r₃.mday
    rw [m₂, d₂] at hmday
    rw [hmday, if_neg (by decide)]
    show s.mday - 31 - leapOf s - 59 - 0 = s.mday - 90 - leapOf s
    omega
  refine ⟨_, _, _, rfl, rfl, rfl, r₃.month, y₃, m₁, m₂, m₃, d₁, d₂, d₃, ?_, ?_, ?_⟩
  · rw [v₁, if_pos hjan]
  · rw [v₂, v₁, if_pos hjan, m₁, if_neg (by decide), if_neg (by decide)]
    show dayValue s + 31 + ((59 : Int) - 2 * 31) = dayValue s + 28
    omega
  · rw [v₃, v₂, v₁, if_pos hjan, m₁, m₂, if_neg (by decide), if_neg (by decide),
      if_neg (by decide), if_neg (by decide)]
    show dayValue s + 31 + ((59 : Int) - 2 * 31) + ((90 : Int) - 2 * 59) = dayValue s
    omega

/-- The value of the day comes back after no round, and after three rounds from January on. -/
theorem carryDays_value_iff (h : InMonth s) {n : Nat} (hn : 4 ≤ n) :
    dayValue (carryDays n s) = dayValue s ↔ s.mday ≤ spm (1 + s.mon.toNat) ∨
      s.mon = 0 ∧ 121 + leapOf s < s.mday ∧ s.mday ≤ 210 + leapOf s := by
  have hmon := h.mon
  have hindex : (1 + s.mon).toNat = 1 + s.mon.toNat := by omega
  have hleap : leapOf s = 0 ∨ leapOf s = 1 := by
    have hcases := leapDay_cases (1 + s.mon.toNat)
    have hcases' := leapDay_cases (1900 + s.year.toNat)
    unfold leapOf
    omega
  obtain ⟨n, rfl⟩ : ∃ k, n = k + 4 := ⟨n - 4, by omega⟩
  by_cases hstop : s.mday ≤ spm (1 + s.mon.toNat)
  · rw [carryDays_stop _ (by rwa [hindex])]
    exact ⟨fun _ => Or.inl hstop, fun _ => rfl⟩
  · by_cases hjan : s.mon = 0
    · obtain ⟨s₁, s₂, s₃, e₁, e₂, e₃, i₃, y₃, m₁, m₂, m₃, d₁, d₂, d₃, v₁, v₂, v₃⟩ :=
        january_rounds h hjan
      have hjan' : s.mon.toNat = 0 := by omega
      have c₀ : (spm (1 + s.mon.toNat) : Int) = 31 := by rw [hjan']; rfl
      have c₁ : (spm (1 + s₁.mon).toNat : Int) = 59 := by rw [m₁]; rfl
      have c₂ : (spm (1 + s₂.mon).toNat : Int) = 90 := by rw [m₂]; rfl
      have c₃ : (spm (1 + s₃.mon).toNat : Int) = 120 := by rw [m₃]; rfl
      rw [carryDays_succ, if_pos (by rw [hindex]; omega), e₁]
      by_cases g₁ : s₁.mday ≤ spm (1 + s₁.mon).toNat
      · rw [carryDays_stop _ g₁]
        constructor
        · intro heq
          omega
        · rintro (hle | hle)
          · exact absurd hle hstop
          · omega
      · rw [carryDays_succ, if_pos (by omega), e₂]
        by_cases g₂ : s₂.mday ≤ spm (1 + s₂.mon).toNat
        · rw [carryDays_stop _ g₂]
          constructor
          · intro heq
            omega
          · rintro (hle | hle)
            · exact absurd hle hstop
            · omega
        · rw [carryDays_succ, if_pos (by omega), e₃]
          by_cases g₃ : s₃.mday ≤ spm (1 + s₃.mon).toNat
          · rw [carryDays_stop _ g₃, v₃]
            exact ⟨fun _ => Or.inr ⟨hjan, by omega, by omega⟩, fun _ => rfl⟩
          · have hlt : weight (carryDays (n + 1) s₃) < weight s₃ :=
              carryDays_lt i₃ (by omega) (by omega)
            have hyear := (carryDays_run (n + 1) i₃).year
            have hge : (if (carryDays (n + 1) s₃).mon = 0 then (31 : Int) else 0) ≥ 0 := by
              split <;> decide
            unfold weight at hlt
            rw [if_neg (show ¬s₃.mon = 0 by omega)] at hlt
            constructor
            · intro heq
              omega
            · rintro (hle | hle)
              · exact absurd hle hstop
              · omega
    · -- a round that starts later only takes from the day
      have hlt : weight (carryDays (n + 4) s) < weight s :=
        carryDays_lt h hjan (by rw [hindex]; omega)
      have hrun := carryDays_run (n + 4) h
      have hyear := hrun.year
      have hge : (if (carryDays (n + 4) s).mon = 0 then (31 : Int) else 0) ≥ 0 := by
        split <;> decide
      unfold weight at hlt
      rw [if_neg hjan] at hlt
      constructor
      · intro heq
        omega
      · rintro (hle | hle)
        · exact absurd hle hstop
        · exact absurd hle.1 hjan

/-! ## The fields that come out right -/

/-- Fields that `timegm` gets right are left in the year they were in. -/
theorem year_of_value (hc : InMonth (carried t))
    (hvalue : dayValue (normalise t) = dayValue (carried t)) :
    (normalise t).year = (carried t).year := by
  have hrun := carryDays_run (12 * (mdaySum t).toNat + 12) hc
  rw [← normalise_eq] at hrun
  have hweight := hrun.weight
  have hyear := hrun.year
  have hge : (if (normalise t).mon = 0 then (31 : Int) else 0) ≥ 0 := by split <;> decide
  have hle : (if (carried t).mon = 0 then (31 : Int) else 0) ≤ 31 := by split <;> decide
  unfold weight at hweight
  omega

/-- A result that is right comes with fields that denote it. -/
theorem fields_of_value (h : InDomain t) (hc : Carried t (carried t)) (hmon : t.mon ≤ 11)
    (hyear : 70 ≤ t.year) (hvalue : dayValue (normalise t) = dayValue (carried t)) (old : Int) :
    denoted (timegm t).1 = denoted t ∧ (timegm t).1.wday = weekday (dateDay (timegm t).1) ∧
      dayOf (timegm t).1.year.toNat (timegmYday t old) = dateDay (timegm t).1 := by
  have hrun := carryDays_run (12 * (mdaySum t).toNat + 12) hc.month
  rw [← normalise_eq] at hrun
  have hmon0 := h.mon.1
  have hsame := year_of_value hc.month hvalue
  have hcarry := hc.year
  have hmday := hc.mday
  have hyear' : (normalise t).year = t.year := by omega
  have hlate : 70 ≤ (normalise t).year := by omega
  have hfields := timegm_fields hlate hrun.month
  have hmonth : InMonth (timegm t).1 := by
    rw [hfields]
    exact ⟨hrun.month.mon, hrun.month.year⟩
  have hday : dateDay (timegm t).1 =
      dayOf (normalise t).year.toNat (dayValue (normalise t) - 1) := by
    rw [dateDay_eq hmonth, hfields]
    rfl
  have hyears := daysOfYears_of_late hyear
  have hpos : 1 ≤ dayValue (carried t) := by
    unfold dayValue
    omega
  refine ⟨?_, ?_, ?_⟩
  · have hclock := hrun.clock
    rw [← hc.denoted_eq]
    unfold denoted
    rw [hday, dateDay_eq hc.month, hsame, hvalue, hfields]
    dsimp only
    rw [hclock.1, hclock.2.1, hclock.2.2]
  · have hmono := daysSince_epoch hyear
    rw [hday, hfields, hyear', hvalue]
    unfold weekday dayOf at *
    dsimp only
    rw [hyears, tmod_of_nonneg (by omega)]
    congr 1
    omega
  · rw [hday, hfields]
    unfold timegmYday
    simp only [if_neg (show ¬(normalise t).year < 70 by omega)]
    rw [leap_eq hrun.month]

/-- The last loop of `timegm` ends, and it normalises the fields exactly where nothing is carried
into the year, and the days are those of the month, or of a January that three rounds take to
April. -/
theorem timegm_normalises (t : Tm) (old : Int) (h : InDomain t) :
    (normalise t).mday ≤ spm (1 + (normalise t).mon).toNat ∧
      (Normalises t old ↔ Carries t) := by
  have hc := carried_spec h
  have hmon0 := h.mon.1
  have hcarry := hc.year
  have hyear0 := h.year
  have hright := timegm_right_iff h hc
  have hdays := @carryDays_value_iff (carried t) hc.month (12 * (mdaySum t).toNat + 12) (by omega)
  rw [← normalise_eq] at hdays
  have hmday : (carried t).mday = mdaySum t := rfl
  have hcond : t.mon ≤ 11 → 70 ≤ t.year → ((dayValue (normalise t) = dayValue (carried t)) ↔
      mdaySum t ≤ spm (1 + t.mon.toNat) ∨
        t.mon = 0 ∧ 121 + leapDay (1900 + t.year.toNat) < mdaySum t ∧
          mdaySum t ≤ 210 + leapDay (1900 + t.year.toNat)) := by
    intro hmon _
    have hmon' : (carried t).mon = t.mon := if_neg (by omega)
    have hyear' : (carried t).year = t.year := by omega
    rw [hdays, hmday, hmon']
    unfold leapOf
    rw [hyear']
  refine ⟨?_, ?_⟩
  · have hday : (carried t).mday = mdaySum t := rfl
    rw [normalise_eq]
    apply carryDays_ends hc.month
    split <;> omega
  unfold Normalises timegmInt
  constructor
  · rintro ⟨r, hrun, hvalue, _, _, _⟩
    split at hrun
    · next hfits =>
        cases hrun
        obtain ⟨hmon, hyear, hsame⟩ := hright.mp hvalue
        have hyear' := year_of_value hc.month hsame
        exact ⟨hfits.1, hfits.2.1, ⟨hyear, by omega⟩, hmon, (hcond hmon hyear).mp hsame⟩
    · cases hrun
  · intro hgood
    have hmon := hgood.months
    have hyear := hgood.years
    have hsame := (hcond hmon hyear.1).mpr hgood.days
    have hyear' := year_of_value hc.month hsame
    have hleap := leapDay_le (1900 + t.year.toNat)
    have hlast : spm (1 + t.mon.toNat) ≤ spm 12 := spm_mono (by omega) le_rfl
    have hspm : spm 12 = 365 := rfl
    have hmax : intMax = 2147483647 := rfl
    have hsum : yearSum t = t.year := if_neg (by omega)
    have hgooddays := hgood.days
    rw [if_pos ⟨hgood.min, hgood.hour, by omega, by omega, by omega⟩]
    obtain ⟨hfields, hwday, hyday⟩ := fields_of_value h hc hmon hyear.1 hsame old
    exact ⟨timegm t, rfl, hright.mpr ⟨hmon, hyear.1, hsame⟩, hfields, hwday, hyday⟩

/-- 32 January 1970. -/
def lateJanuary : Tm :=
  { sec := 0, min := 0, hour := 0, mday := 32, mon := 0, year := 70, wday := 0 }

/-- 31 January 1970, 24:00. -/
def endOfJanuary : Tm := { lateJanuary with mday := 30, hour := 24 }

theorem timegm_normalises_endOfJanuary : InDomain endOfJanuary ∧ Normalises endOfJanuary 0 :=
  have h : InDomain endOfJanuary := by
    constructor <;> decide
  ⟨h, (timegm_normalises endOfJanuary 0 h).2.mpr (by constructor <;> decide)⟩

/-- The 32nd of January comes out as the 4th of March. -/
theorem timegm_late_january : InDomain lateJanuary ∧
    timegmInt lateJanuary = some ({ lateJanuary with mon := 1, wday := 3 }, 62 * 86400) ∧
    denoted lateJanuary = 31 * 86400 ∧ ¬Normalises lateJanuary 0 := by
  have h : InDomain lateJanuary := by
    constructor <;> decide
  have hrun : timegmInt lateJanuary =
      some ({ lateJanuary with mon := 1, wday := 3 }, 62 * 86400) := by decide
  have htime : denoted lateJanuary = 31 * 86400 := by decide
  refine ⟨h, hrun, htime, ?_⟩
  intro hn
  obtain ⟨r, hr, hvalue, _⟩ := hn
  rw [hrun] at hr
  cases hr
  rw [htime] at hvalue
  exact absurd hvalue (by decide)

end

end RtHypervisor.Ports.RtcTime
