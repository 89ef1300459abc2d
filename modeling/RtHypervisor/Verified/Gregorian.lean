import Mathlib.Tactic.IntervalCases

/-!
# The Gregorian calendar

Years have 365 days, leap years one more.  A date is counted by the days of the years, of the
months and of the month before it, and two dates with the same count are the same
(`Date.eq_of_number`).  `daysSince_add` counts the days of whole years in closed form.
-/

namespace RtHypervisor.Verified.Gregorian

/-- Every fourth year, but of the centuries only every fourth. -/
def LeapYear (y : Nat) : Prop := y % 4 = 0 ∧ (y % 100 ≠ 0 ∨ y % 400 = 0)

instance (y : Nat) : Decidable (LeapYear y) := inferInstanceAs (Decidable (_ ∧ _))

def leapDay (y : Nat) : Nat := if LeapYear y then 1 else 0

def yearLength (y : Nat) : Nat := 365 + leapDay y

/-- The days of a month; January is the month 0. -/
def monthLength (y : Nat) : Nat → Nat
  | 1 => 28 + leapDay y
  | 3 | 5 | 8 | 10 => 30
  | _ => 31

/-- The days of the months before the month `m`. -/
def monthStart (y : Nat) : Nat → Nat
  | 0 => 0
  | m + 1 => monthStart y m + monthLength y m

/-- The days of `n` years from the year `base` on. -/
def daysSince (base : Nat) : Nat → Nat
  | 0 => 0
  | n + 1 => daysSince base n + yearLength (base + n)

structure Date where
  year : Nat
  mon : Nat
  mday : Nat
deriving DecidableEq, Repr

structure Date.Valid (d : Date) : Prop where
  mon : d.mon < 12
  first : 1 ≤ d.mday
  last : d.mday ≤ monthLength d.year d.mon

/-- The days before a date, from the first day of the year `base` on. -/
def Date.number (base : Nat) (d : Date) : Nat :=
  daysSince base (d.year - base) + monthStart d.year d.mon + (d.mday - 1)

/-! ## Whole years -/

@[simp] theorem daysSince_zero (base : Nat) : daysSince base 0 = 0 := rfl

theorem daysSince_succ (base n : Nat) :
    daysSince base (n + 1) = daysSince base n + (365 + leapDay (base + n)) := rfl

theorem leapDay_le (y : Nat) : leapDay y ≤ 1 := by
  unfold leapDay
  split <;> omega

/-- The leap years before the year `y`. -/
def leapsBefore (y : Nat) : Nat := (y - 1) / 4 + (y - 1) / 400 - (y - 1) / 100

theorem leapsBefore_succ {y : Nat} (hy : 0 < y) :
    leapsBefore (y + 1) = leapsBefore y + leapDay y := by
  have hleap : leapDay y = if LeapYear y then 1 else 0 := rfl
  unfold leapsBefore
  by_cases h : LeapYear y
  · rw [hleap, if_pos h]
    unfold LeapYear at h
    omega
  · rw [hleap, if_neg h]
    unfold LeapYear at h
    omega

theorem daysSince_add {base : Nat} (hbase : 0 < base) (n : Nat) :
    daysSince base n + leapsBefore base = 365 * n + leapsBefore (base + n) := by
  induction n with
  | zero =>
      rw [daysSince_zero, Nat.zero_add, Nat.mul_zero, Nat.zero_add, Nat.add_zero]
  | succ n ih =>
      have hstep : leapsBefore (base + (n + 1)) = leapsBefore (base + n) + leapDay (base + n) :=
        @leapsBefore_succ (base + n) (by omega)
      rw [daysSince_succ]
      omega

theorem daysSince_mono (base : Nat) {n k : Nat} (h : n ≤ k) :
    daysSince base n + 365 * (k - n) ≤ daysSince base k := by
  induction k, h using Nat.le_induction with
  | base => omega
  | succ k hk ih =>
      rw [daysSince_succ]
      omega

theorem daysSince_split (base n k : Nat) :
    daysSince base (n + k) = daysSince base n + daysSince (base + n) k := by
  induction k with
  | zero => rfl
  | succ k ih =>
      rw [← Nat.add_assoc, daysSince, daysSince, ih, Nat.add_assoc base, Nat.add_assoc]

/-! ## Dates -/

theorem monthStart_succ (y m : Nat) :
    monthStart y (m + 1) = monthStart y m + monthLength y m := rfl

theorem monthStart_mono (y : Nat) {m k : Nat} (h : m ≤ k) : monthStart y m ≤ monthStart y k := by
  induction k, h using Nat.le_induction with
  | base => exact le_rfl
  | succ k hk ih => exact ih.trans (Nat.le_add_right _ _)

theorem monthStart_year (y : Nat) : monthStart y 12 = yearLength y := by
  simp only [monthStart, monthLength, yearLength]
  omega

/-- A day lies before the next month of its year. -/
theorem Date.Valid.lt_monthStart {d : Date} (h : d.Valid) :
    monthStart d.year d.mon + (d.mday - 1) < monthStart d.year (d.mon + 1) := by
  have hfirst := h.first
  have hlast := h.last
  rw [monthStart_succ]
  omega

theorem Date.Valid.lt_yearLength {d : Date} (h : d.Valid) :
    monthStart d.year d.mon + (d.mday - 1) < yearLength d.year := by
  rw [← monthStart_year]
  exact h.lt_monthStart.trans_le (monthStart_mono _ h.mon)

theorem Date.Valid.year_le {base : Nat} {d e : Date} (hd : d.Valid) (hbd : base ≤ d.year)
    (hbe : base ≤ e.year) (h : d.number base = e.number base) : e.year ≤ d.year := by
  by_contra hlt
  have hday := hd.lt_yearLength
  have hmono := daysSince_mono base (show d.year - base + 1 ≤ e.year - base by omega)
  have hyear : base + (d.year - base) = d.year := Nat.add_sub_cancel' hbd
  rw [daysSince_succ, hyear] at hmono
  unfold yearLength at hday
  unfold Date.number at h
  omega

/-- The count of the days determines the date. -/
theorem Date.Valid.eq_of_number {base : Nat} {d e : Date} (hd : d.Valid) (he : e.Valid)
    (hbd : base ≤ d.year) (hbe : base ≤ e.year) (h : d.number base = e.number base) : d = e := by
  have hyear : d.year = e.year :=
    Nat.le_antisymm (he.year_le hbe hbd h.symm) (hd.year_le hbd hbe h)
  have hdlt := hd.lt_monthStart
  have helt := he.lt_monthStart
  have hdfirst := hd.first
  have hefirst := he.first
  unfold Date.number at h
  rw [hyear] at h hdlt
  have hmon : d.mon = e.mon := by
    rcases Nat.lt_trichotomy d.mon e.mon with hlt | heq | hgt
    · have hmono := monthStart_mono e.year (show d.mon + 1 ≤ e.mon from hlt)
      omega
    · exact heq
    · have hmono := monthStart_mono e.year (show e.mon + 1 ≤ d.mon from hgt)
      omega
  rw [hmon] at h
  cases d
  cases e
  simp only [Date.mk.injEq] at hyear hmon ⊢
  exact ⟨hyear, hmon, by dsimp only at h hdfirst hefirst; omega⟩

end RtHypervisor.Verified.Gregorian
