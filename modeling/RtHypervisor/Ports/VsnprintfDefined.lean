import RtHypervisor.Ports.Vsnprintf

/-!
# The formats that are defined

`rt_vsnprintf` has no defined result when an argument is missing or an `int` overflows.  In front
of a conversion these are a number that is too large for `skip_atoi` and a width of `INT_MIN`
(`WidthFails`, `PrecisionFails`); in its output they are the length of a string without a width and
the size that `print_number` counts down (`OutputFails`).  `Defined` follows the format, and
`rtVsnprintf_eq_none_iff` says that nothing else goes wrong, whatever the buffer.
-/

namespace RtHypervisor.Ports.Vsnprintf

open RtHypervisor.Verified.Sink RtHypervisor.Ports.PrintNumber

/-- The decimal number in front. -/
def decimal (v : Nat) : List Byte → Nat
  | [] => v
  | c :: fmt => if isDigit c then decimal (10 * v + (c.toNat - 0x30)) fmt else v

/-- What `skip_atoi` cannot read: it adds the character before it takes `'0'` away. -/
def TooLarge (fmt : List Byte) : Prop := intMax < decimal 0 fmt + 0x30

/-- The next argument is not there, or is an `int` that has no negative. -/
def NoWidth (args : List Slot) : Prop :=
  ∀ slot ∈ args.head?, (slot.setWidth 32).toInt = intMin

/-- Where no width can be read. -/
def WidthFails (d : Directive) : Prop :=
  if isDigit (current d.fmt) then TooLarge d.fmt
  else current d.fmt = 0x2A ∧ NoWidth d.args

/-- Where no precision can be read. -/
def PrecisionFails (d : Directive) : Prop :=
  current d.fmt = 0x2E ∧
    if isDigit (current d.fmt.tail) then TooLarge d.fmt.tail
    else current d.fmt.tail = 0x2A ∧ d.args = []

/-- The conversions with an argument. -/
def Takes (d : Directive) : Prop :=
  current d.fmt ∈ ([0x63, 0x73, 0x70, 0x6F, 0x58, 0x78, 0x64, 0x69, 0x75] : List Byte)

/-- The smallest number has no negative, and the size that is counted down has an end. -/
def NumberFails (num : BitVec 64) (s precision : Int) (type : Flags) : Prop :=
  type.sign = true ∧ num = BitVec.intMin 64 ∨
    s - precision < intMin + decrements (signText num type).length type

/-- The flags of an integer format. -/
def integerFlags (d : Directive) : Flags :=
  if current d.fmt = 0x64 ∨ current d.fmt = 0x69 then { d.type with sign := true } else d.type

/-- Where the output for an argument overflows. -/
def OutputFails (strAt : Slot → List Byte) (d : Directive) (slot : Slot) : Prop :=
  if current d.fmt = 0x63 then False
  else if current d.fmt = 0x73 then
    d.fieldWidth = -1 ∧
      intMax < ((if slot = 0 then nullText else strAt slot).takeWhile (· ≠ 0)).length
  else if current d.fmt = 0x70 then
    if d.fieldWidth = -1 then NumberFails slot 16 d.precision { d.type with zeropad := true }
    else NumberFails slot d.fieldWidth d.precision d.type
  else NumberFails (narrow d.qualifier (integerFlags d).sign slot) d.fieldWidth d.precision
    (integerFlags d)

/-- Where the format goes on behind a conversion. -/
def behind (d : Directive) : List Byte := if current d.fmt = 0 then d.fmt else d.fmt.tail

/-- Every argument is there, and no `int` overflows. -/
inductive Defined (strAt : Slot → List Byte) : List Byte → List Slot → Prop
  | nil {args} : Defined strAt [] args
  | zero {fmt args} : Defined strAt (0 :: fmt) args
  | char {c fmt args} (hzero : c ≠ 0) (hchar : c ≠ percent) (hrest : Defined strAt fmt args) :
      Defined strAt (c :: fmt) args
  | plain {fmt args d} (hd : readDirective fmt args = some d) (htakes : ¬ Takes d)
      (hrest : Defined strAt (behind d) d.args) : Defined strAt (percent :: fmt) args
  | argument {fmt args d slot rest} (hd : readDirective fmt args = some d) (htakes : Takes d)
      (hargs : d.args = slot :: rest) (hfits : ¬ OutputFails strAt d slot)
      (hrest : Defined strAt (behind d) rest) : Defined strAt (percent :: fmt) args

/-! ## In front of a conversion -/

section Read

variable {d d' : Directive} {fmt : List Byte} {args : List Slot}

private theorem le_decimal (v : Nat) (fmt : List Byte) : v ≤ decimal v fmt := by
  fun_induction decimal v fmt with
  | case1 v => exact Nat.le_refl v
  | case2 v c fmt hdigit ih => omega
  | case3 v c fmt hdigit => exact Nat.le_refl v

private theorem digit_bounds {c : Byte} (h : isDigit c = true) :
    0x30 ≤ c.toNat ∧ c.toNat ≤ 0x39 := by
  unfold isDigit at h
  rw [Bool.and_eq_true, decide_eq_true_iff, decide_eq_true_iff] at h
  exact ⟨h.1, h.2⟩

/-- The number that is read, as long as it fits. -/
theorem skipAtoi_spec {v : Nat} (hv : (v : Int) + 0x30 ≤ intMax) :
    if intMax < decimal v fmt + 0x30 then skipAtoi v fmt = none
    else ∃ rest, skipAtoi v fmt = some ((decimal v fmt : Int), rest) := by
  induction fmt generalizing v with
  | nil =>
      unfold decimal skipAtoi
      rw [if_neg (not_lt.mpr hv)]
      exact ⟨_, rfl⟩
  | cons c fmt ih =>
      unfold decimal skipAtoi
      by_cases hdigit : isDigit c = true
      · obtain ⟨hlow, hhigh⟩ := digit_bounds hdigit
        have hgrows := le_decimal (10 * v + (c.toNat - 0x30)) fmt
        rw [if_pos hdigit, if_pos hdigit]
        by_cases hfits : ((10 * v + (c.toNat - 0x30) : Nat) : Int) + 0x30 ≤ intMax
        · have hten : int ((v : Int) * 10) = some ((v : Int) * 10) :=
            int_of_bounds (by unfold intMin; omega) (by omega)
          have hadd : int ((v : Int) * 10 + c.toNat) = some ((v : Int) * 10 + c.toNat) :=
            int_of_bounds (by unfold intMin; omega) (by omega)
          have hsub : int ((v : Int) * 10 + c.toNat - 0x30) =
              some ((10 * v + (c.toNat - 0x30) : Nat) : Int) := by
            have hsame : (v : Int) * 10 + c.toNat - 0x30 =
                ((10 * v + (c.toNat - 0x30) : Nat) : Int) := by omega
            rw [hsame]
            exact int_of_bounds (by unfold intMin; omega) (by omega)
          simp only [hten, hadd, hsub, Option.bind_eq_bind, Option.bind_some]
          exact ih hfits
        · have hover : int ((v : Int) * 10 + c.toNat) = none := if_neg (by omega)
          rw [if_pos (by omega)]
          cases hten : int ((v : Int) * 10) with
          | none => rfl
          | some x =>
              obtain ⟨rfl, -, -⟩ := int_eq_some.mp hten
              simp only [hover, Option.bind_eq_bind, Option.bind_some, Option.bind_none]
      · rw [if_neg hdigit, if_neg hdigit, if_neg (not_lt.mpr hv)]
        exact ⟨_, rfl⟩

private theorem skipAtoi_eq_none_iff : skipAtoi 0 fmt = none ↔ TooLarge fmt := by
  have h := @skipAtoi_spec fmt 0 (by decide)
  unfold TooLarge
  split at h
  · rename_i hlarge
    exact iff_of_true h hlarge
  · rename_i hfits
    obtain ⟨rest, h⟩ := h
    refine iff_of_false ?_ hfits
    rw [Nat.cast_zero] at h
    rw [h]
    exact Option.some_ne_none _

/-- A number that is read is one of an `int`. -/
theorem skipAtoi_bounds {r : Int × List Byte} (h : skipAtoi 0 fmt = some r) :
    0 ≤ r.1 ∧ r.1 ≤ intMax := by
  have hspec := @skipAtoi_spec fmt 0 (by decide)
  rw [Nat.cast_zero, h] at hspec
  split at hspec
  · cases hspec
  · obtain ⟨rest, hspec⟩ := hspec
    cases hspec
    omega

private theorem readWidth_eq_none_iff : readWidth d = none ↔ WidthFails d := by
  unfold readWidth WidthFails
  by_cases hdigit : isDigit (current d.fmt) = true
  · rw [if_pos hdigit, if_pos hdigit, ← skipAtoi_eq_none_iff]
    cases skipAtoi 0 d.fmt with
    | none => exact iff_of_true rfl rfl
    | some r => exact iff_of_false (Option.some_ne_none _) (Option.some_ne_none _)
  rw [if_neg hdigit, if_neg hdigit]
  by_cases hstar : current d.fmt = 0x2A
  · rw [if_pos hstar]
    unfold NoWidth
    cases hargs : d.args with
    | nil => exact iff_of_true rfl ⟨hstar, fun _ hslot => by cases hslot⟩
    | cons slot rest =>
        simp only [vaInt, Option.bind_eq_bind, Option.bind_some, hstar, true_and,
          List.head?_cons, Option.mem_some_iff, forall_eq']
        by_cases hneg : (slot.setWidth 32).toInt < 0
        · rw [if_pos hneg, Option.bind_eq_none_iff]
          constructor
          · intro hnone
            by_contra hne
            have hlow := BitVec.le_toInt (slot.setWidth 32)
            have hsome : int (-(slot.setWidth 32).toInt) = some (-(slot.setWidth 32).toInt) :=
              int_of_bounds (by unfold intMin; omega) (by unfold intMin intMax at *; omega)
            exact absurd (hnone _ hsome) (Option.some_ne_none _)
          · rintro heq x hx
            rw [heq] at hx
            cases hx
        · rw [if_neg hneg]
          refine iff_of_false (Option.some_ne_none _) ?_
          unfold intMin
          omega
  · rw [if_neg hstar]
    exact iff_of_false (Option.some_ne_none _) fun h => hstar h.1

private theorem readPrecision_eq_none_iff : readPrecision d = none ↔ PrecisionFails d := by
  unfold readPrecision PrecisionFails
  by_cases hpoint : current d.fmt = 0x2E
  · rw [if_pos hpoint]
    simp only [hpoint, true_and]
    by_cases hdigit : isDigit (current d.fmt.tail) = true
    · rw [if_pos hdigit, if_pos hdigit, ← skipAtoi_eq_none_iff]
      cases skipAtoi 0 d.fmt.tail with
      | none => exact iff_of_true rfl rfl
      | some r => exact iff_of_false (Option.some_ne_none _) (Option.some_ne_none _)
    rw [if_neg hdigit, if_neg hdigit]
    by_cases hstar : current d.fmt.tail = 0x2A
    · rw [if_pos hstar]
      cases hargs : d.args with
      | nil => exact iff_of_true rfl ⟨hstar, rfl⟩
      | cons slot rest =>
          exact iff_of_false (Option.some_ne_none _) fun h => by cases h.2
    · rw [if_neg hstar]
      exact iff_of_false (Option.some_ne_none _) fun h => hstar h.1
  · rw [if_neg hpoint]
    exact iff_of_false (Option.some_ne_none _) fun h => hpoint h.1

/-- **A specification cannot be read** only for its width or its precision. -/
theorem readDirective_eq_none_iff : readDirective fmt args = none ↔
    let r := readFlags ⟨false, false, false, false, false, false, false⟩ fmt
    let d := ⟨r.1, -1, -1, 0, r.2, args⟩
    WidthFails d ∨ ∃ d', readWidth d = some d' ∧ PrecisionFails d' := by
  dsimp only
  rw [← readWidth_eq_none_iff]
  unfold readDirective
  dsimp only
  cases hwidth : readWidth ⟨(readFlags ⟨false, false, false, false, false, false, false⟩ fmt).1,
      -1, -1, 0, (readFlags ⟨false, false, false, false, false, false, false⟩ fmt).2, args⟩ with
  | none => exact iff_of_true rfl (Or.inl rfl)
  | some d =>
      simp only [Option.bind_eq_bind, Option.bind_some, reduceCtorEq, false_or,
        Option.some.injEq, exists_eq_left', ← readPrecision_eq_none_iff]
      cases readPrecision d with
      | none => exact iff_of_true rfl rfl
      | some d' => exact iff_of_false (Option.some_ne_none _) (Option.some_ne_none _)

/-- The sizes of a specification are those of an `int`. -/
structure Sized (d : Directive) : Prop where
  width : -1 ≤ d.fieldWidth ∧ d.fieldWidth ≤ intMax
  precision : -1 ≤ d.precision ∧ d.precision ≤ intMax

private theorem toInt_bounds (slot : Slot) :
    intMin ≤ (slot.setWidth 32).toInt ∧ (slot.setWidth 32).toInt ≤ intMax := by
  have hlow := BitVec.le_toInt (slot.setWidth 32)
  have hhigh := BitVec.toInt_lt (x := slot.setWidth 32)
  unfold intMin intMax
  omega

theorem Sized.readWidth (h : Sized d) (hd : readWidth d = some d') : Sized d' := by
  unfold Vsnprintf.readWidth at hd
  split at hd
  · obtain ⟨r, hr, hd⟩ := Option.bind_eq_some_iff.mp hd
    cases hd
    have hbounds := skipAtoi_bounds hr
    exact ⟨⟨by dsimp only; omega, hbounds.2⟩, h.precision⟩
  · split at hd
    · cases hargs : d.args with
      | nil =>
          rw [hargs] at hd
          cases hd
      | cons slot rest =>
          rw [hargs] at hd
          have hbounds := toInt_bounds slot
          simp only [vaInt, Option.bind_eq_bind, Option.bind_some] at hd
          split at hd
          · rename_i hneg
            obtain ⟨w, hw, hd⟩ := Option.bind_eq_some_iff.mp hd
            obtain ⟨rfl, -, hmax⟩ := int_eq_some.mp hw
            cases hd
            exact ⟨⟨by dsimp only; omega, hmax⟩, h.precision⟩
          · rename_i hpos
            cases hd
            exact ⟨⟨by dsimp only; omega, hbounds.2⟩, h.precision⟩
    · cases hd
      exact h

private theorem sized_clampPrecision (hwidth : -1 ≤ d.fieldWidth ∧ d.fieldWidth ≤ intMax)
    (hprecision : d.precision ≤ intMax) : Sized (clampPrecision d) := by
  refine ⟨hwidth, ?_⟩
  unfold clampPrecision intMax at *
  dsimp only
  split <;> omega

theorem Sized.readPrecision (h : Sized d) (hd : readPrecision d = some d') : Sized d' := by
  unfold Vsnprintf.readPrecision at hd
  split at hd
  · split at hd
    · obtain ⟨r, hr, hd⟩ := Option.bind_eq_some_iff.mp hd
      cases hd
      exact sized_clampPrecision h.width (skipAtoi_bounds hr).2
    · split at hd
      · cases hargs : d.args with
        | nil =>
            rw [hargs] at hd
            cases hd
        | cons slot rest =>
            rw [hargs] at hd
            cases hd
            exact sized_clampPrecision h.width (toInt_bounds slot).2
      · cases hd
        exact sized_clampPrecision h.width h.precision.2
  · cases hd
    exact h

theorem Sized.readQualifier (h : Sized d) : Sized (readQualifier d) := by
  unfold Vsnprintf.readQualifier
  dsimp only
  split
  · split
    · exact ⟨h.width, h.precision⟩
    · exact ⟨h.width, h.precision⟩
  · exact h

private theorem sized_readDirective (hd : readDirective fmt args = some d) : Sized d := by
  obtain ⟨d₁, hwidth, hd⟩ := Option.bind_eq_some_iff.mp hd
  obtain ⟨d₂, hprecision, hd⟩ := Option.bind_eq_some_iff.mp hd
  cases hd
  have hmax : (-1 : Int) ≤ intMax := by decide
  have hstart : Sized ⟨(readFlags ⟨false, false, false, false, false, false, false⟩ fmt).1,
      -1, -1, 0, (readFlags ⟨false, false, false, false, false, false, false⟩ fmt).2, args⟩ :=
    ⟨⟨le_refl _, hmax⟩, le_refl _, hmax⟩
  exact ((hstart.readWidth hwidth).readPrecision hprecision).readQualifier

end Read

/-! ## The output of a conversion -/

section Output

variable {strAt : Slot → List Byte} {d : Directive} {slot : Slot} {rest : List Slot}

/-- `print_number` is undefined only where `NumberFails` says so. -/
theorem undefined_printNumber_iff {num : BitVec 64} {base : Nat} {s precision : Int} {type : Flags}
    (hs : -1 ≤ s ∧ s ≤ intMax) (hp : -1 ≤ precision ∧ precision ≤ intMax) :
    Print.Undefined (printNumber num base s precision type) ↔
      NumberFails num s precision type := by
  unfold NumberFails
  by_cases hmin : type.sign = true ∧ num = BitVec.intMin 64
  · obtain ⟨hsign, rfl⟩ := hmin
    exact iff_of_true (printNumber_intMin hsign) (Or.inl ⟨hsign, rfl⟩)
  rw [or_iff_right hmin]
  obtain ⟨sign, n, hget, htext, -⟩ :=
    @getSign_eq_some num type fun hsign hnum => hmin ⟨hsign, hnum⟩
  have hdigits := @length_digitText_le n type base
  have hsigns := length_signOf_le sign
  rw [htext]
  have hcount : (decrements (signOf sign).length type : Int) ≤ 4 := by
    unfold decrements
    split
    · omega
    · split <;> omega
  -- the digits are too few to matter
  by_cases hroom : s - precision < intMin + decrements (signOf sign).length type
  · refine iff_of_true (printNumber_undefined hget hs hp ?_) hroom
    omega
  · refine iff_of_false (printNumber_emits hget hs.2 hp.1 ?_).not_undefined hroom
    unfold intMin at *
    omega

/-- A padding of a string. -/
theorem stringPadding_emits {len width : Int} (hmin : intMin < width) (hmax : width ≤ intMax)
    (hlen : intMin < len) :
    Print.Emits (stringPadding len width) (min width len - 1)
      (List.replicate (width - len).toNat space) := by
  obtain ⟨k, hk⟩ : ∃ k, (width - len).toNat = k := ⟨_, rfl⟩
  induction k generalizing width with
  | zero =>
      unfold stringPadding
      rw [if_neg (by omega), hk, min_eq_left (by omega), int_of_bounds (by omega) (by omega)]
      exact Print.emits_ofOption _
  | succ k ih =>
      unfold stringPadding
      have hrest := @ih (width - 1) (by omega) (by omega) (by omega)
      have hcount : (width - 1 - len).toNat = k := by omega
      rw [hcount, min_eq_right (by omega)] at hrest
      rw [if_pos (by omega), hk, List.replicate_succ, min_eq_right (by omega)]
      exact (Print.emits_emit space).bind hrest

/-- The length of a string, as long as it is an `int` or a width ends it. -/
theorem stringLength_spec {width len : Int} {text : List Byte} (hlen : 0 ≤ len ∧ len ≤ intMax)
    (hwidth : width = -1 ∨ len ≤ width ∧ width ≤ intMax) :
    if width = -1 ∧ intMax < len + (text.takeWhile (· ≠ 0)).length then
      stringLength width len text = none
    else ∃ l, stringLength width len text = some l ∧ 0 ≤ l ∧ l ≤ intMax := by
  induction text generalizing len with
  | nil =>
      unfold stringLength
      rw [if_neg fun h => absurd h.2 (by rw [List.takeWhile_nil, List.length_nil]; omega)]
      exact ⟨len, rfl, hlen⟩
  | cons c text ih =>
      unfold stringLength
      by_cases hgo : len ≠ width ∧ c ≠ 0
      · rw [if_pos hgo, List.takeWhile_cons_of_pos (by simpa using hgo.2), List.length_cons]
        by_cases hnext : len + 1 ≤ intMax
        · rw [int_of_bounds (by unfold intMin; omega) hnext]
          have hrest := @ih (len + 1) (by omega) (by omega)
          have hcount : len + ((text.takeWhile (· ≠ 0)).length + 1 : Nat) =
              len + 1 + (text.takeWhile (· ≠ 0)).length := by omega
          rw [hcount]
          exact hrest
        · have hover : int (len + 1) = none := if_neg (by omega)
          rw [if_pos ⟨by omega, by omega⟩, hover]
          rfl
      · rw [if_neg hgo, if_neg]
        · exact ⟨len, rfl, hlen⟩
        · rintro ⟨hnone, hlong⟩
          have hzero : c = 0 := by
            by_contra hne
            exact hgo ⟨by omega, hne⟩
          rw [List.takeWhile_cons_of_neg (by simpa using hzero), List.length_nil] at hlong
          omega

/-- A character always has its field. -/
theorem printChar_defined (h : Sized d) (c : Int) :
    ∃ text, Print.Emits (printChar d c) () text := by
  obtain ⟨hlow, hhigh⟩ := h.width
  have hpad := @charPadding_emits d.fieldWidth (by unfold intMin; omega)
  unfold printChar
  by_cases hleft : d.type.left = true
  · rw [hleft]
    exact ⟨_, (Print.emits_pure _).bind ((Print.emits_emit _).bind
      (hpad.bind (Print.emits_pure ())))⟩
  · rw [Bool.not_eq_true] at hleft
    have hrest := @charPadding_emits (min (d.fieldWidth - 1) 0) (by unfold intMin; omega)
    rw [hleft]
    exact ⟨_, hpad.bind ((Print.emits_emit _).bind (hrest.bind (Print.emits_pure ())))⟩

/-- The characters of a string always have their field. -/
theorem stringField_defined {text : List Byte} {len : Int} (h : Sized d)
    (hlen : 0 ≤ len ∧ len ≤ intMax) :
    ∃ out, Print.Emits (do
      let width ← (if !d.type.left then stringPadding len d.fieldWidth else pure d.fieldWidth)
      emitAll text
      let _ ← stringPadding len width
      pure ()) () out := by
  obtain ⟨hlow, hhigh⟩ := h.width
  have hpad := @stringPadding_emits len d.fieldWidth (by unfold intMin; omega) hhigh
    (by unfold intMin; omega)
  by_cases hleft : d.type.left = true
  · rw [hleft]
    exact ⟨_, (Print.emits_pure _).bind ((emitAll_emits _).bind
      (hpad.bind (Print.emits_pure ())))⟩
  · rw [Bool.not_eq_true] at hleft
    have hrest := @stringPadding_emits len (min d.fieldWidth len - 1)
      (by unfold intMin; omega) (by omega) (by unfold intMin; omega)
    rw [hleft]
    exact ⟨_, hpad.bind ((emitAll_emits _).bind (hrest.bind (Print.emits_pure ())))⟩

/-- A string is undefined only where its length is. -/
theorem undefined_printString_iff (h : Sized d) :
    Print.Undefined (printString strAt d slot) ↔ d.fieldWidth = -1 ∧
      intMax < ((if slot = 0 then nullText else strAt slot).takeWhile (· ≠ 0)).length := by
  obtain ⟨hlow, hhigh⟩ := h.width
  unfold printString
  dsimp only
  generalize (if slot = 0 then nullText else strAt slot) = text
  have hlen := @stringLength_spec d.fieldWidth 0 text ⟨le_refl 0, by decide⟩ (by omega)
  rw [zero_add] at hlen
  split at hlen
  · rename_i hlong
    rw [hlen]
    exact iff_of_true (Print.Undefined.bind fun _ _ => rfl) hlong
  · rename_i hfits
    obtain ⟨l, hl, hpos, hmax⟩ := hlen
    rw [hl]
    refine iff_of_false ?_ hfits
    have hshown : ∀ shown, shown = (if d.precision > 0 ∧ l > d.precision then d.precision else l) →
        0 ≤ shown ∧ shown ≤ intMax := by
      rintro shown rfl
      split <;> omega
    obtain ⟨out, hout⟩ := @stringField_defined d (text.take _) _ h (hshown _ rfl)
    exact ((Print.emits_ofOption l).bind hout).not_undefined

theorem takes_ne_zero (h : Takes d) : current d.fmt ≠ 0 := by
  intro hzero
  unfold Takes at h
  rw [hzero] at h
  exact absurd h (by decide)

/-- A conversion without an argument prints its text. -/
theorem conversion_plain (h : ¬ Takes d) :
    ∃ out text, conversion strAt d = some (out, d.args) ∧ Print.Emits out () text := by
  unfold Takes at h
  simp only [List.mem_cons, List.not_mem_nil, or_false, not_or] at h
  obtain ⟨hc, hs, hp, ho, hX, hx, hd, hi, hu⟩ := h
  have hsigned : ¬ (current d.fmt = 0x64 ∨ current d.fmt = 0x69) := by tauto
  unfold conversion
  dsimp only
  rw [if_neg hc, if_neg hs, if_neg hp, if_neg ho, if_neg hX, if_neg hx, if_neg hsigned, if_neg hu]
  split
  · exact ⟨_, _, rfl, Print.emits_emit _⟩
  · split
    · exact ⟨_, _, rfl, emitAll_emits _⟩
    · exact ⟨_, _, rfl, Print.emits_emit _⟩

private theorem printInteger_missing {base : Nat} {type : Flags} (hargs : d.args = []) :
    printInteger d base type = none := by
  unfold printInteger
  rw [hargs]
  rfl

/-- An integer format is undefined only where its number is. -/
theorem printInteger_argument {base : Nat} {type : Flags} (hsized : Sized d)
    (hargs : d.args = slot :: rest) :
    ∃ out, printInteger d base type = some (out, rest) ∧
      (Print.Undefined out ↔
        NumberFails (narrow d.qualifier type.sign slot) d.fieldWidth d.precision type) := by
  unfold printInteger
  rw [hargs]
  exact ⟨_, rfl, undefined_printNumber_iff hsized.width hsized.precision⟩

/-- Without its argument nothing is printed. -/
theorem conversion_missing (h : Takes d) (hargs : d.args = []) : conversion strAt d = none := by
  unfold Takes at h
  simp only [List.mem_cons, List.not_mem_nil, or_false] at h
  have hnone := fun base type => @printInteger_missing d base type hargs
  unfold conversion
  rcases h with h | h | h | h | h | h | h | h | h <;> simp [h, hnone, hargs, vaInt, vaLong, percent]

/-- What is printed for the argument is undefined only where it overflows. -/
theorem conversion_argument (h : Takes d) (hsized : Sized d) (hargs : d.args = slot :: rest) :
    ∃ out, conversion strAt d = some (out, rest) ∧
      (Print.Undefined out ↔ OutputFails strAt d slot) := by
  have hint := fun base type => @printInteger_argument d slot rest base type hsized hargs
  unfold Takes at h
  simp only [List.mem_cons, List.not_mem_nil, or_false] at h
  unfold conversion OutputFails integerFlags
  rcases h with h | h | h | h | h | h | h | h | h
  · -- a character
    obtain ⟨text, hemits⟩ := printChar_defined hsized (slot.setWidth 32).toInt
    rw [if_pos h, if_pos h, hargs]
    exact ⟨_, rfl, iff_of_false hemits.not_undefined id⟩
  · -- a string
    simp only [h, hargs, BitVec.reduceEq, if_false, if_true]
    exact ⟨_, rfl, undefined_printString_iff hsized⟩
  · -- a pointer
    simp only [h, hargs, BitVec.reduceEq, if_false, if_true]
    refine ⟨_, rfl, ?_⟩
    unfold printPointer
    split
    · exact undefined_printNumber_iff ⟨by decide, by decide⟩ hsized.precision
    · exact undefined_printNumber_iff hsized.width hsized.precision
  all_goals
    simp only [h, percent, BitVec.reduceEq, if_false, if_true, or_true, or_false]
    exact hint _ _

end Output

/-! ## The whole format -/

section Whole

variable {strAt : Slot → List Byte} {fmt : List Byte} {args : List Slot} {d : Directive}

/-- A specification that is read decides how the format goes on. -/
theorem defined_directive_iff (hd : readDirective fmt args = some d) :
    Defined strAt (percent :: fmt) args ↔ ¬ Takes d ∧ Defined strAt (behind d) d.args ∨
      ∃ slot rest, Takes d ∧ d.args = slot :: rest ∧ ¬ OutputFails strAt d slot ∧
        Defined strAt (behind d) rest := by
  constructor
  · intro h
    cases h with
    | char hzero hchar hrest => exact absurd rfl hchar
    | plain hd' htakes hrest =>
        cases hd.symm.trans hd'
        exact Or.inl ⟨htakes, hrest⟩
    | argument hd' htakes hargs hfits hrest =>
        cases hd.symm.trans hd'
        exact Or.inr ⟨_, _, htakes, hargs, hfits, hrest⟩
  · rintro (⟨htakes, hrest⟩ | ⟨slot, rest, htakes, hargs, hfits, hrest⟩)
    · exact .plain hd htakes hrest
    · exact .argument hd htakes hargs hfits hrest

/-- One case for each branch of the loop. -/
theorem format_undefined_iff (strAt : Slot → List Byte) (fmt : List Byte) (args : List Slot) :
    Print.Undefined (format strAt fmt args) ↔ ¬ Defined strAt fmt args := by
  fun_induction format strAt fmt args with
  | case1 args => exact iff_of_false (Print.emits_pure ()).not_undefined (not_not.mpr .nil)
  | case2 args fmt => exact iff_of_false (Print.emits_pure ()).not_undefined (not_not.mpr .zero)
  | case3 args c fmt hzero hchar ih =>
      rw [(Print.emits_emit c).undefined_bind_iff (uniform_format fmt args), ih, not_iff_not]
      refine ⟨.char hzero hchar, fun h => ?_⟩
      cases h with
      | zero => exact absurd rfl hzero
      | char _ _ hrest => exact hrest
      | plain => exact absurd rfl hchar
      | argument => exact absurd rfl hchar
  | case4 args c fmt hzero hchar hd =>
      obtain rfl : c = percent := not_not.mp hchar
      refine iff_of_true (fun _ _ => rfl) fun h => ?_
      cases h with
      | char _ hchar' _ => exact hchar' rfl
      | plain hd' => cases hd.symm.trans hd'
      | argument hd' => cases hd.symm.trans hd'
  | case5 args c fmt hzero hchar d hd hconv =>
      obtain rfl : c = percent := not_not.mp hchar
      refine iff_of_true (fun _ _ => rfl) fun h => ?_
      rcases (defined_directive_iff hd).mp h with ⟨htakes, -⟩ | ⟨slot, rest, htakes, hargs, -⟩
      · obtain ⟨out, text, hsome, -⟩ := @conversion_plain strAt d htakes
        cases hconv.symm.trans hsome
      · obtain ⟨out, hsome, -⟩ :=
          @conversion_argument strAt d slot rest htakes (sized_readDirective hd) hargs
        cases hconv.symm.trans hsome
  | case6 args c fmt hzero hchar d hd out rest hconv ih =>
      obtain rfl : c = percent := not_not.mp hchar
      rw [defined_directive_iff hd]
      rw [dite_eq_ite] at ih
      have hrest := @uniform_format strAt (behind d) rest
      by_cases htakes : Takes d
      · cases hargs : d.args with
        | nil => cases hconv.symm.trans (conversion_missing htakes hargs)
        | cons slot rest' =>
            obtain ⟨out', hsome, hout⟩ :=
              @conversion_argument strAt d slot rest' htakes (sized_readDirective hd) hargs
            cases hconv.symm.trans hsome
            rcases uniform_conversion hconv with hnone | ⟨b, text, hemits⟩
            · refine iff_of_true hnone.bind ?_
              rintro (⟨hnot, -⟩ | ⟨_, _, -, heq, hfits, -⟩)
              · exact hnot htakes
              · cases heq
                exact hfits (hout.mp hnone)
            · rw [hemits.undefined_bind_iff hrest, ih, not_iff_not]
              constructor
              · intro h
                exact Or.inr ⟨_, _, htakes, rfl, fun hfail =>
                  hemits.not_undefined (hout.mpr hfail), h⟩
              · rintro (⟨hnot, -⟩ | ⟨_, _, -, heq, -, h⟩)
                · exact absurd htakes hnot
                · cases heq
                  exact h
      · obtain ⟨out', text, hsome, hemits⟩ := @conversion_plain strAt d htakes
        cases hconv.symm.trans hsome
        rw [hemits.undefined_bind_iff hrest, ih, not_iff_not]
        constructor
        · exact fun h => Or.inl ⟨htakes, h⟩
        · rintro (⟨-, h⟩ | ⟨_, _, hyes, -⟩)
          · exact h
          · exact absurd hyes htakes

/-- **When a call is undefined**, whatever the buffer: an argument is missing, or an `int`
overflows. -/
theorem rtVsnprintf_eq_none_iff (mem : Nat → Byte) (buf size : BitVec 64) :
    rtVsnprintf strAt mem buf size fmt args = none ↔ ¬ Defined strAt fmt args := by
  rw [← format_undefined_iff]
  unfold rtVsnprintf
  dsimp only
  rcases @uniform_format strAt fmt args with hnone | ⟨b, text, hemits⟩
  · rw [hnone]
    exact iff_of_true rfl hnone
  · rw [hemits]
    exact iff_of_false (Option.some_ne_none _) hemits.not_undefined

/-- The other calls print. -/
theorem rtVsnprintf_of_defined (h : Defined strAt fmt args) :
    ∃ text, ∀ (mem : Nat → Byte) (buf size : BitVec 64), buf.toNat + text.length < addressEnd →
      ∃ r, rtVsnprintf strAt mem buf size fmt args = some r ∧ Printed text mem buf size r := by
  rcases @uniform_format strAt fmt args with hnone | ⟨b, text, hemits⟩
  · exact absurd h ((format_undefined_iff strAt fmt args).mp hnone)
  · exact ⟨text, fun mem buf size => rtVsnprintf_printed hemits⟩

end Whole

end RtHypervisor.Ports.Vsnprintf
