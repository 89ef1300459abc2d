import Mathlib.Data.Nat.Digits.Lemmas
import RtHypervisor.Verified.Sink

/-!
# `print_number`

`print_number` of `kservice.c`, as it is built with `RT_KPRINTF_USING_LONGLONG` and
`RT_PRINTF_PRECISION` and without `RT_PRINTF_SPECIAL`.  An `int` that overflows and a character
outside `tmp` are undefined.  The digits come from `divide`, which knows two bases.
-/

namespace RtHypervisor.Ports.PrintNumber

open RtHypervisor.Verified.Sink

def space : Byte := 0x20
def zero : Byte := 0x30
def minus : Byte := 0x2D
def plus : Byte := 0x2B

def intMax : Int := 2 ^ 31 - 1
def intMin : Int := -2 ^ 31

/-- The result of an operation on `int`. -/
def int (x : Int) : Option Int := if intMin ≤ x ∧ x ≤ intMax then some x else none

/-- The bits of `type`. -/
structure Flags where
  zeropad : Bool
  sign : Bool
  plus : Bool
  space : Bool
  left : Bool
  special : Bool
  large : Bool
deriving DecidableEq, Repr

/-- `"0123456789abcdef"` -/
def smallDigits : List Byte :=
  [0x30, 0x31, 0x32, 0x33, 0x34, 0x35, 0x36, 0x37, 0x38, 0x39, 0x61, 0x62, 0x63, 0x64, 0x65, 0x66]

/-- `"0123456789ABCDEF"` -/
def largeDigits : List Byte :=
  [0x30, 0x31, 0x32, 0x33, 0x34, 0x35, 0x36, 0x37, 0x38, 0x39, 0x41, 0x42, 0x43, 0x44, 0x45, 0x46]

/-- `divide`: the remainder that is returned, and the quotient that is left in `*n`. -/
def divide (n base : Nat) : Nat × Nat := if base = 10 then (n % 10, n / 10) else (n % 16, n / 16)

private theorem divide_lt {n : Nat} (hn : n ≠ 0) (base : Nat) : (divide n base).2 < n := by
  unfold divide
  split
  · exact Nat.div_lt_self (Nat.pos_of_ne_zero hn) (by decide)
  · exact Nat.div_lt_self (Nat.pos_of_ne_zero hn) (by decide)

/-- `while (num != 0) tmp[i++] = digits[divide(&num, base)]`, where `i` is the length of `tmp`. -/
def digitLoop (digits : List Byte) (base n : Nat) (tmp : List Byte) : Option (List Byte) :=
  if n = 0 then some tmp
  else if tmp.length < 32 then
    digitLoop digits base (divide n base).2 (tmp ++ [digits.getD (divide n base).1 0])
  else none
termination_by n
decreasing_by exact divide_lt ‹_› base

/-- `get sign`: the sign, 0 for none, and the number without it. -/
def getSign (num : BitVec 64) (type : Flags) : Option (Byte × BitVec 64) :=
  if type.sign then
    if num.toInt < 0 then
      if num = BitVec.intMin 64 then none else some (minus, -num)
    else if type.plus then some (plus, num)
    else if type.space then some (space, num)
    else some (0, num)
  else some (0, num)

/-- The digits of `tmp`, from the last one on. -/
def getDigits (num : BitVec 64) (base : Nat) (type : Flags) : Option (List Byte) :=
  let digits := if type.large then largeDigits else smallDigits
  if num = 0 then some [zero] else digitLoop digits base num.toNat []

/-- `while (size-- > 0)`, which leaves `size` decremented. -/
def padding (c : Byte) (size : Int) : Print Int :=
  if 0 < size then do
    Print.emit c
    padding c (size - 1)
  else Print.ofOption (int (size - 1))
termination_by size.toNat

/-- `while (i < precision--)` -/
def precisionZeros (i : Nat) (precision : Int) : Print Unit :=
  if i < precision then do
    Print.emit zero
    precisionZeros i (precision - 1)
  else pure ()
termination_by precision.toNat

/-- `while (i-- > 0 && (precision_bak != 0))` -/
def putDigits (tmp : List Byte) (precisionBak : Int) : Nat → Print Unit
  | 0 => pure ()
  | i + 1 =>
      if precisionBak ≠ 0 then do
        Print.emit (tmp.getD i 0)
        putDigits tmp precisionBak i
      else pure ()

/-- `if (sign)` -/
def putSign (sign : Byte) (size : Int) : Print Int :=
  if sign ≠ 0 then do
    Print.emit sign
    Print.ofOption (int (size - 1))
  else pure size

/-- `print_number` from the sign on: `precision` is the old one, and `least` the new one. -/
def printField (sign c : Byte) (tmp : List Byte) (precision least size : Int) (left : Bool) :
    Print Unit := do
  let size ← putSign sign size
  let size ← (if !left then padding c size else pure size)
  precisionZeros tmp.length least
  putDigits tmp precision tmp.length
  let _ ← padding space size
  pure ()

/-- `print_number`. -/
def printNumber (num : BitVec 64) (base : Nat) (s precision : Int) (type : Flags) :
    Print Unit := do
  let zeropad := type.zeropad && !type.left
  let c := if zeropad then zero else space
  let (sign, num) ← Print.ofOption (getSign num type)
  let tmp ← Print.ofOption (getDigits num base type)
  let least : Int := if tmp.length > precision then tmp.length else precision
  let size ← Print.ofOption (int (s - least))
  let size ← (if !(zeropad || type.left) then
      padding space (if sign ≠ 0 ∧ size > 0 then size - 1 else size)
    else pure size)
  printField sign c tmp precision least size type.left

/-! ## Numerals -/

/-- The value of a digit. -/
def digitValue (c : Byte) : Option Nat :=
  if 0x30 ≤ c ∧ c ≤ 0x39 then some (c.toNat - 0x30)
  else if 0x41 ≤ c ∧ c ≤ 0x46 then some (c.toNat - 0x37)
  else if 0x61 ≤ c ∧ c ≤ 0x66 then some (c.toNat - 0x57)
  else none

/-- One more digit behind a numeral. -/
def appendDigit (base n : Nat) (c : Byte) : Option Nat :=
  match digitValue c with
  | some d => if d < base then some (n * base + d) else none
  | none => none

/-- The value of a numeral. -/
def numeralValue (base : Nat) (digits : List Byte) : Option Nat :=
  digits.foldlM (appendDigit base) 0

/-- The number of digits of a numeral without leading zeros. -/
def digitCount (base n : Nat) : Nat := if n = 0 then 1 else (Nat.digits base n).length

/-- What is printed in front of the digits. -/
def signText (num : BitVec 64) (type : Flags) : List Byte :=
  if type.sign then
    if num.toInt < 0 then [minus]
    else if type.plus then [plus]
    else if type.space then [space]
    else []
  else []

/-- The number without its sign. -/
def magnitude (num : BitVec 64) (type : Flags) : Nat :=
  if type.sign then num.toInt.natAbs else num.toNat

/-- The characters that are needed: no digit of a zero with the precision 0. -/
def needed (signs magnitude base : Nat) (precision : Int) : Nat :=
  signs +
    if precision = 0 ∧ magnitude = 0 then 0
    else max precision.toNat (digitCount base magnitude)

/-- `out` is the number, padded to the width. -/
structure Numeral (out : List Byte) (num : BitVec 64) (base : Nat) (s precision : Int)
    (type : Flags) : Prop where
  parts : ∃ left digits right, out = left ++ signText num type ++ digits ++ right ∧
    (∀ c ∈ left, c = space) ∧ (∀ c ∈ right, c = space) ∧
    numeralValue base digits = some (magnitude num type)
  field : out.length =
    max s.toNat (needed (signText num type).length (magnitude num type) base precision)

/-- `print_number` prints the number. -/
def Prints (num : BitVec 64) (base : Nat) (s precision : Int) (type : Flags) : Prop :=
  ∃ out, Print.Emits (printNumber num base s precision type) () out ∧
    Numeral out num base s precision type

/-- How often `size` is decremented below the width less the digits. -/
def decrements (signs : Nat) (type : Flags) : Nat :=
  signs + if type.left then 1 else if type.zeropad then 2 else 3

structure Printable (num : BitVec 64) (base : Nat) (s precision : Int) (type : Flags) : Prop where
  sign : type.sign = true → num ≠ BitVec.intMin 64
  octal : base = 8 → magnitude num type < 8
  printed : precision ≠ 0 ∨ magnitude num type = 0 ∧ s ≤ (signText num type).length
  room : intMin + (decrements (signText num type).length type : Int) ≤ s - precision

/-! ## Digits -/

section Digits

variable {base n m : Nat} {digits tmp : List Byte} {c : Byte} {large : Bool}

/-- The digit characters of a table. -/
def table (large : Bool) : List Byte := if large then largeDigits else smallDigits

/-- The base that `divide` works in. -/
def divisor (base : Nat) : Nat := if base = 10 then 10 else 16

private theorem divide_eq (n base : Nat) :
    divide n base = (n % divisor base, n / divisor base) := by
  unfold divide divisor
  split <;> rfl

private theorem one_lt_divisor (base : Nat) : 1 < divisor base := by
  unfold divisor
  split <;> decide

private theorem digits_succ {b n : Nat} (hb : 1 < b) (hn : n ≠ 0) :
    Nat.digits b n = n % b :: Nat.digits b (n / b) :=
  Nat.digits_def' hb (Nat.pos_of_ne_zero hn)

/-- The digit loop writes the digits of `n`, the last one first. -/
theorem digitLoop_eq (hroom : tmp.length + (Nat.digits (divisor base) n).length ≤ 32) :
    digitLoop digits base n tmp =
      some (tmp ++ (Nat.digits (divisor base) n).map fun d => digits.getD d 0) := by
  induction n using Nat.strongRecOn generalizing tmp with
  | _ n ih =>
      unfold digitLoop
      by_cases hn : n = 0
      · rw [if_pos hn, hn, Nat.digits_zero, List.map_nil, List.append_nil]
      · rw [digits_succ (one_lt_divisor base) hn, List.length_cons] at hroom
        have hlt : n / divisor base < n :=
          Nat.div_lt_self (Nat.pos_of_ne_zero hn) (one_lt_divisor base)
        rw [if_neg hn, if_pos (by omega), divide_eq]
        dsimp only
        rw [ih _ hlt (by rw [List.length_append, List.length_singleton]; omega),
          digits_succ (one_lt_divisor base) hn, List.map_cons, List.append_assoc,
          List.singleton_append]

private theorem length_digits_le (base : Nat) (num : BitVec 64) :
    (Nat.digits (divisor base) num.toNat).length ≤ 20 := by
  have hlt := num.isLt
  rw [Nat.digits_length_le_iff (one_lt_divisor base)]
  unfold divisor
  split
  · exact hlt.trans (by decide)
  · exact hlt.trans (by decide)

/-- The digits that are written into `tmp`. -/
def digitText (large : Bool) (base n : Nat) : List Byte :=
  if n = 0 then [zero] else (Nat.digits (divisor base) n).map fun d => (table large).getD d 0

/-- There is always room for the digits in `tmp`. -/
theorem getDigits_eq (num : BitVec 64) (base : Nat) (type : Flags) :
    getDigits num base type = some (digitText type.large base num.toNat) := by
  have hlen := length_digits_le base num
  have hzero : num = 0 ↔ num.toNat = 0 := by
    rw [← BitVec.toNat_inj]
    rfl
  unfold getDigits digitText table
  by_cases hn : num = 0
  · rw [if_pos (hzero.mp hn)]
    exact if_pos hn
  · rw [if_neg (fun h => hn (hzero.mpr h))]
    dsimp only
    rw [if_neg hn, digitLoop_eq (by rw [List.length_nil]; omega), List.nil_append]

private theorem digitValue_table {d : Nat} (hd : d < 16) :
    digitValue ((table large).getD d 0) = some d := by
  cases large <;> interval_cases d <;> rfl

private theorem digitValue_space : digitValue space = none := rfl

private theorem digitValue_zero : digitValue zero = some 0 := rfl

private theorem numeralValue_append (xs ys : List Byte) : numeralValue base (xs ++ ys) =
    (numeralValue base xs).bind fun n => ys.foldlM (appendDigit base) n := by
  unfold numeralValue
  rw [List.foldlM_append]
  rfl

/-- Leading zeros do not count. -/
theorem numeralValue_zeros (hbase : 0 < base) (k : Nat) (ds : List Byte) :
    numeralValue base (List.replicate k zero ++ ds) = numeralValue base ds := by
  have hzero : appendDigit base 0 zero = some 0 := by
    unfold appendDigit
    rw [digitValue_zero]
    dsimp only
    rw [if_pos hbase, Nat.zero_mul]
  induction k with
  | zero => rfl
  | succ k ih =>
      rw [List.replicate_succ, List.cons_append]
      unfold numeralValue at ih ⊢
      rw [List.foldlM_cons, hzero]
      exact ih

/-- The digits of a number, turned round, are its numeral. -/
theorem numeralValue_digits (hbase : 1 < base) (hle : base ≤ 16) (n : Nat) :
    numeralValue base (((Nat.digits base n).map fun d => (table large).getD d 0).reverse) =
      some n := by
  induction n using Nat.strongRecOn with
  | _ n ih =>
      by_cases hn : n = 0
      · rw [hn, Nat.digits_zero]
        rfl
      · have hlt : n / base < n := Nat.div_lt_self (Nat.pos_of_ne_zero hn) hbase
        have hmod := Nat.mod_lt n (show 0 < base by omega)
        have hlast : appendDigit base (n / base) ((table large).getD (n % base) 0) = some n := by
          unfold appendDigit
          rw [digitValue_table (by omega)]
          dsimp only
          rw [if_pos hmod, Nat.div_add_mod']
        rw [digits_succ hbase hn, List.map_cons, List.reverse_cons, numeralValue_append, ih _ hlt,
          Option.bind_some, List.foldlM_cons, hlast]
        rfl

private theorem numeralValue_digitText (hbase : base = 8 ∨ base = 10 ∨ base = 16)
    (hoctal : base = 8 → n < 8) :
    numeralValue base (digitText large base n).reverse = some n := by
  unfold digitText
  by_cases hn : n = 0
  · rw [if_pos hn, hn]
    rcases hbase with rfl | rfl | rfl <;> rfl
  · rw [if_neg hn]
    rcases hbase with rfl | rfl | rfl
    · have hlt := hoctal rfl
      have hsame : Nat.digits (divisor 8) n = Nat.digits 8 n := by
        rw [Nat.digits_of_lt 8 n hn hlt]
        exact Nat.digits_of_lt 16 n hn (by omega)
      rw [hsame]
      exact numeralValue_digits (by decide) (by decide) n
    · exact numeralValue_digits (by decide) (by decide) n
    · exact numeralValue_digits (by decide) (by decide) n

private theorem length_digitText (hbase : base = 8 ∨ base = 10 ∨ base = 16)
    (hoctal : base = 8 → n < 8) : (digitText large base n).length = digitCount base n := by
  unfold digitText digitCount
  by_cases hn : n = 0
  · rw [if_pos hn, if_pos hn]
    rfl
  · rw [if_neg hn, if_neg hn, List.length_map]
    rcases hbase with rfl | rfl | rfl
    · have hlt := hoctal rfl
      rw [Nat.digits_of_lt 8 n hn hlt]
      exact congrArg List.length (Nat.digits_of_lt 16 n hn (by omega))
    · rfl
    · rfl

/-- The same digits say more in the base 16 than in the base 8. -/
theorem numeralValue_octal_lt {ds : List Byte} {v : Nat} (h : numeralValue 8 ds = some v)
    (h' : numeralValue 16 ds = some v) : v < 8 := by
  have hstep : ∀ (ds : List Byte) (a b x y : Nat), a ≤ b → (a = b → b < 8) →
      ds.foldlM (appendDigit 8) a = some x → ds.foldlM (appendDigit 16) b = some y →
      x ≤ y ∧ (x = y → y < 8) := by
    intro ds
    induction ds with
    | nil =>
        intro a b x y hle hsmall hx hy
        cases hx
        cases hy
        exact ⟨hle, hsmall⟩
    | cons c ds ih =>
        intro a b x y hle hsmall hx hy
        rw [List.foldlM_cons] at hx hy
        cases hd : digitValue c with
        | none =>
            unfold appendDigit at hx
            rw [hd] at hx
            cases hx
        | some d =>
            have hx' : appendDigit 8 a c = if d < 8 then some (a * 8 + d) else none := by
              unfold appendDigit
              rw [hd]
            have hy' : appendDigit 16 b c = if d < 16 then some (b * 16 + d) else none := by
              unfold appendDigit
              rw [hd]
            rw [hx'] at hx
            rw [hy'] at hy
            by_cases hlt : d < 8
            · rw [if_pos hlt] at hx
              rw [if_pos (by omega)] at hy
              exact ih (a * 8 + d) (b * 16 + d) x y (by omega) (by omega) hx hy
            · rw [if_neg hlt] at hx
              cases hx
  exact (hstep ds 0 0 v v le_rfl (by omega) h h').2 rfl

/-- Every character of a numeral is a digit. -/
theorem isDigit_of_numeralValue {ds : List Byte} {v : Nat} (h : numeralValue base ds = some v) :
    ∀ c ∈ ds, (digitValue c).isSome := by
  have hstep : ∀ (ds : List Byte) (a x : Nat), ds.foldlM (appendDigit base) a = some x →
      ∀ c ∈ ds, (digitValue c).isSome := by
    intro ds
    induction ds with
    | nil => exact fun _ _ _ c hc => absurd hc List.not_mem_nil
    | cons d ds ih =>
        intro a x hx
        rw [List.foldlM_cons] at hx
        cases hd : digitValue d with
        | none =>
            unfold appendDigit at hx
            rw [hd] at hx
            cases hx
        | some e =>
            obtain ⟨b, _, hb⟩ := Option.bind_eq_some_iff.mp hx
            rw [List.forall_mem_cons]
            exact ⟨by rw [hd]; rfl, ih b x hb⟩
  exact hstep ds 0 v h

/-- The digits of a text. -/
def digitsOf (text : List Byte) : List Byte := text.filter fun c => (digitValue c).isSome

private theorem digitsOf_append (xs ys : List Byte) :
    digitsOf (xs ++ ys) = digitsOf xs ++ digitsOf ys :=
  List.filter_append ..

private theorem digitsOf_eq_self {ds : List Byte} (h : ∀ c ∈ ds, (digitValue c).isSome) :
    digitsOf ds = ds :=
  List.filter_eq_self.mpr h

private theorem digitsOf_eq_nil {text : List Byte} (h : ∀ c ∈ text, digitValue c = none) :
    digitsOf text = [] := by
  apply List.filter_eq_nil_iff.mpr
  intro c hc
  rw [h c hc]
  decide

private theorem digitsOf_spaces {text : List Byte} (h : ∀ c ∈ text, c = space) :
    digitsOf text = [] :=
  digitsOf_eq_nil fun c hc => by rw [h c hc, digitValue_space]

end Digits

/-! ## What is printed -/

section Printed

variable {c sign : Byte} {size : Int} {num n : BitVec 64} {type : Flags} {tmp : List Byte}

theorem int_eq_some {x y : Int} : int x = some y ↔ y = x ∧ intMin ≤ x ∧ x ≤ intMax := by
  unfold int
  split
  · rename_i hx
    simp only [Option.some.injEq, hx, and_self, and_true]
    exact eq_comm
  · rename_i hx
    simp only [hx, and_false, reduceCtorEq]

theorem int_of_bounds {x : Int} (h : intMin ≤ x) (h' : x ≤ intMax) : int x = some x :=
  int_eq_some.mpr ⟨rfl, h, h'⟩

/-- A padding writes its size, and leaves it below 0. -/
theorem padding_emits (h : intMin < size) :
    Print.Emits (padding c size) (min size 0 - 1) (List.replicate size.toNat c) := by
  obtain ⟨k, hk⟩ : ∃ k, size.toNat = k := ⟨_, rfl⟩
  induction k generalizing size with
  | zero =>
      unfold padding
      rw [if_neg (by omega), min_eq_left (by omega), hk,
        int_of_bounds (by omega) (by unfold intMax; omega)]
      exact Print.emits_ofOption _
  | succ k ih =>
      unfold padding
      have hrest := @ih (size - 1) (by unfold intMin; omega) (by omega)
      rw [if_pos (by omega), hk, List.replicate_succ]
      rw [min_eq_right (by omega)] at hrest ⊢
      rw [show (size - 1).toNat = k by omega] at hrest
      exact (Print.emits_emit c).bind hrest

/-- A padding of nothing. -/
theorem padding_nonpos (h : size ≤ 0) : padding c size = Print.ofOption (int (size - 1)) := by
  unfold padding
  rw [if_neg (by omega)]

theorem precisionZeros_emits (i : Nat) (precision : Int) :
    Print.Emits (precisionZeros i precision) ()
      (List.replicate (precision.toNat - i) zero) := by
  obtain ⟨k, hk⟩ : ∃ k, precision.toNat - i = k := ⟨_, rfl⟩
  induction k generalizing precision with
  | zero =>
      unfold precisionZeros
      rw [if_neg (by omega), hk]
      exact Print.emits_pure ()
  | succ k ih =>
      unfold precisionZeros
      have hrest := ih (precision - 1) (by omega)
      rw [show (precision - 1).toNat - i = k by omega] at hrest
      rw [if_pos (by omega), hk, List.replicate_succ]
      exact (Print.emits_emit zero).bind hrest

/-- The digits are written from the last one on, and not at all with the precision 0. -/
theorem putDigits_emits (tmp : List Byte) (precision : Int) {i : Nat} (hi : i ≤ tmp.length) :
    Print.Emits (putDigits tmp precision i) ()
      (if precision = 0 then [] else (tmp.take i).reverse) := by
  induction i with
  | zero =>
      rw [List.take_zero, List.reverse_nil, ite_self]
      exact Print.emits_pure ()
  | succ i ih =>
      have hrest := ih (by omega)
      have hdigit : tmp.getD i 0 = tmp[i] := by
        rw [List.getD_eq_getElem?_getD, List.getElem?_eq_getElem (by omega), Option.getD_some]
      unfold putDigits
      by_cases hp : precision = 0
      · rw [if_neg (not_not.mpr hp), if_pos hp]
        exact Print.emits_pure ()
      · rw [if_neg hp] at hrest ⊢
        rw [if_pos hp, List.take_succ_eq_append_getElem (by omega), List.reverse_append,
          List.reverse_singleton, ← hdigit]
        exact (Print.emits_emit _).bind hrest

/-- The sign, if there is one. -/
def signOf (sign : Byte) : List Byte := if sign = 0 then [] else [sign]

theorem getSign_eq_some (h : type.sign = true → num ≠ BitVec.intMin 64) :
    ∃ sign n, getSign num type = some (sign, n) ∧
      signText num type = signOf sign ∧
      n.toNat = magnitude num type := by
  have hmag : type.sign = true → 0 ≤ num.toInt → num.toNat = num.toInt.natAbs := by
    intro _ hnum
    rw [BitVec.toInt_eq_toNat_cond] at hnum ⊢
    split at hnum
    · rename_i hlt
      rw [if_pos hlt]
      omega
    · have := num.isLt
      omega
  unfold getSign signText magnitude
  by_cases hs : type.sign = true
  · simp only [hs, if_true]
    by_cases hneg : num.toInt < 0
    · simp only [hneg, if_true]
      rw [if_neg (h hs)]
      refine ⟨minus, -num, rfl, rfl, ?_⟩
      rw [BitVec.toInt_eq_toNat_cond] at hneg ⊢
      rw [BitVec.toNat_neg]
      have := num.isLt
      split
      · rename_i hlt
        rw [if_pos hlt] at hneg
        omega
      · rename_i hge
        omega
    · simp only [hneg, if_false]
      have hsame := hmag hs (by omega)
      by_cases hplus : type.plus = true
      · simp only [hplus, if_true]
        exact ⟨plus, num, rfl, rfl, hsame⟩
      · by_cases hspace : type.space = true
        · simp only [hplus, hspace, if_true]
          exact ⟨space, num, rfl, rfl, hsame⟩
        · simp only [hplus, hspace]
          exact ⟨0, num, rfl, rfl, hsame⟩
  · simp only [hs]
    exact ⟨0, num, rfl, rfl, rfl⟩

private theorem getSign_intMin (h : type.sign = true) : getSign (BitVec.intMin 64) type = none := by
  unfold getSign
  rw [if_pos h, if_pos (by decide), if_pos rfl]

/-- The zeros of the precision and the digits. -/
def digitsText (tmp : List Byte) (precision : Int) : List Byte :=
  List.replicate (precision.toNat - tmp.length) zero ++ if precision = 0 then [] else tmp.reverse

/-- The field from the sign on, with `size` characters to fill. -/
def fieldText (sign c : Byte) (tmp : List Byte) (precision size : Int) (left : Bool) : List Byte :=
  let rest := (size - (signOf sign).length).toNat
  if left then signOf sign ++ digitsText tmp precision ++ List.replicate rest space
  else signOf sign ++ List.replicate rest c ++ digitsText tmp precision

theorem length_signOf_le (sign : Byte) : (signOf sign).length ≤ 1 := by
  unfold signOf
  split
  · exact Nat.zero_le 1
  · exact Nat.le_refl 1

section Field

variable {precision : Int} {left : Bool}

private theorem putSign_emits (hmin : intMin + (signOf sign).length ≤ size) (hmax : size ≤ intMax) :
    Print.Emits (putSign sign size) (size - (signOf sign).length) (signOf sign) := by
  unfold putSign signOf at *
  by_cases h : sign = 0
  · rw [if_pos h, if_neg (not_not.mpr h), List.length_nil, Nat.cast_zero, sub_zero]
    exact Print.emits_pure size
  · rw [if_neg h, List.length_singleton, Nat.cast_one] at hmin
    rw [if_neg h, if_pos h, List.length_singleton, Nat.cast_one,
      int_of_bounds (by omega) (by omega)]
    exact (Print.emits_emit sign).bind_pure (Print.emits_ofOption _)

private theorem putSign_undefined (hmin : size < intMin + (signOf sign).length)
    (hsize : intMin ≤ size) :
    Print.Undefined (putSign sign size) := by
  unfold putSign signOf at *
  by_cases h : sign = 0
  · rw [if_pos h, List.length_nil, Nat.cast_zero, add_zero] at hmin
    omega
  · rw [if_neg h, List.length_singleton, Nat.cast_one] at hmin
    rw [if_pos h]
    apply (Print.emits_emit sign).bind_undefined
    have hnone : int (size - 1) = none := if_neg (by omega)
    rw [hnone]
    exact fun _ _ => rfl

/-- What is decremented from the sign on. -/
def fieldDecrements (sign : Byte) (left : Bool) : Int :=
  (signOf sign).length + if left then 1 else 2

private theorem printField_emits (hmin : intMin + fieldDecrements sign left ≤ size)
    (hmax : size ≤ intMax) :
    Print.Emits (printField sign c tmp precision (max tmp.length precision) size left) ()
      (fieldText sign c tmp precision size left) := by
  unfold fieldDecrements at hmin
  have hzeros := precisionZeros_emits tmp.length (max tmp.length precision)
  have hdigits := putDigits_emits tmp precision (Nat.le_refl tmp.length)
  have hcount : (max (tmp.length : Int) precision).toNat - tmp.length =
      precision.toNat - tmp.length := by omega
  rw [List.take_length] at hdigits
  rw [hcount] at hzeros
  unfold printField fieldText digitsText
  cases left with
  | true =>
      rw [if_pos rfl] at hmin
      have hsign := @putSign_emits sign size (by omega) hmax
      have hrest := @padding_emits space (size - (signOf sign).length) (by omega)
      simp only [if_true, List.append_assoc]
      apply hsign.bind
      apply (Print.emits_pure _).pure_bind
      apply hzeros.bind
      apply hdigits.bind
      exact hrest.bind_pure (Print.emits_pure ())
  | false =>
      rw [if_neg Bool.false_ne_true] at hmin
      have hsign := @putSign_emits sign size (by omega) hmax
      have hpad := @padding_emits c (size - (signOf sign).length) (by omega)
      have hrest := @padding_emits space (min (size - (signOf sign).length) 0 - 1)
        (by unfold intMin at *; omega)
      have hnone : (min (size - (signOf sign).length : Int) 0 - 1).toNat = 0 := by omega
      rw [hnone, List.replicate_zero] at hrest
      simp only [Bool.false_eq_true, if_false, List.append_assoc]
      apply hsign.bind
      apply hpad.bind
      apply hzeros.bind
      apply hdigits.bind_pure
      exact hrest.bind_pure (Print.emits_pure ())

/-- With less room an `int` overflows. -/
theorem printField_undefined {least : Int} (hmin : size < intMin + fieldDecrements sign left)
    (hsize : intMin ≤ size) :
    Print.Undefined (printField sign c tmp precision least size left) := by
  have hsigns := length_signOf_le sign
  have hover : ∀ {x : Int} {e : Byte}, intMin ≤ x → x ≤ intMin → 
      Print.Undefined (padding e x) := by
    intro x e hx hx'
    have hnone : int (x - 1) = none := if_neg (by omega)
    rw [padding_nonpos (by unfold intMin at hx'; omega), hnone]
    exact fun _ _ => rfl
  unfold fieldDecrements at hmin
  unfold printField
  by_cases hroom : size < intMin + (signOf sign).length
  · exact (putSign_undefined hroom hsize).bind
  · have hmax : size ≤ intMax := by
      unfold intMin intMax at *
      split at hmin <;> omega
    apply (putSign_emits (by omega) hmax).bind_undefined
    cases left with
    | true =>
        rw [if_pos rfl] at hmin
        apply (Print.emits_pure _).bind_undefined
        apply (precisionZeros_emits _ _).bind_undefined
        apply (putDigits_emits tmp precision (Nat.le_refl _)).bind_undefined
        exact Print.Undefined.bind (hover (by omega) (by omega))
    | false =>
        rw [if_neg Bool.false_ne_true] at hmin
        by_cases hlast : size - (signOf sign).length ≤ intMin
        · exact Print.Undefined.bind (hover (by omega) hlast)
        · apply (padding_emits (by omega)).bind_undefined
          apply (precisionZeros_emits _ _).bind_undefined
          apply (putDigits_emits tmp precision (Nat.le_refl _)).bind_undefined
          exact Print.Undefined.bind (hover (by unfold intMin at *; omega)
            (by unfold intMin at *; omega))

end Field

/-- The number as it is printed. -/
def numberText (sign : Byte) (tmp : List Byte) (s precision : Int) (type : Flags) : List Byte :=
  let rest := (s - max (tmp.length : Int) precision - (signOf sign).length).toNat
  if type.left then signOf sign ++ digitsText tmp precision ++ List.replicate rest space
  else if type.zeropad then signOf sign ++ List.replicate rest zero ++ digitsText tmp precision
  else List.replicate rest space ++ signOf sign ++ digitsText tmp precision

section Number

variable {base : Nat} {s precision : Int}

theorem length_digitText_le : (digitText type.large base num.toNat).length ≤ 20 := by
  unfold digitText
  split
  · exact Nat.le_of_ble_eq_true rfl
  · rw [List.length_map]
    exact length_digits_le base num

private theorem least_eq {a b : Int} : (if a > b then a else b) = max a b := by
  split <;> omega

/-- The padding to the left takes the sign into account. -/
theorem leftSize_eq (sign : Byte) (size : Int) :
    (if sign ≠ 0 ∧ size > 0 then size - 1 else size) =
      if 0 < size then size - (signOf sign).length else size := by
  unfold signOf
  by_cases h : sign = 0
  · rw [if_pos h, if_neg (fun hs => hs.1 h), List.length_nil, Nat.cast_zero, sub_zero, ite_self]
  · rw [if_neg h, List.length_singleton, Nat.cast_one]
    by_cases hsize : 0 < size
    · rw [if_pos hsize, if_pos ⟨h, hsize⟩]
    · rw [if_neg hsize, if_neg (fun hs => hsize hs.2)]

theorem printNumber_emits (hsign : getSign num type = some (sign, n))
    (hs : s ≤ intMax) (hp : -1 ≤ precision)
    (hroom : intMin + decrements (signOf sign).length type ≤
      s - max ((digitText type.large base n.toNat).length : Int) precision) :
    Print.Emits (printNumber num base s precision type) ()
      (numberText sign (digitText type.large base n.toNat) s precision type) := by
  have hsigns := length_signOf_le sign
  generalize htmp : digitText type.large base n.toNat = tmp at hroom ⊢
  have hmax : s - max (tmp.length : Int) precision ≤ intMax := by omega
  unfold printNumber
  rw [hsign]
  apply (Print.emits_ofOption _).pure_bind
  dsimp only
  rw [getDigits_eq, htmp]
  apply (Print.emits_ofOption _).pure_bind
  simp only [least_eq]
  rw [int_of_bounds (by omega) hmax]
  apply (Print.emits_ofOption _).pure_bind
  unfold decrements at hroom
  unfold numberText
  generalize s - max (tmp.length : Int) precision = size at hroom hmax ⊢
  dsimp only
  rw [leftSize_eq]
  by_cases hleft : type.left = true
  · rw [if_pos hleft] at hroom
    simp only [hleft, Bool.or_true, Bool.not_true, Bool.false_eq_true, if_false, if_true]
    apply (Print.emits_pure _).pure_bind
    have hmin : intMin + fieldDecrements sign true ≤ size := by
      unfold fieldDecrements
      rw [if_pos rfl]
      omega
    exact printField_emits hmin hmax
  · rw [if_neg hleft] at hroom
    by_cases hzeropad : type.zeropad = true
    · rw [if_pos hzeropad] at hroom
      simp only [hleft, hzeropad, Bool.not_false, Bool.and_self, Bool.or_false, Bool.not_true,
        Bool.false_eq_true, if_false, if_true]
      apply (Print.emits_pure _).pure_bind
      have hmin : intMin + fieldDecrements sign false ≤ size := by
        unfold fieldDecrements
        rw [if_neg Bool.false_ne_true]
        omega
      exact printField_emits hmin hmax
    · rw [if_neg hzeropad] at hroom
      simp only [hleft, hzeropad, Bool.not_false, Bool.and_true, Bool.or_false,
        Bool.false_eq_true, if_false, if_true, List.append_assoc]
      generalize hpadded : (if 0 < size then size - ((signOf sign).length : Int) else size) = padded
      have hcount : padded.toNat = (size - (signOf sign).length).toNat := by
        split at hpadded <;> omega
      have hlow : intMin + (signOf sign).length + 3 ≤ padded := by
        unfold intMin at *
        split at hpadded <;> omega
      have hmin : intMin + fieldDecrements sign false ≤ min padded 0 - 1 := by
        unfold fieldDecrements
        rw [if_neg Bool.false_ne_true]
        unfold intMin at *
        omega
      have hfield := @printField_emits space sign (min padded 0 - 1) tmp precision false hmin
        (by unfold intMax; omega)
      have hnone : (min padded 0 - 1 - (signOf sign).length).toNat = 0 := by omega
      unfold fieldText at hfield
      rw [if_neg Bool.false_ne_true, hnone, List.replicate_zero, List.append_nil] at hfield
      rw [← hcount]
      exact (padding_emits (by omega)).bind hfield

/-- With less room an `int` overflows. -/
theorem printNumber_undefined (hsign : getSign num type = some (sign, n))
    (hs : -1 ≤ s ∧ s ≤ intMax) (hp : -1 ≤ precision ∧ precision ≤ intMax)
    (hroom : s - max ((digitText type.large base n.toNat).length : Int) precision <
      intMin + decrements (signOf sign).length type) :
    Print.Undefined (printNumber num base s precision type) := by
  have hlen := @length_digitText_le n type base
  generalize htmp : digitText type.large base n.toNat = tmp at hroom hlen
  have hmin : intMin ≤ s - max (tmp.length : Int) precision := by
    unfold intMin intMax at *
    omega
  unfold printNumber
  rw [hsign]
  apply (Print.emits_ofOption _).bind_undefined
  dsimp only
  rw [getDigits_eq, htmp]
  apply (Print.emits_ofOption _).bind_undefined
  simp only [least_eq]
  rw [int_of_bounds hmin (by unfold intMax at *; omega)]
  apply (Print.emits_ofOption _).bind_undefined
  unfold decrements at hroom
  generalize s - max (tmp.length : Int) precision = size at hroom hmin ⊢
  have hlow : size ≤ 0 := by
    have hsigns := length_signOf_le sign
    unfold intMin at hroom
    split at hroom
    · omega
    · split at hroom <;> omega
  have hnot : ¬ 0 < size := by omega
  rw [leftSize_eq, if_neg hnot]
  by_cases hleft : type.left = true
  · rw [if_pos hleft] at hroom
    simp only [hleft, Bool.or_true, Bool.not_true, Bool.false_eq_true, if_false]
    apply (Print.emits_pure _).bind_undefined
    have hless : size < intMin + fieldDecrements sign true := by
      unfold fieldDecrements
      rw [if_pos rfl]
      omega
    exact printField_undefined hless hmin
  · rw [if_neg hleft] at hroom
    by_cases hzeropad : type.zeropad = true
    · rw [if_pos hzeropad] at hroom
      simp only [hleft, hzeropad, Bool.not_false, Bool.and_self, Bool.or_false, Bool.not_true,
        Bool.false_eq_true, if_false]
      apply (Print.emits_pure _).bind_undefined
      have hless : size < intMin + fieldDecrements sign false := by
        unfold fieldDecrements
        rw [if_neg Bool.false_ne_true]
        omega
      exact printField_undefined hless hmin
    · rw [if_neg hzeropad] at hroom
      simp only [hleft, hzeropad, Bool.not_false, Bool.and_true, Bool.or_false,
        Bool.false_eq_true, if_true]
      rw [padding_nonpos hlow]
      apply Print.undefined_ofOption_bind
      intro rest hrest
      obtain ⟨rfl, hrest, _⟩ := int_eq_some.mp hrest
      have hless : size - 1 < intMin + fieldDecrements sign false := by
        unfold fieldDecrements
        rw [if_neg Bool.false_ne_true]
        omega
      exact printField_undefined hless hrest

private theorem nondigit_of_mem_signText {c : Byte} (h : c ∈ signText num type) :
    digitValue c = none := by
  unfold signText at h
  split at h
  · split at h
    · rw [List.mem_singleton.mp h]
      rfl
    · split at h
      · rw [List.mem_singleton.mp h]
        rfl
      · split at h
        · rw [List.mem_singleton.mp h]
          rfl
        · cases h
  · cases h

private theorem isDigit_of_mem_digitText {large : Bool} {m : Nat} {c : Byte}
    (h : c ∈ digitText large base m) : (digitValue c).isSome := by
  unfold digitText at h
  split at h
  · rw [List.mem_singleton.mp h]
    rfl
  · obtain ⟨d, hd, rfl⟩ := List.mem_map.mp h
    have hlt : d < 16 := by
      have hbase := Nat.digits_lt_base (one_lt_divisor base) hd
      unfold divisor at hbase
      split at hbase <;> omega
    rw [digitValue_table hlt]
    rfl

private theorem digitsOf_zeros (k : Nat) :
    digitsOf (List.replicate k zero) = List.replicate k zero :=
  digitsOf_eq_self fun c hc => by rw [List.eq_of_mem_replicate hc, digitValue_zero]; rfl

private theorem digitsOf_replicate_space (k : Nat) : digitsOf (List.replicate k space) = [] :=
  digitsOf_spaces fun _ hc => List.eq_of_mem_replicate hc

/-- The digits among what is printed. -/
theorem digitsOf_numberText (hsign : signText num type = signOf sign)
    (htmp : ∀ c ∈ tmp, (digitValue c).isSome) (s precision : Int) :
    ∃ k, digitsOf (numberText sign tmp s precision type) =
      List.replicate k zero ++ if precision = 0 then [] else tmp.reverse := by
  have hnone : digitsOf (signOf sign) = [] := by
    rw [← hsign]
    exact digitsOf_eq_nil fun c hc => nondigit_of_mem_signText hc
  have hdigits : digitsOf (digitsText tmp precision) = digitsText tmp precision := by
    apply digitsOf_eq_self
    intro c hc
    rcases List.mem_append.mp hc with hc | hc
    · rw [List.eq_of_mem_replicate hc, digitValue_zero]
      rfl
    · split at hc
      · cases hc
      · exact htmp c (List.mem_reverse.mp hc)
  unfold numberText
  dsimp only
  split
  · refine ⟨precision.toNat - tmp.length, ?_⟩
    rw [digitsOf_append, digitsOf_append, hnone, hdigits, digitsOf_replicate_space,
      List.append_nil, List.nil_append]
    rfl
  · split
    · rename_i hzeropad
      refine ⟨(s - max (tmp.length : Int) precision - (signOf sign).length).toNat +
        (precision.toNat - tmp.length), ?_⟩
      rw [digitsOf_append, digitsOf_append, hnone, hdigits, digitsOf_zeros, List.nil_append,
        List.replicate_add, List.append_assoc]
      rfl
    · refine ⟨precision.toNat - tmp.length, ?_⟩
      rw [digitsOf_append, digitsOf_append, hnone, hdigits, digitsOf_replicate_space]
      rfl

/-- The digits of a numeral denote the number. -/
theorem Numeral.value {out : List Byte} (h : Numeral out num base s precision type) :
    numeralValue base (digitsOf out) = some (magnitude num type) := by
  obtain ⟨left, digits, right, rfl, hleft, hright, hvalue⟩ := h.parts
  have hsign : digitsOf (signText num type) = [] :=
    digitsOf_eq_nil fun c hc => nondigit_of_mem_signText hc
  rw [digitsOf_append, digitsOf_append, digitsOf_append, digitsOf_spaces hleft, hsign,
    digitsOf_spaces hright, digitsOf_eq_self (isDigit_of_numeralValue hvalue)]
  simpa only [List.nil_append, List.append_nil] using hvalue

private theorem length_numberText (sign : Byte) (tmp : List Byte) (s precision : Int)
    (type : Flags) :
    (numberText sign tmp s precision type).length =
      (s - max (tmp.length : Int) precision - (signOf sign).length).toNat + (signOf sign).length +
        (digitsText tmp precision).length := by
  unfold numberText
  dsimp only
  split
  · rw [List.length_append, List.length_append, List.length_replicate]
    omega
  · split
    · rw [List.length_append, List.length_append, List.length_replicate]
      omega
    · rw [List.length_append, List.length_append, List.length_replicate]

private theorem length_digitsText (tmp : List Byte) (precision : Int) :
    (digitsText tmp precision).length =
      precision.toNat - tmp.length + if precision = 0 then 0 else tmp.length := by
  unfold digitsText
  rw [List.length_append, List.length_replicate]
  split
  · rfl
  · rw [List.length_reverse]

private theorem digitCount_pos (base m : Nat) : 0 < digitCount base m := by
  unfold digitCount
  split
  · exact Nat.one_pos
  · exact List.length_pos_of_ne_nil (Nat.digits_ne_nil_iff_ne_zero.mpr ‹_›)

/-- What is printed is the number. -/
theorem numeral_numberText (hsign : signText num type = signOf sign)
    (hbase : 0 < base) (htmp : numeralValue base tmp.reverse = some (magnitude num type))
    (hlen : tmp.length = digitCount base (magnitude num type))
    (hprinted : precision ≠ 0 ∨ magnitude num type = 0 ∧ s ≤ (signText num type).length) :
    Numeral (numberText sign tmp s precision type) num base s precision type := by
  have hvalue : ∀ k, numeralValue base (List.replicate k zero ++ digitsText tmp precision) =
      some (magnitude num type) := by
    intro k
    unfold digitsText
    rw [← List.append_assoc, ← List.replicate_add, numeralValue_zeros hbase]
    rcases hprinted with hp | ⟨hm, _⟩
    · rw [if_neg hp, htmp]
    · rw [hm] at htmp ⊢
      split
      · rfl
      · exact htmp
  constructor
  · rw [hsign]
    unfold numberText
    dsimp only
    split
    · refine ⟨[], digitsText tmp precision, _, rfl, ?_, ?_, hvalue 0⟩
      · exact fun _ hc => absurd hc List.not_mem_nil
      · exact fun _ hc => List.eq_of_mem_replicate hc
    · split
      · refine ⟨[], _, [], ?_, ?_, ?_, hvalue
          (s - max (tmp.length : Int) precision - (signOf sign).length).toNat⟩
        · rw [List.append_nil, List.nil_append, List.append_assoc]
        · exact fun _ hc => absurd hc List.not_mem_nil
        · exact fun _ hc => absurd hc List.not_mem_nil
      · refine ⟨_, digitsText tmp precision, [], (List.append_nil _).symm, ?_, ?_, hvalue 0⟩
        · exact fun _ hc => List.eq_of_mem_replicate hc
        · exact fun _ hc => absurd hc List.not_mem_nil
  · have hpos := digitCount_pos base (magnitude num type)
    rw [length_numberText, length_digitsText, hlen]
    unfold needed
    rw [hsign] at hprinted ⊢
    generalize magnitude num type = m at *
    generalize (signOf sign).length = signs at *
    generalize digitCount base m = count at *
    by_cases hp : precision = 0
    · obtain ⟨rfl, hs⟩ := hprinted.resolve_left (not_not.mpr hp)
      subst hp
      simp only [and_self, if_true]
      omega
    · rw [if_neg hp, if_neg (fun h => hp h.1)]
      omega

theorem Numeral.length_lt {out : List Byte} (h : Numeral out num base s precision type)
    (hbase : 1 < base) (hs : s ≤ intMax) (hp : precision ≤ intMax) : out.length < addressEnd := by
  have hsigns : (signText num type).length ≤ 1 := by
    unfold signText
    split
    · split
      · exact Nat.le_refl 1
      · split
        · exact Nat.le_refl 1
        · split
          · exact Nat.le_refl 1
          · exact Nat.zero_le 1
    · exact Nat.zero_le 1
  have hcount : digitCount base (magnitude num type) ≤ 65 := by
    have hmag : magnitude num type < 2 ^ 65 := by
      unfold magnitude
      have hlt := num.isLt
      have hint := @BitVec.toInt_lt 64 num
      have hint' := @BitVec.le_toInt 64 num
      split
      · norm_num at hint hint' ⊢
        omega
      · omega
    unfold digitCount
    split
    · decide
    · rw [Nat.digits_length_le_iff hbase]
      exact hmag.trans_le (Nat.pow_le_pow_left hbase 65)
  rw [h.field]
  unfold needed addressEnd intMax at *
  split <;> omega

theorem printNumber_intMin (h : type.sign = true) :
    Print.Undefined (printNumber (BitVec.intMin 64) base s precision type) := by
  unfold printNumber
  rw [getSign_intMin h]
  apply Print.Undefined.bind
  exact fun _ _ => rfl

/-- A numeral that is printed with the precision 0 is an empty one. -/
theorem printed_of_numeral (hbase : 0 < base) (hsign : signText num type = signOf sign)
    (hnumeral : Numeral
      (numberText sign (digitText type.large base (magnitude num type)) s precision type)
      num base s precision type) :
    precision ≠ 0 ∨ magnitude num type = 0 ∧ s ≤ (signText num type).length := by
  by_cases hp : precision = 0
  · right
    obtain ⟨k, hk⟩ := @digitsOf_numberText sign num type
      (digitText type.large base (magnitude num type)) hsign
      (fun _ hc => isDigit_of_mem_digitText hc) s precision
    have hvalue := hnumeral.value
    rw [hk, if_pos hp, numeralValue_zeros hbase] at hvalue
    have hzero : 0 = magnitude num type := Option.some.inj hvalue
    have hfield := hnumeral.field
    rw [length_numberText, length_digitsText, if_pos hp, hsign] at hfield
    unfold needed digitText at hfield
    rw [if_pos hzero.symm, if_pos ⟨hp, hzero.symm⟩, hp, List.length_singleton] at hfield
    refine ⟨hzero.symm, ?_⟩
    rw [hsign]
    omega
  · exact Or.inl hp

/-- A numeral that is printed with the base 8 has one digit. -/
theorem octal_of_numeral (hsign : signText num type = signOf sign)
    (hnumeral : Numeral
      (numberText sign (digitText type.large base (magnitude num type)) s precision type)
      num base s precision type) (hbase : base = 8) : magnitude num type < 8 := by
  subst hbase
  rcases printed_of_numeral (by decide) hsign hnumeral with hp | ⟨hzero, _⟩
  · obtain ⟨k, hk⟩ := @digitsOf_numberText sign num type
      (digitText type.large 8 (magnitude num type)) hsign
      (fun _ hc => isDigit_of_mem_digitText hc) s precision
    have hvalue := hnumeral.value
    rw [hk, if_neg hp, numeralValue_zeros (by decide)] at hvalue
    have hsame : digitText type.large 8 (magnitude num type) =
        digitText type.large 16 (magnitude num type) := rfl
    have hvalue' : numeralValue 16 (digitText type.large 8 (magnitude num type)).reverse =
        some (magnitude num type) := by
      rw [hsame]
      exact numeralValue_digitText (by decide) (fun h => absurd h (by decide))
    exact numeralValue_octal_lt hvalue hvalue'
  · rw [hzero]
    decide

/-- `print_number` prints the number exactly when no `int` overflows and `divide` knows its
base. -/
theorem prints_iff (hbase : base = 8 ∨ base = 10 ∨ base = 16)
    (hs : -1 ≤ s ∧ s ≤ intMax) (hp : -1 ≤ precision ∧ precision ≤ intMax) :
    Prints num base s precision type ↔ Printable num base s precision type := by
  by_cases hmin : type.sign = true ∧ num = BitVec.intMin 64
  · obtain ⟨hsign, rfl⟩ := hmin
    constructor
    · rintro ⟨out, hout, _⟩
      exact absurd (printNumber_intMin hsign) hout.not_undefined
    · intro h
      exact absurd rfl (h.sign hsign)
  obtain ⟨sign, n, hget, hsign, hmag⟩ := getSign_eq_some fun h h' => hmin ⟨h, h'⟩
  have hlen := @length_digitText_le n type base
  have hroom : intMin + decrements (signText num type).length type ≤ s - precision ↔
      intMin + decrements (signOf sign).length type ≤
        s - max ((digitText type.large base n.toNat).length : Int) precision := by
    have hsigns := length_signOf_le sign
    have hdec : decrements (signOf sign).length type ≤ 4 := by
      unfold decrements
      split
      · omega
      · split <;> omega
    rw [hsign]
    unfold intMin
    omega
  constructor
  · rintro ⟨out, hout, hnumeral⟩
    have hdefined : intMin + decrements (signOf sign).length type ≤
        s - max ((digitText type.large base n.toNat).length : Int) precision := by
      by_contra hnone
      exact hout.not_undefined (printNumber_undefined hget hs hp (by omega))
    have htext := printNumber_emits hget hs.2 hp.1 hdefined
    have hshort : (numberText sign (digitText type.large base n.toNat) s precision type).length <
        addressEnd := by
      rw [length_numberText, length_digitsText]
      have hsigns := length_signOf_le sign
      unfold addressEnd intMax at *
      split <;> omega
    obtain ⟨_, rfl⟩ := hout.unique htext
      (hnumeral.length_lt (by omega) hs.2 hp.2) hshort
    rw [hmag] at hnumeral
    exact ⟨fun h h' => hmin ⟨h, h'⟩, octal_of_numeral hsign hnumeral,
      printed_of_numeral (by omega) hsign hnumeral, hroom.mpr hdefined⟩
  · intro h
    refine ⟨_, printNumber_emits hget hs.2 hp.1 (hroom.mp h.room), ?_⟩
    apply numeral_numberText hsign (by omega)
    · rw [hmag]
      exact numeralValue_digitText hbase h.octal
    · rw [hmag]
      exact length_digitText hbase h.octal
    · exact h.printed

/-- No `num` overruns `tmp`; and the number is printed exactly when it has no digit that `divide`
does not know, a precision that prints it, and a width and a sign without an overflow. -/
theorem printNumber_right (num n : BitVec 64) (base : Nat) (s precision : Int) (type : Flags)
    (hbase : base = 8 ∨ base = 10 ∨ base = 16) (hs : -1 ≤ s ∧ s ≤ intMax)
    (hp : -1 ≤ precision ∧ precision ≤ intMax) :
    getDigits n base type ≠ none ∧
      (Prints num base s precision type ↔ Printable num base s precision type) := by
  refine ⟨?_, prints_iff hbase hs hp⟩
  rw [getDigits_eq]
  exact Option.some_ne_none _

/-- `%+6d` of −42. -/
theorem printNumber_right_decimal :
    getDigits (BitVec.ofInt 64 (-42)) 10 ⟨false, true, true, false, false, false, false⟩ ≠ none ∧
      Prints (BitVec.ofInt 64 (-42)) 10 6 (-1)
        ⟨false, true, true, false, false, false, false⟩ := by
  have hboth := printNumber_right (BitVec.ofInt 64 (-42)) (BitVec.ofInt 64 (-42)) 10 6 (-1)
    ⟨false, true, true, false, false, false, false⟩ (by decide) (by decide) (by decide)
  exact ⟨hboth.1, hboth.2.mpr ⟨by decide, by decide, by decide, by decide⟩⟩

/-- `%o` of 8 is not its numeral. -/
theorem printNumber_octal : ¬ Prints 8 8 (-1) (-1)
    ⟨false, false, false, false, false, false, false⟩ := by
  rw [prints_iff (by decide) (by decide) (by decide)]
  intro h
  exact absurd (h.octal rfl) (by decide)

end Number

end Printed

end RtHypervisor.Ports.PrintNumber
