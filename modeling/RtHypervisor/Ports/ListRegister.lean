import Mathlib.Tactic
import RtHypervisor.Verified.Run

/-!
# List registers of the GIC virtual CPU interface

The vGIC hands interrupts to a guest through the list registers
`ICH_LR<n>_EL2`.  This module fixes the value layout of `vgic.h`, the record
`struct virq` an entry is built from (`vgic_get_lr_from_virq`), and the
hardware side: which list registers `ICH_ELRSR_EL2` reports as empty, and what
a guest acknowledge or completion does to one.

`bit_get` comes from a package header outside the repository.  It is a
parameter with what its name says of it: the bit of a position below 64.
-/

namespace RtHypervisor.Ports.ListRegister

/-- A value of `ICH_LR<n>_EL2`, also the element type of `lr_list`. -/
abbrev Lr := BitVec 64

/-! ## Layout of `vgic.h` -/

def ichLrStatOff : Nat := 62
def ichLrHwOff : Nat := 61
def ichLrGroupOff : Nat := 60
def ichLrRes0Off : Nat := 56
def ichLrPrioOff : Nat := 48
def ichLrPintOff : Nat := 32
def ichLrVintOff : Nat := 0

def ichLrRes0Msk : Lr := 0x7
def ichLrPrioMsk : Lr := 0xFF
def ichLrVintMsk : Lr := 0xFFFFFFFF

def maxLrRegs : Nat := 16
def gicLrListNum : Nat := 64
def virqPrivNum : Nat := 32
def group1Int : Lr := 1

def getLrPrio (lr : Lr) : Lr := (lr >>> ichLrPrioOff) &&& ichLrPrioMsk
def getLrVint (lr : Lr) : Lr := (lr >>> ichLrVintOff) &&& ichLrVintMsk
def getLrRes0 (lr : Lr) : Lr := (lr >>> ichLrRes0Off) &&& ichLrRes0Msk

/-- `bit_get(val, i)` of `bitmap.h`. -/
class Bitmap where
  bitGet : Lr → Nat → Bool
  bitGet_eq : ∀ val i, i < 64 → bitGet val i = val.getLsbD i

export Bitmap (bitGet bitGet_eq)

/-- One such header. -/
instance : Bitmap where
  bitGet val i := val.getLsbD i
  bitGet_eq _ _ _ := rfl

/-- The mark `vgic_lr_list_insert` leaves in the reserved bits of an entry. -/
def lrTag : Lr := (1 : Lr) <<< ichLrRes0Off

/-- The two state bits the hardware keeps for the interrupt. -/
def lrState (lr : Lr) : BitVec 2 := lr.extractLsb' ichLrStatOff 2

def lrPending : BitVec 2 := 1
def lrActive : BitVec 2 := 2
def lrPendingActive : BitVec 2 := 3

/-- The condition under which `ICH_ELRSR_EL2` reports a list register as empty:
no valid interrupt, and no end-of-interrupt maintenance request (bit 41 of a
software interrupt) outstanding. -/
def lrIdle (lr : Lr) : Bool :=
  lrState lr == 0 && (lr.getLsbD ichLrHwOff || !lr.getLsbD 41)

private theorem getLsbD_vintMsk (i : Nat) : ichLrVintMsk.getLsbD i = decide (i < 32) := by
  have hmask : (0xFFFFFFFF : Nat) = 2 ^ 32 - 1 := by decide
  show (BitVec.ofNat 64 0xFFFFFFFF).getLsbD i = decide (i < 32)
  rw [BitVec.getLsbD_ofNat, hmask, Nat.testBit_two_pow_sub_one]
  by_cases h : i < 32 <;> simp [h]
  omega

private theorem getLsbD_getLrVint (lr : Lr) (i : Nat) :
    (getLrVint lr).getLsbD i = (lr.getLsbD i && decide (i < 32)) := by
  simp only [getLrVint, ichLrVintOff, BitVec.getLsbD_and, getLsbD_vintMsk,
    BitVec.getLsbD_ushiftRight, Nat.zero_add]

/-- Two values that agree below bit 32 name the same virtual interrupt. -/
theorem getLrVint_congr {a b : Lr}
    (h : ∀ i, i < 32 → a.getLsbD i = b.getLsbD i) : getLrVint a = getLrVint b := by
  apply BitVec.eq_of_getLsbD_eq
  intro i _
  rw [getLsbD_getLrVint, getLsbD_getLrVint]
  by_cases hi : i < 32
  · rw [h i hi]
  · simp [hi]

/-- Two values that agree in bits 62 and 63 have the same state. -/
theorem lrState_congr {a b : Lr} (h62 : a.getLsbD 62 = b.getLsbD 62)
    (h63 : a.getLsbD 63 = b.getLsbD 63) : lrState a = lrState b := by
  apply BitVec.eq_of_getLsbD_eq
  intro i hi
  have hcases : i = 0 ∨ i = 1 := by omega
  rcases hcases with rfl | rfl
  · simpa [lrState, ichLrStatOff] using h62
  · simpa [lrState, ichLrStatOff] using h63

/-! ## The tag changes nothing the hardware looks at -/

theorem getLsbD_tag (lr : Lr) {i : Nat} (hi : i ≠ 56) :
    (lr ||| lrTag).getLsbD i = lr.getLsbD i := by
  rw [BitVec.getLsbD_or]
  have htag : lrTag.getLsbD i = false := by
    simp only [lrTag, ichLrRes0Off, BitVec.getLsbD_shiftLeft]
    by_cases hlt : i < 56
    · simp [hlt]
    · have hne : i - 56 ≠ 0 := by omega
      simp [hne]
  rw [htag, Bool.or_false]

@[simp] theorem getLrVint_tag (lr : Lr) : getLrVint (lr ||| lrTag) = getLrVint lr :=
  getLrVint_congr fun i hi => getLsbD_tag lr (by omega)

@[simp] theorem lrState_tag (lr : Lr) : lrState (lr ||| lrTag) = lrState lr :=
  lrState_congr (getLsbD_tag lr (by decide)) (getLsbD_tag lr (by decide))

@[simp] theorem lrIdle_tag (lr : Lr) : lrIdle (lr ||| lrTag) = lrIdle lr := by
  have h41 : (lr ||| lrTag).getLsbD 41 = lr.getLsbD 41 := getLsbD_tag lr (by decide)
  have h61 : (lr ||| lrTag).getLsbD 61 = lr.getLsbD 61 := getLsbD_tag lr (by decide)
  simp only [lrIdle, lrState_tag, ichLrHwOff, h41, h61]

/-- A tagged entry is recognised as one by `vgic_context_restore_lr`. -/
theorem getLrRes0_tag_ne_zero (lr : Lr) : getLrRes0 (lr ||| lrTag) ≠ 0 := by
  intro h
  have hbit := congrArg (fun x => BitVec.getLsbD x 0) h
  simp [getLrRes0, lrTag, ichLrRes0Off, ichLrRes0Msk] at hbit

@[simp] theorem getLrRes0_zero : getLrRes0 0 = 0 := by decide

@[simp] theorem lrIdle_zero : lrIdle 0 = true := by decide

/-- An entry with a live state is never idle. -/
theorem lrIdle_eq_false_of_state {lr : Lr} (h : lrState lr ≠ 0) : lrIdle lr = false := by
  have hbeq : (lrState lr == 0) = false := by simpa using h
  rw [lrIdle, hbeq, Bool.false_and]

/-! ## `struct virq` and the value built from it -/

inductive VirqStatus
  | inactive
  | pending
  | active
  | pendingActive
deriving DecidableEq, Repr

/-- `struct virq`, without the owner and affinity fields no function reads. -/
structure Virq where
  vINIID : BitVec 16
  pINTID : BitVec 16
  state : VirqStatus
  prio : BitVec 8
  cfg : BitVec 8
  inLr : Bool
  enable : Bool
  hw : Bool
deriving DecidableEq, Repr

/-- The vINTID of a `struct virq` as it appears in a list register. -/
def vintOf (virq : Virq) : Lr := virq.vINIID.setWidth 64

def bit (b : Bool) : Lr := if b then 1 else 0

section Value

variable [Bitmap]

/-- `vgic_get_lr_from_virq`: the list-register value for a pending `virq`, or
zero when it is disabled or already marked as loaded. -/
def vgicGetLrFromVirq (virq : Virq) : Lr × Virq :=
  if virq.inLr || !virq.enable then (0, virq)
  else
    let lr : Lr := 0
    let lr := lr ||| (group1Int <<< ichLrGroupOff)
    let lr := lr ||| (virq.vINIID.setWidth 64 <<< ichLrVintOff)
    let lr := lr ||| (virq.prio.setWidth 64 <<< ichLrPrioOff)
    let lr := lr ||| (bit virq.hw <<< ichLrHwOff)
    let lr := lr ||| ((1 : Lr) <<< ichLrStatOff)
    let lr := if bitGet lr ichLrHwOff then
        lr ||| (virq.pINTID.setWidth 64 <<< ichLrPintOff) else lr
    (lr, { virq with state := .pending })

omit [Bitmap] in
theorem getLsbD_shiftLeft_low (x : Lr) {i k : Nat} (h : i < k) :
    (x <<< k).getLsbD i = false := by
  rw [BitVec.getLsbD_shiftLeft]
  simp [h]

/-- The value before the physical interrupt number is added. -/
def lrFields (virq : Virq) : Lr :=
  0 ||| (group1Int <<< ichLrGroupOff) ||| (virq.vINIID.setWidth 64 <<< ichLrVintOff)
    ||| (virq.prio.setWidth 64 <<< ichLrPrioOff) ||| (bit virq.hw <<< ichLrHwOff)
    ||| ((1 : Lr) <<< ichLrStatOff)

/-- The test in `vgic_get_lr_from_virq` finds what was put in. -/
theorem bitGet_lrFields (virq : Virq) : bitGet (lrFields virq) ichLrHwOff = virq.hw := by
  rw [bitGet_eq _ _ (by decide)]
  cases hhw : virq.hw <;>
    simp [lrFields, bit, hhw, group1Int, ichLrGroupOff, ichLrVintOff, ichLrPrioOff,
      ichLrHwOff, ichLrStatOff, BitVec.getLsbD_of_ge]

theorem vgicGetLrFromVirq_of_enabled {virq : Virq} (hen : virq.enable = true)
    (hin : virq.inLr = false) : (vgicGetLrFromVirq virq).1 =
      if virq.hw then lrFields virq ||| (virq.pINTID.setWidth 64 <<< ichLrPintOff)
      else lrFields virq := by
  rw [← bitGet_lrFields virq]
  simp only [vgicGetLrFromVirq, hen, hin]
  rfl

/-- Outside bits 32 to 47 the physical interrupt number leaves no trace. -/
theorem getLsbD_of_enabled {virq : Virq} (hen : virq.enable = true)
    (hin : virq.inLr = false) {i : Nat} (hi : i < 32 ∨ 48 ≤ i) :
    (vgicGetLrFromVirq virq).1.getLsbD i = (lrFields virq).getLsbD i := by
  have hpint : (virq.pINTID.setWidth 64 <<< ichLrPintOff).getLsbD i = false := by
    rw [BitVec.getLsbD_shiftLeft, BitVec.getLsbD_setWidth, ichLrPintOff]
    rcases hi with hlow | hhigh
    · simp [hlow]
    · rw [BitVec.getLsbD_of_ge virq.pINTID (i - 32) (by omega)]
      simp
  rw [vgicGetLrFromVirq_of_enabled hen hin]
  split
  · rw [BitVec.getLsbD_or, hpint, Bool.or_false]
  · rfl

/-- The value built for an enabled interrupt names that interrupt. -/
theorem getLrVint_of_enabled {virq : Virq} (hen : virq.enable = true)
    (hin : virq.inLr = false) :
    getLrVint (vgicGetLrFromVirq virq).1 = vintOf virq := by
  apply BitVec.eq_of_getLsbD_eq
  intro i hi
  rw [getLsbD_getLrVint, vintOf]
  by_cases h32 : i < 32
  · have h48 : i < ichLrPrioOff := by simp only [ichLrPrioOff]; omega
    have h60 : i < ichLrGroupOff := by simp only [ichLrGroupOff]; omega
    have h61 : i < ichLrHwOff := by simp only [ichLrHwOff]; omega
    have h62 : i < ichLrStatOff := by simp only [ichLrStatOff]; omega
    rw [getLsbD_of_enabled hen hin (Or.inl h32)]
    simp only [lrFields, BitVec.getLsbD_or, getLsbD_shiftLeft_low _ h48,
      getLsbD_shiftLeft_low _ h60, getLsbD_shiftLeft_low _ h61,
      getLsbD_shiftLeft_low _ h62]
    simp [ichLrVintOff, h32]
  · rw [BitVec.getLsbD_setWidth, BitVec.getLsbD_of_ge virq.vINIID i (by omega)]
    simp [h32]

/-- The value built for an enabled interrupt is pending. -/
theorem lrState_of_enabled {virq : Virq} (hen : virq.enable = true)
    (hin : virq.inLr = false) : lrState (vgicGetLrFromVirq virq).1 = lrPending := by
  have h62 : (vgicGetLrFromVirq virq).1.getLsbD 62 = ((1 : Lr) <<< 62).getLsbD 62 := by
    rw [getLsbD_of_enabled hen hin (Or.inr (by decide))]
    simp [lrFields, ichLrStatOff]
  have h63 : (vgicGetLrFromVirq virq).1.getLsbD 63 = ((1 : Lr) <<< 62).getLsbD 63 := by
    rw [getLsbD_of_enabled hen hin (Or.inr (by decide))]
    cases hhw : virq.hw <;>
      simp [lrFields, bit, hhw, group1Int, ichLrGroupOff, ichLrVintOff, ichLrPrioOff,
        ichLrHwOff, ichLrStatOff, BitVec.getLsbD_of_ge]
  rw [lrState_congr h62 h63]
  decide

end Value

/-! ## The hardware side -/

/-- The virtual CPU interface registers the vGIC code reads and writes. -/
structure IchRegs where
  lr : Vector Lr 16
  ap1r0 : BitVec 32
  ap1r1 : BitVec 32
  ap1r2 : BitVec 32
  hcr : BitVec 32
  vmcr : BitVec 32
  iccSre : BitVec 32
  iccCtlr : BitVec 32
deriving DecidableEq, Repr

/-- The value of `ICH_LR<i>_EL2`; the encoding has sixteen of them. -/
def IchRegs.lrAt (h : IchRegs) (i : Nat) : Lr :=
  if hi : i < 16 then h.lr[i] else 0

/-- `ICH_ELRSR_EL2`: bit `i` is set when list register `i` is empty. -/
def readIdleLrReg (h : IchRegs) : BitVec 64 :=
  (List.range maxLrRegs).foldl
    (fun acc i => if lrIdle (h.lrAt i) then acc ||| ((1 : Lr) <<< i) else acc) 0

private theorem getLsbD_one_shiftLeft (i j : Nat) (hi : i < 64) :
    ((1 : Lr) <<< j).getLsbD i = decide (i = j) := by
  rw [BitVec.getLsbD_shiftLeft]
  by_cases hlt : i < j
  · have hne : i ≠ j := by omega
    simp [hlt, hne]
  · by_cases heq : i = j
    · simp [heq]
      omega
    · have hne : i - j ≠ 0 := by omega
      simp [heq, hne]

private theorem getLsbD_idle_fold (p : Nat → Bool) (k i : Nat) (hi : i < 64) :
    ((List.range k).foldl
      (fun acc j => if p j then acc ||| ((1 : Lr) <<< j) else acc) 0).getLsbD i =
      (decide (i < k) && p i) := by
  induction k with
  | zero => simp
  | succ k ih =>
      rw [List.range_succ, List.foldl_append]
      simp only [List.foldl_cons, List.foldl_nil]
      by_cases hk : p k
      · rw [if_pos hk, BitVec.getLsbD_or, ih, getLsbD_one_shiftLeft i k hi]
        by_cases heq : i = k
        · subst heq
          simp [hk]
        · by_cases hlt : i < k
          · have hlt' : i < k + 1 := by omega
            simp [heq, hlt, hlt']
          · have hge : ¬i < k + 1 := by omega
            simp [heq, hlt, hge]
      · rw [if_neg hk, ih]
        by_cases heq : i = k
        · subst heq
          simp [hk]
        · by_cases hlt : i < k
          · have hlt' : i < k + 1 := by omega
            simp [hlt, hlt']
          · have hge : ¬i < k + 1 := by omega
            simp [hlt, hge]

/-- Bit `i` of `ICH_ELRSR_EL2` is the emptiness of list register `i`. -/
theorem bitGet_readIdleLrReg [Bitmap] (h : IchRegs) {i : Nat} (hi : i < 16) :
    bitGet (readIdleLrReg h) i = lrIdle (h.lrAt i) := by
  have hfold := getLsbD_idle_fold (fun j => lrIdle (h.lrAt j)) maxLrRegs i (by omega)
  have hlt : i < maxLrRegs := hi
  rw [bitGet_eq _ _ (by omega), readIdleLrReg, hfold]
  simp [hlt]

/-- Write `ICH_LR<i>_EL2`. -/
def IchRegs.setLr (h : IchRegs) (i : Nat) (lr : Lr) : IchRegs :=
  if hi : i < 16 then { h with lr := h.lr.set i lr } else h

theorem lrAt_setLr_self (h : IchRegs) {i : Nat} (hi : i < 16) (lr : Lr) :
    (h.setLr i lr).lrAt i = lr := by
  simp [IchRegs.setLr, IchRegs.lrAt, hi]

theorem lrAt_setLr_ne (h : IchRegs) {i j : Nat} (hne : j ≠ i) (lr : Lr) :
    (h.setLr i lr).lrAt j = h.lrAt j := by
  unfold IchRegs.setLr IchRegs.lrAt
  by_cases hi : i < 16
  · by_cases hj : j < 16
    · simp [hi, hj, Ne.symm hne]
    · simp [hj]
  · simp [hi]

/-- Replace the state bits of a list-register value. -/
def withState (lr : Lr) (st : BitVec 2) : Lr :=
  (lr &&& 0x3FFFFFFFFFFFFFFF) ||| (st.setWidth 64 <<< ichLrStatOff)

/-- The guest reads the acknowledge register and the hardware picks list
register `i`: a pending interrupt becomes active. -/
def guestAcknowledge (h : IchRegs) (i : Nat) : IchRegs :=
  if lrState (h.lrAt i) = lrPending then h.setLr i (withState (h.lrAt i) lrActive)
  else h

/-- The guest completes the interrupt in list register `i`: an active one is
retired, an active and pending one becomes pending again. -/
def guestComplete (h : IchRegs) (i : Nat) : IchRegs :=
  if lrState (h.lrAt i) = lrActive then h.setLr i (withState (h.lrAt i) 0)
  else if lrState (h.lrAt i) = lrPendingActive then
    h.setLr i (withState (h.lrAt i) lrPending)
  else h

private theorem getLsbD_stateMask {i : Nat} (hi : i < 62) :
    (0x3FFFFFFFFFFFFFFF : Lr).getLsbD i = true := by
  have hmask : (0x3FFFFFFFFFFFFFFF : Nat) = 2 ^ 62 - 1 := by decide
  show (BitVec.ofNat 64 0x3FFFFFFFFFFFFFFF).getLsbD i = true
  rw [BitVec.getLsbD_ofNat, hmask, Nat.testBit_two_pow_sub_one]
  have h64 : i < 64 := by omega
  simp [hi, h64]

theorem getLsbD_withState_low (lr : Lr) (st : BitVec 2) {i : Nat} (hi : i < 62) :
    (withState lr st).getLsbD i = lr.getLsbD i := by
  rw [withState, BitVec.getLsbD_or, BitVec.getLsbD_and, getLsbD_stateMask hi,
    ichLrStatOff, getLsbD_shiftLeft_low _ hi, Bool.and_true, Bool.or_false]

@[simp] theorem getLrVint_withState (lr : Lr) (st : BitVec 2) :
    getLrVint (withState lr st) = getLrVint lr :=
  getLrVint_congr fun i hi => getLsbD_withState_low lr st (by omega)

@[simp] theorem lrState_withState (lr : Lr) (st : BitVec 2) :
    lrState (withState lr st) = st := by
  apply BitVec.eq_of_getLsbD_eq
  intro i hi
  have hcases : i = 0 ∨ i = 1 := by omega
  rcases hcases with rfl | rfl <;> simp [lrState, withState, ichLrStatOff]

end RtHypervisor.Ports.ListRegister
