import Mathlib
import RtHypervisor.Ports.VgicBounds

/-!
# The registers of the guest behind an emulated store

`vgic_emulate` hands the handlers a pointer to the saved register that the guest stores from.  The
loops of the twelve handlers shift it to the right, 32 bits in all; a store to `GICD_CTLR` reads
the distributor's register into it; and the redistributor clears it for an offset that it does not
know.  `GICR_CTLR`, `GICR_IIDR` and `GICR_TYPER` leave it alone, as a store should.
-/

namespace RtHypervisor.Ports.VgicEmulate

open RtHypervisor.Verified.Run
open RtHypervisor.Verified.PrefixArray
open RtHypervisor.Ports.ListRegister
open RtHypervisor.Ports.TrapIrq

/-- The registers `x0` to `x30`.  Slot 31 is where the trap saves `xzr`. -/
def SameRegs (g g' : Guest) : Prop :=
  ∀ (n : Nat) (hn : n < 31), g'.regs[n] = g.regs[n]

/-- The access is carried out, and the guest goes on with the registers it had. -/
def KeepsRegs (g : Guest) (acc : AccessInfo) (gicd : Bool) : Prop :=
  ∃ g', vgicEmulate g acc gicd = .ok g' ∧ SameRegs g g'

/-- The offset of an access in the window of the redistributors. -/
def gicrOff (g : Guest) (acc : AccessInfo) : Nat := (acc.addr - g.vgic.gicrAddr).toNat

/-- The stores that leave the register they come from as it is. -/
def StoreCond (g : Guest) (acc : AccessInfo) (gicd : Bool) : Prop :=
  if gicd then
    (gicdOff g acc = gicdCtlrOff → stored g acc = g.vgic.gicd.ctlr.setWidth 64) ∧
      (gicdUpdateId (gicdOff g acc) ≠ none → stored g acc = 0)
  else if gicrOff g acc < gicrSgiOff then
    gicrOff g acc = gicrCtlrOff ∨ gicrOff g acc = gicrIidrOff ∨ gicrOff g acc = gicrTypeOff ∨
      stored g acc = 0
  else gicrUpdateId (gicrOff g acc - gicrSgiOff) ≠ none → stored g acc = 0

/-! ## The loops -/

section Loops

variable {n : Nat} {b b' : Bank n} {val val' : BitVec 64}

private theorem lanes_val {width : Nat} {body : Bank n → Nat → BitVec 64 → Except Fault (Bank n)}
    {count i : Nat} (h : lanes width body count i b val = .ok (b', val')) :
    val' = val >>> (width * count) := by
  induction count generalizing i b val with
  | zero =>
      cases pure_eq_ok.mp h
      rw [Nat.mul_zero, BitVec.ushiftRight_zero]
  | succ count ih =>
      simp only [lanes, bind_eq_ok] at h
      obtain ⟨b₁, -, hrest⟩ := h
      rw [ih hrest, Nat.mul_succ, Nat.add_comm, BitVec.shiftRight_add]

private theorem writeBits_val {irq base low : Nat} {op : Virq → Virq × List GicCall}
    (h : writeBits irq base low op b val = .ok (b', val')) : val' = val >>> 32 :=
  lanes_val h

private theorem writeFields_val {width count irq base : Nat}
    {op : BitVec 64 → Virq → Virq × List GicCall}
    (h : writeFields width count irq base op b val = .ok (b', val')) :
    val' = val >>> (width * count) :=
  lanes_val h

end Loops

/-- Every handler moves 32 bits out of the register. -/
theorem gicdHandler_val {off : Nat} {id : UpdateId} {b b' : Bank gicdVirqNum}
    {val val' : BitVec 64} (h : vgicGicdWriteHandlers off id b val = .ok (b', val')) :
    val' = val >>> 32 := by
  cases id with
  | isen => exact writeBits_val h
  | icen => exact writeBits_val h
  | ispnd => exact writeBits_val h
  | icpnd => exact writeBits_val h
  | prio => exact writeFields_val h
  | icfgr => exact writeFields_val h

private theorem gicrHandler_val {id : UpdateId} {b b' : Bank virqPrivNum} {val val' : BitVec 64}
    (h : vgicGicrSgiWriteHandler id b val = .ok (b', val')) : val' = val >>> 32 := by
  cases id with
  | isen => exact writeBits_val h
  | icen => exact writeBits_val h
  | ispnd => exact writeBits_val h
  | icpnd => exact writeBits_val h
  | prio => exact writeFields_val h
  | icfgr => exact writeFields_val h

/-- A 64-bit value that survives the shift is 0. -/
theorem ushiftRight_32_eq_self {val : BitVec 64} : val >>> 32 = val ↔ val = 0 := by
  constructor
  · intro h
    have hnat := congrArg BitVec.toNat h
    rw [BitVec.toNat_ushiftRight, Nat.shiftRight_eq_div_pow] at hnat
    apply BitVec.eq_of_toNat_eq
    have hzero : val.toNat = 0 := by omega
    rw [hzero]
    rfl
  · intro h
    rw [h]
    rfl

/-! ## What a store leaves in the register -/

/-- The saved register after a store. -/
def leftBehind (g : Guest) (acc : AccessInfo) (gicd : Bool) : BitVec 64 :=
  if gicd then
    if gicdOff g acc = gicdCtlrOff then g.vgic.gicd.ctlr.setWidth 64
    else if gicdUpdateId (gicdOff g acc) ≠ none then stored g acc >>> 32
    else stored g acc
  else if gicrOff g acc < gicrSgiOff then
    (vgicGicrRdEmulate (getElem g.vgic.gicr g.vcpu g.vcpu_lt) (gicrOff g acc) true
      (stored g acc)).2
  else if gicrUpdateId (gicrOff g acc - gicrSgiOff) ≠ none then stored g acc >>> 32
  else stored g acc

private theorem gicdWrite_val {gicd gicd' : Vgicd} {calls calls' : List GicCall} {off : Nat}
    {val val' : BitVec 64}
    (h : vgicGicdWriteEmulate gicd calls off val = .ok (gicd', calls', val')) :
    val' = if off = gicdCtlrOff then gicd.ctlr.setWidth 64
      else if gicdUpdateId off ≠ none then val >>> 32 else val := by
  unfold vgicGicdWriteEmulate at h
  split at h
  · rename_i hctlr
    cases pure_eq_ok.mp h
    rw [if_pos hctlr]
  · rename_i hctlr
    rw [if_neg hctlr]
    split at h
    · rename_i id hid
      obtain ⟨⟨b, v⟩, hrun, hval⟩ := bind_eq_ok.mp h
      cases pure_eq_ok.mp hval
      rw [if_pos (by rw [hid]; exact Option.some_ne_none id)]
      exact gicdHandler_val hrun
    · rename_i hid
      cases pure_eq_ok.mp h
      rw [if_neg (not_not_intro hid)]

private theorem gicrSgi_val {gicr gicr' : Redist} {calls calls' : List GicCall} {off : Nat}
    {val val' : BitVec 64}
    (h : vgicGicrSgiEmulate gicr calls off true val = .ok (gicr', calls', val')) :
    val' = if gicrUpdateId off ≠ none then val >>> 32 else val := by
  simp only [vgicGicrSgiEmulate, if_true] at h
  split at h
  · rename_i id hid
    obtain ⟨⟨b, v⟩, hrun, hval⟩ := bind_eq_ok.mp h
    cases pure_eq_ok.mp hval
    rw [if_pos (by rw [hid]; exact Option.some_ne_none id)]
    exact gicrHandler_val hrun
  · rename_i hid
    cases pure_eq_ok.mp h
    rw [if_neg (not_not_intro hid)]

section Store

variable {g g' : Guest} {acc : AccessInfo} {gicd : Bool}

/-- A store changes the saved registers in one place. -/
theorem vgicEmulate_store (hsrt : acc.srt < 32) (hwrite : acc.isWrite = true)
    (h : vgicEmulate g acc gicd = .ok g') :
    g'.regs = g.regs.set acc.srt (leftBehind g acc gicd) := by
  have hstored : stored g acc = g.regs[acc.srt] := by
    simp [stored, Vector.getD, hsrt]
  simp only [vgicEmulate, readAt_ok g.regs hsrt, ok_bind, writeAt_ok g.regs hsrt, hwrite,
    ← hstored] at h
  unfold leftBehind
  cases gicd with
  | true =>
      simp only [if_true, bind_eq_ok] at h
      obtain ⟨⟨d, calls, val⟩, hrun, hg'⟩ := h
      cases pure_eq_ok.mp hg'
      simp only [if_true, gicdWrite_val hrun]
      rfl
  | false =>
      have hoff : (acc.addr - g.vgic.gicrAddr).toNat = gicrOff g acc := rfl
      simp only [Bool.false_eq_true, if_false, hoff] at h ⊢
      by_cases hrd : gicrOff g acc < gicrSgiOff
      · rw [if_pos hrd] at h
        cases pure_eq_ok.mp h
        simp only [if_pos hrd]
      · rw [if_neg hrd, bind_eq_ok] at h
        obtain ⟨⟨r, calls, val⟩, hrun, hg'⟩ := h
        cases pure_eq_ok.mp hg'
        simp only [if_neg hrd, gicrSgi_val hrun]

private theorem rdEmulate_val (gicr : Redist) (off : Nat) (val : BitVec 64) :
    (vgicGicrRdEmulate gicr off true val).2 = val ↔
      off = gicrCtlrOff ∨ off = gicrIidrOff ∨ off = gicrTypeOff ∨ val = 0 := by
  simp only [vgicGicrRdEmulate, if_true]
  split_ifs with hctlr hiidr htype
  · simp only [hctlr, true_or]
  · simp only [hiidr, true_or, or_true]
  · simp only [htype, true_or, or_true]
  · simp only [hctlr, hiidr, htype, false_or]
    exact eq_comm

private theorem leftBehind_eq_stored :
    leftBehind g acc gicd = stored g acc ↔ StoreCond g acc gicd := by
  unfold leftBehind StoreCond
  cases gicd with
  | true =>
      simp only [if_true]
      by_cases hctlr : gicdOff g acc = gicdCtlrOff
      · have hnone : gicdUpdateId (gicdOff g acc) = none := by
          rw [hctlr]
          rfl
        rw [if_pos hctlr, hnone]
        simp only [hctlr, true_imp_iff, ne_eq, not_true_eq_false, false_imp_iff, and_true]
        exact eq_comm
      · rw [if_neg hctlr]
        by_cases hid : gicdUpdateId (gicdOff g acc) ≠ none
        · rw [if_pos hid, ushiftRight_32_eq_self]
          simp only [hctlr, false_imp_iff, true_and, ne_eq, hid, not_false_eq_true, true_imp_iff]
        · rw [if_neg hid]
          simp only [hctlr, false_imp_iff, true_and, hid]
  | false =>
      simp only [Bool.false_eq_true, if_false]
      by_cases hrd : gicrOff g acc < gicrSgiOff
      · rw [if_pos hrd, if_pos hrd]
        exact rdEmulate_val _ _ _
      · rw [if_neg hrd, if_neg hrd]
        by_cases hid : gicrUpdateId (gicrOff g acc - gicrSgiOff) ≠ none
        · rw [if_pos hid, ushiftRight_32_eq_self]
          simp only [ne_eq, hid, not_false_eq_true, true_imp_iff]
        · rw [if_neg hid]
          simp only [hid, false_imp_iff]

private theorem sameRegs_iff (hsrt : acc.srt < 32) (hwrite : acc.isWrite = true)
    (h : vgicEmulate g acc gicd = .ok g') :
    SameRegs g g' ↔ acc.srt = 31 ∨ StoreCond g acc gicd := by
  have hstored : stored g acc = g.regs[acc.srt] := by
    simp [stored, Vector.getD, hsrt]
  unfold SameRegs
  simp only [vgicEmulate_store hsrt hwrite h]
  rw [← leftBehind_eq_stored, hstored]
  constructor
  · intro hall
    by_cases hxzr : acc.srt = 31
    · exact Or.inl hxzr
    · right
      have hself := hall acc.srt (by omega)
      rw [Vector.getElem_set_self] at hself
      exact hself
  · rintro hcond n hn
    by_cases hn' : acc.srt = n
    · subst hn'
      rw [Vector.getElem_set_self]
      exact hcond.resolve_left (by omega)
    · rw [Vector.getElem_set_ne _ _ hn']

end Store

/-- **Stores of a guest.**  A store to the distributor or the redistributor is carried out and
leaves every register of the guest as it was if and only if it stays inside the arrays, and it
comes from `xzr` or is one of the stores that do not change the value they carry. -/
theorem store_keeps_regs (g : Guest) (acc : AccessInfo) (gicd : Bool) (hsrt : acc.srt < 32)
    (hwrite : acc.isWrite = true) :
    KeepsRegs g acc gicd ↔
      AccessCond g acc gicd ∧ (acc.srt = 31 ∨ StoreCond g acc gicd) := by
  constructor
  · rintro ⟨g', hrun, hsame⟩
    have hin : Inside (vgicEmulate g acc gicd) := by
      rw [hrun]
      rintro ⟨⟩
    exact ⟨(vgicEmulate_within hsrt gicd).inside.mp hin, (sameRegs_iff hsrt hwrite hrun).mp hsame⟩
  · rintro ⟨hin, hcond⟩
    obtain ⟨g', hrun⟩ := (vgicEmulate_within hsrt gicd).ok hin
    exact ⟨g', hrun, (sameRegs_iff hsrt hwrite hrun).mpr hcond⟩

/-- A store to `GICR_CTLR`. -/
theorem store_keeps_gicr_ctlr : KeepsRegs (guestWith 1) ⟨0x80A0000, 1, true⟩ false :=
  (store_keeps_regs (guestWith 1) ⟨0x80A0000, 1, true⟩ false (by decide) rfl).mpr
    ⟨fun (h : false = true) => absurd h (by decide), Or.inr (Or.inl (by decide))⟩

/-- The guest enables interrupt 33 from `x1`, and finds 0 there afterwards. -/
theorem isenabler1_clears_x1 :
    ¬ ∀ (g : Guest) (acc : AccessInfo) (gicd : Bool), acc.srt < 32 → acc.isWrite = true →
      KeepsRegs g acc gicd := by
  intro hall
  have hkeeps := hall (guestWith 2) ⟨0x8000104, 1, true⟩ true (by decide) rfl
  rw [store_keeps_regs (guestWith 2) ⟨0x8000104, 1, true⟩ true (by decide) rfl] at hkeeps
  obtain ⟨-, hxzr | ⟨-, hzero⟩⟩ := hkeeps
  · exact absurd hxzr (by decide)
  · exact absurd (hzero (by decide)) (by decide)

end RtHypervisor.Ports.VgicEmulate
