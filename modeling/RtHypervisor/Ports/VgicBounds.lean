import Mathlib.Tactic
import RtHypervisor.Ports.VgicEmulate

/-!
# The arrays of virtual interrupts

Which writes of a guest, and which numbers of the host's interrupt path, stay inside
`gicd->virqs[0..127]` and `gicr->virqs[0..31]`.  The redistributor is indexed with loop counters
and is never left; for the distributor it is a matter of the offset and of the bits written.
-/

namespace RtHypervisor.Ports.VgicEmulate

open RtHypervisor.Verified.Run
open RtHypervisor.Verified.PrefixArray
open RtHypervisor.Ports.ListRegister
open RtHypervisor.Ports.LrList
open RtHypervisor.Ports.SwitchContext
open RtHypervisor.Ports.Platform
open RtHypervisor.Ports.TrapIrq

/-! ## Computations that fail in one way -/

/-- `x` returns when `P` holds, and leaves an array otherwise. -/
structure Within {α : Type} (P : Prop) (x : Except Fault α) : Prop where
  ok : P → ∃ a, x = .ok a
  out : ¬ P → x = .error .outOfBounds

/-- No record outside an array is read or written. -/
def Inside {α : Type} (x : Except Fault α) : Prop := x ≠ .error .outOfBounds

section Within

variable {α β : Type} {P Q : Prop} {x : Except Fault α} {f : α → Except Fault β}

theorem Within.inside (h : Within P x) : Inside x ↔ P := by
  constructor
  · intro hin
    by_contra hP
    exact hin (h.out hP)
  · intro hP hout
    obtain ⟨a, ha⟩ := h.ok hP
    rw [ha] at hout
    cases hout

theorem Within.of_ok {a : α} (h : P) : Within P (.ok a : Except Fault α) :=
  ⟨fun _ => ⟨a, rfl⟩, fun hP => absurd h hP⟩

theorem Within.congr (h : Within P x) (hiff : P ↔ Q) : Within Q x :=
  ⟨fun hQ => h.ok (hiff.mpr hQ), fun hQ => h.out fun hP => hQ (hiff.mp hP)⟩

/-- Two steps of which neither depends on what the other returns. -/
theorem Within.bind (h : Within P x) (hf : ∀ a, Within Q (f a)) : Within (P ∧ Q) (x >>= f) := by
  constructor
  · rintro ⟨hP, hQ⟩
    obtain ⟨a, ha⟩ := h.ok hP
    rw [ha]
    exact (hf a).ok hQ
  · intro hPQ
    by_cases hP : P
    · obtain ⟨a, ha⟩ := h.ok hP
      rw [ha]
      exact (hf a).out fun hQ => hPQ ⟨hP, hQ⟩
    · rw [h.out hP]
      rfl

theorem Within.bind_ok (h : Within P x) (hf : ∀ a, ∃ b, f a = .ok b) : Within P (x >>= f) := by
  have hthen : ∀ a, Within True (f a) := by
    intro a
    obtain ⟨b, hb⟩ := hf a
    rw [hb]
    exact Within.of_ok trivial
  exact (h.bind hthen).congr (and_iff_left trivial)

end Within

section Loops

variable {n : Nat}

private theorem through_within (b : Bank n) (i : Int) (op : Virq → Virq × List GicCall) :
    Within (0 ≤ i ∧ i < n) (b.through i op) := by
  unfold Bank.through
  by_cases hneg : i < 0
  · rw [if_pos hneg]
    exact ⟨fun h => absurd h.1 (by omega), fun _ => rfl⟩
  · rw [if_neg hneg]
    by_cases hlt : i.toNat < n
    · rw [readAt_ok b.virqs hlt, ok_bind, writeAt_ok b.virqs hlt]
      exact Within.of_ok (by omega)
    · refine ⟨fun h => absurd h.2 (by omega), fun _ => ?_⟩
      simp only [readAt, hlt, dif_neg, not_false_eq_true, error_bind]

/-- One round after the other: a loop stays inside when every round does. -/
theorem lanes_within {P : Nat → BitVec 64 → Prop} {width : Nat}
    {body : Bank n → Nat → BitVec 64 → Except Fault (Bank n)}
    (hbody : ∀ b i val, Within (P i val) (body b i val)) (count i : Nat) (b : Bank n)
    (val : BitVec 64) :
    Within (∀ k, k < count → P (i + k) (val >>> (width * k))) (lanes width body count i b val) := by
  induction count generalizing i b val with
  | zero => exact Within.of_ok fun k hk => absurd hk (Nat.not_lt_zero k)
  | succ count ih =>
      have hnext : ∀ k, P (i + (k + 1)) (val >>> (width * (k + 1))) =
          P (i + 1 + k) (val >>> width >>> (width * k)) := by
        intro k
        rw [Nat.mul_succ, Nat.add_comm (width * k), BitVec.shiftRight_add, Nat.add_assoc,
          Nat.add_comm 1 k]
      have hsplit : (P i val ∧ ∀ k, k < count → P (i + 1 + k) (val >>> width >>> (width * k))) ↔
          ∀ k, k < count + 1 → P (i + k) (val >>> (width * k)) := by
        rw [Nat.forall_lt_succ_left]
        simp only [Nat.add_zero, Nat.mul_zero, BitVec.ushiftRight_zero, hnext]
      exact ((hbody b i val).bind fun b => ih (i + 1) b (val >>> width)).congr hsplit

theorem and_one_eq_one (val : BitVec 64) : val &&& 0b1 = 1 ↔ val.getLsbD 0 = true := by
  have hone : val &&& 0b1 = BitVec.setWidth 64 (BitVec.ofBool (val.getLsbD 0)) :=
    BitVec.and_one_eq_setWidth_ofBool_getLsbD
  rw [hone]
  cases val.getLsbD 0 <;> decide

/-- Whether some of the low 32 bits are set. -/
theorem setWidth_eq_zero (val : BitVec 64) :
    val.setWidth 32 = 0 ↔ ∀ k, k < 32 → val.getLsbD k = false := by
  constructor
  · intro hzero k hk
    have hbit := congrArg (fun v : BitVec 32 => v.getLsbD k) hzero
    simpa [BitVec.getLsbD_setWidth, hk] using hbit
  · intro hall
    apply BitVec.eq_of_getLsbD_eq
    intro k hk
    rw [BitVec.getLsbD_setWidth, hall k hk]
    simp

/-- A bit register stays inside when it covers interrupts of the array only, or when the interrupts
from `low` on that it covers are none or their bits are clear. -/
theorem writeBits_within (irq base low : Nat) (op : Virq → Virq × List GicCall) (b : Bank n)
    (val : BitVec 64) :
    Within (∀ k, k < 32 → val.getLsbD k = true → low ≤ irq + k →
        base ≤ irq + k ∧ irq + k < base + n)
      (writeBits irq base low op b val) := by
  have hbody : ∀ (b : Bank n) (i : Nat) (val : BitVec 64),
      Within (val.getLsbD 0 = true → low ≤ irq + i → base ≤ irq + i ∧ irq + i < base + n)
        (if val &&& 0b1 = 1 ∧ low ≤ irq + i then b.through ((irq + i : Nat) - (base : Nat)) op
          else pure b) := by
    intro b i val
    by_cases hset : val &&& 0b1 = 1 ∧ low ≤ irq + i
    · rw [if_pos hset]
      have hbit := (and_one_eq_one val).mp hset.1
      have hlow := hset.2
      refine (through_within b _ op).congr ?_
      constructor
      · intro hin _ _
        omega
      · intro hin
        have hbounds := hin hbit hlow
        omega
    · rw [if_neg hset]
      refine Within.of_ok fun hbit hlow => ?_
      exact absurd ⟨(and_one_eq_one val).mpr hbit, hlow⟩ hset
  have hall := @lanes_within n _ 1 _ hbody 32 0 b val
  simp only [BitVec.getLsbD_ushiftRight, Nat.zero_add, Nat.one_mul, Nat.add_zero] at hall
  exact hall

private theorem writeFields_within (width count irq base : Nat)
    (op : BitVec 64 → Virq → Virq × List GicCall) (b : Bank n) (val : BitVec 64) :
    Within (∀ k, k < count → base ≤ irq + k ∧ irq + k < base + n)
      (writeFields width count irq base op b val) := by
  have hbody : ∀ (b : Bank n) (i : Nat) (val : BitVec 64),
      Within (base ≤ irq + i ∧ irq + i < base + n)
        (b.through ((irq + i : Nat) - (base : Nat)) (op val)) := by
    intro b i val
    refine (through_within b _ (op val)).congr ?_
    omega
  have hall := @lanes_within n _ width _ hbody count 0 b val
  simp only [Nat.zero_add] at hall
  exact hall

end Loops

/-! ## The distributor -/

/-- Which writes to the distributor stay inside `gicd->virqs`: for the enable registers those that
set no bit or name INTIDs 32 to 159, for the pending registers also those of private interrupts,
which are skipped, and for the two others those that name INTIDs 32 to 159. -/
def GicdWriteCond (off : Nat) (val : BitVec 64) : Prop :=
  match gicdUpdateId off with
  | some .isen => val.setWidth 32 = 0 ∨ 0x104 ≤ off ∧ off < 0x114
  | some .icen => val.setWidth 32 = 0 ∨ 0x184 ≤ off ∧ off < 0x194
  | some .ispnd => val.setWidth 32 = 0 ∨ off < 0x214
  | some .icpnd => val.setWidth 32 = 0 ∨ off < 0x294
  | some .prio => 0x420 ≤ off ∧ off < 0x4A0
  | some .icfgr => 0xC08 ≤ off ∧ off < 0xC28
  | none => True

/-- The registers of which `gicdUpdateId` picks the handler. -/
theorem gicdUpdateId_range {off : Nat} {id : UpdateId} (h : gicdUpdateId off = some id) :
    match id with
    | .isen => 0x100 ≤ off ∧ off ≤ 0x17C
    | .icen => 0x180 ≤ off ∧ off ≤ 0x1FC
    | .ispnd => 0x200 ≤ off ∧ off ≤ 0x27C
    | .icpnd => 0x280 ≤ off ∧ off ≤ 0x2FC
    | .prio => 0x400 ≤ off ∧ off ≤ 0x7F8
    | .icfgr => 0xC00 ≤ off ∧ off ≤ 0xCFC := by
  unfold gicdUpdateId at h
  split_ifs at h <;> cases h <;> assumption

/-- The interrupts of one bit register, all inside the array or all outside. -/
theorem bits_inside {irq low : Nat} {val : BitVec 64} {c : Prop} (hlow : low ≤ irq ∨ c)
    (hc : c ↔ 32 ≤ irq ∧ irq < 160 ∨ irq + 31 < low) (halign : irq % 32 = 0) :
    (∀ k, k < 32 → val.getLsbD k = true → low ≤ irq + k →
      virqPrivNum ≤ irq + k ∧ irq + k < virqPrivNum + gicdVirqNum) ↔ val.setWidth 32 = 0 ∨ c := by
  have hpriv : virqPrivNum = 32 := rfl
  have hnum : gicdVirqNum = 128 := rfl
  rw [setWidth_eq_zero, hpriv, hnum]
  constructor
  · intro hin
    by_cases hcond : c
    · exact Or.inr hcond
    · left
      intro k hk
      by_contra hset
      have hlowirq : low ≤ irq := hlow.resolve_right hcond
      have hbounds := hin k hk (by simpa using hset) (by omega)
      apply hcond
      rw [hc]
      omega
  · rintro (hzero | hcond) k hk hset hlowk
    · rw [hzero k hk] at hset
      cases hset
    · rw [hc] at hcond
      omega

/-- Each handler, on the offsets that reach it. -/
theorem gicdHandler_within {off : Nat} {id : UpdateId} (hid : gicdUpdateId off = some id)
    (b : Bank gicdVirqNum) (val : BitVec 64) :
    Within (GicdWriteCond off val) (vgicGicdWriteHandlers off id b val) := by
  have hrange := gicdUpdateId_range hid
  have hpriv : virqPrivNum = 32 := rfl
  have hnum : gicdVirqNum = 128 := rfl
  unfold GicdWriteCond
  rw [hid]
  cases id with
  | isen =>
      exact (writeBits_within _ _ _ _ b val).congr (bits_inside (Or.inl (Nat.zero_le _))
        (by simp only [gicdIsenOff]; omega) (Nat.mul_mod_right _ _))
  | icen =>
      exact (writeBits_within _ _ _ _ b val).congr (bits_inside (Or.inl (Nat.zero_le _))
        (by simp only [gicdIcenOff]; omega) (Nat.mul_mod_right _ _))
  | ispnd =>
      exact (writeBits_within _ _ _ _ b val).congr (bits_inside (by simp only [gicdIspndOff]; omega)
        (by simp only [gicdIspndOff]; omega) (Nat.mul_mod_right _ _))
  | icpnd =>
      exact (writeBits_within _ _ _ _ b val).congr (bits_inside (by simp only [gicdIcpndOff]; omega)
        (by simp only [gicdIcpndOff]; omega) (Nat.mul_mod_right _ _))
  | prio =>
      refine (writeFields_within 8 4 _ _ setPrio b val).congr ?_
      simp only [gicdPrioOff, hpriv, hnum]
      constructor
      · intro hin
        have hfirst := hin 0 (by decide)
        have hlast := hin 3 (by decide)
        omega
      · intro hin k hk
        omega
  | icfgr =>
      refine (writeFields_within 2 16 _ _ setCfg b val).congr ?_
      simp only [gicdIcfgrOff, hpriv, hnum]
      constructor
      · intro hin
        have hfirst := hin 0 (by decide)
        have hlast := hin 15 (by decide)
        omega
      · intro hin k hk
        omega

private theorem gicdWrite_within (gicd : Vgicd) (calls : List GicCall) (off : Nat)
    (val : BitVec 64) :
    Within (GicdWriteCond off val) (vgicGicdWriteEmulate gicd calls off val) := by
  unfold vgicGicdWriteEmulate
  by_cases hctlr : off = gicdCtlrOff
  · rw [if_pos hctlr]
    refine Within.of_ok ?_
    rw [hctlr]
    trivial
  · rw [if_neg hctlr]
    cases hid : gicdUpdateId off with
    | none =>
        refine Within.of_ok ?_
        unfold GicdWriteCond
        rw [hid]
        trivial
    | some id => exact (gicdHandler_within hid _ val).bind_ok fun r => ⟨_, rfl⟩

/-! ## The redistributor -/

private theorem gicrHandler_ok (id : UpdateId) (b : Bank virqPrivNum) (val : BitVec 64) :
    ∃ r, vgicGicrSgiWriteHandler id b val = .ok r := by
  have hpriv : virqPrivNum = 32 := rfl
  have hbits : ∀ op, ∃ r, writeBits 0 0 0 op b val = .ok r := by
    intro op
    apply (writeBits_within 0 0 0 op b val).ok
    intro k hk _ _
    omega
  have hfields : ∀ width count op, count ≤ 16 →
      ∃ r, writeFields width count 0 0 op b val = .ok r := by
    intro width count op hcount
    apply (writeFields_within width count 0 0 op b val).ok
    intro k hk
    omega
  cases id with
  | isen => exact hbits _
  | icen => exact hbits _
  | ispnd => exact hbits _
  | icpnd => exact hbits _
  | prio => exact hfields 8 4 setPrio (by decide)
  | icfgr => exact hfields 2 16 setCfg (by decide)

private theorem gicrSgi_ok (gicr : Redist) (calls : List GicCall) (off : Nat) (isWrite : Bool)
    (val : BitVec 64) : ∃ r, vgicGicrSgiEmulate gicr calls off isWrite val = .ok r := by
  unfold vgicGicrSgiEmulate
  split
  · rename_i id _
    obtain ⟨r, hr⟩ := gicrHandler_ok id ⟨gicr.virqs, calls⟩ val
    rw [hr]
    exact ⟨_, rfl⟩
  · exact ⟨_, rfl⟩

/-! ## `vgic_emulate` -/

/-- The offset of an access in the window of the distributor. -/
def gicdOff (g : Guest) (acc : AccessInfo) : Nat := (acc.addr - g.vgic.gicdAddr).toNat

/-- The value of the register a store takes it from. -/
def stored (g : Guest) (acc : AccessInfo) : BitVec 64 := g.regs.getD acc.srt 0

/-- Which accesses keep inside the arrays. -/
def AccessCond (g : Guest) (acc : AccessInfo) (gicd : Bool) : Prop :=
  gicd = true → acc.isWrite = true → GicdWriteCond (gicdOff g acc) (stored g acc)

theorem vgicEmulate_within {g : Guest} {acc : AccessInfo} (hsrt : acc.srt < 32) (gicd : Bool) :
    Within (AccessCond g acc gicd) (vgicEmulate g acc gicd) := by
  have hstored : stored g acc = g.regs[acc.srt] := by
    simp [stored, Vector.getD, hsrt]
  unfold vgicEmulate
  rw [readAt_ok g.regs hsrt, ok_bind]
  cases gicd with
  | false =>
      have hreturns : ∀ {x : Except Fault Guest}, (∃ r, x = .ok r) →
          Within (AccessCond g acc false) x := by
        rintro x ⟨r, rfl⟩
        exact Within.of_ok fun h => by cases h
      apply hreturns
      simp only [Bool.false_eq_true, if_false, writeAt_ok g.regs hsrt, ok_bind]
      split
      · exact ⟨_, rfl⟩
      · obtain ⟨⟨r, calls, val⟩, hr⟩ := gicrSgi_ok g.vgic.gicr[g.vcpu] g.calls
          ((acc.addr - g.vgic.gicrAddr).toNat - gicrSgiOff) acc.isWrite g.regs[acc.srt]
        rw [hr]
        exact ⟨_, rfl⟩
  | true =>
      simp only [if_true, writeAt_ok g.regs hsrt, ok_bind]
      cases hwrite : acc.isWrite with
      | false => exact Within.of_ok fun _ h => by rw [hwrite] at h; cases h
      | true =>
          have hcond : GicdWriteCond (gicdOff g acc) g.regs[acc.srt] ↔ AccessCond g acc true := by
            simp only [AccessCond, hwrite, hstored, true_imp_iff]
          exact ((gicdWrite_within g.vgic.gicd g.calls _ _).bind_ok fun r => ⟨_, rfl⟩).congr hcond

/-! ## The interrupt path of the host -/

/-- The look-ups of `rt_hw_trap_irq`: the owner, and the record that is injected. -/
def irqLookups (h : Host) (ir : Nat) : Except Fault (Option Virq) :=
  if ir = 1023 then pure none
  else do
    match ← vcpuGetIrqOwner h ir with
    | some v =>
        let virq ← vgicGetVirq h v ir
        pure (some virq)
    | none => pure none

/-- No VM has more vCPUs than the arrays hold. -/
def VcpusFit (h : Host) : Prop :=
  ∀ (i : Nat) (hi : i < maxVmNum) (slot : VmSlot), h.vms[i] = some slot → slot.nrVcpus ≤ maxVcpuNum

/-- The first VM among those at `is` has no distributor, or there is none. -/
def NoGicd (h : Host) : List Nat → Prop
  | [] => True
  | i :: is =>
      match readAt h.vms i with
      | .ok (some slot) => slot.gicd = none
      | _ => NoGicd h is

/-- Which numbers are looked up inside the arrays. -/
def IrqCond (h : Host) (ir : Nat) : Prop :=
  ir = 1023 ∨ ir < virqPrivNum + gicdVirqNum ∨ NoGicd h (List.range maxVmNum)

section Host

variable {h : Host} {ir : Nat} {slot : VmSlot}

private theorem privOwner_ok (hir : ir < virqPrivNum) {js : List Nat}
    (hjs : ∀ j ∈ js, j < maxVcpuNum) (i : Nat) : ∃ r, privOwner h.machine slot i ir js = .ok r := by
  induction js with
  | nil => exact ⟨_, rfl⟩
  | cons j js ih =>
      have hj : j < maxVcpuNum := hjs j List.mem_cons_self
      simp only [privOwner, readAt_ok slot.gicrSet hj, ok_bind]
      split
      · rw [readAt_ok (h.machine.gicr ⟨i, j⟩).virqs hir, ok_bind]
        split
        · simp only [vcpuAt, readAt_ok slot.vcpus hj, ok_bind]
          exact ⟨_, rfl⟩
        · exact ih fun k hk => hjs k (List.mem_cons_of_mem j hk)
      · exact ⟨_, rfl⟩

private theorem ownerIn_within (hfit : slot.nrVcpus ≤ maxVcpuNum) (i : Nat) :
    Within (ir < virqPrivNum + gicdVirqNum ∨ slot.gicd = none) (ownerIn h.machine slot i ir) := by
  unfold ownerIn
  by_cases hpriv : ir < virqPrivNum
  · rw [if_pos hpriv]
    obtain ⟨r, hr⟩ := @privOwner_ok h _ slot hpriv _
      (fun j hj => lt_of_lt_of_le (List.mem_range.mp hj) hfit) i
    rw [hr]
    exact Within.of_ok (Or.inl (by omega))
  · rw [if_neg hpriv]
    cases hgicd : slot.gicd with
    | none => exact Within.of_ok (Or.inr rfl)
    | some gicd =>
        by_cases hir : ir < virqPrivNum + gicdVirqNum
        · have hlt : ir - virqPrivNum < gicdVirqNum := by omega
          have hzero : 0 < maxVcpuNum := by decide
          have hreturns : ∃ r, (readAt gicd (ir - virqPrivNum) >>= fun virq =>
              if virq.enable && virq.hw then do
                let v ← vcpuAt slot i 0
                pure (some v)
              else pure none) = .ok r := by
            rw [readAt_ok gicd hlt, ok_bind]
            split
            · simp only [vcpuAt, readAt_ok slot.vcpus hzero, ok_bind]
              exact ⟨_, rfl⟩
            · exact ⟨_, rfl⟩
          exact ⟨fun _ => hreturns, fun hno => absurd (Or.inl hir) hno⟩
        · have hlt : ¬ ir - virqPrivNum < gicdVirqNum := by omega
          refine ⟨fun hin => absurd (hin.resolve_left hir) (by simp), fun _ => ?_⟩
          simp only [readAt, hlt, dif_neg, not_false_eq_true, error_bind]

private theorem ownerFrom_within (hfit : VcpusFit h) {is : List Nat}
    (his : ∀ i ∈ is, i < maxVmNum) :
    Within (ir < virqPrivNum + gicdVirqNum ∨ NoGicd h is) (ownerFrom h ir is) := by
  induction is with
  | nil => exact Within.of_ok (Or.inr trivial)
  | cons i is ih =>
      have hi : i < maxVmNum := his i List.mem_cons_self
      have hrest := ih fun k hk => his k (List.mem_cons_of_mem i hk)
      cases hvm : h.vms[i] with
      | none =>
          have hread : readAt h.vms i = .ok none := by rw [readAt_ok h.vms hi, hvm]
          simp only [ownerFrom, NoGicd, hread, ok_bind]
          exact hrest
      | some slot =>
          have hread : readAt h.vms i = .ok (some slot) := by rw [readAt_ok h.vms hi, hvm]
          have hin := @ownerIn_within h ir _ (hfit i hi slot hvm) i
          simp only [ownerFrom, NoGicd, hread, ok_bind]
          refine ⟨fun hcond => ?_, fun hno => ?_⟩
          · by_cases hir : ir < virqPrivNum + gicdVirqNum
            · obtain ⟨r, hr⟩ := hin.ok (Or.inl hir)
              rw [hr, ok_bind]
              cases r with
              | none => exact hrest.ok (Or.inl hir)
              | some v => exact ⟨v, rfl⟩
            · -- the look-up ends at a VM without a distributor
              have hgicd : slot.gicd = none := hcond.resolve_left hir
              have hpriv : ¬ ir < virqPrivNum := by omega
              have hend : ownerIn h.machine slot i ir = .ok (some none) := by
                simp only [ownerIn, hpriv, if_false, hgicd]
                rfl
              rw [hend]
              exact ⟨none, rfl⟩
          · rw [hin.out hno]
            rfl

private theorem irqLookups_within (hfit : VcpusFit h) :
    Within (IrqCond h ir) (irqLookups h ir) := by
  unfold irqLookups
  by_cases hspurious : ir = 1023
  · rw [if_pos hspurious]
    exact Within.of_ok (Or.inl hspurious)
  · rw [if_neg hspurious]
    have howner := @ownerFrom_within h ir hfit (List.range maxVmNum)
      fun i hi => List.mem_range.mp hi
    have hcond : (ir < virqPrivNum + gicdVirqNum ∨ NoGicd h (List.range maxVmNum)) ↔
        IrqCond h ir := (or_iff_right hspurious).symm
    refine Within.congr ?_ hcond
    refine ⟨fun hin => ?_, fun hno => ?_⟩
    · obtain ⟨r, hr⟩ := howner.ok hin
      simp only [vcpuGetIrqOwner, hr, ok_bind]
      cases r with
      | none => exact ⟨none, rfl⟩
      | some v =>
          obtain ⟨virq, hvirq, -⟩ := (ownerFrom_owns hr).virq
          simp only [hvirq, ok_bind]
          exact ⟨some virq, rfl⟩
    · simp only [vcpuGetIrqOwner, howner.out hno, error_bind]

end Host

/-! ## Both -/

/-- **The virtual interrupts**, for every access of a guest and every number read from the GIC. -/
theorem virqs_inside (g : Guest) (acc : AccessInfo) (gicd : Bool) (h : Host) (ir : Nat) :
    (acc.srt < 32 → (Inside (vgicEmulate g acc gicd) ↔ AccessCond g acc gicd)) ∧
      (VcpusFit h → (Inside (irqLookups h ir) ↔ IrqCond h ir)) :=
  ⟨fun hsrt => (vgicEmulate_within hsrt gicd).inside, fun hfit => (irqLookups_within hfit).inside⟩

/-- A guest whose registers all hold `val`, with the distributor at 0x8000000. -/
def guestWith (val : BitVec 64) : Guest where
  vgic :=
    { gicdAddr := 0x8000000
      gicrAddr := 0x80A0000
      gicd := ⟨0, 0, 0, Vector.replicate gicdVirqNum (spi 0)⟩
      gicr := Vector.replicate maxVcpuNum ⟨0, 0, 0, Vector.replicate virqPrivNum (spi 0)⟩ }
  vcpu := ⟨0, maxVcpuNum_pos⟩
  regs := Vector.replicate 32 val
  calls := []

theorem virqs_inside_uart :
    Inside (vgicEmulate (guestWith 2) ⟨0x8000104, 1, true⟩ true) ∧
      Inside (irqLookups (consoleHost .online) 33) := by
  have hfit : VcpusFit (consoleHost .online) := by
    intro i hi slot hslot
    have hvm : (consoleHost .online).vms[i] = some slot → i = 0 := by
      intro h
      by_contra hne
      simp [consoleHost, Vector.getElem_set_ne, Ne.symm hne] at h
    have hi0 := hvm hslot
    subst hi0
    cases hslot
    decide
  obtain ⟨hguest, hhost⟩ :=
    virqs_inside (guestWith 2) ⟨0x8000104, 1, true⟩ true (consoleHost .online) 33
  exact ⟨(hguest (by decide)).mpr (fun _ _ => Or.inr (by decide)),
    (hhost hfit).mpr (Or.inr (Or.inl (by decide)))⟩

/-- `GICD_ISENABLER0`: the guest enables interrupt 0, which is `virqs[-32]`. -/
theorem isenabler0_outside :
    ¬ ((∀ (g : Guest) (acc : AccessInfo) (gicd : Bool), acc.srt < 32 → acc.isWrite = true →
        Inside (vgicEmulate g acc gicd)) ∧
      ∀ (h : Host) (ir : Nat), VcpusFit h → Inside (irqLookups h ir)) := by
  rintro ⟨hall, -⟩
  have hout : ¬ AccessCond (guestWith 1) ⟨0x8000100, 1, true⟩ true := by
    intro hcond
    have hbits : (1 : BitVec 64).setWidth 32 = 0 ∨ 0x104 ≤ 0x100 ∧ 0x100 < 0x114 := hcond rfl rfl
    exact absurd hbits (by decide)
  exact hall (guestWith 1) ⟨0x8000100, 1, true⟩ true (by decide) rfl
    ((vgicEmulate_within (by decide) true).out hout)

end RtHypervisor.Ports.VgicEmulate
