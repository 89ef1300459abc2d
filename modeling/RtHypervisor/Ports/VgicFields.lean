import Mathlib
import RtHypervisor.Ports.VgicRegs

/-!
# Which interrupts a register write updates

A register of the GIC holds a field for each of the interrupts it covers: one bit, two or eight.
`expected` says what a write to register number `k` of a bank does to an interrupt.  The six
handlers of the distributor do that.  So do those of the redistributor for the first register of
each bank; for the later `IPRIORITYR` and for `ICFGR1` they compute the number of the interrupt and
then index `virqs` with the loop counter.
-/

namespace RtHypervisor.Ports.VgicEmulate

open RtHypervisor.Verified.Run
open RtHypervisor.Verified.PrefixArray
open RtHypervisor.Ports.ListRegister
open RtHypervisor.Ports.TrapIrq

/-! ## Registers and their fields -/

/-- The offset of the first register of a bank, the same in both windows. -/
def bankOff : UpdateId → Nat
  | .isen => 0x100
  | .icen => 0x180
  | .ispnd => 0x200
  | .icpnd => 0x280
  | .prio => 0x400
  | .icfgr => 0xC00

/-- The number of interrupts a register covers. -/
def covers : UpdateId → Nat
  | .prio => 4
  | .icfgr => 16
  | _ => 32

/-- The width of its fields. -/
def fieldWidth : UpdateId → Nat
  | .prio => 8
  | .icfgr => 2
  | _ => 1

/-- What a write does to an interrupt of which the field is in the low bits of `lane`. -/
def writeField (id : UpdateId) (lane : BitVec 64) (virq : Virq) : Virq :=
  match id with
  | .isen => if lane.getLsbD 0 then { virq with enable := true } else virq
  | .icen => if lane.getLsbD 0 then { virq with enable := false } else virq
  | .ispnd =>
      if lane.getLsbD 0 then
        { virq with state := match virq.state with
            | .inactive => .pending
            | .active => .pendingActive
            | st => st }
      else virq
  | .icpnd =>
      if lane.getLsbD 0 then
        { virq with state := match virq.state with
            | .pending => .inactive
            | .pendingActive => .active
            | st => st }
      else virq
  | .prio => { virq with prio := lane.setWidth 8 }
  | .icfgr => { virq with cfg := (lane.setWidth 2).setWidth 8 }

/-- Interrupt `intid` after a write of `val` to register `k` of a bank. -/
def expected (id : UpdateId) (k : Nat) (val : BitVec 64) (intid : Nat) (virq : Virq) : Virq :=
  if covers id * k ≤ intid ∧ intid < covers id * (k + 1) then
    writeField id (val >>> (fieldWidth id * (intid - covers id * k))) virq
  else virq

/-- The array of interrupts from `base` on, after the write. -/
def expectedAll {n : Nat} (id : UpdateId) (k : Nat) (val : BitVec 64) (base : Nat)
    (virqs : Vector Virq n) : Vector Virq n :=
  Vector.ofFn fun j => expected id k val (base + j) virqs[j]

/-- An access writes register `k` of a bank, which exists in the window. -/
def Names (g : Guest) (acc : AccessInfo) (gicd : Bool) (id : UpdateId) (k : Nat) : Prop :=
  acc.isWrite = true ∧
    if gicd then gicdOff g acc = bankOff id + 4 * k ∧
      virqPrivNum ≤ covers id * k ∧ covers id * (k + 1) ≤ virqPrivNum + gicdVirqNum
    else gicrOff g acc = gicrSgiOff + (bankOff id + 4 * k) ∧ covers id * (k + 1) ≤ virqPrivNum

/-- What the vGIC is after the write. -/
def expectedVgic (g : Guest) (acc : AccessInfo) (gicd : Bool) (id : UpdateId) (k : Nat) : Vgic :=
  if gicd then
    { g.vgic with gicd := { g.vgic.gicd with
        virqs := expectedAll id k (stored g acc) virqPrivNum g.vgic.gicd.virqs } }
  else
    let gicr := getElem g.vgic.gicr g.vcpu g.vcpu_lt
    { g.vgic with gicr := g.vgic.gicr.set g.vcpu { gicr with
        virqs := expectedAll id k (stored g acc) 0 gicr.virqs } g.vcpu_lt }

/-- The write updates the interrupts it names and no others. -/
def Updates (g : Guest) (acc : AccessInfo) (gicd : Bool) (id : UpdateId) (k : Nat) : Prop :=
  ∃ g', vgicEmulate g acc gicd = .ok g' ∧ g'.vgic = expectedVgic g acc gicd id k

/-- The condition on a write to the redistributor: it is to the first register of the bank, or the
fields it holds are those that its interrupts and the first ones of the window have already. -/
def LaneCond (g : Guest) (acc : AccessInfo) (id : UpdateId) (k : Nat) : Prop :=
  k = 0 ∨ ∀ i, i < covers id → ∀ j (hj : j < virqPrivNum), j = i ∨ j = covers id * k + i →
    writeField id (stored g acc >>> (fieldWidth id * i)) g.vgic.gicr[g.vcpu].virqs[j] =
      g.vgic.gicr[g.vcpu].virqs[j]

/-! ## The loops -/

section Loops

variable {n irq base : Nat} {b b' : Bank n} {val val' : BitVec 64}

private theorem through_virqs {op : Virq → Virq × List GicCall}
    (h : b.through ((irq : Nat) - (base : Nat)) op = .ok b') {j : Nat} (hj : j < n) :
    b'.virqs[j] = if base + j = irq then (op b.virqs[j]).1 else b.virqs[j] := by
  unfold Bank.through at h
  by_cases hneg : (irq : Int) - (base : Int) < 0
  · rw [if_pos hneg] at h
    cases h
  · rw [if_neg hneg] at h
    obtain ⟨virq, hread, h⟩ := bind_eq_ok.mp h
    obtain ⟨hlt, rfl⟩ := readAt_eq_ok.mp hread
    rw [writeAt_ok b.virqs hlt, ok_bind] at h
    cases pure_eq_ok.mp h
    by_cases hidx : base + j = irq
    · have htonat : ((irq : Int) - (base : Int)).toNat = j := by omega
      simp only [htonat, if_pos hidx, Vector.getElem_set_self]
    · have hne : ((irq : Int) - (base : Int)).toNat ≠ j := by omega
      simp only [if_neg hidx, Vector.getElem_set_ne hlt hj hne]

/-- Each round works on one interrupt, so the loop works on each interrupt of the register once,
with its own field. -/
theorem lanes_virqs {width : Nat} {body : Bank n → Nat → BitVec 64 → Except Fault (Bank n)}
    (irq base : Nat) (f : BitVec 64 → Virq → Virq)
    (hbody : ∀ {b b' : Bank n} {i : Nat} {val : BitVec 64}, body b i val = .ok b' →
      ∀ {j : Nat} (hj : j < n),
        b'.virqs[j] = if base + j = irq + i then f val b.virqs[j] else b.virqs[j])
    {count i : Nat} (h : lanes width body count i b val = .ok (b', val')) {j : Nat} (hj : j < n) :
    b'.virqs[j] = if irq + i ≤ base + j ∧ base + j < irq + i + count then
      f (val >>> (width * (base + j - (irq + i)))) b.virqs[j] else b.virqs[j] := by
  induction count generalizing i b val with
  | zero =>
      cases pure_eq_ok.mp h
      rw [if_neg (by omega)]
  | succ count ih =>
      simp only [lanes, bind_eq_ok] at h
      obtain ⟨b₁, hround, hrest⟩ := h
      rw [ih hrest, hbody hround hj]
      by_cases hthis : base + j = irq + i
      · have hnow : irq + i ≤ base + j ∧ base + j < irq + i + (count + 1) := by omega
        have hlater : ¬ (irq + (i + 1) ≤ base + j ∧ base + j < irq + (i + 1) + count) := by omega
        rw [if_neg hlater, if_pos hthis, if_pos hnow, hthis, Nat.sub_self, Nat.mul_zero,
          BitVec.ushiftRight_zero]
      · rw [if_neg hthis]
        by_cases hin : irq + (i + 1) ≤ base + j ∧ base + j < irq + (i + 1) + count
        · have hin' : irq + i ≤ base + j ∧ base + j < irq + i + (count + 1) := by omega
          have hshift : width * (base + j - (irq + i)) =
              width + width * (base + j - (irq + (i + 1))) := by
            have hdist : base + j - (irq + i) = base + j - (irq + (i + 1)) + 1 := by omega
            rw [hdist, Nat.mul_succ, Nat.add_comm]
          rw [if_pos hin, if_pos hin', hshift, BitVec.shiftRight_add]
        · have hout : ¬ (irq + i ≤ base + j ∧ base + j < irq + i + (count + 1)) := by omega
          rw [if_neg hin, if_neg hout]

private theorem writeBits_virqs {low : Nat} {op : Virq → Virq × List GicCall} (hlow : low ≤ irq)
    (h : writeBits irq base low op b val = .ok (b', val')) {j : Nat} (hj : j < n) :
    b'.virqs[j] = if irq ≤ base + j ∧ base + j < irq + 32 then
      (if (val >>> (base + j - irq)).getLsbD 0 then (op b.virqs[j]).1 else b.virqs[j])
      else b.virqs[j] := by
  have hall := lanes_virqs irq base (fun val virq => if val.getLsbD 0 then (op virq).1 else virq)
    (fun {b b' i val} hround {j} hj => ?_) h hj
  · simpa only [Nat.add_zero, Nat.one_mul] using hall
  · by_cases hset : val &&& 0b1 = 1 ∧ low ≤ irq + i
    · rw [if_pos hset] at hround
      rw [through_virqs hround hj, if_pos ((and_one_eq_one val).mp hset.1)]
    · rw [if_neg hset] at hround
      cases pure_eq_ok.mp hround
      have hclear : val.getLsbD 0 = false := by
        by_contra hbit
        exact hset ⟨(and_one_eq_one val).mpr (by simpa using hbit), by omega⟩
      simp only [hclear, Bool.false_eq_true, if_false, ite_self]

private theorem writeFields_virqs {width count : Nat} {op : BitVec 64 → Virq → Virq × List GicCall}
    (h : writeFields width count irq base op b val = .ok (b', val')) {j : Nat} (hj : j < n) :
    b'.virqs[j] = if irq ≤ base + j ∧ base + j < irq + count then
      (op (val >>> (width * (base + j - irq))) b.virqs[j]).1 else b.virqs[j] := by
  have hall := lanes_virqs irq base (fun val virq => (op val virq).1)
    (fun {b b' i val} hround {j} hj => through_virqs hround hj) h hj
  simpa only [Nat.add_zero] using hall

end Loops

/-! ## The operations -/

private theorem setEnable_virq (on : Bool) (id : UpdateId) (virq : Virq) :
    (setEnable on id virq).1 = { virq with enable := on } := rfl

private theorem setPending_virq (virq : Virq) :
    (setPending virq).1 = { virq with state := match virq.state with
      | .inactive => .pending
      | .active => .pendingActive
      | st => st } := by
  obtain ⟨v, p, st, prio, cfg, inLr, enable, hw⟩ := virq
  cases st <;> rfl

private theorem clearPending_virq (virq : Virq) :
    (clearPending virq).1 = { virq with state := match virq.state with
      | .pending => .inactive
      | .pendingActive => .active
      | st => st } := by
  obtain ⟨v, p, st, prio, cfg, inLr, enable, hw⟩ := virq
  cases st <;> rfl

private theorem setPrio_virq (val : BitVec 64) (virq : Virq) :
    (setPrio val virq).1 = writeField .prio val virq := by
  have hmask : (val &&& 0xFF).setWidth 8 = val.setWidth 8 := by
    apply BitVec.eq_of_getLsbD_eq
    intro i hi
    have hone : (0xFF : BitVec 64).getLsbD i = true := by
      interval_cases i <;> rfl
    rw [BitVec.getLsbD_setWidth, BitVec.getLsbD_and, hone, Bool.and_true, BitVec.getLsbD_setWidth]
  simp only [setPrio, writeField, hmask]

private theorem setCfg_virq (val : BitVec 64) (virq : Virq) :
    (setCfg val virq).1 = writeField .icfgr val virq := by
  have hmask : (val &&& 0b11).setWidth 8 = (val.setWidth 2).setWidth 8 := by
    apply BitVec.eq_of_getLsbD_eq
    intro i hi
    have hthree : (0b11 : BitVec 64).getLsbD i = decide (i < 2) := by
      interval_cases i <;> rfl
    rw [BitVec.getLsbD_setWidth, BitVec.getLsbD_and, hthree, BitVec.getLsbD_setWidth,
      BitVec.getLsbD_setWidth, Bool.and_comm (val.getLsbD i)]
  simp only [setCfg, writeField, hmask]

/-! ## The handlers -/

section Handlers

variable {id : UpdateId} {k off : Nat} {val val' : BitVec 64}

/-- A handler of the distributor, on a register of its own interrupts. -/
theorem gicdHandler_virqs {b b' : Bank gicdVirqNum} (hoff : off = bankOff id + 4 * k)
    (hpriv : virqPrivNum ≤ covers id * k)
    (h : vgicGicdWriteHandlers off id b val = .ok (b', val')) {j : Nat} (hj : j < gicdVirqNum) :
    b'.virqs[j] = expected id k val (virqPrivNum + j) b.virqs[j] := by
  have hnumber : (off - bankOff id) / 4 = k := by omega
  cases id with
  | isen =>
      have hall := writeBits_virqs (Nat.zero_le _) h hj
      rw [hall, gicdIsenOff, show (off - 0x100) / 4 = k from hnumber]
      simp only [expected, covers, fieldWidth, writeField, setEnable_virq, Nat.mul_succ,
        Nat.one_mul]
  | icen =>
      have hall := writeBits_virqs (Nat.zero_le _) h hj
      rw [hall, gicdIcenOff, show (off - 0x180) / 4 = k from hnumber]
      simp only [expected, covers, fieldWidth, writeField, setEnable_virq, Nat.mul_succ,
        Nat.one_mul]
  | ispnd =>
      have hirq : 32 ≤ 32 * ((off - gicdIspndOff) / 4) := by
        rw [gicdIspndOff, show (off - 0x200) / 4 = k from hnumber]
        exact hpriv
      have hall := writeBits_virqs hirq h hj
      rw [hall, gicdIspndOff, show (off - 0x200) / 4 = k from hnumber]
      simp only [expected, covers, fieldWidth, writeField, setPending_virq, Nat.mul_succ,
        Nat.one_mul]
  | icpnd =>
      have hirq : 32 ≤ 32 * ((off - gicdIcpndOff) / 4) := by
        rw [gicdIcpndOff, show (off - 0x280) / 4 = k from hnumber]
        exact hpriv
      have hall := writeBits_virqs hirq h hj
      rw [hall, gicdIcpndOff, show (off - 0x280) / 4 = k from hnumber]
      simp only [expected, covers, fieldWidth, writeField, clearPending_virq, Nat.mul_succ,
        Nat.one_mul]
  | prio =>
      have hall := writeFields_virqs h hj
      rw [hall, gicdPrioOff, show (off - 0x400) / 4 = k from hnumber]
      simp only [expected, covers, fieldWidth, setPrio_virq, Nat.mul_succ]
      rfl
  | icfgr =>
      have hall := writeFields_virqs h hj
      rw [hall, gicdIcfgrOff, show (off - 0xC00) / 4 = k from hnumber]
      simp only [expected, covers, fieldWidth, setCfg_virq, Nat.mul_succ]
      rfl

/-- A handler of the redistributor works on the first register of the bank. -/
theorem gicrHandler_virqs {b b' : Bank virqPrivNum}
    (h : vgicGicrSgiWriteHandler id b val = .ok (b', val')) {j : Nat} (hj : j < virqPrivNum) :
    b'.virqs[j] = expected id 0 val (0 + j) b.virqs[j] := by
  cases id with
  | isen =>
      have hall := writeBits_virqs (Nat.le_refl 0) h hj
      rw [hall]
      simp only [expected, covers, fieldWidth, writeField, setEnable_virq, Nat.mul_zero,
        Nat.zero_add, Nat.mul_one, Nat.one_mul]
  | icen =>
      have hall := writeBits_virqs (Nat.le_refl 0) h hj
      rw [hall]
      simp only [expected, covers, fieldWidth, writeField, setEnable_virq, Nat.mul_zero,
        Nat.zero_add, Nat.mul_one, Nat.one_mul]
  | ispnd =>
      have hall := writeBits_virqs (Nat.le_refl 0) h hj
      rw [hall]
      simp only [expected, covers, fieldWidth, writeField, setPending_virq, Nat.mul_zero,
        Nat.zero_add, Nat.mul_one, Nat.one_mul]
  | icpnd =>
      have hall := writeBits_virqs (Nat.le_refl 0) h hj
      rw [hall]
      simp only [expected, covers, fieldWidth, writeField, clearPending_virq, Nat.mul_zero,
        Nat.zero_add, Nat.mul_one, Nat.one_mul]
  | prio =>
      have hall := writeFields_virqs h hj
      rw [hall]
      simp only [expected, covers, fieldWidth, setPrio_virq, Nat.mul_zero, Nat.zero_add,
        Nat.mul_one]
  | icfgr =>
      have hall := writeFields_virqs h hj
      rw [hall]
      simp only [expected, covers, fieldWidth, setCfg_virq, Nat.mul_zero, Nat.zero_add, Nat.mul_one]

end Handlers

private theorem eq_expectedAll {n base : Nat} {id : UpdateId} {k : Nat} {val : BitVec 64}
    {virqs virqs' : Vector Virq n}
    (h : ∀ {j : Nat} (hj : j < n), virqs'[j] = expected id k val (base + j) virqs[j]) :
    virqs' = expectedAll id k val base virqs := by
  apply Vector.ext
  intro j hj
  rw [h hj, expectedAll, Vector.getElem_ofFn]
  rfl

/-! ## Which handler an offset has -/

/-- The registers of interrupts 32 to 159 have the handler of their bank. -/
theorem gicdUpdateId_bankOff {id : UpdateId} {k : Nat}
    (hk : covers id * (k + 1) ≤ virqPrivNum + gicdVirqNum) :
    bankOff id + 4 * k ≠ gicdCtlrOff ∧ gicdUpdateId (bankOff id + 4 * k) = some id := by
  have hnum : virqPrivNum + gicdVirqNum = 160 := rfl
  rw [hnum] at hk
  have hisen : gicdIsenOff = 0x100 ∧ gicdIsenEnd = 0x17C := ⟨rfl, rfl⟩
  have hicen : gicdIcenOff = 0x180 ∧ gicdIcenEnd = 0x1FC := ⟨rfl, rfl⟩
  have hispnd : gicdIspndOff = 0x200 ∧ gicdIspndEnd = 0x27C := ⟨rfl, rfl⟩
  have hicpnd : gicdIcpndOff = 0x280 ∧ gicdIcpndEnd = 0x2FC := ⟨rfl, rfl⟩
  have hprio : gicdPrioOff = 0x400 ∧ gicdPrioEnd = 0x7F8 := ⟨rfl, rfl⟩
  have hicfgr : gicdIcfgrOff = 0xC00 ∧ gicdIcfgrEnd = 0xCFC := ⟨rfl, rfl⟩
  cases id <;> simp only [covers, bankOff, gicdCtlrOff] at hk ⊢
  all_goals
    refine ⟨by omega, ?_⟩
    unfold gicdUpdateId
    split_ifs <;> first | rfl | omega

private theorem gicrUpdateId_bankOff {id : UpdateId} {k : Nat}
    (hk : covers id * (k + 1) ≤ virqPrivNum) :
    gicrUpdateId (bankOff id + 4 * k) = some id := by
  have hnum : virqPrivNum = 32 := rfl
  rw [hnum] at hk
  have hbits : gicrIsen0Off = 0x100 ∧ gicrIcen0Off = 0x180 ∧ gicrIspnd0Off = 0x200 ∧
      gicrIcpnd0Off = 0x280 := ⟨rfl, rfl, rfl, rfl⟩
  have hprio : gicrPrioOff = 0x400 ∧ gicrPrioEnd = 0x41C := ⟨rfl, rfl⟩
  have hicfgr : gicrIcfgr0Off = 0xC00 ∧ gicrIcfgr1Off = 0xC04 := ⟨rfl, rfl⟩
  cases id <;> simp only [covers, bankOff] at hk ⊢
  all_goals
    unfold gicrUpdateId
    split_ifs <;> first | rfl | omega

/-! ## The access -/

private theorem expected_zero_pos {id : UpdateId} {val : BitVec 64} {j : Nat} (hj : j < covers id)
    (virq : Virq) :
    expected id 0 val j virq = writeField id (val >>> (fieldWidth id * j)) virq := by
  rw [expected, Nat.mul_zero, Nat.zero_add, Nat.mul_one, if_pos ⟨Nat.zero_le j, hj⟩, Nat.sub_zero]

private theorem expected_pos {id : UpdateId} {k i : Nat} {val : BitVec 64} (hi : i < covers id)
    (virq : Virq) :
    expected id k val (covers id * k + i) virq =
      writeField id (val >>> (fieldWidth id * i)) virq := by
  have hin : covers id * k ≤ covers id * k + i ∧ covers id * k + i < covers id * (k + 1) := by
    rw [Nat.mul_succ]
    omega
  rw [expected, if_pos hin, Nat.add_sub_cancel_left]

private theorem expected_neg {id : UpdateId} {k j : Nat} {val : BitVec 64}
    (hj : ¬ (covers id * k ≤ j ∧ j < covers id * (k + 1))) (virq : Virq) :
    expected id k val j virq = virq :=
  if_neg hj

/-- A write to the first register does what one to register `k` should when neither does
anything. -/
theorem expectedAll_zero_eq_iff {n : Nat} {id : UpdateId} {k : Nat} {val : BitVec 64}
    {virqs : Vector Virq n} (hk : covers id * (k + 1) ≤ n) :
    expectedAll id 0 val 0 virqs = expectedAll id k val 0 virqs ↔
      k = 0 ∨ ∀ i, i < covers id → ∀ j (hj : j < n), j = i ∨ j = covers id * k + i →
        writeField id (val >>> (fieldWidth id * i)) virqs[j] = virqs[j] := by
  have hentry : ∀ {k' j : Nat} (hj : j < n),
      (expectedAll id k' val 0 virqs)[j] = expected id k' val j virqs[j] := by
    intro k' j hj
    rw [expectedAll, Vector.getElem_ofFn]
    simp only [Nat.zero_add]
    rfl
  rw [Nat.mul_succ] at hk
  constructor
  · intro heq
    by_cases hzero : k = 0
    · exact Or.inl hzero
    · right
      have hbelow : covers id ≤ covers id * k :=
        Nat.le_mul_of_pos_right _ (Nat.pos_of_ne_zero hzero)
      have hsame : ∀ {j : Nat} (hj : j < n),
          expected id 0 val j virqs[j] = expected id k val j virqs[j] := by
        intro j hj
        rw [← hentry hj, ← hentry hj, heq]
      rintro i hi j hj (hfirst | hnamed)
      · subst hfirst
        rw [← expected_zero_pos hi, hsame hj, expected_neg (by omega)]
      · subst hnamed
        rw [← expected_pos (k := k) hi, ← hsame hj, expected_neg (by omega)]
  · rintro (rfl | hsame)
    · rfl
    · apply Vector.ext
      intro j hj
      have hkept : ∀ k', k' = 0 ∨ k' = k → expected id k' val j virqs[j] = virqs[j] := by
        intro k' hk'
        by_cases hin : covers id * k' ≤ j ∧ j < covers id * (k' + 1)
        · obtain ⟨i, rfl⟩ := Nat.exists_eq_add_of_le hin.1
          have hi : i < covers id := by
            have hlt := hin.2
            rw [Nat.mul_succ] at hlt
            omega
          rw [expected_pos hi]
          apply hsame i hi
          rcases hk' with rfl | rfl
          · left
            omega
          · exact Or.inr rfl
        · exact expected_neg hin _
      rw [hentry hj, hentry hj, hkept 0 (Or.inl rfl), hkept k (Or.inr rfl)]

section Access

variable {g g' : Guest} {acc : AccessInfo} {id : UpdateId} {k : Nat}

private theorem gicdWriteCond_bankOff (hpriv : virqPrivNum ≤ covers id * k)
    (hk : covers id * (k + 1) ≤ virqPrivNum + gicdVirqNum) (val : BitVec 64) :
    GicdWriteCond (bankOff id + 4 * k) val := by
  have hnum : virqPrivNum + gicdVirqNum = 160 := rfl
  have hfirst : virqPrivNum = 32 := rfl
  rw [GicdWriteCond, (gicdUpdateId_bankOff hk).2]
  rw [hnum] at hk
  rw [hfirst] at hpriv
  cases id <;> simp only [covers, bankOff] at hk hpriv ⊢ <;> omega

private theorem gicd_updates (hsrt : acc.srt < 32) (hnames : Names g acc true id k) :
    Updates g acc true id k := by
  obtain ⟨hwrite, hoff, hpriv, hk⟩ := hnames
  have hin : AccessCond g acc true := by
    intro _ _
    rw [hoff]
    exact gicdWriteCond_bankOff hpriv hk _
  obtain ⟨g', hrun⟩ := (vgicEmulate_within hsrt true).ok hin
  obtain ⟨hctlr, hid⟩ := gicdUpdateId_bankOff hk
  refine ⟨g', hrun, ?_⟩
  have hstored : stored g acc = g.regs[acc.srt] := by
    simp [stored, Vector.getD, hsrt]
  have hoff' : (acc.addr - g.vgic.gicdAddr).toNat = bankOff id + 4 * k := hoff
  simp only [vgicEmulate, readAt_ok g.regs hsrt, ok_bind, writeAt_ok g.regs hsrt, hwrite, if_true,
    ← hstored, hoff', vgicGicdWriteEmulate, if_neg hctlr, hid, bind_eq_ok] at hrun
  obtain ⟨⟨d, calls, val⟩, ⟨⟨b, val'⟩, hhandler, hd⟩, hg'⟩ := hrun
  cases pure_eq_ok.mp hd
  cases pure_eq_ok.mp hg'
  have hvirqs := eq_expectedAll (fun {j} hj => gicdHandler_virqs rfl hpriv hhandler hj)
  simp only [expectedVgic, if_true, hvirqs]

/-- A write to the redistributor does what one to the first register of the bank should. -/
theorem gicr_run (hsrt : acc.srt < 32) (hnames : Names g acc false id k) :
    ∃ g', vgicEmulate g acc false = .ok g' ∧ g'.vgic = expectedVgic g acc false id 0 := by
  obtain ⟨hwrite, hoff, hk⟩ := hnames
  have hin : AccessCond g acc false := fun (h : false = true) => absurd h (by decide)
  obtain ⟨g', hrun⟩ := (vgicEmulate_within hsrt false).ok hin
  refine ⟨g', hrun, ?_⟩
  have hstored : stored g acc = g.regs[acc.srt] := by
    simp [stored, Vector.getD, hsrt]
  have hoff' : (acc.addr - g.vgic.gicrAddr).toNat = gicrSgiOff + (bankOff id + 4 * k) := hoff
  have hsgi : ¬ gicrSgiOff + (bankOff id + 4 * k) < gicrSgiOff := by omega
  simp only [vgicEmulate, readAt_ok g.regs hsrt, ok_bind, writeAt_ok g.regs hsrt, hwrite,
    Bool.false_eq_true, if_false, ← hstored, hoff', if_neg hsgi, Nat.add_sub_cancel_left,
    vgicGicrSgiEmulate, if_true, gicrUpdateId_bankOff hk, bind_eq_ok] at hrun
  obtain ⟨⟨r, calls, val⟩, ⟨⟨b, val'⟩, hhandler, hr⟩, hg'⟩ := hrun
  cases pure_eq_ok.mp hr
  cases pure_eq_ok.mp hg'
  have hvirqs := eq_expectedAll (fun {j} hj => gicrHandler_virqs hhandler hj)
  simp only [expectedVgic, Bool.false_eq_true, if_false, hvirqs]

private theorem gicr_updates_iff (hsrt : acc.srt < 32) (hnames : Names g acc false id k) :
    Updates g acc false id k ↔ LaneCond g acc id k := by
  obtain ⟨g', hrun, hvgic⟩ := gicr_run hsrt hnames
  have hiff := @expectedAll_zero_eq_iff _ id k (stored g acc) g.vgic.gicr[g.vcpu].virqs hnames.2.2
  rw [LaneCond, ← hiff]
  constructor
  · rintro ⟨g₂, hrun₂, hvgic₂⟩
    obtain rfl := Except.ok.inj (hrun.symm.trans hrun₂)
    rw [hvgic] at hvgic₂
    simp only [expectedVgic, Bool.false_eq_true, if_false] at hvgic₂
    have hgicr := congrArg (fun v : Vgic => v.gicr[g.vcpu].virqs) hvgic₂
    simpa only [Fin.getElem_fin, Vector.getElem_set_self] using hgicr
  · intro heq
    refine ⟨g', hrun, ?_⟩
    rw [hvgic]
    simp only [expectedVgic, Bool.false_eq_true, if_false, heq]

end Access

/-- **Register writes**, for every state and value: the write to a register of the distributor
updates the fields of the interrupts it covers and nothing else, and the one to a register of the
redistributor does so if and only if `LaneCond` holds. -/
theorem register_write_iff (g : Guest) (acc : AccessInfo) (gicd : Bool) (id : UpdateId) (k : Nat)
    (hsrt : acc.srt < 32) (hnames : Names g acc gicd id k) :
    Updates g acc gicd id k ↔ gicd = true ∨ LaneCond g acc id k := by
  cases gicd with
  | true => exact iff_of_true (gicd_updates hsrt hnames) (Or.inl rfl)
  | false =>
      rw [gicr_updates_iff hsrt hnames]
      simp only [Bool.false_eq_true, false_or]

/-- `GICR_IPRIORITYR0`. -/
theorem register_write_priority0 :
    Updates (guestWith 0x40302010) ⟨0x80B0400, 1, true⟩ false .prio 0 :=
  (register_write_iff (guestWith 0x40302010) ⟨0x80B0400, 1, true⟩ false .prio 0 (by decide)
    ⟨rfl, by decide, by decide⟩).mpr (Or.inr (Or.inl rfl))

/-- `GICR_IPRIORITYR1`: the priorities of interrupts 4 to 7 go to interrupts 0 to 3. -/
theorem priority1_updates_sgi0 :
    ¬ ∀ (g : Guest) (acc : AccessInfo) (gicd : Bool) (id : UpdateId) (k : Nat), acc.srt < 32 →
      Names g acc gicd id k → Updates g acc gicd id k := by
  intro hall
  have hnames : Names (guestWith 0x40302010) ⟨0x80B0404, 1, true⟩ false .prio 1 :=
    ⟨rfl, by decide, by decide⟩
  have hupdates := hall _ _ _ _ _ (by decide) hnames
  obtain hzero | hsame := (gicr_updates_iff (by decide) hnames).mp hupdates
  · exact absurd hzero (by decide)
  · have hprio := congrArg Virq.prio (hsame 0 (by decide) 0 (by decide) (Or.inl rfl))
    exact absurd hprio (by decide)

end RtHypervisor.Ports.VgicEmulate
