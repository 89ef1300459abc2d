import Mathlib
import RtHypervisor.Ports.LrRecord
import RtHypervisor.Ports.Platform
import RtHypervisor.Ports.SwitchIsolation
import RtHypervisor.Ports.Vcpu

/-!
# Who completes a physical interrupt

`ICC_EOIR1_EL1` only drops the priority; an interrupt stays active, and is not signalled
again, until someone deactivates it.  `rt_hw_trap_irq` does so itself for an interrupt of
the host.  For an interrupt that a VM owns it leaves that to the guest: the injected value
carries the physical number, and retiring it deactivates the interrupt.

`irq_completed_iff` says for every state when one of the two happens.  The ways in which
neither does are a vCPU that is not running, a `lr_list` that is full or holds the virtual
interrupt already, an interrupt that is not mounted under its own number, and look-ups
outside the tables.
-/

namespace RtHypervisor.Ports.TrapIrq

open RtHypervisor.Verified.Run
open RtHypervisor.Verified.PrefixArray
open RtHypervisor.Ports.ListRegister
open RtHypervisor.Ports.LrList
open RtHypervisor.Ports.Platform
open RtHypervisor.Ports.SwitchContext
open RtHypervisor.Ports.Vcpu

/-- `MAX_VCPU_NUM`. -/
def maxVcpuNum : Nat := 4

theorem maxVcpuNum_pos : 0 < maxVcpuNum := by decide
/-- `MAX_HANDLERS`, the length of `isr_table`. -/
def maxHandlers : Nat := 96
/-- The length of `virqs` in `struct vgicd`. -/
def gicdVirqNum : Nat := 128

/-- What the interrupt path sees of a VM.  A null pointer in `vcpus` is `none`; `gicrSet`
says which pointers of `vgic->gicr` are set, and the redistributors themselves are in the
machine. -/
structure VmSlot where
  nrVcpus : Nat
  vcpus : Vector (Option VcpuStatus) maxVcpuNum
  gicd : Option (Vector Virq gicdVirqNum)
  gicrSet : Vector Bool maxVcpuNum
deriving DecidableEq, Repr

/-- The machine and `rt_hyp.vms`. -/
structure Host where
  machine : Machine
  vms : Vector (Option VmSlot) maxVmNum

/-- The writes that complete an interrupt: `ICC_EOIR1_EL1` and `ICC_DIR_EL1`. -/
inductive GicWrite
  | eoir (irq : Nat)
  | dir (irq : Nat)
deriving DecidableEq, Repr

/-- A handler of `isr_table`: whatever it does to the host, it returns. -/
abbrev IsrTable := Vector (Option (Host → Host)) maxHandlers

/-! ## `vcpu_get_irq_owner` -/

/-- The pointer `vcpus[j]` of VM `i`. -/
def vcpuAt (slot : VmSlot) (i j : Nat) : Except Fault (Option VcpuId) := do
  let p ← readAt slot.vcpus j
  pure (p.map fun _ => ⟨i, j⟩)

/-- The loop over the redistributors of VM `i`.  `none` means that it ran to its end, and
`some r` that the function returns `r`. -/
def privOwner (m : Machine) (slot : VmSlot) (i ir : Nat) :
    List Nat → Except Fault (Option (Option VcpuId))
  | [] => pure none
  | j :: js => do
      if ← readAt slot.gicrSet j then
        let virq ← readAt (m.gicr ⟨i, j⟩).virqs ir
        if virq.enable && virq.hw then
          let v ← vcpuAt slot i j
          pure (some v)
        else privOwner m slot i ir js
      else pure (some none)

/-- The body of the loop over the VMs. -/
def ownerIn (m : Machine) (slot : VmSlot) (i ir : Nat) :
    Except Fault (Option (Option VcpuId)) :=
  if ir < virqPrivNum then privOwner m slot i ir (List.range slot.nrVcpus)
  else match slot.gicd with
    | some gicd => do
        let virq ← readAt gicd (ir - virqPrivNum)
        if virq.enable && virq.hw then
          let v ← vcpuAt slot i 0
          pure (some v)
        else pure none
    | none => pure (some none)

def ownerFrom (h : Host) (ir : Nat) : List Nat → Except Fault (Option VcpuId)
  | [] => pure none
  | i :: is => do
      match ← readAt h.vms i with
      | some slot =>
          match ← ownerIn h.machine slot i ir with
          | some v => pure v
          | none => ownerFrom h ir is
      | none => ownerFrom h ir is

/-- `vcpu_get_irq_owner`. -/
def vcpuGetIrqOwner (h : Host) (ir : Nat) : Except Fault (Option VcpuId) :=
  ownerFrom h ir (List.range maxVmNum)

/-! ## `rt_hw_trap_irq` -/

/-- The VM of a vCPU. -/
def slotOf (h : Host) (v : VcpuId) : Except Fault VmSlot := do
  let p ← readAt h.vms v.vm
  deref p

def setSlot (h : Host) (v : VcpuId) (slot : VmSlot) : Except Fault Host := do
  let vms ← writeAt h.vms v.vm (some slot)
  pure { h with vms := vms }

/-- `vgic_get_virq`. -/
def vgicGetVirq (h : Host) (v : VcpuId) (ir : Nat) : Except Fault Virq := do
  let slot ← slotOf h v
  if ir < virqPrivNum then
    let set ← readAt slot.gicrSet v.id
    check .nullPointer set
    readAt (h.machine.gicr v).virqs ir
  else
    let gicd ← deref slot.gicd
    readAt gicd (ir - virqPrivNum)

/-- A store through the pointer `vgic_get_virq` returned. -/
def vgicSetVirq (h : Host) (v : VcpuId) (ir : Nat) (virq : Virq) : Except Fault Host := do
  let slot ← slotOf h v
  if ir < virqPrivNum then
    let virqs ← writeAt (h.machine.gicr v).virqs ir virq
    let gicr := { h.machine.gicr v with virqs := virqs }
    pure { h with machine := { h.machine with gicr := Function.update h.machine.gicr v gicr } }
  else
    let gicd ← deref slot.gicd
    let virqs ← writeAt gicd (ir - virqPrivNum) virq
    setSlot h v { slot with gicd := some virqs }

/-- `rt_schedule` at the end of `vcpu_go`.  Interrupts are off, and the running thread was
the right one before, so it either keeps the CPU or loses it to the vCPU's thread. -/
def schedule [Bitmap] (m : Machine) (v : VcpuId) (preempts : Bool) : Except Fault Machine :=
  if preempts && decide (m.current ≠ .vcpu v) then do
    let m ← switchHook m m.current (.vcpu v)
    pure { m with current := .vcpu v }
  else pure m

/-- `vcpu_go`, from the status the switch looks at. -/
def goVcpu [Bitmap] (h : Host) (v : VcpuId) (st : VcpuStatus) (preempts : Bool) :
    Except Fault Host := do
  let slot ← slotOf h v
  let vcpus ← writeAt slot.vcpus v.id (some (vcpuGo st).1)
  let h ← setSlot h v { slot with vcpus := vcpus }
  match (vcpuGo st).2 with
  | .schedule | .resumeThenSchedule => do
      let m ← schedule h.machine v preempts
      pure { h with machine := m }
  | _ => pure h

/-- `vgic_inject`. -/
def inject [Bitmap] (h : Host) (v : VcpuId) (ir : Nat) (st : VcpuStatus) (preempts : Bool) :
    Except Fault Host := do
  let virq ← vgicGetVirq h v ir
  let slot ← slotOf h v
  let set ← readAt slot.gicrSet v.id
  check .nullPointer set
  let (s, virq, reached) ← vgicInject (h.machine.slice v) virq
  let h ← vgicSetVirq { h with machine := h.machine.putSlice v s } v ir virq
  if reached then goVcpu h v st preempts else pure h

/-- `rt_hw_trap_irq` on the number read from `ICC_IAR1_EL1`, with the writes it makes. -/
def rtHwTrapIrq [Bitmap] (isrTable : IsrTable) (preempts : Bool) (h : Host) (ir : Nat) :
    Except Fault (Host × List GicWrite) :=
  if ir = 1023 then pure (h, [])
  else do
    match ← vcpuGetIrqOwner h ir with
    | some v =>
        let slot ← slotOf h v
        let p ← readAt slot.vcpus v.id
        let st ← deref p
        let h ← if st = .online ∨ st = .suspend then inject h v ir st preempts else pure h
        pure (h, [.eoir ir])
    | none =>
        let isr ← readAt isrTable (ir % 1024)
        let h := match isr with
          | some handler => handler h
          | none => h
        pure (h, [.eoir ir, .dir ir])

/-! ## Completion -/

/-- How many list registers and list entries record the physical interrupt. -/
def records (m : Machine) (ir : Nat) : Nat :=
  (lrs m.ich (List.range maxLrRegs)).countP (isRecord ir) +
    ∑ p : Fin maxVmNum × Fin maxVcpuNum,
      (entries (m.gicr ⟨p.1.val, p.2.val⟩)).countP (isRecord ir)

/-- The host has deactivated the interrupt, or exactly one value of the guests records it. -/
def Completed (ir : Nat) (r : Host × List GicWrite) : Prop :=
  .dir ir ∈ r.2 ∨ records r.1.machine ir = 1

/-- The owner of the interrupt can take it: its vCPU is running or suspended, and its list
accepts the value of an interrupt that is mounted under this number. -/
structure Takes [Bitmap] (h : Host) (ir : Nat) (v : VcpuId) : Prop where
  status : ∃ slot, slotOf h v = .ok slot ∧
    (readAt slot.vcpus v.id = .ok (some .online) ∨ readAt slot.vcpus v.id = .ok (some .suspend)) ∧
    readAt slot.gicrSet v.id = .ok true
  virq : ∃ virq, vgicGetVirq h v ir = .ok virq ∧ virq.inLr = false ∧ pintOf virq = ir ∧
    Accepts (h.machine.gicr v) (vgicGetLrFromVirq virq).1

/-- The condition under which the interrupt is completed. -/
def Handled [Bitmap] (h : Host) (ir : Nat) : Prop :=
  (vcpuGetIrqOwner h ir = .ok none ∧ ir % 1024 < maxHandlers) ∨
    ∃ v, vcpuGetIrqOwner h ir = .ok (some v) ∧ Takes h ir v

/-! ## The owner -/

theorem readAt_eq_ok {α : Type} {n : Nat} {vec : Vector α n} {i : Nat} {a : α} :
    readAt vec i = .ok a ↔ ∃ h : i < n, vec[i] = a := by
  unfold readAt
  split
  · rename_i h
    constructor
    · intro heq
      exact ⟨h, Except.ok.inj heq⟩
    · rintro ⟨-, rfl⟩
      rfl
  · rename_i h
    constructor
    · intro heq
      cases heq
    · rintro ⟨hlt, -⟩
      exact absurd hlt h

/-- What the look-up has seen of the vCPU it returns. -/
structure Owns (h : Host) (ir : Nat) (v : VcpuId) : Prop where
  id_lt : v.id < maxVcpuNum
  vm_lt : v.vm < maxVmNum
  slot : ∃ slot st, slotOf h v = .ok slot ∧ readAt slot.vcpus v.id = .ok (some st)
  virq : ∃ virq, vgicGetVirq h v ir = .ok virq ∧ virq.enable = true ∧ virq.hw = true

variable {h : Host} {ir i : Nat} {v : VcpuId} {slot : VmSlot}

private theorem vcpuAt_eq_some {j : Nat} (hv : vcpuAt slot i j = .ok (some v)) :
    v = ⟨i, j⟩ ∧ ∃ st, readAt slot.vcpus j = .ok (some st) := by
  simp only [vcpuAt, bind_eq_ok, pure_eq_ok] at hv
  obtain ⟨p, hread, hp⟩ := hv
  cases p with
  | none => cases hp
  | some st =>
      cases hp
      exact ⟨rfl, st, hread⟩

private theorem privOwner_owns (hslot : slotOf h ⟨i, 0⟩ = .ok slot) (hi : i < maxVmNum)
    (hir : ir < virqPrivNum) {js : List Nat}
    (hv : privOwner h.machine slot i ir js = .ok (some (some v))) : v.vm = i ∧ Owns h ir v := by
  induction js with
  | nil => cases pure_eq_ok.mp hv
  | cons j js ih =>
      simp only [privOwner, bind_eq_ok] at hv
      obtain ⟨set, hset, hv⟩ := hv
      cases set with
      | false => cases pure_eq_ok.mp hv
      | true =>
          simp only [if_true, bind_eq_ok] at hv
          obtain ⟨virq, hvirq, hv⟩ := hv
          split at hv
          · rename_i hon
            obtain ⟨w, hw, hv⟩ := bind_eq_ok.mp hv
            cases pure_eq_ok.mp hv
            obtain ⟨rfl, st, hst⟩ := vcpuAt_eq_some hw
            obtain ⟨hj, -⟩ := readAt_eq_ok.mp hset
            rw [Bool.and_eq_true] at hon
            refine ⟨rfl, hj, hi, ⟨slot, st, hslot, hst⟩, ⟨virq, ?_, hon.1, hon.2⟩⟩
            have hslot' : slotOf h ⟨i, j⟩ = .ok slot := hslot
            simp only [vgicGetVirq, hslot', ok_bind, hir, if_true, hset, check_true, hvirq]
          · exact ih hv

private theorem ownerIn_owns (hslot : slotOf h ⟨i, 0⟩ = .ok slot) (hi : i < maxVmNum)
    (hv : ownerIn h.machine slot i ir = .ok (some (some v))) : v.vm = i ∧ Owns h ir v := by
  unfold ownerIn at hv
  split at hv
  · rename_i hir
    exact privOwner_owns hslot hi hir hv
  · rename_i hir
    split at hv
    · rename_i gicd hgicd
      simp only [bind_eq_ok] at hv
      obtain ⟨virq, hvirq, hv⟩ := hv
      split at hv
      · rename_i hon
        obtain ⟨w, hw, hv⟩ := bind_eq_ok.mp hv
        cases pure_eq_ok.mp hv
        obtain ⟨rfl, st, hst⟩ := vcpuAt_eq_some hw
        rw [Bool.and_eq_true] at hon
        have hzero : 0 < maxVcpuNum := by decide
        refine ⟨rfl, hzero, hi, ⟨slot, st, hslot, hst⟩, ⟨virq, ?_, hon.1, hon.2⟩⟩
        simp only [vgicGetVirq, hslot, ok_bind, hir, if_false, hgicd, deref_some, hvirq]
      · cases pure_eq_ok.mp hv
    · cases pure_eq_ok.mp hv

theorem ownerFrom_owns {is : List Nat} (hv : ownerFrom h ir is = .ok (some v)) :
    Owns h ir v := by
  induction is with
  | nil => cases pure_eq_ok.mp hv
  | cons i is ih =>
      simp only [ownerFrom, bind_eq_ok] at hv
      obtain ⟨p, hread, hv⟩ := hv
      cases p with
      | none => exact ih hv
      | some slot =>
          simp only [bind_eq_ok] at hv
          obtain ⟨r, hr, hv⟩ := hv
          cases r with
          | none => exact ih hv
          | some w =>
              cases pure_eq_ok.mp hv
              obtain ⟨hi, -⟩ := readAt_eq_ok.mp hread
              have hslot : slotOf h ⟨i, 0⟩ = .ok slot := by
                simp only [slotOf, hread, ok_bind, deref_some]
              exact (ownerIn_owns hslot hi hr).2

/-! ## Records outside one vCPU's reach -/

/-- From `m` to `m'` only the list registers there are and the list of `v` have changed. -/
structure Touched (m m' : Machine) (v : VcpuId) : Prop where
  nrLr_eq : (m'.ctxt v.vm).nrLr = (m.ctxt v.vm).nrLr
  regs : ∀ j, (m.ctxt v.vm).nrLr ≤ j → m'.ich.lrAt j = m.ich.lrAt j
  list_ne : ∀ u, u ≠ v → entries (m'.gicr u) = entries (m.gicr u)

variable {m m' m'' : Machine}

theorem Touched.refl (m : Machine) (v : VcpuId) : Touched m m v :=
  ⟨rfl, fun _ _ => rfl, fun _ _ => rfl⟩

theorem Touched.trans (h₁ : Touched m m' v) (h₂ : Touched m' m'' v) : Touched m m'' v where
  nrLr_eq := h₂.nrLr_eq.trans h₁.nrLr_eq
  regs j hj := by
    have hj' : (m'.ctxt v.vm).nrLr ≤ j := by
      rw [h₁.nrLr_eq]
      exact hj
    exact (h₂.regs j hj').trans (h₁.regs j hj)
  list_ne u hu := (h₂.list_ne u hu).trans (h₁.list_ne u hu)

/-- Putting back a slice whose registers beyond the last list register are the old ones. -/
theorem Touched.put {s : VgicSlice} (hnr : s.ctxt.nrLr = (m.ctxt v.vm).nrLr)
    (hregs : ∀ j, (m.ctxt v.vm).nrLr ≤ j → s.ich.lrAt j = m.ich.lrAt j) :
    Touched m (m.putSlice v s) v where
  nrLr_eq := by
    show (Function.update m.ctxt v.vm s.ctxt v.vm).nrLr = _
    rw [Function.update_self, hnr]
  regs := hregs
  list_ne u hu := by
    show entries (Function.update m.gicr v s.gicr u) = _
    rw [Function.update_of_ne hu]

private theorem countP_lrs_split (P : Lr → Bool) (ich : IchRegs) {n : Nat} (hn : n ≤ maxLrRegs) :
    (lrs ich (List.range maxLrRegs)).countP P =
      (lrs ich (List.range n)).countP P +
        (lrs ich (List.range' n (maxLrRegs - n))).countP P := by
  have hrange : List.range maxLrRegs = List.range n ++ List.range' n (maxLrRegs - n) := by
    have happ : List.range' 0 n ++ List.range' (0 + 1 * n) (maxLrRegs - n) =
        List.range' 0 (n + (maxLrRegs - n)) := List.range'_append
    rw [Nat.add_sub_cancel' hn, Nat.one_mul, Nat.zero_add] at happ
    rw [List.range_eq_range', List.range_eq_range', happ]
  rw [hrange, lrs, List.flatMap_append, List.countP_append]
  rfl

/-- When nothing recorded the interrupt before, only what `v` holds can record it now. -/
theorem records_of_touched (hvm : v.vm < maxVmNum) (hid : v.id < maxVcpuNum)
    (hnr : (m.ctxt v.vm).nrLr ≤ maxLrRegs) (ht : Touched m m' v) (hnone : records m ir = 0) :
    records m' ir = held (isRecord ir) (m'.slice v) := by
  have hregs : (lrs m.ich (List.range maxLrRegs)).countP (isRecord ir) = 0 := by
    rw [records] at hnone
    omega
  have hlists : ∀ p : Fin maxVmNum × Fin maxVcpuNum,
      (entries (m.gicr ⟨p.1.val, p.2.val⟩)).countP (isRecord ir) = 0 := by
    have hsum := (Nat.add_eq_zero_iff.mp hnone).2
    intro p
    exact Finset.sum_eq_zero_iff.mp hsum p (Finset.mem_univ p)
  have hupper : (lrs m'.ich (List.range' (m.ctxt v.vm).nrLr
      (maxLrRegs - (m.ctxt v.vm).nrLr))).countP (isRecord ir) = 0 := by
    rw [countP_lrs_split (isRecord ir) m.ich hnr] at hregs
    rw [lrs_congr fun j hj => ht.regs j (List.mem_range'_1.mp hj).1]
    omega
  have hsum : ∑ p : Fin maxVmNum × Fin maxVcpuNum,
      (entries (m'.gicr ⟨p.1.val, p.2.val⟩)).countP (isRecord ir) =
        (entries (m'.gicr v)).countP (isRecord ir) := by
    rw [Fintype.sum_eq_single (⟨⟨v.vm, hvm⟩, ⟨v.id, hid⟩⟩ : Fin maxVmNum × Fin maxVcpuNum)]
    intro p hp
    rw [ht.list_ne, hlists p]
    rintro rfl
    exact hp rfl
  rw [records, hsum, countP_lrs_split (isRecord ir) m'.ich hnr, hupper, held]
  simp only [Machine.slice, ht.nrLr_eq]
  omega

/-! ## The steps after the injection -/

private theorem held_slice_congr {P : Lr → Bool} (hich : m'.ich = m.ich)
    (hctxt : m'.ctxt = m.ctxt) (hlist : entries (m'.gicr v) = entries (m.gicr v)) :
    held P (m'.slice v) = held P (m.slice v) := by
  simp only [held, Machine.slice, hich, hctxt, hlist]

private theorem hostToGuest_slice [Bitmap] (hw : Wired m) (v : VcpuId) :
    ∃ t s, hostToGuestArchHandler m v = .ok t ∧ hookVgicContextRestore (m.slice v) = .ok s ∧
      t.slice v = s ∧ Touched m t v := by
  obtain ⟨s, hrun, hs⟩ := hookVgicContextRestore_spec (hw.ready v)
  have hslice : (loadStage2Setting (activateTrap (hookVcpuRegsRestore m v) v) v).slice v =
      m.slice v := by
    simp only [loadStage2Setting, flushVmAllTlb_eq]
    rfl
  refine ⟨_, s, by simp only [hostToGuestArchHandler, hslice, hrun, ok_bind]; rfl, hrun, ?_, ?_⟩
  · simp only [Machine.slice, Machine.putSlice, Function.update_self]
  · simp only [loadStage2Setting, flushVmAllTlb_eq]
    refine ⟨?_, hs.regs, ?_⟩
    · show (Function.update m.ctxt v.vm s.ctxt v.vm).nrLr = _
      rw [Function.update_self]
      exact hs.nrLr_eq
    · intro u hu
      show entries (Function.update m.gicr v s.gicr u) = _
      rw [Function.update_of_ne hu]

/-- Giving the CPU to the vCPU moves what it holds, and loses none of it. -/
theorem schedule_spec [Bitmap] {P : Lr → Bool} (hP : LiveTest P) (hw : Wired m) (v : VcpuId)
    (preempts : Bool) :
    ∃ m', schedule m v preempts = .ok m' ∧ Touched m m' v ∧
      held P (m'.slice v) = held P (m.slice v) := by
  unfold schedule
  split
  · cases hcur : m.current with
    | host n =>
        obtain ⟨t, s, hrun, hrestore, hslice, ht⟩ := hostToGuest_slice hw v
        refine ⟨{ t with current := .vcpu v }, ?_, ⟨ht.nrLr_eq, ht.regs, ht.list_ne⟩, ?_⟩
        · simp only [switchHook, thisSwitchType, hrun, ok_bind]
          rfl
        · show held P (t.slice v) = held P (m.slice v)
          rw [hslice]
          exact hookVgicContextRestore_held hP (hw.ready v) hrestore
    | vcpu a =>
        refine ⟨{ m with current := .vcpu v }, ?_, ⟨rfl, fun _ _ => rfl, fun _ _ => rfl⟩, rfl⟩
        by_cases hsame : a.vm = v.vm
        · simp only [switchHook, thisSwitchType, hsame, if_true]
          rfl
        · simp only [switchHook, thisSwitchType, hsame, if_false]
          rfl
  · exact ⟨m, rfl, Touched.refl m v, rfl⟩

private theorem writeAt_eq {α : Type} {n : Nat} (vec : Vector α n) {k : Nat} (hk : k < n) (a : α) :
    ∃ vec', writeAt vec k a = .ok vec' := ⟨_, writeAt_ok vec hk a⟩

/-- The store into the interrupt's record leaves the lists alone. -/
theorem vgicSetVirq_spec {virq : Virq} (hget : vgicGetVirq h v ir = .ok virq) (m : Machine)
    (virq' : Virq) :
    ∃ h', vgicSetVirq { h with machine := m } v ir virq' = .ok h' ∧
      h'.machine.ich = m.ich ∧ h'.machine.ctxt = m.ctxt ∧
      (∀ u, entries (h'.machine.gicr u) = entries (m.gicr u)) ∧
      (Wired m → Wired h'.machine) ∧
      ∃ slot, slotOf h' v = .ok slot := by
  simp only [vgicGetVirq, bind_eq_ok] at hget
  obtain ⟨slot, hslot, hget⟩ := hget
  have hslot' : slotOf { h with machine := m } v = .ok slot := hslot
  have hvm : v.vm < maxVmNum := by
    simp only [slotOf, bind_eq_ok] at hslot
    obtain ⟨p, hread, -⟩ := hslot
    exact (readAt_eq_ok.mp hread).1
  by_cases hir : ir < virqPrivNum
  · obtain ⟨virqs, hwrite⟩ := writeAt_eq (m.gicr v).virqs hir virq'
    have hrun : vgicSetVirq { h with machine := m } v ir virq' =
        .ok { h with machine := { m with
          gicr := Function.update m.gicr v { m.gicr v with virqs := virqs } } } := by
      simp only [vgicSetVirq, hslot', ok_bind, hir, if_true, hwrite]
      rfl
    refine ⟨_, hrun, rfl, rfl, ?_, ?_, slot, hslot'⟩
    · intro u
      by_cases hu : u = v
      · rw [hu]
        simp only [Function.update_self]
        rfl
      · simp only [Function.update_of_ne hu]
    · intro hw
      refine ⟨?_, hw.nrLr_le⟩
      intro u
      by_cases hu : u = v
      · have hb := hw.bounds v
        rw [hu]
        simp only [Function.update_self]
        exact ⟨hb.tail_le, hb.blank⟩
      · simp only [Function.update_of_ne hu]
        exact hw.bounds u
  · simp only [hir, if_false, bind_eq_ok, deref_eq_ok] at hget
    obtain ⟨gicd, hgicd, hread⟩ := hget
    obtain ⟨virqs, hwrite⟩ := writeAt_eq gicd (readAt_eq_ok.mp hread).1 virq'
    obtain ⟨vms, hvms⟩ := writeAt_eq h.vms hvm (some { slot with gicd := some virqs })
    refine ⟨{ machine := m, vms := vms }, ?_, rfl, rfl, fun _ => rfl, id, ?_⟩
    · simp only [vgicSetVirq, hslot', ok_bind, hir, if_false, hgicd, deref_some, hwrite, setSlot,
        hvms]
      rfl
    · refine ⟨{ slot with gicd := some virqs }, ?_⟩
      rw [writeAt_ok _ hvm] at hvms
      cases hvms
      simp only [slotOf, readAt_ok _ hvm, Vector.getElem_set_self, ok_bind, deref_some]

/-- `vcpu_go` returns, and the vCPU holds what it held. -/
theorem goVcpu_spec [Bitmap] {P : Lr → Bool} (hP : LiveTest P) (hw : Wired h.machine)
    (hslot : slotOf h v = .ok slot) (hid : v.id < maxVcpuNum) (st : VcpuStatus)
    (preempts : Bool) :
    ∃ h', goVcpu h v st preempts = .ok h' ∧ Touched h.machine h'.machine v ∧
      held P (h'.machine.slice v) = held P (h.machine.slice v) := by
  have hvm : v.vm < maxVmNum := by
    simp only [slotOf, bind_eq_ok] at hslot
    obtain ⟨p, hread, -⟩ := hslot
    exact (readAt_eq_ok.mp hread).1
  obtain ⟨vcpus, hvcpus⟩ := writeAt_eq slot.vcpus hid (some (vcpuGo st).1)
  obtain ⟨vms, hvms⟩ := writeAt_eq h.vms hvm (some { slot with vcpus := vcpus })
  obtain ⟨m', hsched, ht, hheld⟩ := schedule_spec hP hw v preempts
  have hset : setSlot h v { slot with vcpus := vcpus } = .ok { h with vms := vms } := by
    simp only [setSlot, hvms, ok_bind]
    rfl
  cases hcall : (vcpuGo st).2 with
  | schedule =>
      refine ⟨⟨m', vms⟩, ?_, ht, hheld⟩
      simp only [goVcpu, hslot, ok_bind, hvcpus, hset, hcall, hsched]
      rfl
  | resumeThenSchedule =>
      refine ⟨⟨m', vms⟩, ?_, ht, hheld⟩
      simp only [goVcpu, hslot, ok_bind, hvcpus, hset, hcall, hsched]
      rfl
  | nothing =>
      refine ⟨{ h with vms := vms }, ?_, Touched.refl _ v, rfl⟩
      simp only [goVcpu, hslot, ok_bind, hvcpus, hset, hcall]
      rfl
  | startup =>
      refine ⟨{ h with vms := vms }, ?_, Touched.refl _ v, rfl⟩
      simp only [goVcpu, hslot, ok_bind, hvcpus, hset, hcall]
      rfl
  | suspendThenSchedule =>
      refine ⟨{ h with vms := vms }, ?_, Touched.refl _ v, rfl⟩
      simp only [goVcpu, hslot, ok_bind, hvcpus, hset, hcall]
      rfl

private theorem vgicInject_touched [Bitmap] (hw : Wired m) (v : VcpuId) (virq : Virq) :
    ∃ s r, vgicInject (m.slice v) virq = .ok (s, r) ∧ Wired (m.putSlice v s) ∧
      Touched m (m.putSlice v s) v := by
  by_cases hq : Queued (m.gicr v) (vgicGetLrFromVirq virq).1
  · refine ⟨_, _, vgicInject_queued (hw.bounds v) hq, ?_, ?_⟩
    · exact hw.put rfl rfl (hw.bounds v) rfl
    · exact Touched.put rfl fun _ _ => rfl
  · obtain ⟨s, hrun, hs⟩ := vgicInject_spec (hw.ready v) hq
    refine ⟨s, _, hrun, ?_, ?_⟩
    · exact hw.put rfl rfl hs.bounds (by rw [hs.ctxt_eq]; rfl)
    · exact Touched.put (by rw [hs.ctxt_eq]; rfl) hs.regs

/-- The injection for the owner returns.  When nothing recorded the interrupt before,
exactly one value does afterwards if and only if the list accepts a value that records it. -/
theorem inject_spec [Bitmap] (hw : Wired h.machine) (hid : v.id < maxVcpuNum)
    (hvm : v.vm < maxVmNum) (hslot : slotOf h v = .ok slot)
    (hset : readAt slot.gicrSet v.id = .ok true) {virq : Virq}
    (hvirq : vgicGetVirq h v ir = .ok virq) (st : VcpuStatus) (preempts : Bool) :
    ∃ h', inject h v ir st preempts = .ok h' ∧
      (records h.machine ir = 0 → (records h'.machine ir = 1 ↔
        Accepts (h.machine.gicr v) (vgicGetLrFromVirq virq).1 ∧
          isRecord ir (vgicGetLrFromVirq virq).1 = true)) := by
  have hP := liveTest_isRecord ir
  obtain ⟨s, ⟨virq', reached⟩, hrun, hw₁, ht₁⟩ := vgicInject_touched hw v virq
  obtain ⟨h₂, hstore, hich, hctxt, hlists, hw₂, slot₂, hslot₂⟩ :=
    vgicSetVirq_spec hvirq (h.machine.putSlice v s) virq'
  have ht₂ : Touched h.machine h₂.machine v :=
    ht₁.trans ⟨by rw [hctxt], fun j _ => by rw [hich], fun u _ => hlists u⟩
  have hheld₂ : held (isRecord ir) (h₂.machine.slice v) = held (isRecord ir) s := by
    rw [held_slice_congr hich hctxt (hlists v)]
    simp only [Machine.slice, Machine.putSlice, Function.update_self]
  have hgo : ∃ h', inject h v ir st preempts = .ok h' ∧ Touched h.machine h'.machine v ∧
      held (isRecord ir) (h'.machine.slice v) = held (isRecord ir) s := by
    cases reached with
    | false =>
        refine ⟨h₂, ?_, ht₂, hheld₂⟩
        simp only [inject, hvirq, hslot, hset, hrun, hstore, ok_bind, check_true]
        rfl
    | true =>
        obtain ⟨h₃, hgo, ht₃, hheld₃⟩ := goVcpu_spec hP (hw₂ hw₁) hslot₂ hid st preempts
        refine ⟨h₃, ?_, ht₂.trans ht₃, hheld₃.trans hheld₂⟩
        simp only [inject, hvirq, hslot, hset, hrun, hstore, ok_bind, check_true, if_true, hgo]
  obtain ⟨h', hinject, ht, hheld⟩ := hgo
  refine ⟨h', hinject, ?_⟩
  intro hnone
  have hnr := hw.nrLr_le v.vm
  have hbefore : held (isRecord ir) (h.machine.slice v) = 0 := by
    rw [← records_of_touched hvm hid hnr (Touched.refl _ v) hnone]
    exact hnone
  rw [records_of_touched hvm hid hnr ht hnone, hheld]
  exact vgicInject_held hP (hw.ready v) hbefore hrun

/-! ## The handler -/

/-- An interrupt whose owner is `v`. -/
theorem trap_owned [Bitmap] (hw : Wired h.machine) (hir : ir ≠ 1023)
    (hnone : records h.machine ir = 0) (howner : vcpuGetIrqOwner h ir = .ok (some v))
    (isrTable : IsrTable) (preempts : Bool) :
    (∃ r, rtHwTrapIrq isrTable preempts h ir = .ok r ∧ Completed ir r) ↔ Takes h ir v := by
  have howns : Owns h ir v := ownerFrom_owns howner
  obtain ⟨slot, st, hslot, hst⟩ := howns.slot
  obtain ⟨virq, hvirq, hen, hhw⟩ := howns.virq
  have htrap : rtHwTrapIrq isrTable preempts h ir =
      (if st = .online ∨ st = .suspend then inject h v ir st preempts else pure h) >>=
        fun h' => pure (h', [GicWrite.eoir ir]) := by
    simp only [rtHwTrapIrq, hir, if_false, howner, ok_bind, hslot, hst, deref_some]
    split <;> rfl
  have hwrites : ∀ h', Completed ir (h', [GicWrite.eoir ir]) ↔ records h'.machine ir = 1 := by
    intro h'
    simp [Completed]
  rw [htrap]
  by_cases hon : st = .online ∨ st = .suspend
  · rw [if_pos hon]
    cases hset : readAt slot.gicrSet v.id with
    | error f =>
        rw [readAt_ok _ howns.id_lt] at hset
        cases hset
    | ok set =>
        cases set with
        | false =>
            -- a vCPU without a redistributor: the injection reads through a null pointer
            have hfault : inject h v ir st preempts = .error .nullPointer := by
              simp only [inject, hvirq, hslot, hset, ok_bind, check_false, error_bind]
            constructor
            · rintro ⟨r, hr, -⟩
              rw [hfault] at hr
              cases hr
            · intro htakes
              obtain ⟨slot', hslot', -, hset'⟩ := htakes.status
              obtain rfl := Except.ok.inj (hslot.symm.trans hslot')
              rw [hset] at hset'
              cases hset'
        | true =>
            obtain ⟨h', hinject, hiff⟩ :=
              inject_spec hw howns.id_lt howns.vm_lt hslot hset hvirq st preempts
            rw [hinject, ok_bind]
            constructor
            · rintro ⟨r, hr, hdone⟩
              obtain rfl := pure_eq_ok.mp hr
              obtain ⟨hacc, hrec⟩ := (hiff hnone).mp ((hwrites h').mp hdone)
              obtain ⟨hin, hpint⟩ := (isRecord_lr_iff hen hhw ir).mp hrec
              refine ⟨⟨slot, hslot, ?_, hset⟩, ⟨virq, hvirq, hin, hpint, hacc⟩⟩
              rcases hon with rfl | rfl
              · exact Or.inl hst
              · exact Or.inr hst
            · intro htakes
              obtain ⟨virq', hvirq', hin, hpint, hacc⟩ := htakes.virq
              obtain rfl := Except.ok.inj (hvirq.symm.trans hvirq')
              refine ⟨_, rfl, (hwrites h').mpr ((hiff hnone).mpr ⟨hacc, ?_⟩)⟩
              exact (isRecord_lr_iff hen hhw ir).mpr ⟨hin, hpint⟩
  · -- a vCPU that never ran, was shut down or has faulted: nothing is injected
    rw [if_neg hon]
    constructor
    · rintro ⟨r, hr, hdone⟩
      obtain rfl := pure_eq_ok.mp hr
      have hone := (hwrites h).mp hdone
      rw [hnone] at hone
      cases hone
    · intro htakes
      obtain ⟨slot', hslot', hst', -⟩ := htakes.status
      obtain rfl := Except.ok.inj (hslot.symm.trans hslot')
      rw [hst] at hst'
      rcases hst' with hst' | hst'
      · cases hst'
        exact absurd (Or.inl rfl) hon
      · cases hst'
        exact absurd (Or.inr rfl) hon

/-- An interrupt without an owner is the host's. -/
theorem trap_host [Bitmap] (hir : ir ≠ 1023) (howner : vcpuGetIrqOwner h ir = .ok none)
    (isrTable : IsrTable) (preempts : Bool) :
    (∃ r, rtHwTrapIrq isrTable preempts h ir = .ok r ∧ Completed ir r) ↔
      ir % 1024 < maxHandlers := by
  constructor
  · rintro ⟨r, hr, -⟩
    simp only [rtHwTrapIrq, hir, if_false, howner, ok_bind, bind_eq_ok] at hr
    obtain ⟨isr, hread, -⟩ := hr
    exact (readAt_eq_ok.mp hread).1
  · intro hlt
    refine ⟨_, by simp only [rtHwTrapIrq, hir, if_false, howner, ok_bind, readAt_ok _ hlt]; rfl, ?_⟩
    left
    simp

/-- An acknowledged interrupt that nothing records yet is completed, by the host or through
exactly one value of a guest, if and only if the condition holds. -/
theorem irq_completed_iff [Bitmap] (hw : Wired h.machine) (hir : ir ≠ 1023)
    (hnone : records h.machine ir = 0) (isrTable : IsrTable) (preempts : Bool) :
    (∃ r, rtHwTrapIrq isrTable preempts h ir = .ok r ∧ Completed ir r) ↔ Handled h ir := by
  cases howner : vcpuGetIrqOwner h ir with
  | error f =>
      constructor
      · rintro ⟨r, hr, -⟩
        simp only [rtHwTrapIrq, hir, if_false, howner, error_bind] at hr
        cases hr
      · rintro (⟨hnull, -⟩ | ⟨v, hv, -⟩)
        · rw [howner] at hnull
          cases hnull
        · rw [howner] at hv
          cases hv
  | ok p =>
      cases p with
      | none =>
          rw [trap_host hir howner isrTable preempts]
          constructor
          · intro hlt
            exact Or.inl ⟨howner, hlt⟩
          · rintro (⟨-, hlt⟩ | ⟨v, hv, -⟩)
            · exact hlt
            · rw [howner] at hv
              cases hv
      | some v =>
          rw [trap_owned hw hir hnone howner isrTable preempts]
          constructor
          · intro htakes
            exact Or.inr ⟨v, howner, htakes⟩
          · rintro (⟨hnull, -⟩ | ⟨u, hu, htakes⟩)
            · rw [howner] at hnull
              cases hnull
            · rw [howner] at hu
              cases hu
              exact htakes

/-! ## The console's interrupt, mounted to a VM -/

/-- Interrupt 33 as `vgic_virq_mount` leaves it for a guest that has enabled it. -/
def uartVirq : Virq := { spi 33 with pINTID := 33, hw := true }

/-- One VM with one vCPU in the given status, which owns interrupt 33. -/
def consoleHost (st : VcpuStatus) : Host where
  machine := bootMachine
  vms := (Vector.replicate maxVmNum none).set 0 (some
    { nrVcpus := 1
      vcpus := (Vector.replicate maxVcpuNum none).set 0 (some st)
      gicd := some ((Vector.replicate gicdVirqNum (spi 0)).set 1 uartVirq)
      gicrSet := (Vector.replicate maxVcpuNum false).set 0 true })

def noHandlers : IsrTable := Vector.replicate maxHandlers none

/-- The vCPU has faulted (`VCPU_STATUS_UNKNOWN`) while its interrupt was mounted: the
interrupt is neither injected nor deactivated, and never signalled again. -/
theorem faulted_owner_keeps_active :
    ¬∀ (h : Host) (ir : Nat) (isrTable : IsrTable) (preempts : Bool), Wired h.machine →
      ir ≠ 1023 → records h.machine ir = 0 →
      ∃ r, rtHwTrapIrq isrTable preempts h ir = .ok r ∧ Completed ir r := by
  intro hevery
  have hw : Wired (consoleHost .unknown).machine := wired_initial initial_bootWorld
  have hnone : records (consoleHost .unknown).machine 33 = 0 := by decide
  obtain ⟨r, hr, hdone⟩ := hevery _ 33 noHandlers false hw (by decide) hnone
  have hrun : (rtHwTrapIrq noHandlers false (consoleHost .unknown) 33).map
      (fun r => (r.2, records r.1.machine 33)) = .ok ([.eoir 33], 0) := by
    decide
  obtain ⟨r', hr', hval⟩ := exists_of_map_eq_ok hrun
  obtain rfl := Except.ok.inj (hr.symm.trans hr')
  obtain ⟨hwrites, hrecords⟩ := Prod.mk.inj hval
  rcases hdone with hdir | hone
  · rw [hwrites] at hdir
    exact absurd hdir (by decide)
  · rw [hrecords] at hone
    cases hone

/-- The same interrupt while the vCPU is suspended. -/
theorem suspended_owner_completes :
    Handled (consoleHost .suspend) 33 ∧
      ∃ r, rtHwTrapIrq noHandlers true (consoleHost .suspend) 33 = .ok r ∧ Completed 33 r := by
  have hw : Wired (consoleHost .suspend).machine := wired_initial initial_bootWorld
  have hnone : records (consoleHost .suspend).machine 33 = 0 := by decide
  have howner : (vcpuGetIrqOwner (consoleHost .suspend) 33) = .ok (some ⟨0, 0⟩) := by
    decide
  have hhandled : Handled (consoleHost .suspend) 33 := by
    refine Or.inr ⟨⟨0, 0⟩, howner, ⟨⟨_, rfl, Or.inr rfl, rfl⟩, ⟨uartVirq, rfl, rfl, rfl, ?_⟩⟩⟩
    refine ⟨by decide, ?_⟩
    have hempty : entries ((consoleHost .suspend).machine.gicr ⟨0, 0⟩) = [] :=
      entries_vgicrInit rfl
    rintro ⟨e, he, -⟩
    rw [hempty] at he
    cases he
  exact ⟨hhandled, (irq_completed_iff hw (by decide) hnone noHandlers true).mpr hhandled⟩

end RtHypervisor.Ports.TrapIrq
