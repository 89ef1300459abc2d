import RtHypervisor.Ports.SwitchContext

/-!
# A vCPU runs in its own context

The CPU with its scheduler: thread switches reported through `switch_hook`,
writes of the running thread to the registers of the save list, injections and
guest acknowledges and completions, in any order.  A ghost records the registers
each vCPU had when it was last switched out.

`runs_own_context` says that a vCPU is always entered with its own VM's stage-2
table and with the registers it left, provided that no switch goes directly from
one vCPU to another: the two handlers for such a switch do nothing, so the second
vCPU runs on with the first one's registers (`direct_switch_keeps_context`).
-/

namespace RtHypervisor.Ports.SwitchContext

open RtHypervisor.Verified.Run
open RtHypervisor.Verified.RegFile
open RtHypervisor.Ports.ListRegister
open RtHypervisor.Ports.LrList

/-- The machine, the registers each vCPU had when it was last switched out, and the
interrupts injected for it so far. -/
structure World where
  machine : Machine
  last : VcpuId → HwReg → BitVec 64
  injected : VcpuId → List Virq

inductive Event
  | switchTo (t : Thread)
  | write (r : HwReg) (val : BitVec 64)
  | inject (v : VcpuId) (virq : Virq)
  | acknowledge (i : Nat)
  | complete (i : Nat)
deriving DecidableEq, Repr

/-- Let the guest act on list register `i`, if a vCPU is running and has it. -/
def Machine.guest (m : Machine) (act : IchRegs → Nat → IchRegs) (i : Nat) : Machine :=
  match m.current with
  | .vcpu c => if i < (m.ctxt c.vm).nrLr then { m with ich := act m.ich i } else m
  | .host _ => m

/-- The ghost at a switch: a vCPU that stops leaves its registers. -/
def recordOut (w : World) : VcpuId → HwReg → BitVec 64 :=
  match w.machine.current with
  | .vcpu c => Function.update w.last c w.machine.regs
  | .host _ => w.last

def step [Bitmap] (w : World) : Event → Except Fault World
  | .switchTo t => do
      let m ← switchHook w.machine w.machine.current t
      pure ⟨{ m with current := t }, recordOut w, w.injected⟩
  | .write r val =>
      pure (if r ∈ savedRegs.map Prod.fst then { w with machine := w.machine.setReg r val }
        else w)
  | .inject v virq => do
      let (s, _, _) ← vgicInject (w.machine.slice v) virq
      pure ⟨w.machine.putSlice v s, w.last,
        Function.update w.injected v (virq :: w.injected v)⟩
  | .acknowledge i => pure { w with machine := w.machine.guest guestAcknowledge i }
  | .complete i => pure { w with machine := w.machine.guest guestComplete i }

/-- A switch does not go from one vCPU to another. -/
def NoDirectSwitch (w : World) : Event → Prop
  | .switchTo (.vcpu b) => ∀ a, w.machine.current = .vcpu a → a = b
  | _ => True

instance (w : World) : ∀ e, Decidable (NoDirectSwitch w e)
  | .switchTo (.vcpu b) =>
      match h : w.machine.current with
      | .vcpu a => decidable_of_iff (a = b) (by simp [NoDirectSwitch, h])
      | .host _ => isTrue (by simp [NoDirectSwitch, h])
  | .switchTo (.host _) | .write .. | .inject .. | .acknowledge _ | .complete _ => isTrue trivial

/-- Every vCPU has been through `vcpu_state_init` and its VM through `vgic_init` on a
block whose `tail` word was in range, and a host thread runs. -/
structure Initial (w : World) : Prop where
  nrLr_eq : ∀ vm vm', (w.machine.ctxt vm).nrLr = (w.machine.ctxt vm').nrLr
  nrLr_le : ∀ vm, (w.machine.ctxt vm).nrLr ≤ maxLrRegs
  state_init : ∀ v, vcpuStateInit w.machine v = w.machine
  gicr_eq : ∀ v, ∃ old iidr n mpidr, old.tail ≤ gicLrListNum ∧
    w.machine.gicr v = vgicrInit old iidr v.id n mpidr
  current_host : ∃ n, w.machine.current = .host n
  last_eq : ∀ v, ∀ p ∈ savedRegs, w.last v p.1 = vcpuStateInitRegs v.id p.2

/-- The stage-2 table of the running vCPU is its VM's. -/
def OwnStage2 (m : Machine) : Prop :=
  ∀ c, m.current = .vcpu c → m.regs .vttbrEl2 = (m.vmArch c.vm).vttbrEl2 ∧
    m.regs .vttbrEl2 = vttbrOf (m.pgdTbl c.vm) c.vm

/-- vCPU `c` has been entered with its VM's stage-2 table and the registers of the save
list it had when it was last switched out, `CPACR_EL1` and `VBAR_EL1` apart. -/
structure OwnContext (w : World) (c : VcpuId) : Prop where
  current : w.machine.current = .vcpu c
  stage2 : w.machine.regs .vttbrEl2 = (w.machine.vmArch c.vm).vttbrEl2
  vttbr : w.machine.regs .vttbrEl2 = vttbrOf (w.machine.pgdTbl c.vm) c.vm
  regs : ∀ p ∈ savedRegs, p.1 ≠ .cpacrEl1 → p.1 ≠ .vbarEl1 →
    w.machine.regs p.1 = w.last c p.1

/-! ## The handlers, one specification each -/

@[simp] theorem flushVmAllTlb_eq (m : Machine) (vm : Nat) : flushVmAllTlb m vm = m := by
  unfold flushVmAllTlb
  by_cases h : m.regs .vttbrEl2 = vttbrOf (m.pgdTbl vm) vm
  · simp only [ne_eq, h, not_true_eq_false, if_false]
  · simp only [ne_eq, h, not_false_eq_true, if_true, Machine.setReg, Function.update_idem,
      Function.update_eq_self]

theorem savedRegs_ne : ∀ p ∈ savedRegs,
    p.1 ≠ .hcrEl2 ∧ p.1 ≠ .vtcrEl2 ∧ p.1 ≠ .vttbrEl2 := by
  decide

/-- What entering vCPU `v` from the host does. -/
structure Entered (m t : Machine) (v : VcpuId) : Prop where
  arch_eq : t.arch = m.arch
  vmArch_eq : t.vmArch = m.vmArch
  pgdTbl_eq : t.pgdTbl = m.pgdTbl
  vttbr : t.regs .vttbrEl2 = (m.vmArch v.vm).vttbrEl2
  vtcr : t.regs .vtcrEl2 = (m.vmArch v.vm).vtcrEl2
  regs : ∀ p ∈ savedRegs, p.1 ≠ .cpacrEl1 → p.1 ≠ .vbarEl1 →
    t.regs p.1 = (m.arch v).sysRegs p.2
  slice : ∃ s, Restored (m.slice v) s ∧ t.ich = s.ich ∧
    t.gicr = Function.update m.gicr v s.gicr ∧
    t.ctxt = Function.update m.ctxt v.vm s.ctxt

theorem hostToGuestArchHandler_spec [Bitmap] {m : Machine} {v : VcpuId} (h : Ready (m.slice v)) :
    ∃ t, hostToGuestArchHandler m v = .ok t ∧ Entered m t v := by
  obtain ⟨s, hrun, hs⟩ := hookVgicContextRestore_spec h
  have hslice : (loadStage2Setting (activateTrap (hookVcpuRegsRestore m v) v) v).slice v =
      m.slice v := by
    simp only [loadStage2Setting, flushVmAllTlb_eq]
    rfl
  refine ⟨_, by simp only [hostToGuestArchHandler, hslice, hrun, ok_bind]; rfl, ?_⟩
  simp only [loadStage2Setting, flushVmAllTlb_eq]
  refine
    { arch_eq := rfl
      vmArch_eq := rfl
      pgdTbl_eq := rfl
      vttbr := ?_
      vtcr := ?_
      regs := ?_
      slice := ⟨s, hs, rfl, rfl, rfl⟩ }
  · simp only [Machine.putSlice, Machine.setReg, Function.update_self]
    rfl
  · simp only [Machine.putSlice, Machine.setReg]
    rw [Function.update_of_ne (by decide), Function.update_self]
    rfl
  · intro p hp hcpacr hvbar
    obtain ⟨hhcr, hvtcr, hvttbr⟩ := savedRegs_ne p hp
    simp only [Machine.putSlice, Machine.setReg, activateTrap, hookVcpuRegsRestore]
    rw [Function.update_of_ne hvttbr, Function.update_of_ne hvtcr,
      Function.update_of_ne hvbar, Function.update_of_ne hcpacr, Function.update_of_ne hhcr]
    exact copyInto_of_mem savedRegs_nodup_fst hp

/-- What leaving vCPU `v` for the host does. -/
structure Left (m t : Machine) (v : VcpuId) : Prop where
  pgdTbl_eq : t.pgdTbl = m.pgdTbl
  arch_ne : ∀ u, u ≠ v → t.arch u = m.arch u
  vmArch_eq : t.vmArch =
    Function.update m.vmArch v.vm ⟨m.regs .vtcrEl2, m.regs .vttbrEl2⟩
  saved : ∀ p ∈ savedRegs, p.1 ≠ .cpacrEl1 → (t.arch v).sysRegs p.2 = m.regs p.1
  slice : ∃ s, Saved (m.slice v) s ∧ t.ich = s.ich ∧
    t.gicr = Function.update m.gicr v s.gicr ∧
    t.ctxt = Function.update m.ctxt v.vm s.ctxt

theorem guestToHostArchHandler_spec [Bitmap] {m : Machine} {v : VcpuId} (h : Ready (m.slice v)) :
    ∃ t, guestToHostArchHandler m v = .ok t ∧ Left m t v := by
  obtain ⟨s, hrun, hs⟩ := hookVgicContextSave_spec h
  have hslice : (hookVcpuRegsSave (deactivateTrap (saveStage2Setting m v)) v).slice v =
      m.slice v := rfl
  refine ⟨_, by simp only [guestToHostArchHandler, hslice, hrun, ok_bind]; rfl, ?_⟩
  refine
    { pgdTbl_eq := rfl
      arch_ne := fun u hu => Function.update_of_ne hu ..
      vmArch_eq := rfl
      saved := ?_
      slice := ⟨s, hs, rfl, rfl, rfl⟩ }
  intro p hp hcpacr
  have hmem : (p.2, p.1) ∈ savedRegs.map Prod.swap :=
    List.mem_map.mpr ⟨p, hp, rfl⟩
  simp only [Machine.putSlice, hookVcpuRegsSave, Function.update_self]
  rw [copyInto_of_mem savedRegs_nodup_snd hmem]
  show Function.update (Function.update m.regs HwReg.hcrEl2 _) HwReg.cpacrEl1 _ p.1 = _
  rw [Function.update_of_ne hcpacr, Function.update_of_ne (savedRegs_ne p hp).1]

/-! ## What keeps the vGIC hooks from faulting -/

structure Wired (m : Machine) : Prop where
  bounds : ∀ v, InBounds (m.gicr v)
  nrLr_le : ∀ vm, (m.ctxt vm).nrLr ≤ 16

theorem Wired.ready {m : Machine} (h : Wired m) (v : VcpuId) : Ready (m.slice v) :=
  ⟨h.bounds v, h.nrLr_le v.vm⟩

/-- Putting back a slice that is in bounds and has as many list registers. -/
theorem Wired.put {m t : Machine} (h : Wired m) {v : VcpuId} {s : VgicSlice}
    (hgicr : t.gicr = Function.update m.gicr v s.gicr)
    (hctxt : t.ctxt = Function.update m.ctxt v.vm s.ctxt) (hb : InBounds s.gicr)
    (hnr : s.ctxt.nrLr = (m.ctxt v.vm).nrLr) : Wired t where
  bounds := by
    intro u
    rw [hgicr]
    by_cases hu : u = v
    · rw [hu, Function.update_self]
      exact hb
    · rw [Function.update_of_ne hu]
      exact h.bounds u
  nrLr_le := by
    intro vm
    rw [hctxt]
    by_cases hvm : vm = v.vm
    · rw [hvm, Function.update_self, hnr]
      exact h.nrLr_le v.vm
    · rw [Function.update_of_ne hvm]
      exact h.nrLr_le vm

theorem wired_initial {w : World} (h : Initial w) : Wired w.machine where
  bounds := by
    intro v
    obtain ⟨old, iidr, n, mpidr, htail, hgicr⟩ := h.gicr_eq v
    rw [hgicr]
    exact inBounds_vgicrInit htail
  nrLr_le := h.nrLr_le

/-- An injection succeeds whoever runs, and the slice it leaves can be put back. -/
theorem vgicInject_wired [Bitmap] {m : Machine} (h : Wired m) (v : VcpuId) (virq : Virq) :
    ∃ s r, vgicInject (m.slice v) virq = .ok (s, r) ∧ InBounds s.gicr ∧
      s.ctxt = m.ctxt v.vm := by
  by_cases hq : Queued (m.gicr v) (vgicGetLrFromVirq virq).1
  · exact ⟨_, _, vgicInject_queued (h.bounds v) hq, h.bounds v, rfl⟩
  · obtain ⟨s, hrun, hs⟩ := vgicInject_spec (h.ready v) hq
    exact ⟨s, _, hrun, hs.bounds, hs.ctxt_eq⟩

/-! ## The invariant -/

structure Inv (w : World) : Prop where
  wired : Wired w.machine
  vmArch : ∀ vm, w.machine.vmArch vm = ⟨getVtcrEl2, vttbrOf (w.machine.pgdTbl vm) vm⟩
  running : ∀ c, w.machine.current = .vcpu c →
    w.machine.regs .vttbrEl2 = vttbrOf (w.machine.pgdTbl c.vm) c.vm ∧
    w.machine.regs .vtcrEl2 = getVtcrEl2
  saved : ∀ v, w.machine.current ≠ .vcpu v →
    ∀ p ∈ savedRegs, p.1 ≠ .cpacrEl1 → p.1 ≠ .vbarEl1 →
      (w.machine.arch v).sysRegs p.2 = w.last v p.1

theorem inv_initial {w : World} (h : Initial w) : Inv w := by
  have harch : ∀ v, w.machine.arch v =
      ⟨vcpuStateInitRegs v.id, hcrGuestFlags ||| hcrGuestXmoFlags⟩ := by
    intro v
    have hv := congrArg (fun m => m.arch v) (h.state_init v)
    simp only [vcpuStateInit, Function.update_self] at hv
    exact hv.symm
  have hvm : ∀ vm, w.machine.vmArch vm =
      ⟨getVtcrEl2, vttbrOf (w.machine.pgdTbl vm) vm⟩ := by
    intro vm
    have hv := congrArg (fun m => m.vmArch vm) (h.state_init ⟨vm, 0⟩)
    simp only [vcpuStateInit, Function.update_self] at hv
    exact hv.symm
  obtain ⟨n, hhost⟩ := h.current_host
  refine ⟨wired_initial h, hvm, ?_, ?_⟩
  · intro c hc
    rw [hhost] at hc
    cases hc
  · intro v _ p hp _ _
    rw [harch, h.last_eq v p hp]

theorem Inv.ownStage2 {w : World} (h : Inv w) : OwnStage2 w.machine := by
  intro c hc
  have hrun := (h.running c hc).1
  exact ⟨by rw [hrun, h.vmArch], hrun⟩

/-- Entering a vCPU from the host. -/
theorem Inv.enter {w : World} (h : Inv w) {n : Nat} (hhost : w.machine.current = .host n)
    {t : Machine} {v : VcpuId} (ht : Entered w.machine t v) :
    Inv ⟨{ t with current := .vcpu v }, w.last, w.injected⟩ ∧
    OwnContext ⟨{ t with current := .vcpu v }, w.last, w.injected⟩ v := by
  have hvttbr : t.regs .vttbrEl2 = vttbrOf (t.pgdTbl v.vm) v.vm := by
    rw [ht.vttbr, h.vmArch, ht.pgdTbl_eq]
  constructor
  · refine
      { wired := ?_
        vmArch := ?_
        running := ?_
        saved := ?_ }
    · obtain ⟨s, hs, -, hgicr, hctxt⟩ := ht.slice
      have hwired := h.wired.put hgicr hctxt hs.bounds hs.nrLr_eq
      exact ⟨hwired.bounds, hwired.nrLr_le⟩
    · intro vm
      show t.vmArch vm = ⟨getVtcrEl2, vttbrOf (t.pgdTbl vm) vm⟩
      rw [ht.vmArch_eq, ht.pgdTbl_eq]
      exact h.vmArch vm
    · rintro c ⟨⟩
      exact ⟨hvttbr, by rw [ht.vtcr, h.vmArch]⟩
    · intro u _ p hp hcpacr hvbar
      show (t.arch u).sysRegs p.2 = w.last u p.1
      rw [ht.arch_eq]
      exact h.saved u (by rw [hhost]; simp) p hp hcpacr hvbar
  · refine ⟨rfl, ?_, hvttbr, ?_⟩
    · show t.regs .vttbrEl2 = (t.vmArch v.vm).vttbrEl2
      rw [ht.vttbr, ht.vmArch_eq]
    · intro p hp hcpacr hvbar
      show t.regs p.1 = w.last v p.1
      rw [ht.regs p hp hcpacr hvbar]
      exact h.saved v (by rw [hhost]; simp) p hp hcpacr hvbar

/-- Leaving a vCPU for the host. -/
theorem Inv.leave {w : World} (h : Inv w) {v : VcpuId}
    (hrun : w.machine.current = .vcpu v) {t : Machine} (ht : Left w.machine t v) (n : Nat) :
    Inv ⟨{ t with current := .host n }, Function.update w.last v w.machine.regs,
      w.injected⟩ := by
  refine
    { wired := ?_
      vmArch := ?_
      running := ?_
      saved := ?_ }
  · obtain ⟨s, hs, -, hgicr, hctxt⟩ := ht.slice
    have hwired := h.wired.put hgicr hctxt hs.bounds hs.nrLr_eq
    exact ⟨hwired.bounds, hwired.nrLr_le⟩
  · intro vm
    show t.vmArch vm = ⟨getVtcrEl2, vttbrOf (t.pgdTbl vm) vm⟩
    rw [ht.vmArch_eq, ht.pgdTbl_eq]
    by_cases hvm : vm = v.vm
    · obtain ⟨hvttbr, hvtcr⟩ := h.running v hrun
      rw [hvm, Function.update_self, hvttbr, hvtcr]
    · rw [Function.update_of_ne hvm]
      exact h.vmArch vm
  · rintro c ⟨⟩
  · intro u _ p hp hcpacr hvbar
    show (t.arch u).sysRegs p.2 = Function.update w.last v w.machine.regs u p.1
    by_cases hu : u = v
    · rw [hu, Function.update_self]
      exact ht.saved p hp hcpacr
    · rw [ht.arch_ne u hu, Function.update_of_ne hu]
      refine h.saved u ?_ p hp hcpacr hvbar
      rw [hrun]
      intro heq
      cases heq
      exact hu rfl

/-- A switch of a thread to itself changes nothing but the ghost. -/
theorem Inv.stay {w : World} (h : Inv w) {v : VcpuId} (hrun : w.machine.current = .vcpu v) :
    Inv ⟨{ w.machine with current := .vcpu v }, Function.update w.last v w.machine.regs,
      w.injected⟩ ∧
    OwnContext ⟨{ w.machine with current := .vcpu v },
      Function.update w.last v w.machine.regs, w.injected⟩ v := by
  constructor
  · refine
      { wired := ⟨h.wired.bounds, h.wired.nrLr_le⟩
        vmArch := h.vmArch
        running := ?_
        saved := ?_ }
    · rintro c ⟨⟩
      exact h.running v hrun
    · intro u hu p hp hcpacr hvbar
      have hne : u ≠ v := fun heq => hu (by rw [heq])
      show (w.machine.arch u).sysRegs p.2 = Function.update w.last v w.machine.regs u p.1
      rw [Function.update_of_ne hne]
      refine h.saved u ?_ p hp hcpacr hvbar
      rw [hrun]
      intro heq
      cases heq
      exact hne rfl
  · obtain ⟨hstage2, hvttbr⟩ := h.ownStage2 v hrun
    refine ⟨rfl, hstage2, hvttbr, ?_⟩
    intro p _ _ _
    show w.machine.regs p.1 = Function.update w.last v w.machine.regs v p.1
    rw [Function.update_self]

private theorem step_switchTo [Bitmap] {w : World} (h : Inv w) {t : Thread}
    (hnd : NoDirectSwitch w (.switchTo t)) :
    ∃ w', step w (.switchTo t) = .ok w' ∧ Inv w' ∧ ∀ c, t = .vcpu c → OwnContext w' c := by
  cases hcur : w.machine.current with
  | host n =>
      cases t with
      | host k =>
          refine ⟨⟨{ w.machine with current := .host k }, w.last, w.injected⟩, ?_, ?_, ?_⟩
          · simp only [step, hcur, switchHook, thisSwitchType, recordOut]
            rfl
          · refine ⟨⟨h.wired.bounds, h.wired.nrLr_le⟩, h.vmArch, ?_, ?_⟩
            · rintro c ⟨⟩
            · intro v _
              exact h.saved v (by rw [hcur]; simp)
          · rintro c ⟨⟩
      | vcpu v =>
          obtain ⟨m, hrun, hm⟩ := hostToGuestArchHandler_spec (h.wired.ready v)
          obtain ⟨hinv, hown⟩ := h.enter hcur hm
          refine ⟨_, ?_, hinv, ?_⟩
          · simp only [step, hcur, switchHook, thisSwitchType, recordOut, hrun, ok_bind]
            rfl
          · rintro c ⟨⟩
            exact hown
  | vcpu a =>
      cases t with
      | host k =>
          obtain ⟨m, hrun, hm⟩ := guestToHostArchHandler_spec (h.wired.ready a)
          refine ⟨_, ?_, h.leave hcur hm k, ?_⟩
          · simp only [step, hcur, switchHook, thisSwitchType, recordOut, hrun, ok_bind]
            rfl
          · rintro c ⟨⟩
      | vcpu b =>
          obtain rfl := hnd a hcur
          obtain ⟨hinv, hown⟩ := h.stay hcur
          refine ⟨_, ?_, hinv, ?_⟩
          · simp only [step, hcur, switchHook, thisSwitchType, recordOut]
            rfl
          · rintro c ⟨⟩
            exact hown

/-- A change of the interrupt state alone keeps the invariant. -/
theorem Inv.of_regs_eq {w w' : World} (h : Inv w) (hwired : Wired w'.machine)
    (hregs : w'.machine.regs = w.machine.regs) (harch : w'.machine.arch = w.machine.arch)
    (hvm : w'.machine.vmArch = w.machine.vmArch)
    (hpgd : w'.machine.pgdTbl = w.machine.pgdTbl)
    (hcur : w'.machine.current = w.machine.current) (hlast : w'.last = w.last) : Inv w' where
  wired := hwired
  vmArch := by
    rw [hvm, hpgd]
    exact h.vmArch
  running := by
    rw [hcur, hregs, hpgd]
    exact h.running
  saved := by
    rw [hcur, harch, hlast]
    exact h.saved

private theorem step_write [Bitmap] {w : World} (h : Inv w) (r : HwReg) (val : BitVec 64) :
    ∃ w', step w (.write r val) = .ok w' ∧ Inv w' := by
  refine ⟨_, rfl, ?_⟩
  split
  · rename_i hmem
    obtain ⟨p, hp, rfl⟩ := List.mem_map.mp hmem
    obtain ⟨-, hvtcr, hvttbr⟩ := savedRegs_ne p hp
    refine ⟨⟨h.wired.bounds, h.wired.nrLr_le⟩, h.vmArch, ?_, h.saved⟩
    intro c hc
    simp only [Machine.setReg]
    rw [Function.update_of_ne (Ne.symm hvttbr), Function.update_of_ne (Ne.symm hvtcr)]
    exact h.running c hc
  · exact h

theorem step_inject [Bitmap] {w : World} (h : Inv w) (v : VcpuId) (virq : Virq) :
    ∃ w', step w (.inject v virq) = .ok w' ∧ Inv w' := by
  obtain ⟨s, r, hrun, hb, hctxt⟩ := vgicInject_wired h.wired v virq
  refine ⟨_, by simp only [step, hrun, ok_bind]; rfl, ?_⟩
  have hwired : Wired (w.machine.putSlice v s) :=
    h.wired.put rfl rfl hb (by rw [hctxt])
  exact h.of_regs_eq hwired rfl rfl rfl rfl rfl rfl

private theorem step_guest {w : World} (h : Inv w) (act : IchRegs → Nat → IchRegs) (i : Nat) :
    Inv { w with machine := w.machine.guest act i } := by
  unfold Machine.guest
  split
  · split
    · exact h.of_regs_eq ⟨h.wired.bounds, h.wired.nrLr_le⟩ rfl rfl rfl rfl rfl rfl
    · exact h
  · exact h

theorem step_inv [Bitmap] {w : World} (h : Inv w) {e : Event} (hnd : NoDirectSwitch w e) :
    ∃ w', step w e = .ok w' ∧ Inv w' := by
  cases e with
  | switchTo t =>
      obtain ⟨w', hrun, hinv, -⟩ := step_switchTo h hnd
      exact ⟨w', hrun, hinv⟩
  | write r val => exact step_write h r val
  | inject v virq => exact step_inject h v virq
  | acknowledge i => exact ⟨_, rfl, step_guest h guestAcknowledge i⟩
  | complete i => exact ⟨_, rfl, step_guest h guestComplete i⟩

/-- In a run without a direct switch between two vCPUs, the running vCPU always has its
VM's stage-2 table, and every further switch to a vCPU enters it in the context it
left, or in its initial one. -/
theorem runs_own_context [Bitmap] {w : World} (hw : Initial w) {es : List Event}
    (hg : Guarded step NoDirectSwitch w es) :
    ∃ t, run step w es = .ok t ∧ OwnStage2 t.machine ∧
      ∀ c, NoDirectSwitch t (.switchTo (.vcpu c)) →
        ∃ t', step t (.switchTo (.vcpu c)) = .ok t' ∧ OwnContext t' c := by
  obtain ⟨t, hrun, ht⟩ := run_inv_of_guarded
    (fun _ _ hinv hnd => step_inv hinv hnd) (inv_initial hw) hg
  refine ⟨t, hrun, ht.ownStage2, ?_⟩
  intro c hnd
  obtain ⟨t', hstep, -, hown⟩ := step_switchTo ht hnd
  exact ⟨t', hstep, hown c rfl⟩

/-! ## Two VMs, switched directly -/

/-- The CPU after boot: every VM has a level-1 table of its own, every vCPU its initial
state, and a host thread runs. -/
def bootMachine : Machine :=
  { regs := fun _ => 0
    ich := (idleSlice 4).ich
    arch := fun v => ⟨vcpuStateInitRegs v.id, hcrGuestFlags ||| hcrGuestXmoFlags⟩
    vmArch := fun vm => ⟨getVtcrEl2, vttbrOf (0x40000000 + BitVec.ofNat 64 vm * 4096) vm⟩
    pgdTbl := fun vm => 0x40000000 + BitVec.ofNat 64 vm * 4096
    ctxt := fun _ => (idleSlice 4).ctxt
    gicr := fun v => vgicrInit zeroGicr 0 v.id 1 0
    systemVectors := 0x80000
    current := .host 0 }

/-- The initial value of the register a save-list register is loaded from. -/
def initialRegs (v : VcpuId) (r : HwReg) : BitVec 64 :=
  match savedRegs.find? fun p => p.1 = r with
  | some p => vcpuStateInitRegs v.id p.2
  | none => 0

def bootWorld : World := ⟨bootMachine, initialRegs, fun _ => []⟩

theorem initial_bootWorld : Initial bootWorld where
  nrLr_eq := fun _ _ => rfl
  nrLr_le := by
    intro vm
    show 4 ≤ maxLrRegs
    decide
  state_init := by
    intro v
    simp only [vcpuStateInit, bootWorld, bootMachine]
    congr 1
    · exact Function.update_eq_self v _
    · exact Function.update_eq_self v.vm _
  gicr_eq := fun v => ⟨zeroGicr, 0, 1, 0, by decide, rfl⟩
  current_host := ⟨0, rfl⟩
  last_eq := by
    intro v
    simp only [bootWorld, initialRegs, savedRegs, List.forall_mem_cons]
    simp

/-- The scheduler switches from a vCPU of VM 0 to one of VM 1: the second runs on VM 0's
stage-2 table. -/
theorem direct_switch_keeps_context :
    ¬∀ (w : World) (es : List Event) (c : VcpuId) (t : World), Initial w →
      run step w (es ++ [.switchTo (.vcpu c)]) = .ok t → OwnContext t c := by
  intro hclaim
  have hrun : (run step bootWorld
      ([.switchTo (.vcpu ⟨0, 0⟩)] ++ [.switchTo (.vcpu ⟨1, 0⟩)])).map
        (fun t => (t.machine.regs .vttbrEl2, t.machine.pgdTbl 1)) =
      .ok (vttbrOf 0x40000000 0, 0x40001000) := by
    decide
  obtain ⟨t, hok, hval⟩ := exists_of_map_eq_ok hrun
  have hvttbr : t.machine.regs .vttbrEl2 = vttbrOf 0x40000000 0 := congrArg Prod.fst hval
  have hpgd : t.machine.pgdTbl 1 = 0x40001000 := congrArg Prod.snd hval
  have hown := (hclaim bootWorld _ ⟨1, 0⟩ t initial_bootWorld hok).vttbr
  rw [hvttbr, hpgd] at hown
  exact absurd hown (by decide)

def twoVms : List Event :=
  [.switchTo (.vcpu ⟨0, 0⟩), .write .ttbr0El1 0x1000, .switchTo (.host 0),
    .switchTo (.vcpu ⟨1, 0⟩), .switchTo (.host 0)]

/-- Two vCPUs of two VMs take turns, with the host in between. -/
theorem runs_own_context_two_vms :
    Guarded step NoDirectSwitch bootWorld twoVms ∧
      ∃ t, run step bootWorld twoVms = .ok t ∧ OwnStage2 t.machine ∧
        ∀ c, NoDirectSwitch t (.switchTo (.vcpu c)) →
          ∃ t', step t (.switchTo (.vcpu c)) = .ok t' ∧ OwnContext t' c := by
  have hg : Guarded step NoDirectSwitch bootWorld twoVms := by decide
  exact ⟨hg, runs_own_context initial_bootWorld hg⟩

end RtHypervisor.Ports.SwitchContext
