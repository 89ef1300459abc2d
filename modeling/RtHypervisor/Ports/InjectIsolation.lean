import RtHypervisor.Ports.SwitchIsolation

/-!
# Interrupts stay with their vCPU

The same system as in `SwitchIsolation`, looked at from the interrupts: which
values the list registers and the `lr_list` of each redistributor hold, and for
which vCPU they were injected.

There is one set of list registers.  `vgic_inject` empties it into the list of
the vCPU it is called for and fills it from that list again, whoever is running,
so an injection for a vCPU that is not running takes the running one's interrupts
away and leaves its own in the registers (`foreign_inject_mixes`).
`interrupts_stay_with_vcpu` is the condition under which nothing crosses over.
-/

namespace RtHypervisor.Ports.SwitchContext

open RtHypervisor.Verified.Run
open RtHypervisor.Ports.ListRegister
open RtHypervisor.Ports.LrList

/-! ## What a list-register value describes -/

/-- A value without its tag and state bits. -/
def core (lr : Lr) : Lr := lr &&& 0x3EFFFFFFFFFFFFFF

/-- The value `vgic_get_lr_from_virq` builds for an interrupt that is enabled. -/
def lrOf [Bitmap] (virq : Virq) : Lr :=
  (vgicGetLrFromVirq { virq with enable := true, inLr := false }).1

/-- `lr` is the interrupt `virq`, in some state. -/
def Describes [Bitmap] (lr : Lr) (virq : Virq) : Prop := core lr = core (lrOf virq)

private theorem core_congr {a b : Lr}
    (h : ∀ i, i ≠ 56 → i < 62 → a.getLsbD i = b.getLsbD i) : core a = core b := by
  apply BitVec.eq_of_getLsbD_eq
  intro i hi
  rw [core, core, BitVec.getLsbD_and, BitVec.getLsbD_and]
  by_cases h56 : i = 56
  · subst h56
    have hmask : (0x3EFFFFFFFFFFFFFF : Lr).getLsbD 56 = false := by decide
    rw [hmask, Bool.and_false, Bool.and_false]
  · by_cases hlt : i < 62
    · rw [h i h56 hlt]
    · have hmask : (0x3EFFFFFFFFFFFFFF : Lr).getLsbD i = false := by
        have hcases : i = 62 ∨ i = 63 := by omega
        rcases hcases with rfl | rfl <;> decide
      rw [hmask, Bool.and_false, Bool.and_false]

@[simp] theorem core_tag (lr : Lr) : core (lr ||| lrTag) = core lr :=
  core_congr fun _ h56 _ => getLsbD_tag lr h56

@[simp] theorem core_withState (lr : Lr) (st : BitVec 2) : core (withState lr st) = core lr :=
  core_congr fun _ _ hlt => getLsbD_withState_low lr st hlt

private theorem describes_of_enabled [Bitmap] {virq : Virq} (hen : virq.enable = true)
    (hin : virq.inLr = false) : Describes (vgicGetLrFromVirq virq).1 virq := by
  have heq : { virq with enable := true, inLr := false } = virq := by
    rw [← hen, ← hin]
  rw [Describes, lrOf, heq]

/-- `lr` describes an interrupt that was injected for `v`. -/
def InjectedFor [Bitmap] (w : World) (v : VcpuId) (lr : Lr) : Prop :=
  ∃ virq ∈ w.injected v, Describes lr virq

theorem InjectedFor.tag [Bitmap] {w : World} {v : VcpuId} {lr : Lr} (h : InjectedFor w v lr) :
    InjectedFor w v (lr ||| lrTag) := by
  obtain ⟨virq, hmem, hd⟩ := h
  exact ⟨virq, hmem, (core_tag lr).trans hd⟩

theorem InjectedFor.withState [Bitmap] {w : World} {v : VcpuId} {lr : Lr} (h : InjectedFor w v lr)
    (st : BitVec 2) : InjectedFor w v (withState lr st) := by
  obtain ⟨virq, hmem, hd⟩ := h
  exact ⟨virq, hmem, (core_withState lr st).trans hd⟩

/-- Every list entry of a vCPU was injected for it, and a list register is only in use
while the vCPU whose interrupt it holds is running. -/
structure Isolated [Bitmap] (w : World) : Prop where
  list : ∀ v, ∀ e ∈ entries (w.machine.gicr v), InjectedFor w v e
  regs : ∀ vm i, i < (w.machine.ctxt vm).nrLr → lrIdle (w.machine.ich.lrAt i) = false →
    ∃ c, w.machine.current = .vcpu c ∧ InjectedFor w c (w.machine.ich.lrAt i)

/-- Nothing is held and nothing has been injected; the `tail` words happened to be
zero. -/
structure Quiet (w : World) : Prop extends Initial w where
  empty : ∀ v, (w.machine.gicr v).tail = 0
  idle : ∀ vm i, i < (w.machine.ctxt vm).nrLr → lrIdle (w.machine.ich.lrAt i) = true

/-- The condition on an event: no direct switch between two vCPUs, and an injection is
for the running vCPU and an enabled interrupt, unless it is cut short because the list
already holds the interrupt. -/
def OwnInject [Bitmap] (w : World) : Event → Prop
  | .inject v virq =>
      Queued (w.machine.gicr v) (vgicGetLrFromVirq virq).1 ∨
      (virq.enable = true ∧ virq.inLr = false ∧ w.machine.current = .vcpu v)
  | e => NoDirectSwitch w e

instance [Bitmap] (w : World) : ∀ e, Decidable (OwnInject w e)
  | .inject v virq => inferInstanceAs (Decidable
      (Queued (w.machine.gicr v) (vgicGetLrFromVirq virq).1 ∨
        (virq.enable = true ∧ virq.inLr = false ∧ w.machine.current = .vcpu v)))
  | .switchTo t => inferInstanceAs (Decidable (NoDirectSwitch w (.switchTo t)))
  | .write .. | .acknowledge _ | .complete _ => isTrue trivial

/-! ## The invariant -/

structure IrqInv [Bitmap] (w : World) : Prop where
  wired : Wired w.machine
  nrLr_eq : ∀ vm vm', (w.machine.ctxt vm).nrLr = (w.machine.ctxt vm').nrLr
  isolated : Isolated w

private theorem irqInv_quiet [Bitmap] {w : World} (h : Quiet w) : IrqInv w where
  wired := wired_initial h.toInitial
  nrLr_eq := h.nrLr_eq
  isolated := by
    constructor
    · intro v e he
      have hnone : entries (w.machine.gicr v) = [] := by
        rw [entries, h.empty v]
        rfl
      rw [hnone] at he
      cases he
    · intro vm i hi hlive
      rw [h.idle vm i hi] at hlive
      cases hlive

/-- The registers of the running vCPU hold its own interrupts. -/
theorem IrqInv.own [Bitmap] {w : World} (h : IrqInv w) {v : VcpuId}
    (hrun : w.machine.current = .vcpu v) {i : Nat} (hi : i < (w.machine.ctxt v.vm).nrLr)
    (hlive : lrIdle (w.machine.ich.lrAt i) = false) :
    InjectedFor w v (w.machine.ich.lrAt i) := by
  obtain ⟨c, hc, hinj⟩ := h.isolated.regs v.vm i hi hlive
  rw [hrun] at hc
  cases hc
  exact hinj

/-- Everything the running vCPU's slice holds was injected for it. -/
theorem IrqInv.places [Bitmap] {w : World} (h : IrqInv w) {v : VcpuId}
    (hrun : w.machine.current = .vcpu v) :
    ∀ x ∈ places (w.machine.slice v), InjectedFor w v x := by
  intro x hx
  rcases List.mem_append.mp hx with hreg | hent
  · obtain ⟨i, hi, rfl, hlive⟩ := mem_lrs.mp hreg
    exact h.own hrun (List.mem_range.mp hi) hlive
  · exact h.isolated.list v x hent

private theorem nrLr_update {m : Machine} {v : VcpuId} {c : VgicContext}
    (hall : ∀ vm vm', (m.ctxt vm).nrLr = (m.ctxt vm').nrLr)
    (hnr : c.nrLr = (m.ctxt v.vm).nrLr) (vm : Nat) :
    (Function.update m.ctxt v.vm c vm).nrLr = (m.ctxt v.vm).nrLr := by
  by_cases hvm : vm = v.vm
  · rw [hvm, Function.update_self, hnr]
  · rw [Function.update_of_ne hvm]
    exact hall vm v.vm

/-- The machine after the slice of `v` has been replaced by one whose list holds what was
injected for `v`, and whose registers, if in use, hold interrupts of the vCPU that
runs then. -/
theorem IrqInv.put [Bitmap] {w w' : World} (h : IrqInv w) {v : VcpuId} {s : VgicSlice}
    (hich : w'.machine.ich = s.ich)
    (hgicr : w'.machine.gicr = Function.update w.machine.gicr v s.gicr)
    (hctxt : w'.machine.ctxt = Function.update w.machine.ctxt v.vm s.ctxt)
    (hb : InBounds s.gicr) (hnr : s.ctxt.nrLr = (w.machine.ctxt v.vm).nrLr)
    (hmono : ∀ u x, InjectedFor w u x → InjectedFor w' u x)
    (hlist : ∀ e ∈ entries s.gicr, InjectedFor w' v e)
    (hregs : ∀ i, i < (w.machine.ctxt v.vm).nrLr → lrIdle (s.ich.lrAt i) = false →
      ∃ c, w'.machine.current = .vcpu c ∧ InjectedFor w' c (s.ich.lrAt i)) : IrqInv w' := by
  have hnr' : ∀ vm, (w'.machine.ctxt vm).nrLr = (w.machine.ctxt v.vm).nrLr := by
    intro vm
    rw [hctxt]
    exact nrLr_update h.nrLr_eq hnr vm
  refine
    { wired := h.wired.put hgicr hctxt hb hnr
      nrLr_eq := fun vm vm' => by rw [hnr' vm, hnr' vm']
      isolated := ⟨?_, ?_⟩ }
  · intro u e he
    rw [hgicr] at he
    by_cases hu : u = v
    · rw [hu, Function.update_self] at he
      rw [hu]
      exact hlist e he
    · rw [Function.update_of_ne hu] at he
      exact hmono u e (h.isolated.list u e he)
  · intro vm i hi hlive
    rw [hnr' vm] at hi
    rw [hich] at hlive ⊢
    exact hregs i hi hlive

/-- A step that leaves registers, lists and contexts alone, and the vCPU that runs. -/
theorem IrqInv.of_eq [Bitmap] {w w' : World} (h : IrqInv w) (hich : w'.machine.ich = w.machine.ich)
    (hgicr : w'.machine.gicr = w.machine.gicr) (hctxt : w'.machine.ctxt = w.machine.ctxt)
    (hcur : ∀ c, w.machine.current = .vcpu c → w'.machine.current = .vcpu c)
    (hmono : ∀ u x, InjectedFor w u x → InjectedFor w' u x) : IrqInv w' where
  wired := ⟨by rw [hgicr]; exact h.wired.bounds, by rw [hctxt]; exact h.wired.nrLr_le⟩
  nrLr_eq := by
    rw [hctxt]
    exact h.nrLr_eq
  isolated := by
    constructor
    · intro v e he
      rw [hgicr] at he
      exact hmono v e (h.isolated.list v e he)
    · intro vm i hi hlive
      rw [hctxt] at hi
      rw [hich] at hlive ⊢
      obtain ⟨c, hc, hinj⟩ := h.isolated.regs vm i hi hlive
      exact ⟨c, hcur c hc, hmono c _ hinj⟩

/-! ## The steps -/

private theorem irq_enter [Bitmap] {w : World} (h : IrqInv w) {n : Nat}
    (hhost : w.machine.current = .host n) {t : Machine} {v : VcpuId} (ht : Entered w.machine t v) :
    IrqInv ⟨{ t with current := .vcpu v }, w.last, w.injected⟩ := by
  obtain ⟨s, hs, hich, hgicr, hctxt⟩ := ht.slice
  have hlist : ∀ e ∈ entries (w.machine.gicr v), InjectedFor w v e := h.isolated.list v
  refine h.put (v := v) (s := s) hich hgicr hctxt hs.bounds hs.nrLr_eq (fun _ _ hx => hx)
    (fun e he => hlist e (hs.origin e he)) ?_
  intro i hi hlive
  rcases hs.source i hi with hold | hmem
  · -- with a host thread running every register was idle
    rw [hold] at hlive
    obtain ⟨c, hc, -⟩ := h.isolated.regs v.vm i hi hlive
    rw [hhost] at hc
    cases hc
  · exact ⟨v, rfl, hlist _ hmem⟩

private theorem irq_leave [Bitmap] {w : World} (h : IrqInv w) {v : VcpuId}
    (hrun : w.machine.current = .vcpu v) {t : Machine} (ht : Left w.machine t v)
    (n : Nat) (last : VcpuId → HwReg → BitVec 64) :
    IrqInv ⟨{ t with current := .host n }, last, w.injected⟩ := by
  obtain ⟨s, hs, hich, hgicr, hctxt⟩ := ht.slice
  refine h.put (v := v) (s := s) hich hgicr hctxt hs.bounds hs.nrLr_eq (fun _ _ hx => hx)
    ?_ ?_
  · intro e he
    rcases hs.origin e he with hold | ⟨x, hx, rfl⟩
    · exact h.isolated.list v e hold
    · exact (h.places hrun x (List.mem_append_left _ hx)).tag
  · intro i hi hlive
    rw [hs.idle i hi] at hlive
    cases hlive

private theorem irq_switchTo [Bitmap] {w : World} (h : IrqInv w) {t : Thread}
    (hnd : NoDirectSwitch w (.switchTo t)) :
    ∃ w', step w (.switchTo t) = .ok w' ∧ IrqInv w' := by
  cases hcur : w.machine.current with
  | host n =>
      cases t with
      | host k =>
          refine ⟨⟨{ w.machine with current := .host k }, w.last, w.injected⟩, ?_, ?_⟩
          · simp only [step, hcur, switchHook, thisSwitchType, recordOut]
            rfl
          · refine h.of_eq rfl rfl rfl ?_ fun _ _ hx => hx
            intro c hc
            rw [hcur] at hc
            cases hc
      | vcpu v =>
          obtain ⟨m, hrun, hm⟩ := hostToGuestArchHandler_spec (h.wired.ready v)
          refine ⟨_, ?_, irq_enter h hcur hm⟩
          simp only [step, hcur, switchHook, thisSwitchType, recordOut, hrun, ok_bind]
          rfl
  | vcpu a =>
      cases t with
      | host k =>
          obtain ⟨m, hrun, hm⟩ := guestToHostArchHandler_spec (h.wired.ready a)
          refine ⟨_, ?_, irq_leave h hcur hm k (Function.update w.last a w.machine.regs)⟩
          simp only [step, hcur, switchHook, thisSwitchType, recordOut, hrun, ok_bind]
          rfl
      | vcpu b =>
          obtain rfl := hnd a hcur
          refine ⟨⟨{ w.machine with current := .vcpu a },
            Function.update w.last a w.machine.regs, w.injected⟩, ?_, ?_⟩
          · simp only [step, hcur, switchHook, thisSwitchType, recordOut]
            rfl
          · refine h.of_eq rfl rfl rfl ?_ fun _ _ hx => hx
            intro c hc
            rw [hcur] at hc
            exact hc

/-- A recorded injection only adds to what was injected for a vCPU. -/
theorem injectedFor_record [Bitmap] {w w' : World} {v : VcpuId} {virq : Virq}
    (hinj : w'.injected = Function.update w.injected v (virq :: w.injected v)) (u : VcpuId)
    (x : Lr) (h : InjectedFor w u x) : InjectedFor w' u x := by
  obtain ⟨q, hq, hd⟩ := h
  refine ⟨q, ?_, hd⟩
  rw [hinj]
  by_cases hu : u = v
  · rw [hu, Function.update_self]
    rw [hu] at hq
    exact List.mem_cons_of_mem virq hq
  · rwa [Function.update_of_ne hu]

private theorem irq_inject [Bitmap] {w : World} (h : IrqInv w) {v : VcpuId} {virq : Virq}
    (hown : OwnInject w (.inject v virq)) :
    ∃ w', step w (.inject v virq) = .ok w' ∧ IrqInv w' := by
  by_cases hq : Queued (w.machine.gicr v) (vgicGetLrFromVirq virq).1
  · -- cut short: the slice that is put back is the one that was there
    refine ⟨⟨w.machine.putSlice v (w.machine.slice v), w.last,
      Function.update w.injected v (virq :: w.injected v)⟩, ?_, ?_⟩
    · have hcut : vgicInject (w.machine.slice v) virq = .ok (w.machine.slice v, _, false) :=
        vgicInject_queued (h.wired.bounds v) hq
      simp only [step, hcut, ok_bind]
      rfl
    · refine h.of_eq rfl ?_ ?_ (fun c hc => hc) (injectedFor_record rfl)
      · exact Function.update_eq_self v _
      · exact Function.update_eq_self v.vm _
  · obtain ⟨hen, hin, hrun⟩ := hown.resolve_left hq
    obtain ⟨s, hinject, hs⟩ := vgicInject_spec (h.wired.ready v) hq
    refine ⟨⟨w.machine.putSlice v s, w.last,
      Function.update w.injected v (virq :: w.injected v)⟩, ?_, ?_⟩
    · simp only [step, hinject, ok_bind]
      rfl
    have hmono : ∀ u x, InjectedFor w u x →
        InjectedFor ⟨w.machine.putSlice v s, w.last,
          Function.update w.injected v (virq :: w.injected v)⟩ u x :=
      injectedFor_record rfl
    have hplaces : ∀ e ∈ places s,
        InjectedFor ⟨w.machine.putSlice v s, w.last,
          Function.update w.injected v (virq :: w.injected v)⟩ v e := by
      intro e he
      obtain ⟨x, hx, hcase⟩ := hs.origin e he
      have hinj : InjectedFor ⟨w.machine.putSlice v s, w.last,
          Function.update w.injected v (virq :: w.injected v)⟩ v x := by
        rcases List.mem_cons.mp hx with rfl | hx
        · exact ⟨virq, by simp, describes_of_enabled hen hin⟩
        · exact hmono v x (h.places hrun x hx)
      rcases hcase with rfl | rfl
      · exact hinj
      · exact hinj.tag
    refine h.put (v := v) (s := s) rfl rfl rfl hs.bounds (by rw [hs.ctxt_eq]; rfl) hmono
      (fun e he => hplaces e (List.mem_append_right _ he)) ?_
    intro i hi hlive
    refine ⟨v, hrun, hplaces _ (List.mem_append_left _ ?_)⟩
    refine mem_lrs.mpr ⟨i, ?_, rfl, hlive⟩
    rw [hs.ctxt_eq]
    exact List.mem_range.mpr hi

/-- The guest changes the state bits of a register that is in use. -/
theorem irq_setLr [Bitmap] {w : World} (h : IrqInv w) {c : VcpuId}
    (hrun : w.machine.current = .vcpu c) {i : Nat} (hi : i < (w.machine.ctxt c.vm).nrLr)
    (hst : lrState (w.machine.ich.lrAt i) ≠ 0) (st : BitVec 2) :
    IrqInv ⟨{ w.machine with
      ich := w.machine.ich.setLr i (withState (w.machine.ich.lrAt i) st) }, w.last,
      w.injected⟩ := by
  have hown : InjectedFor w c (w.machine.ich.lrAt i) :=
    h.own hrun hi (lrIdle_eq_false_of_state hst)
  have h16 : i < 16 := Nat.lt_of_lt_of_le hi (h.wired.nrLr_le c.vm)
  refine
    { wired := ⟨h.wired.bounds, h.wired.nrLr_le⟩
      nrLr_eq := h.nrLr_eq
      isolated := ⟨h.isolated.list, ?_⟩ }
  intro vm j hj hlive
  simp only at hlive ⊢
  by_cases hji : j = i
  · subst hji
    rw [lrAt_setLr_self _ h16]
    exact ⟨c, hrun, hown.withState st⟩
  · rw [lrAt_setLr_ne _ hji] at hlive ⊢
    exact h.isolated.regs vm j hj hlive

private theorem irq_guest [Bitmap] {w : World} (h : IrqInv w) {act : IchRegs → Nat → IchRegs}
    (i : Nat) (hact : ∀ ich : IchRegs, act ich i = ich ∨
      (lrState (ich.lrAt i) ≠ 0 ∧ ∃ st, act ich i = ich.setLr i (withState (ich.lrAt i) st))) :
    IrqInv { w with machine := w.machine.guest act i } := by
  unfold Machine.guest
  split
  · rename_i c hrun
    split
    · rename_i hi
      rcases hact w.machine.ich with heq | ⟨hst, st, heq⟩
      · rw [heq]
        exact h
      · rw [heq]
        exact irq_setLr h hrun hi hst st
    · exact h
  · exact h

private theorem guestAcknowledge_cases (ich : IchRegs) (i : Nat) :
    guestAcknowledge ich i = ich ∨ (lrState (ich.lrAt i) ≠ 0 ∧
      ∃ st, guestAcknowledge ich i = ich.setLr i (withState (ich.lrAt i) st)) := by
  unfold guestAcknowledge
  split
  · rename_i hst
    exact Or.inr ⟨by rw [hst]; decide, lrActive, rfl⟩
  · exact Or.inl rfl

private theorem guestComplete_cases (ich : IchRegs) (i : Nat) :
    guestComplete ich i = ich ∨ (lrState (ich.lrAt i) ≠ 0 ∧
      ∃ st, guestComplete ich i = ich.setLr i (withState (ich.lrAt i) st)) := by
  unfold guestComplete
  split
  · rename_i hst
    exact Or.inr ⟨by rw [hst]; decide, 0, rfl⟩
  · split
    · rename_i hst
      exact Or.inr ⟨by rw [hst]; decide, lrPending, rfl⟩
    · exact Or.inl rfl

private theorem irq_step [Bitmap] {w : World} (h : IrqInv w) {e : Event} (hown : OwnInject w e) :
    ∃ w', step w e = .ok w' ∧ IrqInv w' := by
  cases e with
  | switchTo t => exact irq_switchTo h hown
  | write r val =>
      refine ⟨_, rfl, ?_⟩
      split
      · exact h.of_eq rfl rfl rfl (fun c hc => hc) fun _ _ hx => hx
      · exact h
  | inject v virq => exact irq_inject h hown
  | acknowledge i =>
      exact ⟨_, rfl, irq_guest h i fun ich => guestAcknowledge_cases ich i⟩
  | complete i => exact ⟨_, rfl, irq_guest h i fun ich => guestComplete_cases ich i⟩

/-- In a run of such events every list entry of a vCPU was injected for it, and a list
register is only in use while the vCPU its interrupt was injected for is running. -/
theorem interrupts_stay_with_vcpu [Bitmap] {w : World} (hw : Quiet w) {es : List Event}
    (hg : Guarded step OwnInject w es) : ∃ t, run step w es = .ok t ∧ Isolated t := by
  obtain ⟨t, hrun, ht⟩ := run_inv_of_guarded
    (fun _ _ hinv hown => irq_step hinv hown) (irqInv_quiet hw) hg
  exact ⟨t, hrun, ht.isolated⟩

/-! ## Injecting for a vCPU that is not running -/

private theorem quiet_bootWorld : Quiet bootWorld where
  toInitial := initial_bootWorld
  empty := fun _ => rfl
  idle := by
    intro vm
    show ∀ i, i < 4 → lrIdle ((idleSlice 4).ich.lrAt i) = true
    decide

def spi41 : Virq := { spi 41 with prio := 0xB0 }

/-- VM 0's vCPU runs with interrupt 40 in a list register when interrupt 41 is injected
for VM 1's vCPU with a higher priority value: the former ends up in the latter's list. -/
theorem foreign_inject_mixes :
    ¬∀ (w : World) (es : List Event) (t : World), Quiet w →
      run step w es = .ok t → Isolated t := by
  intro hevery
  have hrun : (run step bootWorld
      [.switchTo (.vcpu ⟨0, 0⟩), .inject ⟨0, 0⟩ (spi 40), .inject ⟨1, 0⟩ spi41]).map
        (fun t => ((entries (t.machine.gicr ⟨1, 0⟩)).map core,
          (t.injected ⟨1, 0⟩).map fun virq => core (lrOf virq))) =
      .ok ([core (lrOf (spi 40))], [core (lrOf spi41)]) := by
    decide
  obtain ⟨t, hok, hval⟩ := exists_of_map_eq_ok hrun
  have hlist := congrArg Prod.fst hval
  have hinj := congrArg Prod.snd hval
  simp only at hlist hinj
  have hmem : core (lrOf (spi 40)) ∈ (entries (t.machine.gicr ⟨1, 0⟩)).map core := by
    rw [hlist]
    exact List.mem_singleton_self _
  obtain ⟨e, he, hcore⟩ := List.mem_map.mp hmem
  obtain ⟨virq, hvirq, hd⟩ := (hevery bootWorld _ t quiet_bootWorld hok).list ⟨1, 0⟩ e he
  have hmem' : core (lrOf virq) ∈ (t.injected ⟨1, 0⟩).map fun q => core (lrOf q) :=
    List.mem_map_of_mem (f := fun q => core (lrOf q)) hvirq
  rw [hinj, ← hd, hcore, List.mem_singleton] at hmem'
  exact absurd hmem' (by decide)

/-- A vCPU of each VM is interrupted while it runs; the first has acknowledged its interrupt and
comes back to complete it. -/
def takeTurns : List Event :=
  [.switchTo (.vcpu ⟨0, 0⟩), .inject ⟨0, 0⟩ (spi 40), .acknowledge 0, .switchTo (.host 0),
    .switchTo (.vcpu ⟨1, 0⟩), .inject ⟨1, 0⟩ spi41, .switchTo (.host 0),
    .switchTo (.vcpu ⟨0, 0⟩)]

/-- Interrupt 40 is active in a list register again, interrupt 41 waits in the list of its vCPU. -/
theorem interrupts_stay_with_vcpu_two :
    ∃ t, run step bootWorld takeTurns = .ok t ∧ Isolated t ∧
      t.machine.current = .vcpu ⟨0, 0⟩ ∧
      t.machine.ich.lrAt 0 = withState (lrOf (spi 40) ||| lrTag) lrActive ∧
      entries (t.machine.gicr ⟨1, 0⟩) = [lrOf spi41 ||| lrTag] := by
  have hg : Guarded step OwnInject bootWorld takeTurns := by decide
  have hend : (run step bootWorld takeTurns).map
      (fun t => (t.machine.current, t.machine.ich.lrAt 0, entries (t.machine.gicr ⟨1, 0⟩))) =
      .ok (.vcpu ⟨0, 0⟩, withState (lrOf (spi 40) ||| lrTag) lrActive,
        [lrOf spi41 ||| lrTag]) := by
    decide
  obtain ⟨t, hrun, hs⟩ := exists_of_map_eq_ok hend
  simp only [Prod.mk.injEq] at hs
  obtain ⟨t', hrun', hisolated⟩ := interrupts_stay_with_vcpu quiet_bootWorld hg
  cases hrun.symm.trans hrun'
  exact ⟨t, hrun, hisolated, hs⟩

end RtHypervisor.Ports.SwitchContext
