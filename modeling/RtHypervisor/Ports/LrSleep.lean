import RtHypervisor.Ports.LrInject
import RtHypervisor.Ports.Vcpu

/-!
# A suspended vCPU and the interrupts queued for it

One vCPU with its thread: injections, guest acknowledges and completions,
switches to and from its thread, and WFI traps.  A WFI traps only when no list
register is pending; `ec_wfx_handler` then suspends the vCPU, and the switch away
from its thread saves the list registers.  Only an injection that reaches
`vcpu_go` wakes it up again.

`vgic_context_restore_lr` advances its index after a removal that has already
moved another entry to the front, so of `n` queued entries it loads at most
half.  What stays behind is in no register, the guest does not see it, and its
next WFI puts it to sleep on it (`second_interrupt_stranded`).  As long as an
interrupt is only injected while no other is held, the list is empty whenever
the guest runs (`asleep_without_pending`).
-/

namespace RtHypervisor.Ports.LrSleep

open RtHypervisor.Verified.Run
open RtHypervisor.Ports.ListRegister
open RtHypervisor.Ports.LrList
open RtHypervisor.Ports.Vcpu

/-- Where the scheduler has the vCPU's thread. -/
inductive ThreadStat
  | init
  | ready
  | running
  | suspended
deriving DecidableEq, Repr

/-- A vCPU: the vGIC state it works on, `vcpu->status` and its thread. -/
structure Sleeper where
  slice : VgicSlice
  status : VcpuStatus
  thread : ThreadStat
deriving DecidableEq, Repr

/-- The vCPU with other list registers. -/
def Sleeper.withIch (v : Sleeper) (ich : IchRegs) : Sleeper :=
  { v with slice := { v.slice with ich := ich } }

inductive Event
  | inject (virq : Virq)
  | acknowledge (i : Nat)
  | complete (i : Nat)
  | wfi
  | switchOut
  | switchIn
  | go
deriving DecidableEq, Repr

/-- Is some list register pending? -/
def pendingLr (s : VgicSlice) : Bool :=
  (List.range s.ctxt.nrLr).any fun i =>
    lrState (s.ich.lrAt i) == lrPending || lrState (s.ich.lrAt i) == lrPendingActive

/-- The thread after the calls of a switch of `vcpu_go`. -/
def afterCall (t : ThreadStat) : ThreadCall → ThreadStat
  | .startup => if t = .init then .ready else t
  | .resumeThenSchedule => if t = .suspended then .ready else t
  | _ => t

/-- `vcpu_go`. -/
def goVcpu (v : Sleeper) : Sleeper :=
  { v with status := (vcpuGo v.status).1, thread := afterCall v.thread (vcpuGo v.status).2 }

/-- `ec_wfx_handler`: `vcpu_suspend` on the current vCPU.  The schedule inside it
switches away from the thread, which runs `hook_vgic_context_save`. -/
def ecWfxHandler [Bitmap] (v : Sleeper) : Except Fault Sleeper :=
  match vcpuSuspend v.status with
  | (st, .suspendThenSchedule) => do
      let s ← hookVgicContextSave v.slice
      pure ⟨s, st, .suspended⟩
  | (st, _) => pure { v with status := st }

def step [Bitmap] (v : Sleeper) : Event → Except Fault Sleeper
  | .inject virq => do
      let (s, _, reached) ← vgicInject v.slice virq
      pure (if reached then goVcpu { v with slice := s } else { v with slice := s })
  | .acknowledge i =>
      if v.thread = .running ∧ i < v.slice.ctxt.nrLr then
        pure (v.withIch (guestAcknowledge v.slice.ich i))
      else pure v
  | .complete i =>
      if v.thread = .running ∧ i < v.slice.ctxt.nrLr then
        pure (v.withIch (guestComplete v.slice.ich i))
      else pure v
  | .wfi =>
      if v.thread = .running ∧ pendingLr v.slice = false then ecWfxHandler v else pure v
  | .switchOut =>
      if v.thread = .running then do
        let s ← hookVgicContextSave v.slice
        pure { v with slice := s, thread := .ready }
      else pure v
  | .switchIn =>
      if v.thread = .ready then do
        let s ← hookVgicContextRestore v.slice
        pure { v with slice := s, thread := .running }
      else pure v
  | .go => pure (goVcpu v)

/-- A suspended vCPU has no pending entry in its list. -/
def AsleepWithoutPending (v : Sleeper) : Prop :=
  v.status = .suspend → ∀ e ∈ entries v.slice.gicr,
    lrState e ≠ lrPending ∧ lrState e ≠ lrPendingActive

/-- The state `vm_init` leaves behind, with idle list registers and a `tail` word
that happened to be zero. -/
structure Initial (v : Sleeper) : Prop where
  nrLr_pos : 0 < v.slice.ctxt.nrLr
  nrLr_le : v.slice.ctxt.nrLr ≤ maxLrRegs
  gicr_eq : ∃ old iidr c n mpidr, old.tail = 0 ∧
    v.slice.gicr = vgicrInit old iidr c n mpidr
  idle : ∀ i, i < v.slice.ctxt.nrLr → lrIdle (v.slice.ich.lrAt i) = true
  status_eq : v.status = .neverRun
  thread_eq : v.thread = .init

/-- An injected interrupt is enabled. -/
def Enabled : Event → Prop
  | .inject virq => virq.enable = true ∧ virq.inLr = false
  | _ => True

/-- The condition on an injection: no other interrupt is held. -/
def Alone (v : Sleeper) : Event → Prop
  | .inject virq => virq.enable = true ∧ virq.inLr = false ∧
      ∀ x ∈ places v.slice, getLrVint x = vintOf virq
  | _ => True

/-! ## The invariant -/

structure Inv (v : Sleeper) : Prop where
  ready : Ready v.slice
  nrLr_pos : 0 < v.slice.ctxt.nrLr
  tagged : ∀ e ∈ entries v.slice.gicr, getLrRes0 e ≠ 0
  live : ∀ e ∈ entries v.slice.gicr, lrIdle e = false
  single : (places v.slice).length ≤ 1
  loaded : v.thread = .running → entries v.slice.gicr = []
  awake : v.thread = .running ∨ v.thread = .ready → v.status ≠ .suspend
  asleep : AsleepWithoutPending v

theorem inv_initial {v : Sleeper} (h : Initial v) : Inv v := by
  obtain ⟨old, iidr, c, n, mpidr, htail, hgicr⟩ := h.gicr_eq
  have hentries : entries v.slice.gicr = [] := by
    rw [hgicr]
    exact entries_vgicrInit htail
  have hplaces : places v.slice = [] := by
    rw [places, hentries, lrs_eq_nil fun i hi => h.idle i (List.mem_range.mp hi)]
    rfl
  refine
    { ready := ⟨?_, h.nrLr_le⟩
      nrLr_pos := h.nrLr_pos
      tagged := by simp [hentries]
      live := by simp [hentries]
      single := by simp [hplaces]
      loaded := fun _ => hentries
      awake := by simp [h.status_eq]
      asleep := ?_ }
  · rw [hgicr]
    exact inBounds_vgicrInit (by rw [htail]; decide)
  · intro hst
    rw [h.status_eq] at hst
    cases hst

theorem Inv.nodup {v : Sleeper} (h : Inv v) : ((places v.slice).map getLrVint).Nodup :=
  nodup_map_of_length_le_one h.single

theorem Inv.fits {v : Sleeper} (h : Inv v) : (places v.slice).length ≤ gicLrListNum :=
  Nat.le_trans h.single (by decide)

/-- `vcpu_go` never leaves the vCPU suspended. -/
theorem Inv.go {v : Sleeper} (h : Inv v) : Inv (goVcpu v) := by
  refine { h with loaded := ?_, awake := fun _ => vcpuGo_ne_suspend v.status, asleep := ?_ }
  · intro hrun
    apply h.loaded
    simp only [goVcpu] at hrun
    cases hst : v.thread with
    | running => rfl
    | init => cases hv : v.status <;> simp [hst, hv, vcpuGo, afterCall] at hrun
    | ready => cases hv : v.status <;> simp [hst, hv, vcpuGo, afterCall] at hrun
    | suspended => cases hv : v.status <;> simp [hst, hv, vcpuGo, afterCall] at hrun
  · intro hst
    exact absurd hst (vcpuGo_ne_suspend v.status)

/-- The vCPU's slice after a save, whatever becomes of its thread. -/
theorem Inv.saved {v : Sleeper} (h : Inv v) {s' : VgicSlice} (hs : Saved v.slice s')
    {st : VcpuStatus} {th : ThreadStat} (hth : th ≠ .running)
    (hawake : th = .ready → st ≠ .suspend)
    (hasleep : AsleepWithoutPending ⟨s', st, th⟩) : Inv ⟨s', st, th⟩ where
  ready := ⟨hs.bounds, by
    show s'.ctxt.nrLr ≤ 16
    rw [hs.nrLr_eq]
    exact h.ready.nrLr_le⟩
  nrLr_pos := by
    show 0 < s'.ctxt.nrLr
    rw [hs.nrLr_eq]
    exact h.nrLr_pos
  tagged := by
    intro e he
    rcases hs.origin e he with hold | ⟨x, -, rfl⟩
    · exact h.tagged e hold
    · exact getLrRes0_tag_ne_zero x
  live := by
    intro e he
    rcases hs.origin e he with hold | ⟨x, hx, rfl⟩
    · exact h.live e hold
    · obtain ⟨i, -, -, hlive⟩ := mem_lrs.mp hx
      rw [lrIdle_tag, hlive]
  single := by
    have hlen := (hs.conserved h.nodup h.fits).length_eq
    rw [List.length_map, List.length_map] at hlen
    show (places s').length ≤ 1
    rw [hlen]
    exact h.single
  loaded := fun hrun => absurd hrun hth
  awake := fun hor => hawake (hor.resolve_left hth)
  asleep := hasleep

/-! ## The steps -/

private theorem step_switchOut [Bitmap] {v : Sleeper} (h : Inv v) :
    ∃ v', step v .switchOut = .ok v' ∧ Inv v' := by
  by_cases hrun : v.thread = .running
  · obtain ⟨s', hsave, hs⟩ := hookVgicContextSave_spec h.ready
    have hawake := h.awake (Or.inl hrun)
    refine ⟨⟨s', v.status, .ready⟩, ?_, h.saved hs (by decide) (fun _ => hawake) ?_⟩
    · simp only [step, hrun, if_true, hsave, ok_bind]
      rfl
    · exact fun hst => absurd hst hawake
  · exact ⟨v, by simp only [step, hrun, if_false]; rfl, h⟩

private theorem not_pending_of_pendingLr {s : VgicSlice} (h : pendingLr s = false) {x : Lr}
    (hx : x ∈ lrs s.ich (List.range s.ctxt.nrLr)) :
    lrState x ≠ lrPending ∧ lrState x ≠ lrPendingActive := by
  obtain ⟨i, hi, rfl, -⟩ := mem_lrs.mp hx
  rw [pendingLr, List.any_eq_false] at h
  simpa using h i hi

private theorem ecWfxHandler_of_ne_online [Bitmap] {v : Sleeper} (h : v.status ≠ .online) :
    ecWfxHandler v = .ok v := by
  obtain ⟨s, st, th⟩ := v
  cases st with
  | online => exact absurd rfl h
  | offline => rfl
  | suspend => rfl
  | neverRun => rfl
  | unknown => rfl

private theorem step_wfi [Bitmap] {v : Sleeper} (h : Inv v) :
    ∃ v', step v .wfi = .ok v' ∧ Inv v' := by
  by_cases hwfi : v.thread = .running ∧ pendingLr v.slice = false
  · have hstep : step v .wfi = ecWfxHandler v := by simp only [step, hwfi, and_self, if_true]
    rw [hstep]
    obtain ⟨hrun, hnone⟩ := hwfi
    by_cases hst : v.status = .online
    · obtain ⟨s', hsave, hs⟩ := hookVgicContextSave_spec h.ready
      refine ⟨⟨s', .suspend, .suspended⟩, ?_, h.saved hs (by decide) (by simp) ?_⟩
      · simp only [ecWfxHandler, hst, vcpuSuspend, hsave, ok_bind]
        rfl
      · -- the list was empty while the guest ran: everything in it was saved
        intro _ e he
        rcases hs.origin e he with hold | ⟨x, hx, rfl⟩
        · rw [h.loaded hrun] at hold
          cases hold
        · rw [lrState_tag]
          exact not_pending_of_pendingLr hnone hx
    · exact ⟨v, ecWfxHandler_of_ne_online hst, h⟩
  · exact ⟨v, by simp only [step, hwfi, if_false]; rfl, h⟩

private theorem step_switchIn [Bitmap] {v : Sleeper} (h : Inv v) :
    ∃ v', step v .switchIn = .ok v' ∧ Inv v' := by
  by_cases hready : v.thread = .ready
  · obtain ⟨s', hrest, hs⟩ := hookVgicContextRestore_spec h.ready
    have hawake := h.awake (Or.inr hready)
    have hperm := hs.conserved h.live
    refine ⟨⟨s', v.status, .running⟩, ?_, ?_⟩
    · simp only [step, hready, if_true, hrest, ok_bind]
      rfl
    have hempty : entries s'.gicr = [] := by
      rcases hent : entries v.slice.gicr with _ | ⟨e, l⟩
      · apply List.eq_nil_iff_forall_not_mem.mpr
        intro x hx
        have hold := hs.origin x hx
        rw [hent] at hold
        cases hold
      · -- one entry in the list, so no register is in use
        have hlen := h.single
        rw [places, List.length_append, hent, List.length_cons] at hlen
        have hnone : lrs v.slice.ich (List.range v.slice.ctxt.nrLr) = [] :=
          List.eq_nil_iff_length_eq_zero.mpr (by omega)
        apply hs.drained
        · refine ⟨0, h.nrLr_pos, ?_⟩
          by_contra hlive
          have hmem : v.slice.ich.lrAt 0 ∈ lrs v.slice.ich (List.range v.slice.ctxt.nrLr) :=
            mem_lrs.mpr ⟨0, List.mem_range.mpr h.nrLr_pos, rfl, by simpa using hlive⟩
          rw [hnone] at hmem
          cases hmem
        · rw [hent, List.length_cons]
          omega
        · exact h.tagged
    exact
      { ready := ⟨hs.bounds, by
          show s'.ctxt.nrLr ≤ 16
          rw [hs.nrLr_eq]
          exact h.ready.nrLr_le⟩
        nrLr_pos := by
          show 0 < s'.ctxt.nrLr
          rw [hs.nrLr_eq]
          exact h.nrLr_pos
        tagged := by simp [hempty]
        live := by simp [hempty]
        single := by
          show (places s').length ≤ 1
          rw [hperm.length_eq]
          exact h.single
        loaded := fun _ => hempty
        awake := fun _ => hawake
        asleep := fun hst => absurd hst hawake }
  · exact ⟨v, by simp only [step, hready, if_false]; rfl, h⟩

/-- The guest rewrites a register that is in use. -/
theorem Inv.guest {v : Sleeper} (h : Inv v) {i : Nat} (hi : i < v.slice.ctxt.nrLr)
    (hlive : lrIdle (v.slice.ich.lrAt i) = false) (lr : Lr) :
    Inv (v.withIch (v.slice.ich.setLr i lr)) := by
  obtain ⟨rest, hbefore, hafter⟩ := places_setLr v.slice h.ready.nrLr_le hi lr
  have hkeep : keep (v.slice.ich.lrAt i) = [v.slice.ich.lrAt i] := by
    rw [keep, hlive]
    rfl
  refine { h with ready := ⟨h.ready.bounds, h.ready.nrLr_le⟩, single := ?_ }
  have hlen := hbefore.length_eq
  have hone : (keep lr).length ≤ 1 := by
    unfold keep
    split <;> simp
  have hsingle := h.single
  rw [hkeep, List.length_append, List.length_singleton] at hlen
  refine Nat.le_trans (Nat.le_of_eq hafter.length_eq) ?_
  rw [List.length_append]
  omega

theorem step_acknowledge [Bitmap] {v : Sleeper} (h : Inv v) (i : Nat) :
    ∃ v', step v (.acknowledge i) = .ok v' ∧ Inv v' := by
  by_cases hi : v.thread = .running ∧ i < v.slice.ctxt.nrLr
  · refine ⟨_, by simp only [step, hi, and_self, if_true]; rfl, ?_⟩
    by_cases hst : lrState (v.slice.ich.lrAt i) = lrPending
    · simp only [guestAcknowledge, hst, if_true]
      exact h.guest hi.2 (lrIdle_eq_false_of_state (by rw [hst]; decide)) _
    · simp only [guestAcknowledge, hst, if_false]
      exact h
  · exact ⟨v, by simp only [step, hi, if_false]; rfl, h⟩

theorem step_complete [Bitmap] {v : Sleeper} (h : Inv v) (i : Nat) :
    ∃ v', step v (.complete i) = .ok v' ∧ Inv v' := by
  by_cases hi : v.thread = .running ∧ i < v.slice.ctxt.nrLr
  · refine ⟨_, by simp only [step, hi, and_self, if_true]; rfl, ?_⟩
    by_cases hact : lrState (v.slice.ich.lrAt i) = lrActive
    · simp only [guestComplete, hact, if_true]
      exact h.guest hi.2 (lrIdle_eq_false_of_state (by rw [hact]; decide)) _
    · by_cases hboth : lrState (v.slice.ich.lrAt i) = lrPendingActive
      · have hne : lrPendingActive ≠ lrActive := by decide
        simp only [guestComplete, hboth, hne, if_true, if_false]
        exact h.guest hi.2 (lrIdle_eq_false_of_state (by rw [hboth]; decide)) _
      · simp only [guestComplete, hact, hboth, if_false]
        exact h
  · exact ⟨v, by simp only [step, hi, if_false]; rfl, h⟩

theorem step_inject [Bitmap] {v : Sleeper} (h : Inv v) {virq : Virq}
    (halone : Alone v (.inject virq)) : ∃ v', step v (.inject virq) = .ok v' ∧ Inv v' := by
  obtain ⟨hen, hin, hsame⟩ := halone
  by_cases hq : Queued v.slice.gicr (vgicGetLrFromVirq virq).1
  · refine ⟨v, ?_, h⟩
    simp only [step, vgicInject_queued h.ready.bounds hq, ok_bind]
    rfl
  · obtain ⟨s', hrun, hs⟩ := vgicInject_spec h.ready hq
    have hvint : getLrVint (vgicGetLrFromVirq virq).1 = vintOf virq :=
      getLrVint_of_enabled hen hin
    have hlive : lrIdle (vgicGetLrFromVirq virq).1 = false := by
      apply lrIdle_eq_false_of_state
      rw [lrState_of_enabled hen hin]
      decide
    have hapart : apart (vgicGetLrFromVirq virq).1 (places v.slice) = [] := by
      apply List.filter_eq_nil_iff.mpr
      intro x hx
      simp [hvint, hsame x hx]
    have hempty := hs.drained h.single hapart h.nrLr_pos
    have hperm := hs.conserved h.nodup h.live hlive (by rw [hapart]; decide)
    have hlen := hperm.length_eq
    rw [hapart, List.length_map] at hlen
    refine ⟨goVcpu { v with slice := s' }, ?_, ?_⟩
    · simp only [step, hrun, ok_bind]
      rfl
    exact
      { ready := ⟨hs.bounds, by
          show s'.ctxt.nrLr ≤ 16
          rw [hs.ctxt_eq]
          exact h.ready.nrLr_le⟩
        nrLr_pos := by
          show 0 < s'.ctxt.nrLr
          rw [hs.ctxt_eq]
          exact h.nrLr_pos
        tagged := by simp [goVcpu, hempty]
        live := by simp [goVcpu, hempty]
        single := Nat.le_of_eq hlen
        loaded := fun _ => hempty
        awake := fun _ => vcpuGo_ne_suspend v.status
        asleep := fun hst => absurd hst (vcpuGo_ne_suspend v.status) }

theorem step_inv [Bitmap] {v : Sleeper} (h : Inv v) {e : Event} (halone : Alone v e) :
    ∃ v', step v e = .ok v' ∧ Inv v' := by
  cases e with
  | inject virq => exact step_inject h halone
  | acknowledge i => exact step_acknowledge h i
  | complete i => exact step_complete h i
  | wfi => exact step_wfi h
  | switchOut => exact step_switchOut h
  | switchIn => exact step_switchIn h
  | go => exact ⟨goVcpu v, rfl, h.go⟩

/-- In a run that injects an interrupt only while no other is held, the vCPU is
never suspended with a pending entry in its list. -/
theorem asleep_without_pending [Bitmap] {v : Sleeper} (hv : Initial v) {es : List Event}
    (hg : Guarded step Alone v es) : ∃ t, run step v es = .ok t ∧ AsleepWithoutPending t := by
  obtain ⟨t, hrun, ht⟩ := run_inv_of_guarded
    (fun _ _ hinv halone => step_inv hinv halone) (inv_initial hv) hg
  exact ⟨t, hrun, ht.asleep⟩

/-! ## Two interrupts back to back -/

def sleeper : Sleeper := ⟨idleSlice 4, .neverRun, .init⟩

private theorem initial_sleeper : Initial sleeper where
  nrLr_pos := by decide
  nrLr_le := by decide
  gicr_eq := ⟨zeroGicr, 0, 0, 1, 0, rfl, rfl⟩
  idle := by decide
  status_eq := rfl
  thread_eq := rfl

/-- Interrupts 40 and 41 are injected into the running vCPU; the second restore
loads one and leaves the other in the list although three registers are idle.
The guest serves the one it sees and executes WFI. -/
theorem second_interrupt_stranded :
    ¬∀ (v : Sleeper) (es : List Event) (t : Sleeper), Initial v → (∀ e ∈ es, Enabled e) →
      run step v es = .ok t → AsleepWithoutPending t := by
  intro hevery
  have hrun : (run step sleeper
      [.go, .switchIn, .inject (spi 40), .inject (spi 41), .acknowledge 0, .complete 0,
        .wfi]).map (fun t => (t.status, (entries t.slice.gicr).map key)) =
      .ok (.suspend, [(41, lrPending)]) := by
    decide
  obtain ⟨t, hok, hval⟩ := exists_of_map_eq_ok hrun
  have hst : t.status = .suspend := congrArg Prod.fst hval
  have hkeys : (entries t.slice.gicr).map key = [(41, lrPending)] := congrArg Prod.snd hval
  have hasleep := hevery _ _ t initial_sleeper (by simp [Enabled, spi]) hok hst
  have hmem : ((41 : Lr), lrPending) ∈ (entries t.slice.gicr).map key := by
    rw [hkeys]
    exact List.mem_singleton_self _
  obtain ⟨e, he, hkey⟩ := List.mem_map.mp hmem
  exact (hasleep e he).1 (congrArg Prod.snd hkey)

/-- One interrupt at a time, served and completed before the guest sleeps. -/
theorem asleep_without_pending_served :
    Guarded step Alone sleeper
      [.inject (spi 40), .switchIn, .acknowledge 0, .complete 0, .wfi] ∧
    ∃ t, run step sleeper
      [.inject (spi 40), .switchIn, .acknowledge 0, .complete 0, .wfi] = .ok t ∧
      AsleepWithoutPending t := by
  have hnone : places sleeper.slice = [] := by decide
  have halone : Alone sleeper (.inject (spi 40)) := ⟨rfl, rfl, by simp [hnone]⟩
  have hg : Guarded step Alone sleeper
      [.inject (spi 40), .switchIn, .acknowledge 0, .complete 0, .wfi] :=
    ⟨halone, fun _ _ => ⟨trivial, fun _ _ => ⟨trivial, fun _ _ => ⟨trivial, fun _ _ =>
      ⟨trivial, fun _ _ => trivial⟩⟩⟩⟩⟩
  exact ⟨hg, asleep_without_pending initial_sleeper hg⟩

end RtHypervisor.Ports.LrSleep
