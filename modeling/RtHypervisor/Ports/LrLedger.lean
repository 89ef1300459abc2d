import RtHypervisor.Verified.Ledger
import RtHypervisor.Ports.LrInject

/-!
# No virtual interrupt is lost or duplicated

One vCPU, its list registers and its `lr_list`, driven by injections, context
saves and restores, and the guest acknowledging and completing what it finds in
the list registers.  Beside the machine state runs a ledger of what is
outstanding: an enabled interrupt enters it when it is injected while not
outstanding, becomes active when the guest acknowledges it, and leaves it when
the guest completes it.  The moves between registers and list do not touch the
ledger.

`held_as_recorded` says when the two agree in every state of a run.  Two things
break the agreement, and both are refusals of `vgic_lr_list_insert` whose caller
zeroes the register anyway: injecting an interrupt that is active in a list
register (`reinjection_forgets_active`), and injecting a new one while
`GIC_LR_LIST_NUM` are held.
-/

namespace RtHypervisor.Ports.LrLedger

open RtHypervisor.Verified.Run
open RtHypervisor.Verified.Ledger
open RtHypervisor.Ports.ListRegister
open RtHypervisor.Ports.LrList

/-- What happens to one vCPU's interrupts. -/
inductive Event
  | inject (virq : Virq)
  | save
  | restore
  | acknowledge (i : Nat)
  | complete (i : Nat)
deriving DecidableEq, Repr

/-- The machine and the ledger of outstanding interrupts, by vINTID. -/
structure Books where
  slice : VgicSlice
  ledger : Lr → Option (BitVec 2)

/-- An enabled interrupt that is not outstanding becomes pending. -/
def enterInjected (l : Lr → Option (BitVec 2)) (virq : Virq) : Lr → Option (BitVec 2) :=
  if virq.enable && !virq.inLr && (l (vintOf virq)).isNone then
    Function.update l (vintOf virq) (some lrPending)
  else l

def enterAcknowledged (l : Lr → Option (BitVec 2)) (lr : Lr) : Lr → Option (BitVec 2) :=
  if lrState lr = lrPending then Function.update l (getLrVint lr) (some lrActive) else l

def enterCompleted (l : Lr → Option (BitVec 2)) (lr : Lr) : Lr → Option (BitVec 2) :=
  if lrState lr = lrActive then Function.update l (getLrVint lr) none
  else if lrState lr = lrPendingActive then
    Function.update l (getLrVint lr) (some lrPending)
  else l

def step [Bitmap] (b : Books) : Event → Except Fault Books
  | .inject virq => do
      let (s, _, _) ← vgicInject b.slice virq
      pure ⟨s, enterInjected b.ledger virq⟩
  | .save => do
      let s ← hookVgicContextSave b.slice
      pure { b with slice := s }
  | .restore => do
      let s ← hookVgicContextRestore b.slice
      pure { b with slice := s }
  | .acknowledge i =>
      if i < b.slice.ctxt.nrLr then
        pure ⟨{ b.slice with ich := guestAcknowledge b.slice.ich i },
          enterAcknowledged b.ledger (b.slice.ich.lrAt i)⟩
      else pure b
  | .complete i =>
      if i < b.slice.ctxt.nrLr then
        pure ⟨{ b.slice with ich := guestComplete b.slice.ich i },
          enterCompleted b.ledger (b.slice.ich.lrAt i)⟩
      else pure b

/-- The `(vINTID, state)` pairs of everything the vCPU holds. -/
def heldKeys (s : VgicSlice) : List (Lr × BitVec 2) := (places s).map key

/-- Every outstanding interrupt is in exactly one place, in the ledger's state,
and nothing else is held. -/
def HeldAsRecorded (b : Books) : Prop := Recorded b.ledger (heldKeys b.slice)

/-- The state `vgic_init` leaves behind, with idle list registers and a `tail` word
that happened to be zero. -/
structure Initial (b : Books) : Prop where
  nrLr_pos : 0 < b.slice.ctxt.nrLr
  nrLr_le : b.slice.ctxt.nrLr ≤ maxLrRegs
  gicr_eq : ∃ old iidr c n mpidr, old.tail = 0 ∧
    b.slice.gicr = vgicrInit old iidr c n mpidr
  idle : ∀ i, i < b.slice.ctxt.nrLr → lrIdle (b.slice.ich.lrAt i) = true
  ledger_eq : b.ledger = fun _ => none

/-- The condition on an injection: the interrupt is enabled, is not active in a
list register, and, unless it is held already, finds fewer than
`GIC_LR_LIST_NUM` others held.  The other events are unconditional. -/
def Admissible (b : Books) : Event → Prop
  | .inject virq =>
      virq.enable = true ∧ virq.inLr = false ∧
      (∀ i, i < b.slice.ctxt.nrLr → getLrVint (b.slice.ich.lrAt i) = vintOf virq →
        lrState (b.slice.ich.lrAt i) ≠ lrActive ∧
        lrState (b.slice.ich.lrAt i) ≠ lrPendingActive) ∧
      ((∀ x ∈ places b.slice, getLrVint x ≠ vintOf virq) →
        (places b.slice).length < gicLrListNum)
  | _ => True

/-! ## Values that go idle when they are retired -/

/-- No end-of-interrupt request is left behind when the state bits are cleared. -/
def Clean (lr : Lr) : Prop := lr.getLsbD ichLrHwOff = true ∨ lr.getLsbD 41 = false

private theorem clean_congr {a b : Lr} (h61 : b.getLsbD 61 = a.getLsbD 61)
    (h41 : b.getLsbD 41 = a.getLsbD 41) (h : Clean a) : Clean b := by
  simp only [Clean, ichLrHwOff] at h ⊢
  rwa [h61, h41]

theorem Clean.tag {lr : Lr} (h : Clean lr) : Clean (lr ||| lrTag) :=
  clean_congr (getLsbD_tag lr (by decide)) (getLsbD_tag lr (by decide)) h

theorem Clean.withState {lr : Lr} (h : Clean lr) (st : BitVec 2) :
    Clean (withState lr st) :=
  clean_congr (getLsbD_withState_low lr st (by decide))
    (getLsbD_withState_low lr st (by decide)) h

theorem Clean.idle {lr : Lr} (h : Clean lr) (hst : lrState lr = 0) : lrIdle lr = true := by
  rcases h with hhw | h41
  · rw [lrIdle, hst, hhw]
    rfl
  · rw [lrIdle, hst, h41, Bool.not_false, Bool.or_true]
    rfl

private theorem clean_of_enabled [Bitmap] {virq : Virq} (hen : virq.enable = true)
    (hin : virq.inLr = false) : Clean (vgicGetLrFromVirq virq).1 := by
  cases hhw : virq.hw with
  | true =>
      left
      rw [getLsbD_of_enabled hen hin (Or.inr (by decide)), ← bitGet_eq _ _ (by decide),
        bitGet_lrFields, hhw]
  | false =>
      right
      have hval : (vgicGetLrFromVirq virq).1 = lrFields virq := by
        rw [vgicGetLrFromVirq_of_enabled hen hin, hhw, if_neg Bool.false_ne_true]
      rw [hval]
      simp [lrFields, bit, hhw, group1Int, ichLrGroupOff, ichLrVintOff, ichLrPrioOff,
        ichLrHwOff, ichLrStatOff, BitVec.getLsbD_of_ge]

private theorem eq_lrPending : ∀ st : BitVec 2, st ≠ 0 → st ≠ lrActive → st ≠ lrPendingActive →
    st = lrPending := by
  decide

/-! ## The invariant -/

/-- What every held value satisfies. -/
structure Sound (lr : Lr) : Prop where
  live : lrIdle lr = false
  clean : Clean lr

theorem Sound.tag {lr : Lr} (h : Sound lr) : Sound (lr ||| lrTag) :=
  ⟨by rw [lrIdle_tag, h.live], h.clean.tag⟩

private theorem sound_of_enabled [Bitmap] {virq : Virq} (hen : virq.enable = true)
    (hin : virq.inLr = false) : Sound (vgicGetLrFromVirq virq).1 where
  live := by
    apply lrIdle_eq_false_of_state
    rw [lrState_of_enabled hen hin]
    decide
  clean := clean_of_enabled hen hin

/-- A live clean value is pending, active or both. -/
theorem Sound.state_ne_zero {lr : Lr} (h : Sound lr) : lrState lr ≠ 0 := by
  intro hst
  have hidle := h.clean.idle hst
  rw [h.live] at hidle
  cases hidle

structure Inv (b : Books) : Prop where
  ready : Ready b.slice
  nrLr_pos : 0 < b.slice.ctxt.nrLr
  sound : ∀ x ∈ places b.slice, Sound x
  fits : (places b.slice).length ≤ gicLrListNum
  recorded : HeldAsRecorded b

theorem inv_initial {b : Books} (h : Initial b) : Inv b := by
  obtain ⟨old, iidr, c, n, mpidr, htail, hgicr⟩ := h.gicr_eq
  have hentries : entries b.slice.gicr = [] := by
    rw [hgicr]
    exact entries_vgicrInit htail
  have hplaces : places b.slice = [] := by
    rw [places, hentries, lrs_eq_nil fun i hi => h.idle i (List.mem_range.mp hi)]
    rfl
  refine
    { ready := ⟨?_, h.nrLr_le⟩
      nrLr_pos := h.nrLr_pos
      sound := ?_
      fits := ?_
      recorded := ?_ }
  · rw [hgicr]
    exact inBounds_vgicrInit (by rw [htail]; decide)
  · simp [hplaces]
  · simp [hplaces]
  · rw [HeldAsRecorded, heldKeys, hplaces, h.ledger_eq]
    exact recorded_nil

theorem Inv.nodup {b : Books} (h : Inv b) :
    ((places b.slice).map getLrVint).Nodup := by
  have hnd := h.recorded.nodup_keys
  rw [heldKeys, List.map_map] at hnd
  exact hnd

theorem Inv.live {b : Books} (h : Inv b) : ∀ e ∈ entries b.slice.gicr, lrIdle e = false :=
  fun e he => (h.sound e (List.mem_append_right _ he)).live

/-- A move that keeps the `(vINTID, state)` pairs keeps the invariant. -/
theorem Inv.of_move {b : Books} (h : Inv b) {s' : VgicSlice} (hbounds : InBounds s'.gicr)
    (hnr : s'.ctxt.nrLr = b.slice.ctxt.nrLr)
    (horigin : ∀ e ∈ places s', ∃ x ∈ places b.slice, e = x ∨ e = x ||| lrTag)
    (hperm : (heldKeys s').Perm (heldKeys b.slice)) : Inv { b with slice := s' } where
  ready := ⟨hbounds, by rw [hnr]; exact h.ready.nrLr_le⟩
  nrLr_pos := by
    show 0 < s'.ctxt.nrLr
    rw [hnr]
    exact h.nrLr_pos
  sound := by
    intro e he
    obtain ⟨x, hx, rfl | rfl⟩ := horigin e he
    · exact h.sound _ hx
    · exact (h.sound x hx).tag
  fits := by
    have hlen := hperm.length_eq
    rw [heldKeys, heldKeys, List.length_map, List.length_map] at hlen
    show (places s').length ≤ gicLrListNum
    rw [hlen]
    exact h.fits
  recorded := h.recorded.of_perm hperm

/-! ## Saving and restoring -/

private theorem step_save [Bitmap] {b : Books} (h : Inv b) :
    ∃ b', step b .save = .ok b' ∧ Inv b' := by
  obtain ⟨s', hrun, hs'⟩ := hookVgicContextSave_spec h.ready
  refine ⟨{ b with slice := s' }, by simp only [step, hrun, ok_bind]; rfl, ?_⟩
  refine h.of_move hs'.bounds hs'.nrLr_eq ?_ (hs'.conserved h.nodup h.fits)
  intro e he
  rw [hs'.places_eq] at he
  rcases hs'.origin e he with hold | ⟨x, hx, rfl⟩
  · exact ⟨e, List.mem_append_right _ hold, Or.inl rfl⟩
  · exact ⟨x, List.mem_append_left _ hx, Or.inr rfl⟩

private theorem step_restore [Bitmap] {b : Books} (h : Inv b) :
    ∃ b', step b .restore = .ok b' ∧ Inv b' := by
  obtain ⟨s', hrun, hs'⟩ := hookVgicContextRestore_spec h.ready
  refine ⟨{ b with slice := s' }, by simp only [step, hrun, ok_bind]; rfl, ?_⟩
  have hperm := hs'.conserved h.live
  refine h.of_move hs'.bounds hs'.nrLr_eq ?_ (hperm.map key)
  intro e he
  exact ⟨e, hperm.mem_iff.mp he, Or.inl rfl⟩

/-! ## The guest -/

/-- The guest moves the interrupt in list register `i` to the state `st`, or
retires it when `st` is zero. -/
theorem Inv.guest {b : Books} (h : Inv b) {i : Nat} (hi : i < b.slice.ctxt.nrLr)
    (hlive : lrState (b.slice.ich.lrAt i) ≠ 0) (st : BitVec 2) :
    Inv ⟨{ b.slice with ich := b.slice.ich.setLr i (withState (b.slice.ich.lrAt i) st) },
      Function.update b.ledger (getLrVint (b.slice.ich.lrAt i))
        (if st = 0 then none else some st)⟩ := by
  obtain ⟨rest, hbefore, hafter⟩ := places_setLr b.slice h.ready.nrLr_le hi
    (withState (b.slice.ich.lrAt i) st)
  have hkeep : keep (b.slice.ich.lrAt i) = [b.slice.ich.lrAt i] := by
    rw [keep, lrIdle_eq_false_of_state hlive]
    rfl
  rw [hkeep] at hbefore
  have hmem : b.slice.ich.lrAt i ∈ places b.slice :=
    hbefore.mem_iff.mpr (List.mem_append_left _ (List.mem_singleton_self _))
  have hclean := (h.sound _ hmem).clean.withState st
  have hkeep' : (keep (withState (b.slice.ich.lrAt i) st)).map key =
      (if st = 0 then none else some st).toList.map
        (Prod.mk (getLrVint (b.slice.ich.lrAt i))) := by
    by_cases hst : st = 0
    · rw [keep, hclean.idle (by rw [lrState_withState, hst]), if_pos hst]
      rfl
    · have hne : lrState (withState (b.slice.ich.lrAt i) st) ≠ 0 := by
        rwa [lrState_withState]
      rw [keep, lrIdle_eq_false_of_state hne, if_neg hst]
      simp [key]
  have hsub : ∀ x ∈ rest, x ∈ places b.slice := fun x hx =>
    hbefore.mem_iff.mpr (List.mem_append_right _ hx)
  refine
    { ready := ⟨h.ready.bounds, h.ready.nrLr_le⟩
      nrLr_pos := h.nrLr_pos
      sound := ?_
      fits := ?_
      recorded := ?_ }
  · intro e he
    rcases List.mem_append.mp (hafter.mem_iff.mp he) with hnew | hold
    · obtain ⟨rfl, hidle⟩ := mem_keep.mp hnew
      exact ⟨hidle, hclean⟩
    · exact h.sound e (hsub e hold)
  · have hlen := hafter.length_eq
    have hlen' := hbefore.length_eq
    have hone : (keep (withState (b.slice.ich.lrAt i) st)).length ≤ 1 := by
      unfold keep
      split <;> simp
    have hfits := h.fits
    rw [List.length_append] at hlen hlen'
    rw [List.length_singleton] at hlen'
    refine Nat.le_trans (Nat.le_of_eq hlen) ?_
    omega
  · have hrec : Recorded b.ledger (key (b.slice.ich.lrAt i) :: rest.map key) :=
      h.recorded.of_perm (hbefore.map key).symm
    have hnew := hrec.replace (if st = 0 then none else some st)
    rw [← hkeep', ← List.map_append] at hnew
    exact hnew.of_perm (hafter.map key)

theorem step_acknowledge [Bitmap] {b : Books} (h : Inv b) (i : Nat) :
    ∃ b', step b (.acknowledge i) = .ok b' ∧ Inv b' := by
  by_cases hi : i < b.slice.ctxt.nrLr
  · refine ⟨_, by simp only [step, hi, if_true]; rfl, ?_⟩
    by_cases hst : lrState (b.slice.ich.lrAt i) = lrPending
    · simp only [guestAcknowledge, enterAcknowledged, hst, if_true]
      exact h.guest hi (by rw [hst]; decide) lrActive
    · simp only [guestAcknowledge, enterAcknowledged, hst, if_false]
      exact h
  · exact ⟨b, by simp only [step, hi, if_false]; rfl, h⟩

theorem step_complete [Bitmap] {b : Books} (h : Inv b) (i : Nat) :
    ∃ b', step b (.complete i) = .ok b' ∧ Inv b' := by
  by_cases hi : i < b.slice.ctxt.nrLr
  · refine ⟨_, by simp only [step, hi, if_true]; rfl, ?_⟩
    by_cases hact : lrState (b.slice.ich.lrAt i) = lrActive
    · simp only [guestComplete, enterCompleted, hact, if_true]
      exact h.guest hi (by rw [hact]; decide) 0
    · by_cases hboth : lrState (b.slice.ich.lrAt i) = lrPendingActive
      · have hne : lrPendingActive ≠ lrActive := by decide
        simp only [guestComplete, enterCompleted, hboth, hne, if_true, if_false]
        exact h.guest hi (by rw [hboth]; decide) lrPending
      · simp only [guestComplete, enterCompleted, hact, hboth, if_false]
        exact h
  · exact ⟨b, by simp only [step, hi, if_false]; rfl, h⟩

/-! ## Injecting -/

/-- The pairs of the other interrupts, as a filter on pairs. -/
theorem map_key_apart {lr v : Lr} (hv : getLrVint lr = v) (vals : List Lr) :
    (apart lr vals).map key = (vals.map key).filter fun p => !decide (p.1 = v) := by
  rw [apart, hv, List.filter_map]
  rfl

theorem step_inject [Bitmap] {b : Books} (h : Inv b) {virq : Virq}
    (hadm : Admissible b (.inject virq)) :
    ∃ b', step b (.inject virq) = .ok b' ∧ Inv b' := by
  obtain ⟨hen, hin, hinactive, hroom⟩ := hadm
  have hvint : getLrVint (vgicGetLrFromVirq virq).1 = vintOf virq :=
    getLrVint_of_enabled hen hin
  have hkey : key (vgicGetLrFromVirq virq).1 = (vintOf virq, lrPending) := by
    rw [key, hvint, lrState_of_enabled hen hin]
  have hsound := sound_of_enabled hen hin
  by_cases hq : Queued b.slice.gicr (vgicGetLrFromVirq virq).1
  · -- found in the list: outstanding already, so neither side changes
    obtain ⟨e, he, heq⟩ := hq
    have hheld : b.ledger (vintOf virq) = some (lrState e) := by
      apply h.recorded.eq_some
      rw [← hvint, ← heq]
      exact List.mem_map_of_mem (f := key) (List.mem_append_right _ he)
    refine ⟨b, ?_, h⟩
    simp only [step, vgicInject_queued h.ready.bounds ⟨e, he, heq⟩, ok_bind]
    simp [enterInjected, hheld]
    rfl
  · obtain ⟨s', hrun, hs'⟩ := vgicInject_spec h.ready hq
    refine ⟨⟨s', enterInjected b.ledger virq⟩, by simp only [step, hrun, ok_bind]; rfl, ?_⟩
    have hapart : (apart (vgicGetLrFromVirq virq).1 (places b.slice)).length <
        gicLrListNum := by
      cases hheld : b.ledger (vintOf virq) with
      | none =>
          have hnot := h.recorded.not_mem hheld
          have hlt := hroom fun x hx => hnot (key x) (List.mem_map_of_mem hx)
          exact Nat.lt_of_le_of_lt (List.length_filter_le _ _) hlt
      | some st =>
          -- the interrupt itself is one of the places that are filtered out
          obtain ⟨x, hx, hxkey⟩ := List.mem_map.mp (h.recorded.mem_of_some hheld)
          have hxv : getLrVint x = vintOf virq := congrArg Prod.fst hxkey
          have hlt : (apart (vgicGetLrFromVirq virq).1 (places b.slice)).length <
              (places b.slice).length := by
            apply List.length_filter_lt_length_iff_exists.mpr
            exact ⟨x, hx, by simp [hxv, hvint]⟩
          exact Nat.lt_of_lt_of_le hlt h.fits
    have hperm := hs'.conserved h.nodup h.live hsound.live hapart
    rw [hkey, map_key_apart hvint] at hperm
    refine
      { ready := ⟨hs'.bounds, by rw [hs'.ctxt_eq]; exact h.ready.nrLr_le⟩
        nrLr_pos := by
          show 0 < s'.ctxt.nrLr
          rw [hs'.ctxt_eq]
          exact h.nrLr_pos
        sound := ?_
        fits := ?_
        recorded := ?_ }
    · intro e he
      obtain ⟨x, hx, hcase⟩ := hs'.origin e he
      have hxs : Sound x := by
        rcases List.mem_cons.mp hx with rfl | hx
        · exact hsound
        · exact h.sound x hx
      rcases hcase with rfl | rfl
      · exact hxs
      · exact hxs.tag
    · have hlen := hperm.length_eq
      rw [List.length_map, List.length_cons, ← map_key_apart hvint, List.length_map] at hlen
      show (places s').length ≤ gicLrListNum
      omega
    · cases hheld : b.ledger (vintOf virq) with
      | none =>
          have hledger : enterInjected b.ledger virq =
              Function.update b.ledger (vintOf virq) (some lrPending) := by
            simp [enterInjected, hen, hin, hheld]
          have hall : (heldKeys b.slice).filter (fun p => !decide (p.1 = vintOf virq)) =
              heldKeys b.slice := by
            apply List.filter_eq_self.mpr
            intro p hp
            simpa using h.recorded.not_mem hheld p hp
          rw [HeldAsRecorded, hledger]
          refine (h.recorded.add hheld lrPending).of_perm (hperm.trans ?_)
          rw [← hall]
          exact .refl _
      | some st =>
          have hledger : enterInjected b.ledger virq = b.ledger := by
            simp [enterInjected, hheld]
          -- not in the list, so in a register, where it is not active
          have hst : st = lrPending := by
            obtain ⟨x, hx, hxkey⟩ := List.mem_map.mp (h.recorded.mem_of_some hheld)
            have hxv : getLrVint x = vintOf virq := congrArg Prod.fst hxkey
            have hxst : lrState x = st := congrArg Prod.snd hxkey
            rcases List.mem_append.mp hx with hreg | hent
            · obtain ⟨i, hi, rfl, -⟩ := mem_lrs.mp hreg
              have hne := hinactive i (List.mem_range.mp hi) hxv
              have hne0 := (h.sound _ hx).state_ne_zero
              rw [hxst] at hne hne0
              exact eq_lrPending st hne0 hne.1 hne.2
            · exact absurd ⟨x, hent, hxv.trans hvint.symm⟩ hq
          rw [HeldAsRecorded, hledger]
          rw [hst] at hheld
          exact (h.recorded.again hheld).of_perm hperm

theorem step_inv [Bitmap] {b : Books} (h : Inv b) {e : Event} (hadm : Admissible b e) :
    ∃ b', step b e = .ok b' ∧ Inv b' := by
  cases e with
  | inject virq => exact step_inject h hadm
  | save => exact step_save h
  | restore => exact step_restore h
  | acknowledge i => exact step_acknowledge h i
  | complete i => exact step_complete h i

/-- In a run of admissible events the vCPU holds, at every point, exactly the
outstanding interrupts, each in one place and in its state. -/
theorem held_as_recorded [Bitmap] {b : Books} (hb : Initial b) {es : List Event}
    (hg : Guarded step Admissible b es) :
    ∃ t, run step b es = .ok t ∧ HeldAsRecorded t := by
  obtain ⟨t, hrun, ht⟩ := run_inv_of_guarded
    (fun _ _ hinv hadm => step_inv hinv hadm) (inv_initial hb) hg
  exact ⟨t, hrun, ht.recorded⟩

/-! ## A run that leaves the condition -/

private theorem initial_idleSlice : Initial ⟨idleSlice 4, fun _ => none⟩ where
  nrLr_pos := by decide
  nrLr_le := by decide
  gicr_eq := ⟨zeroGicr, 0, 0, 1, 0, rfl, rfl⟩
  idle := by decide
  ledger_eq := rfl

/-- Interrupt 40 is injected, acknowledged and injected again before the guest
completes it: the register's active entry is refused by the list, which already
holds the new pending one, and zeroed.  What was active is pending. -/
theorem reinjection_forgets_active :
    ¬∀ (b : Books) (es : List Event) (t : Books), Initial b →
      (∀ virq, Event.inject virq ∈ es → virq.enable = true) →
      run step b es = .ok t → HeldAsRecorded t := by
  intro hclaim
  have hrun : (run step ⟨idleSlice 4, fun _ => none⟩
      [.inject (spi 40), .acknowledge 0, .inject (spi 40)]).map
        (fun t => (heldKeys t.slice, t.ledger 40)) =
      .ok ([(40, lrPending)], some lrActive) := by
    decide
  obtain ⟨t, hok, hval⟩ := exists_of_map_eq_ok hrun
  have hheld : heldKeys t.slice = [(40, lrPending)] := congrArg Prod.fst hval
  have hledger : t.ledger 40 = some lrActive := congrArg Prod.snd hval
  have hrec := hclaim _ _ t initial_idleSlice (by simp [spi]) hok
  have hpair := hrec.eq_some (k := 40) (s := lrPending) (by rw [hheld]; simp)
  rw [hledger] at hpair
  exact absurd hpair (by decide)

/-- Inject, acknowledge, complete, with a switch out and in between. -/
theorem held_as_recorded_round_trip :
    Guarded step Admissible ⟨idleSlice 4, fun _ => none⟩
      [.inject (spi 40), .acknowledge 0, .save, .restore, .complete 0] ∧
    ∃ t, run step ⟨idleSlice 4, fun _ => none⟩
      [.inject (spi 40), .acknowledge 0, .save, .restore, .complete 0] = .ok t ∧
      HeldAsRecorded t := by
  have hadm : Admissible ⟨idleSlice 4, fun _ => none⟩ (.inject (spi 40)) := by
    refine ⟨rfl, rfl, ?_, ?_⟩
    · decide
    · intro _
      decide
  have hg : Guarded step Admissible ⟨idleSlice 4, fun _ => none⟩
      [.inject (spi 40), .acknowledge 0, .save, .restore, .complete 0] :=
    ⟨hadm, fun _ _ => ⟨trivial, fun _ _ => ⟨trivial, fun _ _ => ⟨trivial, fun _ _ =>
      ⟨trivial, fun _ _ => trivial⟩⟩⟩⟩⟩
  exact ⟨hg, held_as_recorded initial_idleSlice hg⟩

end RtHypervisor.Ports.LrLedger
