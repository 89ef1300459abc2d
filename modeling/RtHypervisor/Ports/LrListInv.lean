import RtHypervisor.Ports.LrInject

/-!
# The representation of `lr_list`

Occupancy of `lr_list` is recorded twice: by `tail`, and by the tag in the reserved
bits of an entry, which `vgic_context_restore_lr` looks at.  `RepInv` says that both
agree and that no interrupt is queued twice.  Every operation of the list keeps it,
so no operation leaves the array or fails its assertion (`run_repInv`).  What
`vgicr_init` forgets is to set `tail` in the first place: over a block whose last word
was not zero the invariant fails before the first operation (`lrList_repInv_iff`).
-/

namespace RtHypervisor.Ports.LrList

open RtHypervisor.Verified.Run
open RtHypervisor.Verified.PrefixArray
open RtHypervisor.Ports.ListRegister

structure RepInv (g : Vgicr) : Prop where
  bounds : InBounds g
  tagged : ∀ e ∈ entries g, getLrRes0 e ≠ 0
  distinct : ((entries g).map getLrVint).Nodup

variable {s s' : VgicSlice} {g g' : Vgicr} {lr : Lr}

/-- Rearranging or dropping entries keeps the invariant. -/
theorem RepInv.of_subperm (h : RepInv g) (hb : InBounds g')
    (hsub : (entries g').Subperm (entries g)) : RepInv g' where
  bounds := hb
  tagged e he := h.tagged e (hsub.subset he)
  distinct := by
    obtain ⟨l, hperm, hsublist⟩ := hsub
    have hnd : (l.map getLrVint).Nodup := h.distinct.sublist (hsublist.map getLrVint)
    exact (hperm.map getLrVint).nodup_iff.mp hnd

theorem RepInv.pushed (h : RepInv g) (hroom : g.tail < gicLrListNum) (hnew : ¬Queued g lr) :
    RepInv (pushed g lr hroom) where
  bounds := h.bounds.pushed lr hroom
  tagged e he := by
    rw [entries_pushed, List.mem_append, List.mem_singleton] at he
    rcases he with he | rfl
    · exact h.tagged e he
    · exact getLrRes0_tag_ne_zero lr
  distinct := by
    rw [entries_pushed, List.map_append, List.map_singleton, getLrVint_tag]
    refine List.nodup_append.mpr ⟨h.distinct, List.nodup_singleton _, ?_⟩
    intro x hx y hy heq
    obtain ⟨e, he, rfl⟩ := List.mem_map.mp hx
    exact hnew ⟨e, he, heq.trans (List.mem_singleton.mp hy)⟩

/-! ## The operations -/

theorem vgicLrListInsert_repInv (h : RepInv s.gicr) (lr : Lr) :
    ∃ s', vgicLrListInsert s lr = .ok s' ∧ RepInv s'.gicr ∧ s'.ctxt = s.ctxt := by
  by_cases hroom : s.gicr.tail < gicLrListNum ∧ ¬Queued s.gicr lr
  · exact ⟨_, vgicLrListInsert_accepted hroom.1 hroom.2, h.pushed hroom.1 hroom.2, rfl⟩
  · have hrefused : s.gicr.tail = gicLrListNum ∨ Queued s.gicr lr := by
      by_cases hlt : s.gicr.tail < gicLrListNum
      · exact Or.inr (by_contra fun hq => hroom ⟨hlt, hq⟩)
      · have hle := h.bounds.tail_le
        exact Or.inl (by omega)
    exact ⟨_, vgicLrListInsert_refused h.bounds.tail_le hrefused, h, rfl⟩

private theorem vgicLrListRemove_repInv (h : RepInv g) {i : Nat} (hi : i < g.tail) :
    ∃ g', vgicLrListRemove g i = .ok g' ∧ RepInv g' := by
  have hlt : i < gicLrListNum := Nat.lt_of_lt_of_le hi h.bounds.tail_le
  obtain ⟨g', hrun, hb, -, -, hperm⟩ := vgicLrListRemove_spec h.bounds hi hlt
  exact ⟨g', hrun, h.of_subperm hb ((List.sublist_cons_self _ _).subperm.trans hperm.symm.subperm)⟩

theorem vgicLrListSort_repInv (h : RepInv g) :
    ∃ g', vgicLrListSort g = .ok g' ∧ RepInv g' := by
  obtain ⟨g', hrun, hb, -, -, hperm⟩ := vgicLrListSort_spec h.bounds
  exact ⟨g', hrun, h.of_subperm hb hperm.subperm⟩

private theorem saveLrStep_repInv [Bitmap] {elrsr : BitVec 64} {i : Nat} (h : RepInv s.gicr)
    (hok : saveLrStep elrsr s i = .ok s') : RepInv s'.gicr := by
  unfold saveLrStep at hok
  split at hok
  · rw [← pure_eq_ok.mp hok]
    exact h
  · obtain ⟨lr, -, hok⟩ := bind_eq_ok.mp hok
    obtain ⟨s₁, hinsert, hrep, -⟩ := vgicLrListInsert_repInv h lr
    rw [hinsert, ok_bind] at hok
    simp only [writeLr, bind_eq_ok, pure_eq_ok] at hok
    obtain ⟨-, -, rfl⟩ := hok
    exact hrep

theorem saveLrLoop_repInv [Bitmap] {elrsr : BitVec 64} {is : List Nat} (h : RepInv s.gicr)
    (hok : is.foldlM (saveLrStep elrsr) s = .ok s') : RepInv s'.gicr := by
  induction is generalizing s with
  | nil =>
      rw [List.foldlM_nil] at hok
      rw [← pure_eq_ok.mp hok]
      exact h
  | cons i is ih =>
      rw [List.foldlM_cons] at hok
      obtain ⟨s₁, hstep, hrest⟩ := bind_eq_ok.mp hok
      exact ih (saveLrStep_repInv h hstep) hrest

private theorem restoreLrFrom_repInv [Bitmap] {elrsr : BitVec 64} {is : List Nat} {rm : Nat}
    (h : RepInv s.gicr) (hok : restoreLrFrom elrsr is rm s = .ok s') : RepInv s'.gicr := by
  induction is generalizing s rm with
  | nil =>
      rw [← pure_eq_ok.mp hok]
      exact h
  | cons i is ih =>
      unfold restoreLrFrom at hok
      split at hok
      · obtain ⟨lr, -, hok⟩ := bind_eq_ok.mp hok
        split at hok
        · rw [← pure_eq_ok.mp hok]
          exact h
        · simp only [bind_eq_ok, writeLr, pure_eq_ok] at hok
          obtain ⟨-, ⟨-, -, rfl⟩, g, hremove, hrest⟩ := hok
          have hlt : rm < s.gicr.tail := by
            by_contra hge
            simp only [vgicLrListRemove, decide_eq_false hge, check_false, error_bind] at hremove
            cases hremove
          obtain ⟨g₁, hrun, hrep⟩ := vgicLrListRemove_repInv h hlt
          have heq : g₁ = g := Except.ok.inj (hrun.symm.trans hremove)
          rw [heq] at hrep
          exact ih hrep hrest
      · exact ih h hok

private theorem vgicContextRestoreLr_repInv [Bitmap] {nrLr : Nat} (h : RepInv s.gicr)
    (hok : vgicContextRestoreLr s nrLr = .ok s') : RepInv s'.gicr := by
  simp only [vgicContextRestoreLr, bind_eq_ok, pure_eq_ok] at hok
  obtain ⟨s₁, hloop, g, hsort, rfl⟩ := hok
  obtain ⟨g₁, hrun, hrep⟩ := vgicLrListSort_repInv (restoreLrFrom_repInv h hloop)
  rw [show g = g₁ from Except.ok.inj (hsort.symm.trans hrun)]
  exact hrep

private theorem vgicInject_repInv [Bitmap] {virq virq' : Virq} {b : Bool} (h : RepInv s.gicr)
    (hok : vgicInject s virq = .ok (s', virq', b)) : RepInv s'.gicr := by
  unfold vgicInject at hok
  dsimp only at hok
  obtain ⟨queued, -, hok⟩ := bind_eq_ok.mp hok
  split at hok
  · rw [← (Prod.mk.inj (pure_eq_ok.mp hok)).1]
    exact h
  · obtain ⟨s₁, hinsert, hrep, -⟩ :=
      vgicLrListInsert_repInv h (vgicGetLrFromVirq virq).1
    rw [hinsert, ok_bind] at hok
    simp only [bind_eq_ok, pure_eq_ok, Prod.mk.injEq] at hok
    obtain ⟨s₂, hsave, g, hsort, s₃, hrestore, rfl, -, -⟩ := hok
    have hrep₁ : RepInv (if virqSize s₁ > s₁.ctxt.nrLr + gicLrListNum then
        vgicCallMaintenanceIrq s₁ else s₁).gicr := by
      split
      · exact hrep
      · exact hrep
    have hrep₂ := saveLrLoop_repInv hrep₁ hsave
    obtain ⟨g₁, hrun, hrep₃⟩ := vgicLrListSort_repInv hrep₂
    rw [show g₁ = g from Except.ok.inj (hrun.symm.trans hsort)] at hrep₃
    exact vgicContextRestoreLr_repInv (s := { s₂ with gicr := g }) hrep₃ hrestore

/-! ## Runs -/

/-- The calls on one redistributor's list, and between them whatever the guest, the
hardware and the other vCPUs of the VM do to the interface and the shared context. -/
inductive ListOp
  | inject (virq : Virq)
  | insert (lr : Lr)
  | remove (rmIdx : Nat)
  | sort
  | save
  | restore
  | elsewhere (ich : IchRegs) (ctxt : VgicContext)
deriving DecidableEq, Repr

def listStep [Bitmap] (s : VgicSlice) : ListOp → Except Fault VgicSlice
  | .inject virq => do
      let (s, _, _) ← vgicInject s virq
      pure s
  | .insert lr => vgicLrListInsert s lr
  | .remove rmIdx => do
      let g ← vgicLrListRemove s.gicr rmIdx
      pure { s with gicr := g }
  | .sort => do
      let g ← vgicLrListSort s.gicr
      pure { s with gicr := g }
  | .save => hookVgicContextSave s
  | .restore => hookVgicContextRestore s
  | .elsewhere ich ctxt => pure { s with ich := ich, ctxt := ctxt }

/-- The one caller of `vgic_lr_list_remove` has seen a tag in the cell it removes.  The
number of list registers is the hardware's and never changes. -/
def Called (s : VgicSlice) : ListOp → Prop
  | .remove rmIdx => ∃ h : rmIdx < gicLrListNum, getLrRes0 s.gicr.lrList[rmIdx] ≠ 0
  | .elsewhere _ ctxt => ctxt.nrLr = s.ctxt.nrLr
  | _ => True

/-- The slice of a vCPU whose list is well formed. -/
structure ListInv (s : VgicSlice) : Prop where
  rep : RepInv s.gicr
  nrLr_le : s.ctxt.nrLr ≤ maxLrRegs

theorem ListInv.ready (h : ListInv s) : Ready s := ⟨h.rep.bounds, h.nrLr_le⟩

private theorem listStep_inject [Bitmap] (h : ListInv s) (virq : Virq) :
    ∃ s', listStep s (.inject virq) = .ok s' ∧ ListInv s' := by
  by_cases hq : Queued s.gicr (vgicGetLrFromVirq virq).1
  · refine ⟨s, ?_, h⟩
    simp only [listStep, vgicInject_queued h.rep.bounds hq, ok_bind]
    rfl
  · obtain ⟨s', hrun, hinj⟩ := vgicInject_spec h.ready hq
    refine ⟨s', ?_, ⟨vgicInject_repInv h.rep hrun, ?_⟩⟩
    · simp only [listStep, hrun, ok_bind]
      rfl
    · rw [hinj.ctxt_eq]
      exact h.nrLr_le

private theorem listStep_save [Bitmap] (h : ListInv s) :
    ∃ s', hookVgicContextSave s = .ok s' ∧ ListInv s' := by
  obtain ⟨s₁, hloop, -⟩ := vgicContextSaveLr_spec h.ready
  obtain ⟨s', hrun, hsaved⟩ := hookVgicContextSave_spec h.ready
  refine ⟨s', hrun, ⟨?_, ?_⟩⟩
  · have hrep : RepInv s₁.gicr := saveLrLoop_repInv h.rep hloop
    simp only [hookVgicContextSave, hloop, ok_bind, pure_eq_ok] at hrun
    rw [← hrun]
    simpa using hrep
  · rw [hsaved.nrLr_eq]
    exact h.nrLr_le

private theorem listStep_restore [Bitmap] (h : ListInv s) :
    ∃ s', hookVgicContextRestore s = .ok s' ∧ ListInv s' := by
  obtain ⟨s₁, hloop, -, -⟩ := vgicContextRestoreLr_spec h.ready
  obtain ⟨s', hrun, hrestored⟩ := hookVgicContextRestore_spec h.ready
  refine ⟨s', hrun, ⟨?_, ?_⟩⟩
  · have hrep : RepInv s₁.gicr := vgicContextRestoreLr_repInv h.rep hloop
    simp only [hookVgicContextRestore, hloop, ok_bind, pure_eq_ok] at hrun
    rw [← hrun]
    simpa [vgicContextRestoreArp] using hrep
  · rw [hrestored.nrLr_eq]
    exact h.nrLr_le

/-- One call returns and keeps the invariant. -/
theorem listStep_inv [Bitmap] (s : VgicSlice) (op : ListOp) (h : ListInv s) (hop : Called s op) :
    ∃ s', listStep s op = .ok s' ∧ ListInv s' := by
  cases op with
  | inject virq => exact listStep_inject h virq
  | insert lr =>
      obtain ⟨s', hrun, hrep, hctxt⟩ := vgicLrListInsert_repInv h.rep lr
      exact ⟨s', hrun, hrep, by rw [hctxt]; exact h.nrLr_le⟩
  | remove rmIdx =>
      obtain ⟨hlt, htag⟩ := hop
      -- the tag places the cell below `tail`, which is what the assertion asks for
      have hused : rmIdx < s.gicr.tail := h.rep.bounds.lt_tail hlt htag
      obtain ⟨g, hrun, hrep⟩ := vgicLrListRemove_repInv h.rep hused
      refine ⟨{ s with gicr := g }, ?_, hrep, h.nrLr_le⟩
      simp only [listStep, hrun, ok_bind]
      rfl
  | sort =>
      obtain ⟨g, hrun, hrep⟩ := vgicLrListSort_repInv h.rep
      refine ⟨{ s with gicr := g }, ?_, hrep, h.nrLr_le⟩
      simp only [listStep, hrun, ok_bind]
      rfl
  | save => exact listStep_save h
  | restore => exact listStep_restore h
  | elsewhere ich ctxt =>
      refine ⟨{ s with ich := ich, ctxt := ctxt }, rfl, h.rep, ?_⟩
      have hnr : ctxt.nrLr = s.ctxt.nrLr := hop
      show ctxt.nrLr ≤ maxLrRegs
      rw [hnr]
      exact h.nrLr_le

private theorem run_repInv [Bitmap] {ops : List ListOp} (h : ListInv s)
    (hops : Guarded listStep Called s ops) :
    ∃ t, run listStep s ops = .ok t ∧ RepInv t.gicr := by
  obtain ⟨t, hrun, hinv⟩ := run_inv_of_guarded listStep_inv h hops
  exact ⟨t, hrun, hinv.rep⟩

/-- A list whose cells are all zero is well formed only when it is empty. -/
theorem repInv_vgicrInit_iff {old : Vgicr} {iidr : BitVec 32} {c n : Nat} {mpidr : BitVec 64} :
    RepInv (vgicrInit old iidr c n mpidr) ↔ old.tail = 0 := by
  constructor
  · intro h
    by_contra hne
    have hle : old.tail ≤ gicLrListNum := h.bounds.tail_le
    have hpos : 0 < old.tail := Nat.pos_of_ne_zero hne
    have hzero : (vgicrInit old iidr c n mpidr).lrList[0] = 0 := by simp [vgicrInit]
    apply h.tagged _ (getElem_mem_pre _ (by decide) hpos)
    rw [hzero]
    exact getLrRes0_zero
  · intro htail
    have hnil : entries (vgicrInit old iidr c n mpidr) = [] := entries_vgicrInit htail
    refine ⟨inBounds_vgicrInit (by rw [htail]; decide), ?_, ?_⟩
    · simp [hnil]
    · simp [hnil]

/-- The list is well formed after `vgicr_init` and after every sequence of calls, none of
which faults, exactly when the `tail` word of the allocated block happened to be zero. -/
theorem lrList_repInv_iff [Bitmap] (old : Vgicr) :
    (∀ (iidr : BitVec 32) (vcpuId nrVcpus : Nat) (mpidr : BitVec 64) (ich : IchRegs)
        (ctxt : VgicContext) (ops : List ListOp), ctxt.nrLr ≤ maxLrRegs →
      Guarded listStep Called ⟨ich, vgicrInit old iidr vcpuId nrVcpus mpidr, ctxt⟩ ops →
      ∃ t, run listStep ⟨ich, vgicrInit old iidr vcpuId nrVcpus mpidr, ctxt⟩ ops = .ok t ∧
        RepInv t.gicr) ↔ old.tail = 0 := by
  constructor
  · intro h
    obtain ⟨t, hrun, hrep⟩ := h 0 0 1 0 (idleSlice 4).ich (idleSlice 4).ctxt [] (by decide) trivial
    cases hrun
    exact repInv_vgicrInit_iff.mp hrep
  · intro htail iidr vcpuId nrVcpus mpidr ich ctxt ops hnr hops
    exact run_repInv ⟨repInv_vgicrInit_iff.mpr htail, hnr⟩ hops

/-- A recycled block whose `tail` word read 65: the first insertion of an interrupt already
scans past the array. -/
theorem stale_tail_outOfBounds :
    ¬RepInv (vgicrInit { zeroGicr with tail := 65 } 0 0 1 0) ∧
      run listStep { idleSlice 4 with gicr := vgicrInit { zeroGicr with tail := 65 } 0 0 1 0 }
        [.inject (spi 40)] = .error .outOfBounds := by
  constructor
  · intro h
    have htail := repInv_vgicrInit_iff.mp h
    cases htail
  · decide

end RtHypervisor.Ports.LrList
