import RtHypervisor.Ports.SwitchIsolation

/-!
# The virtual CPU interface over other vCPUs

`hook_vgic_context_save` and `hook_vgic_context_restore` bracket the time a vCPU is off
the CPU.  What they keep is one record per VM, and three things stand between them and
an exact inverse:

* `vgic_context_save_arp` writes the active-priority registers it should read;
* a list register that the full `lr_list`, or one that holds its interrupt already,
  refuses raises a maintenance request, and the saved `ICH_HCR_EL2` keeps it;
* another vCPU of the VM that is saved while the registers hold something else
  overwrites the record.

`interface_round_trip_iff` says that there is nothing else.
-/

namespace RtHypervisor.Ports.SwitchContext

open RtHypervisor.Verified.Run
open RtHypervisor.Ports.ListRegister
open RtHypervisor.Ports.LrList

/-! ## The registers of the interface -/

/-- `ICH_AP1R0_EL2`, `ICH_AP1R1_EL2` and `ICH_AP1R2_EL2`. -/
structure Ap1r where
  r0 : BitVec 32
  r1 : BitVec 32
  r2 : BitVec 32
deriving DecidableEq, Repr

/-- The registers a vCPU expects to find again: the active priorities, `ICH_VMCR_EL2`,
`ICH_HCR_EL2`, `ICC_SRE_EL1` and `ICC_CTLR_EL1`. -/
structure Interface where
  ap1r : Ap1r
  vmcr : BitVec 32
  hcr : BitVec 32
  sre : BitVec 32
  ctlr : BitVec 32
deriving DecidableEq, Repr

def interfaceOf (h : IchRegs) : Interface :=
  ⟨⟨h.ap1r0, h.ap1r1, h.ap1r2⟩, h.vmcr, h.hcr, h.iccSre, h.iccCtlr⟩

/-- The registers of an interface whose saved values are `c`. -/
def interfaceIn (c : VgicContext) (ap : Ap1r) : Interface :=
  ⟨ap, c.ichVmcrEl2, c.ichHcrEl2, c.iccSreEl1, c.iccCtlrEl1⟩

/-- The active priorities after the fall-through switch on `nr_pr`. -/
def loadAp (nrPr : Nat) (val : BitVec 32) (ap : Ap1r) : Ap1r where
  r0 := if nrPr = 5 ∨ nrPr = 6 ∨ nrPr = 7 then val else ap.r0
  r1 := if nrPr = 6 ∨ nrPr = 7 then val else ap.r1
  r2 := if nrPr = 7 then val else ap.r2

private theorem loadAp_loadAp (n : Nat) (a b : BitVec 32) (ap : Ap1r) :
    loadAp n a (loadAp n b ap) = loadAp n a ap := by
  simp only [loadAp, Ap1r.mk.injEq]
  refine ⟨?_, ?_, ?_⟩
  · split <;> rfl
  · split <;> rfl
  · split <;> rfl

/-- The registers the switch writes hold `val` already. -/
structure ApHolds (nrPr : Nat) (val : BitVec 32) (ap : Ap1r) : Prop where
  r0 : nrPr = 5 ∨ nrPr = 6 ∨ nrPr = 7 → ap.r0 = val
  r1 : nrPr = 6 ∨ nrPr = 7 → ap.r1 = val
  r2 : nrPr = 7 → ap.r2 = val

private theorem loadAp_eq_self_iff {n : Nat} {val : BitVec 32} {ap : Ap1r} :
    loadAp n val ap = ap ↔ ApHolds n val ap := by
  obtain ⟨r0, r1, r2⟩ := ap
  simp only [loadAp, Ap1r.mk.injEq, ite_eq_right_iff]
  constructor
  · rintro ⟨h0, h1, h2⟩
    exact ⟨fun h => (h0 h).symm, fun h => (h1 h).symm, fun h => (h2 h).symm⟩
  · intro h
    exact ⟨fun hn => (h.r0 hn).symm, fun hn => (h.r1 hn).symm, fun hn => (h.r2 hn).symm⟩

private theorem interfaceOf_vgicContextSaveArp (s : VgicSlice) :
    interfaceOf (vgicContextSaveArp s).ich =
      { interfaceOf s.ich with
        ap1r := loadAp s.ctxt.nrPr s.ctxt.ichAp1rEl2 (interfaceOf s.ich).ap1r } := by
  unfold vgicContextSaveArp
  split
  · rename_i h
    simp [interfaceOf, loadAp, h]
  · rename_i h
    simp [interfaceOf, loadAp, h]
  · rename_i h
    simp [interfaceOf, loadAp, h]
  · rename_i h7 h6 h5
    have hnone : ¬s.ctxt.nrPr = 7 ∧ ¬s.ctxt.nrPr = 6 ∧ ¬s.ctxt.nrPr = 5 := ⟨h7, h6, h5⟩
    simp [interfaceOf, loadAp, hnone]

/-! ## The maintenance request of a save -/

/-- Every list register among `is` finds a place of its own in the list. -/
structure Roomy (s : VgicSlice) (is : List Nat) : Prop where
  distinct : ((lrs s.ich is).map getLrVint).Nodup
  fresh : ∀ x ∈ lrs s.ich is, ¬Queued s.gicr x
  room : (entries s.gicr).length + (lrs s.ich is).length ≤ gicLrListNum

/-- The registers but `ICH_HCR_EL2` are untouched, which has a maintenance request now
exactly when some list register was refused. -/
structure HcrAfter (s s' : VgicSlice) (is : List Nat) : Prop where
  hcr_roomy : Roomy s is → s'.ich.hcr = s.ich.hcr
  hcr_refused : ¬Roomy s is → s'.ich.hcr = s.ich.hcr ||| ichHcrNpie
  others : { interfaceOf s'.ich with hcr := 0 } = { interfaceOf s.ich with hcr := 0 }

section SaveLoop

variable {s s₁ s' : VgicSlice} {i : Nat} {is : List Nat}

private theorem roomy_cons_idle (h : lrIdle (s.ich.lrAt i) = true) :
    Roomy s (i :: is) ↔ Roomy s is := by
  constructor
  · intro hr
    have hlrs : lrs s.ich (i :: is) = lrs s.ich is := lrs_cons_idle h
    exact ⟨hlrs ▸ hr.distinct, hlrs ▸ hr.fresh, hlrs ▸ hr.room⟩
  · intro hr
    have hlrs : lrs s.ich is = lrs s.ich (i :: is) := (lrs_cons_idle h).symm
    exact ⟨hlrs ▸ hr.distinct, hlrs ▸ hr.fresh, hlrs ▸ hr.room⟩

/-- An accepted register leaves the question to the others. -/
theorem roomy_cons_live (h : lrIdle (s.ich.lrAt i) = false)
    (hlrs : lrs s₁.ich is = lrs s.ich is) (hnew : ¬Queued s.gicr (s.ich.lrAt i))
    (hent : entries s₁.gicr = entries s.gicr ++ [s.ich.lrAt i ||| lrTag]) :
    Roomy s (i :: is) ↔ Roomy s₁ is := by
  have hlen : (entries s₁.gicr).length = (entries s.gicr).length + 1 := by simp [hent]
  constructor
  · intro hr
    have hd := hr.distinct
    have hf := hr.fresh
    have hroom := hr.room
    rw [lrs_cons_live h] at hd hf hroom
    rw [List.map_cons, List.nodup_cons] at hd
    refine ⟨by rw [hlrs]; exact hd.2, ?_, ?_⟩
    · rw [hlrs]
      rintro y hy ⟨e, he, heq⟩
      rw [hent, List.mem_append, List.mem_singleton] at he
      rcases he with he | rfl
      · exact hf y (List.mem_cons_of_mem _ hy) ⟨e, he, heq⟩
      · rw [getLrVint_tag] at heq
        exact hd.1 (heq ▸ List.mem_map_of_mem hy)
    · rw [hlrs, hlen]
      rw [List.length_cons] at hroom
      omega
  · intro hr
    have hd := hr.distinct
    have hf := hr.fresh
    have hroom := hr.room
    rw [hlrs] at hd hf hroom
    have hsub : ∀ y, Queued s.gicr y → Queued s₁.gicr y := by
      rintro y ⟨e, he, heq⟩
      exact ⟨e, by rw [hent]; exact List.mem_append_left _ he, heq⟩
    refine ⟨?_, ?_, ?_⟩
    · rw [lrs_cons_live h, List.map_cons, List.nodup_cons]
      refine ⟨?_, hd⟩
      intro hmem
      obtain ⟨y, hy, heq⟩ := List.mem_map.mp hmem
      refine hf y hy ⟨s.ich.lrAt i ||| lrTag, ?_, ?_⟩
      · rw [hent]
        exact List.mem_append_right _ (List.mem_singleton_self _)
      · rw [getLrVint_tag, heq]
    · rw [lrs_cons_live h]
      intro y hy
      rcases List.mem_cons.mp hy with rfl | hy
      · exact hnew
      · exact fun hq => hf y hy (hsub y hq)
    · rw [lrs_cons_live h, List.length_cons]
      omega

private theorem not_roomy_refused (hb : InBounds s.gicr) (h : lrIdle (s.ich.lrAt i) = false)
    (hrefused : ¬(s.gicr.tail < gicLrListNum ∧ ¬Queued s.gicr (s.ich.lrAt i))) :
    ¬Roomy s (i :: is) := by
  intro hr
  have hf := hr.fresh
  have hroom := hr.room
  rw [lrs_cons_live h] at hf hroom
  apply hrefused
  constructor
  · rw [hb.length_entries, List.length_cons] at hroom
    omega
  · exact hf _ (List.mem_cons_self ..)

private theorem or_npie_idem (x : BitVec 32) :
    x ||| ichHcrNpie ||| ichHcrNpie = x ||| ichHcrNpie := by
  rw [BitVec.or_assoc, BitVec.or_self]

/-- The save loop, as far as the other registers of the interface are concerned. -/
theorem saveLrLoop_hcr [Bitmap] {elrsr : BitVec 64} {is : List Nat} :
    ∀ {s : VgicSlice}, InBounds s.gicr → is.Nodup →
      (∀ i ∈ is, i < s.ctxt.nrLr ∧ i < 16 ∧ bitGet elrsr i = lrIdle (s.ich.lrAt i)) →
      ∀ {s'}, is.foldlM (saveLrStep elrsr) s = .ok s' → HcrAfter s s' is := by
  induction is with
  | nil =>
      intro s hb _ _ s' hrun
      rw [List.foldlM_nil] at hrun
      obtain rfl := pure_eq_ok.mp hrun
      refine ⟨fun _ => rfl, ?_, rfl⟩
      intro hnot
      have hle : (entries s.gicr).length ≤ gicLrListNum := by
        rw [hb.length_entries]
        exact hb.tail_le
      exact absurd ⟨List.nodup_nil, by simp [lrs], hle⟩ hnot
  | cons i is ih =>
      intro s hb hnd hidx s' hrun
      rw [List.nodup_cons] at hnd
      obtain ⟨hnr, h16, hbit⟩ := hidx i (List.mem_cons_self ..)
      rw [List.foldlM_cons] at hrun
      cases hidle : lrIdle (s.ich.lrAt i) with
      | true =>
          rw [saveLrStep_idle (hbit.trans hidle), ok_bind] at hrun
          have h := ih hb hnd.2 (fun j hj => hidx j (List.mem_cons_of_mem i hj)) hrun
          exact ⟨fun hr => h.hcr_roomy ((roomy_cons_idle hidle).mp hr),
            fun hr => h.hcr_refused fun hr' => hr ((roomy_cons_idle hidle).mpr hr'), h.others⟩
      | false =>
          have hrest : ∀ ich : IchRegs, ∀ j ∈ is, (ich.setLr i 0).lrAt j = ich.lrAt j := by
            intro ich j hj
            have hne : j ≠ i := by
              rintro rfl
              exact hnd.1 hj
            exact lrAt_setLr_ne ich hne 0
          have hothers : ∀ ich : IchRegs, interfaceOf (ich.setLr i 0) = interfaceOf ich := by
            intro ich
            simp only [IchRegs.setLr, h16, dite_true]
            rfl
          rw [saveLrStep_live hb (hbit.trans hidle) hnr] at hrun
          split at hrun
          · -- accepted: the request is decided by the registers that follow
            rename_i hroom
            rw [ok_bind] at hrun
            have h := ih (hb.pushed _ hroom.1) hnd.2 (fun j hj => by
              obtain ⟨hjnr, hj16, hjbit⟩ := hidx j (List.mem_cons_of_mem i hj)
              exact ⟨hjnr, hj16, by rw [hjbit]; exact congrArg lrIdle (hrest s.ich j hj).symm⟩)
              hrun
            have hiff : Roomy s (i :: is) ↔
                Roomy ⟨s.ich.setLr i 0, pushed s.gicr _ hroom.1, s.ctxt⟩ is :=
              roomy_cons_live hidle (lrs_congr (hrest s.ich)) hroom.2
                (entries_pushed s.gicr _ hroom.1)
            have hhcr : (s.ich.setLr i 0).hcr = s.ich.hcr := congrArg Interface.hcr (hothers s.ich)
            refine ⟨fun hr => (h.hcr_roomy (hiff.mp hr)).trans hhcr, ?_, ?_⟩
            · intro hr
              rw [h.hcr_refused fun hr' => hr (hiff.mpr hr'), hhcr]
            · rw [h.others, hothers]
          · -- refused: the request is set, and setting it again changes nothing
            rename_i hroom
            rw [ok_bind] at hrun
            have h := ih (s := { s with ich := (vgicCallMaintenanceIrq s).ich.setLr i 0 }) hb hnd.2
              (fun j hj => by
                obtain ⟨hjnr, hj16, hjbit⟩ := hidx j (List.mem_cons_of_mem i hj)
                refine ⟨hjnr, hj16, ?_⟩
                rw [hjbit]
                exact congrArg lrIdle (hrest (vgicCallMaintenanceIrq s).ich j hj).symm) hrun
            have hhcr : ((vgicCallMaintenanceIrq s).ich.setLr i 0).hcr =
                s.ich.hcr ||| ichHcrNpie :=
              congrArg Interface.hcr (hothers (vgicCallMaintenanceIrq s).ich)
            refine ⟨fun hr => absurd hr (not_roomy_refused hb hidle hroom), ?_, ?_⟩
            · intro _
              by_cases hr : Roomy { s with ich := (vgicCallMaintenanceIrq s).ich.setLr i 0 } is
              · exact (h.hcr_roomy hr).trans hhcr
              · rw [h.hcr_refused hr, hhcr, or_npie_idem]
            · rw [h.others, hothers]
              rfl

end SaveLoop

/-! ## The hooks -/

/-- A save of the slice leaves `ICH_HCR_EL2` as it is: no list register is refused, or a
maintenance request stands already. -/
def KeepsHcr (s : VgicSlice) : Prop :=
  Roomy s (List.range s.ctxt.nrLr) ∨ s.ich.hcr ||| ichHcrNpie = s.ich.hcr

structure SavedInterface (s s' : VgicSlice) : Prop where
  keeps_iff : s'.ich.hcr = s.ich.hcr ↔ KeepsHcr s
  interface_eq : interfaceOf s'.ich =
    { interfaceOf s.ich with
      ap1r := loadAp s.ctxt.nrPr s.ctxt.ichAp1rEl2 (interfaceOf s.ich).ap1r
      hcr := s'.ich.hcr }
  ctxt_eq : s'.ctxt =
    { s.ctxt with
      iccSreEl1 := s.ich.iccSre, ichVmcrEl2 := s.ich.vmcr
      ichHcrEl2 := s'.ich.hcr, iccCtlrEl1 := s.ich.iccCtlr }

private theorem hookVgicContextSave_interface [Bitmap] {s s' : VgicSlice} (h : Ready s)
    (hok : hookVgicContextSave s = .ok s') : SavedInterface s s' := by
  obtain ⟨s₁, hrun, hs₁⟩ := vgicContextSaveLr_spec h
  have hcr := saveLrLoop_hcr h.bounds List.nodup_range (register_index h) hrun
  simp only [hookVgicContextSave, hrun, ok_bind, pure_eq_ok] at hok
  have hif := interfaceOf_vgicContextSaveArp s₁
  rw [show (vgicContextSaveArp s₁).ich = s'.ich by rw [← hok]] at hif
  have hsame : interfaceOf s₁.ich = { interfaceOf s.ich with hcr := s₁.ich.hcr } :=
    congrArg (fun f => { f with hcr := s₁.ich.hcr }) hcr.others
  have hs'hcr : s'.ich.hcr = s₁.ich.hcr := congrArg Interface.hcr hif
  refine ⟨?_, ?_, ?_⟩
  · rw [hs'hcr]
    by_cases hr : Roomy s (List.range s.ctxt.nrLr)
    · simp only [hcr.hcr_roomy hr, KeepsHcr, hr, true_or]
    · simp only [hcr.hcr_refused hr, KeepsHcr, hr, false_or]
  · rw [hif, hsame, hs₁.ctxt_eq, hs'hcr]
  · have hvmcr : (vgicContextSaveArp s₁).ich.vmcr = s.ich.vmcr := by
      have h₁ := congrArg Interface.vmcr (interfaceOf_vgicContextSaveArp s₁)
      rw [hsame] at h₁
      exact h₁
    have hsre : (vgicContextSaveArp s₁).ich.iccSre = s.ich.iccSre := by
      have h₁ := congrArg Interface.sre (interfaceOf_vgicContextSaveArp s₁)
      rw [hsame] at h₁
      exact h₁
    have hctlr : (vgicContextSaveArp s₁).ich.iccCtlr = s.ich.iccCtlr := by
      have h₁ := congrArg Interface.ctlr (interfaceOf_vgicContextSaveArp s₁)
      rw [hsame] at h₁
      exact h₁
    rw [← hok]
    simp only [ctxt_vgicContextSaveArp, hs₁.ctxt_eq, hvmcr, hsre, hctlr]

private theorem restoreLrFrom_interface [Bitmap] {elrsr : BitVec 64} {is : List Nat} {rm : Nat}
    {s s' : VgicSlice} (hok : restoreLrFrom elrsr is rm s = .ok s') :
    interfaceOf s'.ich = interfaceOf s.ich := by
  induction is generalizing s rm with
  | nil => rw [← pure_eq_ok.mp hok]
  | cons i is ih =>
      unfold restoreLrFrom at hok
      split at hok
      · obtain ⟨lr, -, hok⟩ := bind_eq_ok.mp hok
        split at hok
        · rw [← pure_eq_ok.mp hok]
        · simp only [bind_eq_ok, writeLr, pure_eq_ok] at hok
          obtain ⟨-, ⟨-, -, rfl⟩, g, -, hrest⟩ := hok
          rw [ih hrest]
          simp only [IchRegs.setLr]
          split <;> rfl
      · exact ih hok

structure RestoredInterface (s s' : VgicSlice) : Prop where
  interface_eq : interfaceOf s'.ich = interfaceIn s.ctxt
    (loadAp s.ctxt.nrPr s.ctxt.ichAp1rEl2 (interfaceOf s.ich).ap1r)
  ctxt_eq : s'.ctxt = s.ctxt

private theorem hookVgicContextRestore_interface [Bitmap] {s s' : VgicSlice} (h : Ready s)
    (hok : hookVgicContextRestore s = .ok s') : RestoredInterface s s' := by
  obtain ⟨s₁, hrun, hs₁, -⟩ := vgicContextRestoreLr_spec h
  have hsame : interfaceOf s₁.ich = interfaceOf s.ich := by
    simp only [vgicContextRestoreLr, bind_eq_ok, pure_eq_ok] at hrun
    obtain ⟨s₂, hloop, g, -, rfl⟩ := hrun
    have hsame := restoreLrFrom_interface hloop
    exact hsame
  simp only [hookVgicContextRestore, hrun, ok_bind, pure_eq_ok, vgicContextRestoreArp] at hok
  have hap := congrArg Interface.ap1r (interfaceOf_vgicContextSaveArp s₁)
  rw [hsame, hs₁.ctxt_eq] at hap
  refine ⟨?_, ?_⟩
  · rw [← hok]
    simp only [interfaceOf, interfaceIn, ctxt_vgicContextSaveArp, hs₁.ctxt_eq,
      Interface.mk.injEq, and_self, and_true]
    exact hap
  · rw [← hok]
    simp only [ctxt_vgicContextSaveArp, hs₁.ctxt_eq]

/-! ## Other vCPUs in between -/

inductive HookCall
  | save (u : VcpuId)
  | restore (u : VcpuId)
deriving DecidableEq, Repr

def HookCall.vcpu : HookCall → VcpuId
  | .save u => u
  | .restore u => u

def vgicSave [Bitmap] (m : Machine) (v : VcpuId) : Except Fault Machine := do
  let s ← hookVgicContextSave (m.slice v)
  pure (m.putSlice v s)

def vgicRestore [Bitmap] (m : Machine) (v : VcpuId) : Except Fault Machine := do
  let s ← hookVgicContextRestore (m.slice v)
  pure (m.putSlice v s)

def hookStep [Bitmap] (m : Machine) : HookCall → Except Fault Machine
  | .save u => vgicSave m u
  | .restore u => vgicRestore m u

/-- The registers hold what the VM has saved, the active priorities apart. -/
def Loaded (m : Machine) (vm : Nat) : Prop :=
  interfaceOf m.ich = interfaceIn (m.ctxt vm) (interfaceOf m.ich).ap1r

/-- The call is for another vCPU.  When it saves one of the same VM, the registers hold
what that VM has saved, and the save adds no maintenance request. -/
def Undisturbed (v : VcpuId) (m : Machine) : HookCall → Prop
  | .save u => u ≠ v ∧ (u.vm = v.vm → Loaded m v.vm ∧ KeepsHcr (m.slice u))
  | .restore u => u ≠ v

/-- While `v` is off the CPU: its VM's record is `c`, and the active-priority registers
no VM writes are those of `ap`. -/
structure Between (v : VcpuId) (c : VgicContext) (ap : Ap1r) (m : Machine) : Prop where
  wired : Wired m
  nrPr_eq : ∀ vm, (m.ctxt vm).nrPr = c.nrPr
  ctxt_eq : m.ctxt v.vm = c
  ap_eq : loadAp c.nrPr 0 (interfaceOf m.ich).ap1r = loadAp c.nrPr 0 ap

variable {m m' : Machine} {u v : VcpuId} {c : VgicContext} {ap : Ap1r}

private theorem vgicSave_spec [Bitmap] (hw : Wired m) (u : VcpuId) :
    ∃ s, vgicSave m u = .ok (m.putSlice u s) ∧ Wired (m.putSlice u s) ∧
      SavedInterface (m.slice u) s := by
  obtain ⟨s, hrun, hs⟩ := hookVgicContextSave_spec (hw.ready u)
  refine ⟨s, ?_, hw.put rfl rfl hs.bounds hs.nrLr_eq, ?_⟩
  · simp only [vgicSave, hrun, ok_bind]
    rfl
  · exact hookVgicContextSave_interface (hw.ready u) hrun

private theorem vgicRestore_spec [Bitmap] (hw : Wired m) (u : VcpuId) :
    ∃ s, vgicRestore m u = .ok (m.putSlice u s) ∧ Wired (m.putSlice u s) ∧
      RestoredInterface (m.slice u) s := by
  obtain ⟨s, hrun, hs⟩ := hookVgicContextRestore_spec (hw.ready u)
  refine ⟨s, ?_, hw.put rfl rfl hs.bounds hs.nrLr_eq, ?_⟩
  · simp only [vgicRestore, hrun, ok_bind]
    rfl
  · exact hookVgicContextRestore_interface (hw.ready u) hrun

/-- Putting back a slice whose record still says `c`, if it is that of `v`'s VM. -/
theorem Between.put (h : Between v c ap m) {s : VgicSlice} (hw : Wired (m.putSlice u s))
    (hpr : s.ctxt.nrPr = (m.ctxt u.vm).nrPr) (hctxt : u.vm = v.vm → s.ctxt = c)
    (hap : (interfaceOf s.ich).ap1r =
      loadAp c.nrPr (m.ctxt u.vm).ichAp1rEl2 (interfaceOf m.ich).ap1r) :
    Between v c ap (m.putSlice u s) where
  wired := hw
  nrPr_eq vm := by
    show (Function.update m.ctxt u.vm s.ctxt vm).nrPr = c.nrPr
    by_cases hvm : vm = u.vm
    · rw [hvm, Function.update_self, hpr]
      exact h.nrPr_eq u.vm
    · rw [Function.update_of_ne hvm]
      exact h.nrPr_eq vm
  ctxt_eq := by
    show Function.update m.ctxt u.vm s.ctxt v.vm = c
    by_cases hvm : v.vm = u.vm
    · rw [hvm, Function.update_self]
      exact hctxt hvm.symm
    · rw [Function.update_of_ne hvm]
      exact h.ctxt_eq
  ap_eq := by
    show loadAp c.nrPr 0 (interfaceOf s.ich).ap1r = loadAp c.nrPr 0 ap
    rw [hap, loadAp_loadAp]
    exact h.ap_eq

theorem Between.save [Bitmap] (h : Between v c ap m) (hu : Undisturbed v m (.save u)) :
    ∃ m', vgicSave m u = .ok m' ∧ Between v c ap m' := by
  obtain ⟨s, hrun, hw, hs⟩ := vgicSave_spec h.wired u
  refine ⟨_, hrun, h.put hw ?_ ?_ ?_⟩
  · rw [hs.ctxt_eq]
    rfl
  · intro hvm
    obtain ⟨hloaded, hkeeps⟩ := hu.2 hvm
    have hhcr : s.ich.hcr = m.ich.hcr := hs.keeps_iff.mpr hkeeps
    have hctxt : m.ctxt u.vm = c := by
      rw [hvm]
      exact h.ctxt_eq
    -- the record is written with what it holds
    rw [Loaded, h.ctxt_eq] at hloaded
    simp only [interfaceOf, interfaceIn, Interface.mk.injEq] at hloaded
    obtain ⟨-, hvmcr, hhcr', hsre, hctlr⟩ := hloaded
    rw [hs.ctxt_eq, hhcr, hhcr']
    simp only [Machine.slice, hctxt, hvmcr, hsre, hctlr]
  · rw [hs.interface_eq]
    simp only [Machine.slice, h.nrPr_eq]

theorem Between.restore [Bitmap] (h : Between v c ap m) (u : VcpuId) :
    ∃ m', vgicRestore m u = .ok m' ∧ Between v c ap m' := by
  obtain ⟨s, hrun, hw, hs⟩ := vgicRestore_spec h.wired u
  refine ⟨_, hrun, h.put hw ?_ ?_ ?_⟩
  · rw [hs.ctxt_eq]
    rfl
  · intro hvm
    rw [hs.ctxt_eq]
    show m.ctxt u.vm = c
    rw [hvm]
    exact h.ctxt_eq
  · rw [hs.interface_eq]
    simp only [interfaceIn, Machine.slice, h.nrPr_eq]

private theorem hookStep_between [Bitmap] (m : Machine) (call : HookCall) (h : Between v c ap m)
    (hcall : Undisturbed v m call) : ∃ m', hookStep m call = .ok m' ∧ Between v c ap m' := by
  cases call with
  | save u => exact h.save hcall
  | restore u => exact h.restore u

/-- The end of the round trip: the record and the active priorities there were. -/
theorem Between.finish [Bitmap] (h : Between v c ap m) :
    ∃ m', vgicRestore m v = .ok m' ∧
      interfaceOf m'.ich = interfaceIn c (loadAp c.nrPr c.ichAp1rEl2 ap) := by
  obtain ⟨s, hrun, -, hs⟩ := vgicRestore_spec h.wired v
  refine ⟨_, hrun, ?_⟩
  have hap : loadAp c.nrPr c.ichAp1rEl2 (interfaceOf m.ich).ap1r =
      loadAp c.nrPr c.ichAp1rEl2 ap := by
    rw [← loadAp_loadAp c.nrPr c.ichAp1rEl2 0, h.ap_eq, loadAp_loadAp]
  have heq := hs.interface_eq
  simp only [Machine.slice, h.ctxt_eq, hap] at heq
  exact heq

/-- vCPU `v` is saved, other vCPUs are saved and restored without disturbing its VM's
record, and `v` is restored.  The interface is what it was exactly when the active-priority
registers `nr_pr` stands for held the recorded value, and the save raised no maintenance
request. -/
theorem interface_round_trip_iff [Bitmap] (hw : Wired m)
    (hpr : ∀ vm vm', (m.ctxt vm).nrPr = (m.ctxt vm').nrPr) (v : VcpuId) :
    ∃ m₁, vgicSave m v = .ok m₁ ∧
      ∀ calls, Guarded hookStep (Undisturbed v) m₁ calls →
        ∃ m₂ m₃, run hookStep m₁ calls = .ok m₂ ∧ vgicRestore m₂ v = .ok m₃ ∧
          (interfaceOf m₃.ich = interfaceOf m.ich ↔
            ApHolds (m.ctxt v.vm).nrPr (m.ctxt v.vm).ichAp1rEl2 (interfaceOf m.ich).ap1r ∧
              KeepsHcr (m.slice v)) := by
  obtain ⟨s, hsave, hw₁, hs⟩ := vgicSave_spec hw v
  have hn : s.ctxt.nrPr = (m.ctxt v.vm).nrPr := by
    rw [hs.ctxt_eq]
    rfl
  have hbetween : Between v s.ctxt (interfaceOf m.ich).ap1r (m.putSlice v s) := by
    refine ⟨hw₁, ?_, Function.update_self .., ?_⟩
    · intro vm
      show (Function.update m.ctxt v.vm s.ctxt vm).nrPr = s.ctxt.nrPr
      by_cases hvm : vm = v.vm
      · rw [hvm, Function.update_self]
      · rw [Function.update_of_ne hvm, hn]
        exact hpr vm v.vm
    · show loadAp s.ctxt.nrPr 0 (interfaceOf s.ich).ap1r = _
      rw [hs.interface_eq]
      show loadAp s.ctxt.nrPr 0 (loadAp (m.ctxt v.vm).nrPr _ (interfaceOf m.ich).ap1r) = _
      rw [hn, loadAp_loadAp]
  refine ⟨_, hsave, ?_⟩
  intro calls hcalls
  obtain ⟨m₂, hrun, h₂⟩ := run_inv_of_guarded hookStep_between hbetween hcalls
  obtain ⟨m₃, hrestore, h₃⟩ := h₂.finish
  refine ⟨m₂, m₃, hrun, hrestore, ?_⟩
  have hkeeps : s.ich.hcr = m.ich.hcr ↔ KeepsHcr (m.slice v) := hs.keeps_iff
  rw [h₃, hs.ctxt_eq, ← hkeeps, ← loadAp_eq_self_iff]
  simp only [interfaceIn, interfaceOf, Interface.mk.injEq, Machine.slice, true_and, and_true]

/-- An active interrupt of priority group 0: its bit of `ICH_AP1R0_EL2` is gone when the
vCPU comes back, although nothing ran in between. -/
theorem active_priority_lost :
    ¬∀ (m m₁ m₂ m₃ : Machine) (v : VcpuId) (calls : List HookCall), Wired m →
      (∀ vm vm', (m.ctxt vm).nrPr = (m.ctxt vm').nrPr) → (∀ call ∈ calls, call.vcpu ≠ v) →
      vgicSave m v = .ok m₁ → run hookStep m₁ calls = .ok m₂ → vgicRestore m₂ v = .ok m₃ →
      interfaceOf m₃.ich = interfaceOf m.ich := by
  intro hevery
  have hw : Wired bootMachine := wired_initial initial_bootWorld
  have hm : ∃ m : Machine, m = { bootMachine with ich := { bootMachine.ich with ap1r0 := 1 } } :=
    ⟨_, rfl⟩
  obtain ⟨m, hm⟩ := hm
  have hwired : Wired m := by
    rw [hm]
    exact ⟨hw.bounds, hw.nrLr_le⟩
  have hpr : ∀ vm vm', (m.ctxt vm).nrPr = (m.ctxt vm').nrPr := by
    rw [hm]
    exact fun _ _ => rfl
  obtain ⟨s, hsave, hw₁, hs⟩ := vgicSave_spec hwired ⟨0, 0⟩
  obtain ⟨s₂, hrestore, -, hs₂⟩ := vgicRestore_spec hw₁ ⟨0, 0⟩
  have hsame := hevery m _ _ _ ⟨0, 0⟩ [] hwired hpr (by simp) hsave rfl hrestore
  have hzero : (interfaceOf s₂.ich).ap1r.r0 = 0 := by
    have hslice : ((m.putSlice ⟨0, 0⟩ s).slice ⟨0, 0⟩).ctxt = s.ctxt := by
      simp only [Machine.slice, Machine.putSlice, Function.update_self]
    rw [hs₂.interface_eq, hslice, hs.ctxt_eq, hm]
    rfl
  have hone : (interfaceOf m.ich).ap1r.r0 = 1 := by
    rw [hm]
    rfl
  have hr0 : (interfaceOf s₂.ich).ap1r.r0 = (interfaceOf m.ich).ap1r.r0 :=
    congrArg (fun f => f.ap1r.r0) hsame
  rw [hzero, hone] at hr0
  exact absurd hr0 (by decide)

/-- VM 0's vCPU serves interrupt 40, whose priority group the record of the VM has as active
already; VM 1 has saved other values. -/
def servingMachine : Machine :=
  { bootMachine with
    ich :=
      { bootMachine.ich.setLr 0 (withState (vgicGetLrFromVirq (spi 40)).1 lrActive) with
        ap1r0 := 0x100000, vmcr := 0xF8000002, hcr := ichHcrEn, iccSre := 7, iccCtlr := 0x8402 }
    ctxt := fun vm =>
      if vm = 0 then { (idleSlice 4).ctxt with ichAp1rEl2 := 0x100000 }
      else { (idleSlice 4).ctxt with ichVmcrEl2 := 0xA8000001, iccSreEl1 := 1, iccCtlrEl1 := 2 } }

private theorem wired_servingMachine : Wired servingMachine where
  bounds := (wired_initial initial_bootWorld).bounds
  nrLr_le := by
    intro vm
    simp only [servingMachine]
    split <;> decide

private theorem nrPr_servingMachine [Bitmap] (vm : Nat) : (servingMachine.ctxt vm).nrPr = 5 := by
  simp only [servingMachine]
  split <;> rfl

/-- The vCPU finds the interface again after a vCPU of VM 1 has had it. -/
theorem interface_round_trip_serving :
    ∃ m₁, vgicSave servingMachine ⟨0, 0⟩ = .ok m₁ ∧
      ∃ m₂ m₃, run hookStep m₁ [.restore ⟨1, 0⟩, .save ⟨1, 0⟩] = .ok m₂ ∧
        vgicRestore m₂ ⟨0, 0⟩ = .ok m₃ ∧
        interfaceOf m₃.ich = ⟨⟨0x100000, 0, 0⟩, 0xF8000002, ichHcrEn, 7, 0x8402⟩ := by
  have hpr : ∀ vm vm', (servingMachine.ctxt vm).nrPr = (servingMachine.ctxt vm').nrPr :=
    fun vm vm' => (nrPr_servingMachine vm).trans (nrPr_servingMachine vm').symm
  obtain ⟨m₁, hsave, hround⟩ := interface_round_trip_iff wired_servingMachine hpr ⟨0, 0⟩
  have hguard : Guarded hookStep (Undisturbed ⟨0, 0⟩) m₁ [.restore ⟨1, 0⟩, .save ⟨1, 0⟩] := by
    refine ⟨?_, fun _ _ => ⟨⟨?_, ?_⟩, fun _ _ => trivial⟩⟩
    · show (⟨1, 0⟩ : VcpuId) ≠ ⟨0, 0⟩
      decide
    · decide
    · intro hvm
      cases hvm
  obtain ⟨m₂, m₃, hrun, hrestore, hiff⟩ := hround _ hguard
  have hkept : interfaceOf m₃.ich = interfaceOf servingMachine.ich := by
    have hempty : entries (servingMachine.slice ⟨0, 0⟩).gicr = [] := entries_vgicrInit rfl
    refine hiff.mpr ⟨⟨fun _ => rfl, ?_, ?_⟩, Or.inl ⟨?_, ?_, ?_⟩⟩
    · rw [nrPr_servingMachine]
      decide
    · rw [nrPr_servingMachine]
      decide
    · decide
    · rintro x - ⟨e, he, -⟩
      rw [hempty] at he
      cases he
    · rw [hempty]
      decide
  exact ⟨m₁, hsave, m₂, m₃, hrun, hrestore, hkept.trans rfl⟩

end RtHypervisor.Ports.SwitchContext
