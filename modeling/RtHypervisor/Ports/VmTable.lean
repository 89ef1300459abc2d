import RtHypervisor.Ports.HypervisorSpec

/-!
# The VM table and its bookkeeping

`create_vm` and `delete_vm` keep three records of the same thing: the pointers in
`rt_hyp.vms`, `vm_bitmap` and `total_vm`.  `create_vm` sets the bit before anything
can fail and no failure exit clears it; `delete_vm` never decrements `total_vm`.
So the records agree as long as no creation fails half-way and no VM is deleted
(`table_accounted`), and a single deletion separates them (`deletion_drifts`).
-/

namespace RtHypervisor.Ports.Hypervisor

open RtHypervisor.Verified.Run
open RtHypervisor.Ports.Platform
open RtHypervisor.Ports.Stage2
open RtHypervisor.Ports.Mm
open RtHypervisor.Ports.VmLife

variable {B : Board} {os : Nat → OsDesc} {h h' : Hyp} {r : RtErr}

/-- The number of entries of `rt_hyp.vms` in use. -/
def vmCount (h : Hyp) : Nat := ((List.range maxVmNum).filter fun i => (h.vms i).isSome).length

/-- The records agree, the next index is in range, and every VM points to its image. -/
structure Accounting (B : Board) (h : Hyp) : Prop where
  total_eq : h.totalVm = vmCount h
  bitmap_eq : ∀ i, h.vmBitmap.getLsbD i = (h.vms i).isSome
  next_lt : h.totalVm ≠ maxVmNum → B.findNext h.vmBitmap < maxVmNum
  image_eq : ∀ i vm, h.vms i = some vm → vm.os = some vm.osIdx ∧ vm.osIdx < maxOsNum

/-- What a failed `create_vm` must leave as it was. -/
structure SameBooks (h h' : Hyp) : Prop where
  totalVm_eq : h'.totalVm = h.totalVm
  vmBitmap_eq : h'.vmBitmap = h.vmBitmap
  vms_eq : h'.vms = h.vms
  currVmIdx_eq : h'.currVmIdx = h.currVmIdx

/-- `optparse` accepts the options and every `-i` names an image of the table. -/
def OptsAccepted (opts : List CreateOpt) : Prop :=
  ∀ o ∈ opts, match o with
    | .i n => toUint8 n < maxOsNum
    | .n => True
    | .bad => False

/-- The condition on a command: a creation is turned away before it takes an index or goes
through to the end, and an existing VM is not deleted. -/
def Accountable (B : Board) (h : Hyp) : Cmd → Prop
  | .create el2 opts =>
      (h.hypInitOk = false ∧ el2 = false) ∨ h.totalVm = maxVmNum ∨
      ((∀ n, n < 3 → B.grants (h.env.allocs + n) = true) ∧ OptsAccepted opts)
  | .delete => h.currVmIdx < maxVmNum → h.vms h.currVmIdx = none
  | _ => True

/-! ## The invariant -/

structure TableInv (h : Hyp) : Prop where
  total_eq : h.totalVm = vmCount h
  bitmap_eq : ∀ i, h.vmBitmap.getLsbD i = (h.vms i).isSome
  in_range : ∀ i, maxVmNum ≤ i → h.vms i = none
  image_eq : ∀ i vm, h.vms i = some vm → vm.os = some vm.osIdx ∧ vm.osIdx < maxOsNum

private theorem tableInv_boot (hb : Boot h) : TableInv h where
  total_eq := by simp [vmCount, hb.totalVm_eq, hb.vms_eq]
  bitmap_eq i := by simp [hb.vmBitmap_eq, hb.vms_eq]
  in_range i _ := hb.vms_eq i
  image_eq i vm hvm := by simp [hb.vms_eq] at hvm

/-- A table that is not full has a free entry below `MAX_VM_NUM`. -/
theorem exists_free (hcount : vmCount h ≠ maxVmNum) : ∃ i, i < maxVmNum ∧ h.vms i = none := by
  by_contra hno
  apply hcount
  have hall : ∀ i ∈ List.range maxVmNum, (h.vms i).isSome = true := by
    intro i hi
    by_contra hnone
    exact hno ⟨i, List.mem_range.mp hi, by simpa using hnone⟩
  rw [vmCount, List.filter_eq_self.mpr hall, List.length_range]

/-- The index `bitmap_find_next` hands out is a free one. -/
theorem TableInv.findNext_spec (hi : TableInv h) (hroom : h.totalVm ≠ maxVmNum) :
    B.findNext h.vmBitmap < maxVmNum ∧ h.vms (B.findNext h.vmBitmap) = none := by
  obtain ⟨i, hlt, hfree⟩ := exists_free (by rw [← hi.total_eq]; exact hroom)
  have hclear : h.vmBitmap.getLsbD i = false := by rw [hi.bitmap_eq, hfree]; rfl
  have hne : h.vmBitmap ≠ BitVec.allOnes 32 := by
    intro hones
    have hi32 : i < 32 := Nat.lt_of_lt_of_le hlt (by decide)
    rw [hones, BitVec.getLsbD_allOnes, decide_eq_true hi32] at hclear
    cases hclear
  have hle : B.findNext h.vmBitmap ≤ i := by
    by_contra hgt
    have hset := B.findNext_lowest h.vmBitmap i (by omega)
    rw [hclear] at hset
    cases hset
  have hbit := B.findNext_clear h.vmBitmap hne
  rw [hi.bitmap_eq] at hbit
  exact ⟨by omega, by simpa using hbit⟩

theorem TableInv.accounting (hi : TableInv h) : Accounting B h :=
  ⟨hi.total_eq, hi.bitmap_eq, fun hroom => (hi.findNext_spec hroom).1, hi.image_eq⟩

/-- Filling a free entry adds one to the count. -/
theorem vmCount_update {i : Nat} {vm : Vm} (hlt : i < maxVmNum) (hfree : h.vms i = none)
    (hvms : h'.vms = Function.update h.vms i (some vm)) : vmCount h' = vmCount h + 1 := by
  have hself : h'.vms i = some vm := by rw [hvms, Function.update_self]
  have hrest : ∀ j, j ≠ i → h'.vms j = h.vms j := fun j hj => by
    rw [hvms, Function.update_of_ne hj]
  have hsplit : ∀ l : List Nat, l.Nodup → i ∈ l →
      (l.filter fun j => (h'.vms j).isSome).length =
        (l.filter fun j => (h.vms j).isSome).length + 1 := by
    intro l hnodup hmem
    induction l with
    | nil => cases hmem
    | cons a l ih =>
        obtain ⟨hnotin, hnodup⟩ := List.nodup_cons.mp hnodup
        by_cases ha : a = i
        · have htail : (l.filter fun j => (h'.vms j).isSome) =
              l.filter fun j => (h.vms j).isSome := by
            apply List.filter_congr
            intro j hj
            have hji : j ≠ i := fun heq => hnotin (by rw [ha, ← heq]; exact hj)
            rw [hrest j hji]
          rw [List.filter_cons, List.filter_cons, htail, ha, hself, hfree]
          simp
        · have hmem' : i ∈ l := (List.mem_cons.mp hmem).resolve_left (fun heq => ha heq.symm)
          rw [List.filter_cons, List.filter_cons, hrest a ha]
          split
          · rw [List.length_cons, List.length_cons, ih hnodup hmem']
          · exact ih hnodup hmem'
  exact hsplit _ List.nodup_range (List.mem_range.mpr hlt)

/-! ## The steps -/

private theorem createOpts_accepted {opts : List CreateOpt} (hopts : OptsAccepted opts) (vm : Vm) :
    (createOpts opts vm).1 = .eok := by
  induction opts generalizing vm with
  | nil => rfl
  | cons o opts ih =>
      have hrest : OptsAccepted opts := fun o ho => hopts o (List.mem_cons_of_mem _ ho)
      have hhead := hopts o List.mem_cons_self
      cases o with
      | bad => exact absurd hhead id
      | n => exact ih hrest vm
      | i n =>
          have hlt : ¬toUint8 n ≥ maxOsNum := by
            simp only at hhead
            omega
          simp only [createOpts, if_neg hlt]
          exact ih hrest _

/-- A creation that meets the condition either changes none of the records or fills the
entry `bitmap_find_next` returned. -/
theorem createVm_accountable {el2 : Bool} {opts : List CreateOpt}
    (hg : Accountable B h (.create el2 opts)) (hok : createVm B os h el2 opts = .ok (r, h')) :
    (r ≠ .eok ∧ SameBooks h h') ∨
    ∃ k, r = .eok ∧ h.totalVm ≠ maxVmNum ∧ k < maxOsNum ∧
      h'.totalVm = h.totalVm + 1 ∧
      h'.vmBitmap = h.vmBitmap ||| BitVec.twoPow 32 (B.findNext h.vmBitmap) ∧
      h'.vms = Function.update h.vms (B.findNext h.vmBitmap)
        (some (newVm os k (B.findNext h.vmBitmap))) := by
  obtain ⟨s2, -, ⟨hr, ok, bitmap, allocs, -, rfl, hbit⟩ | ⟨k, hr, hk, hroom, -, rfl⟩⟩ :=
    createVm_outcome hok
  · refine Or.inl ⟨hr, rfl, ?_, rfl, rfl⟩
    rcases hbit with heq | ⟨-, hinit, hroom, hwhy⟩
    · exact heq
    · -- the creation would have had to fail
      obtain ⟨hgrants, hopts⟩ := (hg.resolve_left hinit).resolve_left hroom
      rcases hwhy with ⟨n, hn, hfail⟩ | hfail
      · rw [hgrants n hn] at hfail
        cases hfail
      · exact absurd (createOpts_accepted hopts zeroVm) hfail
  · exact Or.inr ⟨k, hr, hroom, hk, rfl, rfl, rfl⟩

theorem TableInv.of_sameBooks (hi : TableInv h) (hs : SameBooks h h') : TableInv h' where
  total_eq := by
    rw [hs.totalVm_eq, hi.total_eq, vmCount, vmCount, hs.vms_eq]
  bitmap_eq i := by rw [hs.vmBitmap_eq, hs.vms_eq, hi.bitmap_eq]
  in_range i hle := by rw [hs.vms_eq]; exact hi.in_range i hle
  image_eq i vm hvm := hi.image_eq i vm (by rwa [hs.vms_eq] at hvm)

theorem TableInv.of_sameVms (hi : TableInv h) (hs : SameVms h h') : TableInv h' where
  total_eq := by
    rw [hs.totalVm_eq, hi.total_eq, vmCount, vmCount]
    congr 1
    apply List.filter_congr
    intro i _
    rw [hs.isSome_eq]
  bitmap_eq i := by rw [hs.vmBitmap_eq, hs.isSome_eq, hi.bitmap_eq]
  in_range i hle := by
    have hsome := hs.isSome_eq i
    rw [hi.in_range i hle] at hsome
    simpa using hsome
  image_eq i vm hvm := by
    obtain ⟨vm0, hvm0, hident⟩ := hs.exists_before hvm
    simp only [Vm.ident, Prod.mk.injEq] at hident
    rw [hident.2.1, hident.2.2.1]
    exact hi.image_eq i vm0 hvm0

theorem TableInv.create (hi : TableInv h) {el2 : Bool} {opts : List CreateOpt}
    (hg : Accountable B h (.create el2 opts)) (hok : createVm B os h el2 opts = .ok (r, h')) :
    TableInv h' := by
  rcases createVm_accountable hg hok with ⟨-, hs⟩ | ⟨k, -, hroom, hk, htotal, hbitmap, hvms⟩
  · exact hi.of_sameBooks hs
  · obtain ⟨hlt, hfree⟩ := hi.findNext_spec (B := B) hroom
    refine ⟨?_, fun i => ?_, fun i hle => ?_, fun i vm hvm => ?_⟩
    · rw [htotal, vmCount_update hlt hfree hvms, hi.total_eq]
    · rw [hbitmap, hvms, BitVec.getLsbD_or, BitVec.getLsbD_twoPow, hi.bitmap_eq]
      by_cases heq : i = B.findNext h.vmBitmap
      · have h32 : B.findNext h.vmBitmap < 32 := B.findNext_lt _
        simp [heq, h32]
      · simp [Function.update_of_ne heq, Ne.symm heq]
    · rw [hvms, Function.update_of_ne (by omega)]
      exact hi.in_range i hle
    · rw [hvms] at hvm
      by_cases heq : i = B.findNext h.vmBitmap
      · rw [heq, Function.update_self] at hvm
        cases hvm
        exact ⟨rfl, hk⟩
      · rw [Function.update_of_ne heq] at hvm
        exact hi.image_eq i vm hvm

theorem TableInv.step (hi : TableInv h) {c : Cmd} (hg : Accountable B h c)
    (hok : step B os h c = .ok h') : TableInv h' := by
  obtain ⟨r, hexec⟩ := step_cases hok
  by_cases hcreate : ∃ el2 opts, c = .create el2 opts
  · obtain ⟨el2, opts, rfl⟩ := hcreate
    exact hi.create hg hexec
  · by_cases hdelete : c = .delete
    · subst hdelete
      rcases deleteVm_cases hexec with ⟨-, rfl, -⟩ | ⟨vm, vm', e1, e2, hlt, hvm, -⟩
      · exact hi
      · rw [hg hlt] at hvm
        cases hvm
    · exact hi.of_sameVms (exec_same (fun el2 opts heq => hcreate ⟨el2, opts, heq⟩) hdelete hexec)

/-- In a run whose creations are turned away at once or go through, and which deletes no VM,
the three records always agree, and a `create_vm` that returns an error changes none of
them. -/
theorem table_accounted {t : Hyp} {es : List Cmd} (hb : Boot h)
    (hg : Guarded (step B os) (Accountable B) h es) (hrun : run (step B os) h es = .ok t) :
    Accounting B t ∧
    ∀ el2 opts r t', Accountable B t (.create el2 opts) →
      exec B os t (.create el2 opts) = .ok (r, t') → r ≠ .eok → SameBooks t t' := by
  have hinv : TableInv t :=
    run_inv_of_returns (fun _ _ _ hi hc hok => hi.step hc hok) (tableInv_boot hb) hg hrun
  refine ⟨hinv.accounting, fun el2 opts r t' hc hexec hr => ?_⟩
  rcases createVm_accountable hc hexec with ⟨-, hs⟩ | ⟨k, hr', -⟩
  · exact hs
  · exact absurd hr' hr

/-! ## Drift -/

/-- The hypervisor after `rt_hyp_init`, with empty memory. -/
def boot : Hyp where
  hypInitOk := false
  totalVm := 0
  vmBitmap := 0
  vms _ := none
  currVmIdx := maxVmNum
  currVcIdx := maxVmNum
  hostConsole := true
  env := ⟨⟨fun _ => 0, fun _ => 0⟩, 0, []⟩

theorem boot_boot : Boot boot := ⟨rfl, rfl, rfl, fun _ => rfl, rfl, rfl, rfl, rfl⟩

/-- Two VMs are created, the first one runs. -/
theorem table_accounted_two :
    Guarded (step roomy osImg) (Accountable roomy) boot
      [.create true [.i 0, .n], .run, .create true [.i 2]] ∧
    ∃ t, run (step roomy osImg) boot [.create true [.i 0, .n], .run, .create true [.i 2]] =
      .ok t ∧ Accounting roomy t := by
  have haccept : ∀ n : Int, toUint8 n < maxOsNum → ∀ h : Hyp,
      Accountable roomy h (.create true [.i n]) := by
    intro n hn h
    exact Or.inr (Or.inr ⟨fun _ _ => rfl, by simpa [OptsAccepted] using hn⟩)
  have hg : Guarded (step roomy osImg) (Accountable roomy) boot
      [.create true [.i 0, .n], .run, .create true [.i 2]] :=
    ⟨Or.inr (Or.inr ⟨fun _ _ => rfl, by simp [OptsAccepted]; decide⟩), fun _ _ =>
      ⟨trivial, fun _ _ => ⟨haccept 2 (by decide) _, fun _ _ => trivial⟩⟩⟩
  have hrun : (run (step roomy osImg) boot
      [.create true [.i 0, .n], .run, .create true [.i 2]]).map (fun t => t.totalVm) = .ok 2 := by
    decide
  obtain ⟨t, hok, -⟩ := exists_of_map_eq_ok hrun
  exact ⟨hg, t, hok, (table_accounted boot_boot hg hok).1⟩

/-- A VM without vCPUs is created and deleted: the table is empty and `total_vm` is one. -/
theorem deletion_drifts :
    ¬∀ (h : Hyp) (es : List Cmd) (t : Hyp), Boot h →
      (∀ c ∈ es, (∃ el2 opts, c = .create el2 opts) ∨ c = .delete) →
      run (step roomy osImg) h es = .ok t → Accounting roomy t := by
  intro hclaim
  have hrun : (run (step roomy osImg) boot [.create true [.i 2], .delete]).map
      (fun t => (t.totalVm, vmCount t)) = .ok (1, 0) := by
    decide
  obtain ⟨t, hok, hval⟩ := exists_of_map_eq_ok hrun
  have htotal := (hclaim _ _ t boot_boot (by simp) hok).total_eq
  obtain ⟨hone, hzero⟩ := Prod.mk.inj hval
  rw [hone, hzero] at htotal
  cases htotal

end RtHypervisor.Ports.Hypervisor
