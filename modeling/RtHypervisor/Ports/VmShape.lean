import RtHypervisor.Ports.HypervisorSpec

/-!
# The vCPU array of a VM

`vm->vcpus` always has `nr_vcpus` cells, and once a VM has been run each of them
points to a vCPU: only a failed `vcpus_create` leaves other cells behind, and then
the VM has not been run.  A VM without vCPUs never gets a distributor, since the
allocation of its empty array fails.  These facts hold in every state any sequence
of commands reaches.
-/

namespace RtHypervisor.Ports.Hypervisor

open RtHypervisor.Verified.Run
open RtHypervisor.Ports.ListRegister (Virq)
open RtHypervisor.Ports.Platform
open RtHypervisor.Ports.Stage2
open RtHypervisor.Ports.Mm
open RtHypervisor.Ports.VmLife

variable {B : Board} {os : Nat → OsDesc} {e e' : Env} {vm vm' : Vm} {r : RtErr} {h h' : Hyp}

/-- Every cell points to a vCPU. -/
def AllVcpus (cells : List Cell) : Prop := ∀ c ∈ cells, ∃ v, c = .vcpu v

structure Shape (vm : Vm) : Prop where
  length_eq : ∀ cells, vm.vcpus = some cells → cells.length = vm.nrVcpus
  ran : vm.status ≠ .neverRun → vm.nrVcpus ≠ 0 → ∃ cells, vm.vcpus = some cells ∧ AllVcpus cells
  empty : vm.nrVcpus = 0 → vm.gicd = none

/-- Once it has been run, a VM has a main vCPU. -/
theorem Shape.main (hs : Shape vm) (hran : vm.status ≠ .neverRun) (hn : vm.nrVcpus ≠ 0) :
    ∃ v cells, vm.vcpus = some (.vcpu v :: cells) := by
  obtain ⟨cells, hcells, hall⟩ := hs.ran hran hn
  have hlen := hs.length_eq cells hcells
  cases cells with
  | nil => exact absurd hlen.symm hn
  | cons c cs =>
      obtain ⟨v, rfl⟩ := hall c List.mem_cons_self
      exact ⟨v, cs, hcells⟩

theorem AllVcpus.set {cells : List Cell} (hall : AllVcpus cells) (j : Nat) (v : Vcpu) :
    AllVcpus (cells.set j (.vcpu v)) := by
  intro c hc
  rcases List.mem_or_eq_of_mem_set hc with hold | rfl
  · exact hall c hold
  · exact ⟨v, rfl⟩

/-- Replacing a cell by a vCPU keeps the shape. -/
theorem Shape.set (hs : Shape vm) {cells : List Cell} (hcells : vm.vcpus = some cells) (j : Nat)
    (v : Vcpu) : Shape { vm with vcpus := some (cells.set j (.vcpu v)) } where
  length_eq cells' hcells' := by
    cases hcells'
    rw [List.length_set]
    exact hs.length_eq cells hcells
  ran hran hn := by
    obtain ⟨cells0, hcells0, hall⟩ := hs.ran hran hn
    rw [hcells] at hcells0
    cases hcells0
    exact ⟨_, rfl, hall.set j v⟩
  empty := hs.empty

/-! ## `vm_init` -/

private theorem freeCells_length {cells cells' : List Cell} {freed : List Nat}
    (hok : freeCells cells e = .ok (cells', freed, e')) : cells'.length = cells.length := by
  induction cells generalizing cells' freed e e' with
  | nil =>
      simp only [freeCells, pure_eq_ok, Prod.mk.injEq] at hok
      rw [← hok.1]
  | cons c cs ih =>
      cases c with
      | wild => cases hok
      | null =>
          simp only [freeCells, bind_eq_ok, pure_eq_ok, Prod.exists, Prod.mk.injEq] at hok
          obtain ⟨cs', freed', e1, hrest, rfl, -, -⟩ := hok
          rw [List.length_cons, List.length_cons, ih hrest]
      | vcpu v =>
          simp only [freeCells, bind_eq_ok, pure_eq_ok, Prod.exists, Prod.mk.injEq] at hok
          obtain ⟨e1, -, cs', freed', e2, hrest, rfl, -, -⟩ := hok
          rw [List.length_cons, List.length_cons, ih hrest]

/-- The loop of `vcpus_create` keeps the length, and fills the cells it has gone through. -/
theorem createCells_cells {osIdx : Nat} {is : List Nat} {cells cells' : List Cell}
    {created : List Nat} (hok : createCells B osIdx is cells created e = .ok (r, cells', e')) :
    cells'.length = cells.length ∧
    (r = .eok → ∀ i, (∃ v, cells[i]? = some (.vcpu v)) ∨ (i ∈ is ∧ i < cells.length) →
      ∃ v, cells'[i]? = some (.vcpu v)) := by
  induction is generalizing cells created e with
  | nil =>
      simp only [createCells, pure_eq_ok, Prod.mk.injEq] at hok
      obtain ⟨-, rfl, -⟩ := hok
      refine ⟨rfl, fun _ i hi => ?_⟩
      rcases hi with hv | ⟨hmem, -⟩
      · exact hv
      · cases hmem
  | cons k is ih =>
      unfold createCells at hok
      obtain ⟨⟨o, e1⟩, -, hok⟩ := bind_eq_ok.mp hok
      cases o with
      | some v =>
          obtain ⟨hlen, hfill⟩ := ih hok
          rw [List.length_set] at hlen hfill
          refine ⟨hlen, fun hr i hi => hfill hr i ?_⟩
          by_cases hk : k = i ∧ i < cells.length
          · obtain ⟨rfl, hlt⟩ := hk
            exact Or.inl ⟨v, by rw [List.getElem?_set_self hlt]⟩
          · rcases hi with ⟨w, hw⟩ | ⟨hmem, hlt⟩
            · have hlt : i < cells.length := (List.getElem?_eq_some_iff.mp hw).1
              have hne : k ≠ i := fun heq => hk ⟨heq, hlt⟩
              exact Or.inl ⟨w, by rw [List.getElem?_set_ne hne, hw]⟩
            · have hne : k ≠ i := fun heq => hk ⟨heq, hlt⟩
              exact Or.inr ⟨(List.mem_cons.mp hmem).resolve_left hne.symm, hlt⟩
      | none =>
          simp only [bind_eq_ok, pure_eq_ok, Prod.exists, Prod.mk.injEq] at hok
          obtain ⟨cells1, freed, e2, hfree, rfl, rfl, -⟩ := hok
          exact ⟨freeCells_length hfree, fun hr => by cases hr⟩

private theorem vcpusCreate_cells (hok : vcpusCreate B e vm = .ok (r, vm', e')) {cells : List Cell}
    (hcells : vm.vcpus = some cells) (hlen : cells.length = vm.nrVcpus) :
    ∃ cells', vm' = { vm with vcpus := some cells' } ∧ cells'.length = vm.nrVcpus ∧
      (r = .eok → AllVcpus cells') := by
  unfold vcpusCreate at hok
  simp only [bind_eq_ok, deref_eq_ok, pure_eq_ok, Prod.exists, Prod.mk.injEq] at hok
  obtain ⟨cells0, hcells0, r1, cells1, e1, hcreate, rfl, rfl, -⟩ := hok
  rw [hcells] at hcells0
  cases hcells0
  obtain ⟨hlen1, hfill⟩ := createCells_cells hcreate
  refine ⟨cells1, rfl, hlen1.trans hlen, fun hr c hc => ?_⟩
  obtain ⟨i, hi, rfl⟩ := List.mem_iff_getElem.mp hc
  rw [hlen1] at hi
  obtain ⟨v, hv⟩ := hfill hr i (Or.inr ⟨List.mem_range.mpr (by omega), hi⟩)
  obtain ⟨hlt, heq⟩ := List.getElem?_eq_some_iff.mp hv
  exact ⟨v, heq⟩

private theorem vgicInit_cases (hok : vgicInit B os e vm = .ok (vm', e')) :
    vm' = vm ∨ ∃ k old virqs, vm.os = some k ∧ vgicdInit old (os k).virqNum = .ok virqs ∧
      vm' = { vm with gicd := some virqs } := by
  unfold vgicInit at hok
  split at hok
  · simp only [pure_eq_ok, Prod.mk.injEq] at hok
    exact Or.inl hok.1.symm
  · simp only [bind_eq_ok, deref_eq_ok, pure_eq_ok, Prod.mk.injEq] at hok
    obtain ⟨k, hk, virqs, hvirqs, cells, -, e1, -, rfl, -⟩ := hok
    exact Or.inr ⟨k, _, virqs, hk, hvirqs, rfl⟩

private theorem vcCreate_cases (hok : vcCreate B os e vm = .ok (vm', e')) :
    vm' = vm ∨ vm' = { vm with devList := ⟨false⟩ :: vm.devList } := by
  unfold vcCreate at hok
  split at hok
  · simp only [pure_eq_ok, Prod.mk.injEq] at hok
    exact Or.inl hok.1.symm
  · simp only [bind_eq_ok, pure_eq_ok, Prod.mk.injEq] at hok
    obtain ⟨-, -, rfl, -⟩ := hok
    exact Or.inr rfl

/-- What `vm_init` leaves in a VM: some cells, perhaps a distributor as `vgicd_init` sets it
up, perhaps a closed console.  If it succeeds every cell points to a vCPU. -/
theorem vmInit_leaves (hok : vmInit B os e vm = .ok (r, vm', e')) :
    ∃ vcpus mm gicd devs,
      vm' = { vm with vcpus := vcpus, mm := mm, gicd := gicd, devList := devs } ∧
      (∀ cells, vcpus = some cells → cells.length = vm.nrVcpus) ∧
      (r = .eok → ∃ cells, vcpus = some cells ∧ AllVcpus cells) ∧
      (gicd = vm.gicd ∨ ∃ k old virqs, vm.nrVcpus ≠ 0 ∧ vm.os = some k ∧
        vgicdInit old (os k).virqNum = .ok virqs ∧ gicd = some virqs) ∧
      (devs = vm.devList ∨ devs = ⟨false⟩ :: vm.devList) := by
  have hstale : ∀ n, (staleCells B n vm.nrVcpus).length = vm.nrVcpus := by
    intro n
    rw [staleCells, List.length_map, List.length_range]
  obtain ⟨e1, alloc, -, -, -, hempty, ⟨rfl, rfl, -⟩ | ⟨n, rfl, hmem⟩⟩ := vmInit_cases hok
  · refine ⟨_, vm.mm, vm.gicd, vm.devList, rfl, ?_, by simp, Or.inl rfl, Or.inl rfl⟩
    intro cells hcells
    obtain ⟨n, -, rfl⟩ := Option.map_eq_some_iff.mp hcells
    exact hstale n
  have hn : vm.nrVcpus ≠ 0 := fun hzero => by cases hempty hzero
  obtain ⟨i, r1, mm1, e2, hi, -, hmem⟩ := vmInitMemory_cases hmem
  rcases hmem with ⟨hr, rfl, rfl, -⟩ | ⟨r2, mm2, e3, -, -, hmem⟩
  · exact ⟨_, mm1, vm.gicd, vm.devList, rfl, by rintro cells ⟨⟩; exact hstale n,
      fun heq => absurd heq hr, Or.inl rfl, Or.inl rfl⟩
  rcases hmem with ⟨hr, rfl, rfl, -⟩ | ⟨-, hdev⟩
  · exact ⟨_, mm2, vm.gicd, vm.devList, rfl, by rintro cells ⟨⟩; exact hstale n,
      fun heq => absurd heq hr, Or.inl rfl, Or.inl rfl⟩
  rcases vmInitDevices_cases hdev with
    ⟨hr, hvcpus⟩ | ⟨vm1, e4, vm2, e5, e6, k, hvcpus, hvgic, hvc, -, -⟩
  · obtain ⟨cells, rfl, hlen, -⟩ := vcpusCreate_cells hvcpus rfl (hstale n)
    exact ⟨some cells, mm2, vm.gicd, vm.devList, rfl, by rintro cells' ⟨⟩; exact hlen,
      fun heq => absurd heq hr, Or.inl rfl, Or.inl rfl⟩
  · obtain ⟨cells, rfl, hlen, hall⟩ := vcpusCreate_cells hvcpus rfl (hstale n)
    have hlen' : ∀ cells', some cells = some cells' → cells'.length = vm.nrVcpus := by
      rintro cells' ⟨⟩
      exact hlen
    rcases vgicInit_cases hvgic with rfl | ⟨k', old, virqs, hk', hinit, rfl⟩
    · rcases vcCreate_cases hvc with rfl | rfl
      · exact ⟨some cells, mm2, vm.gicd, vm.devList, rfl, hlen', fun _ => ⟨cells, rfl, hall rfl⟩,
          Or.inl rfl, Or.inl rfl⟩
      · exact ⟨some cells, mm2, vm.gicd, _, rfl, hlen', fun _ => ⟨cells, rfl, hall rfl⟩,
          Or.inl rfl, Or.inr rfl⟩
    · have hgicd : some virqs = vm.gicd ∨ ∃ k old virqs', vm.nrVcpus ≠ 0 ∧ vm.os = some k ∧
          vgicdInit old (os k).virqNum = .ok virqs' ∧ some virqs = some virqs' :=
        Or.inr ⟨k', old, virqs, hn, hk', hinit, rfl⟩
      rcases vcCreate_cases hvc with rfl | rfl
      · exact ⟨some cells, mm2, some virqs, vm.devList, rfl, hlen',
          fun _ => ⟨cells, rfl, hall rfl⟩, hgicd, Or.inl rfl⟩
      · exact ⟨some cells, mm2, some virqs, _, rfl, hlen', fun _ => ⟨cells, rfl, hall rfl⟩,
          hgicd, Or.inr rfl⟩

/-! ## The operations on a VM -/

theorem Shape.vmInit (hs : Shape vm) (hok : vmInit B os e vm = .ok (r, vm', e')) {st : VmStatus}
    (hst : st ≠ .neverRun → r = .eok) : Shape { vm' with status := st } := by
  obtain ⟨vcpus, mm, gicd, devs, rfl, hlen, hall, hgicd, -⟩ := vmInit_leaves hok
  refine ⟨hlen, fun hran _ => hall (hst hran), fun hn => ?_⟩
  rcases hgicd with rfl | ⟨k, old, virqs, hne, -⟩
  · exact hs.empty hn
  · exact absurd hn hne

theorem Shape.vmGo (hs : Shape vm) (hok : vmGo e vm = .ok (vm', e')) : Shape vm' := by
  unfold VmLife.vmGo at hok
  obtain ⟨c, hc, hok⟩ := bind_eq_ok.mp hok
  split at hok
  · simp only [pure_eq_ok, Prod.mk.injEq] at hok
    rw [← hok.1]
    exact hs
  · simp only [bind_eq_ok, pure_eq_ok, Prod.exists, Prod.mk.injEq] at hok
    obtain ⟨v, -, v', e1, -, rfl, -⟩ := hok
    cases hcells : vm.vcpus with
    | none =>
        rw [hcells] at hc
        cases hc
    | some cells =>
        have hset := hs.set hcells 0 v'
        simpa only [hcells, Option.map_some] using hset

theorem Shape.vmSuspend (hs : Shape vm) (hok : vmSuspend e vm = .ok (vm', e')) : Shape vm' := by
  unfold VmLife.vmSuspend at hok
  split at hok
  · rename_i hn
    simp only [pure_eq_ok, Prod.mk.injEq] at hok
    rw [← hok.1]
    exact ⟨hs.length_eq, fun _ hne => absurd hn hne, hs.empty⟩
  · -- the first vCPU thread is not the calling thread
    rename_i hn
    obtain ⟨n, hn⟩ := Nat.exists_eq_succ_of_ne_zero hn
    simp only [bind_eq_ok, deref_eq_ok, Prod.exists] at hok
    obtain ⟨cells, -, r1, cells1, e1, hloop, -⟩ := hok
    rw [hn, List.range_succ_eq_map] at hloop
    simp only [suspendCells, rtThreadSuspend, bind_eq_ok, check_eq_ok] at hloop
    obtain ⟨c, -, v, -, p, ⟨-, -, -, hself, -⟩, -⟩ := hloop
    cases hself

private theorem deleteCells_cells {cells cells' : List Cell}
    (hok : deleteCells cells e = .ok (cells', e')) :
    cells'.length = cells.length ∧ AllVcpus cells' := by
  induction cells generalizing cells' e e' with
  | nil =>
      simp only [deleteCells, pure_eq_ok, Prod.mk.injEq] at hok
      obtain ⟨rfl, -⟩ := hok
      exact ⟨rfl, fun c hc => by cases hc⟩
  | cons c cs ih =>
      simp only [deleteCells, bind_eq_ok, pure_eq_ok, Prod.exists, Prod.mk.injEq] at hok
      obtain ⟨v, -, t, e1, -, cs', e2, hrest, rfl, -⟩ := hok
      obtain ⟨hlen, hall⟩ := ih hrest
      refine ⟨by rw [List.length_cons, List.length_cons, hlen], fun c hc => ?_⟩
      rcases List.mem_cons.mp hc with rfl | hmem
      · exact ⟨_, rfl⟩
      · exact hall c hmem

theorem Shape.vmShutdown (hs : Shape vm) (hok : vmShutdown e vm = .ok (vm', e')) : Shape vm' := by
  unfold VmLife.vmShutdown at hok
  split at hok
  · rename_i hn
    simp only [pure_eq_ok, Prod.mk.injEq] at hok
    rw [← hok.1]
    exact ⟨hs.length_eq, fun _ hne => absurd hn hne, hs.empty⟩
  · simp only [bind_eq_ok, deref_eq_ok, pure_eq_ok, Prod.exists, Prod.mk.injEq] at hok
    obtain ⟨cells, hcells, cells1, e1, hloop, rfl, -⟩ := hok
    obtain ⟨hlen, hall⟩ := deleteCells_cells hloop
    refine ⟨?_, fun _ _ => ⟨cells1, rfl, hall⟩, hs.empty⟩
    rintro cells' ⟨⟩
    rw [hlen]
    exact hs.length_eq cells hcells

theorem Shape.runVmOn (hs : Shape vm) {p : Vm × Env} (hok : runVmOn B os e vm = .ok (r, p)) :
    Shape p.1 := by
  unfold Hypervisor.runVmOn at hok
  have hgo : ∀ {e0 : Env}, vm.status ≠ .neverRun →
      (VmLife.vmGo e0 { vm with status := .online } >>= fun q => pure (RtErr.eok, q)) =
        .ok (r, p) → Shape p.1 := by
    intro e0 hran hok
    simp only [bind_eq_ok, pure_eq_ok, Prod.mk.injEq] at hok
    obtain ⟨⟨vm1, e1⟩, hgo, -, rfl⟩ := hok
    have honline : Shape { vm with status := .online } :=
      ⟨hs.length_eq, fun _ hn => hs.ran hran hn, hs.empty⟩
    exact honline.vmGo hgo
  split at hok
  · rename_i hst
    exact hgo (by rw [hst]; decide) hok
  · rename_i hst
    exact hgo (by rw [hst]; decide) hok
  · simp only [pure_eq_ok, Prod.mk.injEq] at hok
    rw [← hok.2]
    exact hs
  · rename_i hst
    obtain ⟨⟨r1, vm1, e1⟩, hinit, hok⟩ := bind_eq_ok.mp hok
    split at hok
    · rename_i heq
      cases heq
      simp only [bind_eq_ok, pure_eq_ok, Prod.mk.injEq] at hok
      obtain ⟨⟨vm2, e2⟩, hgo1, -, rfl⟩ := hok
      have honline : Shape { vm1 with status := .online } := hs.vmInit hinit (fun _ => rfl)
      exact honline.vmGo hgo1
    · simp only [pure_eq_ok, Prod.mk.injEq] at hok
      rw [← hok.2]
      have hnever : Shape { vm1 with status := .neverRun } :=
        hs.vmInit hinit (fun hne => absurd rfl hne)
      obtain ⟨vcpus, mm, gicd, devs, rfl, -⟩ := vmInit_leaves hinit
      rw [← hst] at hnever
      exact hnever
  · simp only [pure_eq_ok, Prod.mk.injEq] at hok
    rw [← hok.2]
    exact hs

theorem Shape.setUartHw (hs : Shape vm) {hw : Bool} {pINTID : BitVec 16}
    (hok : setUartHw vm hw pINTID = .ok vm') : Shape vm' := by
  unfold Hypervisor.setUartHw at hok
  split at hok
  · rw [← pure_eq_ok.mp hok]
    exact hs
  · rename_i hn
    simp only [bind_eq_ok] at hok
    obtain ⟨cells, -, b, -, hok⟩ := hok
    split at hok
    · cases pure_eq_ok.mp hok
      exact ⟨hs.length_eq, hs.ran, fun hzero => absurd hzero hn⟩
    · rw [← pure_eq_ok.mp hok]
      exact hs

theorem Shape.setOpen (hs : Shape vm) (b : Bool) : Shape (setOpen b vm) :=
  ⟨hs.length_eq, hs.ran, hs.empty⟩

theorem Shape.reap (hs : Shape vm) :
    Shape { vm with vcpus := vm.vcpus.map fun cells => cells.map Cell.reap } where
  length_eq cells hcells := by
    obtain ⟨cells0, hcells0, rfl⟩ := Option.map_eq_some_iff.mp hcells
    rw [List.length_map]
    exact hs.length_eq cells0 hcells0
  ran hran hn := by
    obtain ⟨cells, hcells, hall⟩ := hs.ran hran hn
    refine ⟨cells.map Cell.reap, by simp only [hcells, Option.map_some], fun c hc => ?_⟩
    obtain ⟨c0, hc0, rfl⟩ := List.mem_map.mp hc
    obtain ⟨v, rfl⟩ := hall c0 hc0
    exact ⟨_, rfl⟩
  empty := hs.empty

private theorem shape_newVm (k i : Nat) : Shape (newVm os k i) where
  length_eq cells hcells := by cases hcells
  ran hran := absurd rfl hran
  empty _ := rfl

/-! ## Every state that is reached -/

/-- Every VM has the shape. -/
def Shapes (h : Hyp) : Prop := ∀ i vm, h.vms i = some vm → Shape vm

theorem Shapes.update (hs : Shapes h) {i : Nat} {o : Option Vm} (ho : ∀ vm, o = some vm → Shape vm)
    (hvms : h'.vms = Function.update h.vms i o) : Shapes h' := by
  intro j vmj hj
  rw [hvms, Function.update_apply] at hj
  split at hj
  · exact ho vmj hj
  · exact hs j vmj hj

theorem Shapes.put (hs : Shapes h) {i : Nat} {p : Vm × Env} (hp : Shape p.1) :
    Shapes (h.put i p) := by
  refine hs.update (i := i) (o := some p.1) ?_ rfl
  rintro vm ⟨⟩
  exact hp

theorem Shapes.create (hs : Shapes h) {el2 : Bool} {opts : List CreateOpt}
    (hok : createVm B os h el2 opts = .ok (r, h')) : Shapes h' := by
  obtain ⟨s2, -, ⟨-, ok, bitmap, allocs, -, rfl, -⟩ | ⟨k, -, -, -, -, rfl⟩⟩ := createVm_outcome hok
  · exact hs
  · refine hs.update (o := some (newVm os k (B.findNext h.vmBitmap))) ?_ rfl
    rintro vm ⟨⟩
    exact shape_newVm k _

theorem Shapes.vcDetach (hs : Shapes h) {i : Nat} (hok : vcDetach h i = .ok h') : Shapes h' := by
  obtain ⟨vm, vm', hvm, humount, rfl⟩ := vcDetach_cases hok
  refine hs.update (o := some vm') ?_ rfl
  rintro vm1 ⟨⟩
  exact ((hs i vm hvm).setOpen false).setUartHw humount

theorem Shapes.vcAttach (hs : Shapes h) {i : Nat} (hok : vcAttach h i = .ok h') : Shapes h' := by
  obtain ⟨h1, hopen, hfirst⟩ := vcAttach_cases hok
  have hs1 : Shapes h1 := by
    rcases hfirst with ⟨-, rfl⟩ | ⟨j, -, hdetach⟩
    · exact hs
    · exact hs.vcDetach hdetach
  obtain ⟨vm, hvm, ⟨-, rfl⟩ | ⟨vm', -, hmount, rfl⟩⟩ := openConsole_cases hopen
  · exact hs1
  · refine hs1.update (o := some vm') ?_ rfl
    rintro vm1 ⟨⟩
    exact ((hs1 i vm hvm).setOpen true).setUartHw hmount

theorem Shapes.onVcpu (hs : Shapes h) {i j : Nat} {may : Vcpu → Bool}
    {f : Env → Vcpu → Except Fault (Vcpu × Env)} (hok : onVcpu h i j may f = .ok h') :
    Shapes h' := by
  rcases onVcpu_cases hok with rfl | ⟨vm, cells, v, v', e', hvm, hcells, -, -, -, rfl⟩
  · exact hs
  · exact hs.put ((hs i vm hvm).set hcells j v')

theorem Shapes.exec (hs : Shapes h) {c : Cmd} (hok : exec B os h c = .ok (r, h')) : Shapes h' := by
  cases c with
  | create el2 opts => exact hs.create hok
  | pick opts =>
      obtain ⟨n, rfl⟩ := pickVm_same hok
      exact hs
  | run =>
      rcases onCurrVm_cases hok with ⟨-, rfl, -⟩ | ⟨vm, -, hvm, hf⟩
      · exact hs
      · simp only [bind_eq_ok, pure_eq_ok, Prod.exists, Prod.mk.injEq] at hf
        obtain ⟨r1, vm1, e1, hrun, -, rfl⟩ := hf
        exact hs.put ((hs _ vm hvm).runVmOn hrun)
  | pause =>
      rcases onCurrVm_cases hok with ⟨-, rfl, -⟩ | ⟨vm, -, hvm, hf⟩
      · exact hs
      · simp only [bind_eq_ok, pure_eq_ok, Prod.exists, Prod.mk.injEq] at hf
        obtain ⟨vm1, e1, hsuspend, -, rfl⟩ := hf
        exact hs.put ((hs _ vm hvm).vmSuspend hsuspend)
  | halt =>
      rcases haltVm_cases hok with rfl | ⟨vm, vm1, e1, hvm, hshut, rfl⟩
      · exact hs
      · exact hs.put ((hs _ vm hvm).vmShutdown hshut)
  | delete =>
      rcases deleteVm_cases hok with ⟨-, rfl, -⟩ | ⟨vm, vm1, e1, e2, -, -, -, -, -, rfl⟩
      · exact hs
      · exact hs.update (o := none) (by simp) rfl
  | attach opts =>
      refine attachVm_induct ?_ hs hok
      rintro h1 h2 n vm hs1 - - - hattach
      exact hs1.vcAttach hattach
  | quit =>
      rcases consoleQuit_cases hok with ⟨-, rfl⟩ | ⟨i, -, hdetach⟩
      · exact hs
      · exact hs.vcDetach hdetach
  | wfi i j =>
      simp only [Hypervisor.exec, bind_eq_ok, pure_eq_ok, Prod.mk.injEq] at hok
      obtain ⟨h1, hon, -, rfl⟩ := hok
      exact hs.onVcpu hon
  | fault i j =>
      simp only [Hypervisor.exec, bind_eq_ok, pure_eq_ok, Prod.mk.injEq] at hok
      obtain ⟨h1, hon, -, rfl⟩ := hok
      exact hs.onVcpu hon
  | wake i j =>
      simp only [Hypervisor.exec, bind_eq_ok, pure_eq_ok, Prod.mk.injEq] at hok
      obtain ⟨h1, hon, -, rfl⟩ := hok
      exact hs.onVcpu hon
  | writeEnabler i j enable word val =>
      simp only [Hypervisor.exec, bind_eq_ok, pure_eq_ok, Prod.mk.injEq] at hok
      obtain ⟨h1, hon, -, rfl⟩ := hok
      rcases gicdWriteEnabler_cases hon with rfl | ⟨vm, virqs, virqs', hvm, hgicd, -, rfl⟩
      · exact hs
      · refine hs.update (o := some { vm with gicd := some virqs' }) ?_ rfl
        rintro vm1 ⟨⟩
        have hvm' := hs i vm hvm
        refine ⟨hvm'.length_eq, hvm'.ran, fun hn => ?_⟩
        have hnone := hvm'.empty hn
        rw [hgicd] at hnone
        cases hnone
  | reap =>
      simp only [Hypervisor.exec, pure_eq_ok, Prod.mk.injEq] at hok
      obtain ⟨-, rfl⟩ := hok
      intro i vm hvm
      obtain ⟨vm0, hvm0, rfl⟩ := Option.map_eq_some_iff.mp hvm
      exact (hs i vm0 hvm0).reap

theorem shapes_boot (hb : Boot h) : Shapes h := by
  intro i vm hvm
  rw [hb.vms_eq] at hvm
  cases hvm

end RtHypervisor.Ports.Hypervisor
