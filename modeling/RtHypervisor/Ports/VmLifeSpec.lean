import RtHypervisor.Ports.VmLife

/-!
# What the VM operations can do

`vm_init` is a chain of calls with an exit after most of them; the `_cases` lemmas
say once which calls have returned at each exit, and the other modules derive what
they need from these.  The `_ident` lemmas are the frame of all operations on a VM:
none of them changes its index, its image or the number of its vCPUs.
-/

namespace RtHypervisor.Ports.VmLife

open RtHypervisor.Verified.Run
open RtHypervisor.Ports.Platform
open RtHypervisor.Ports.Stage2
open RtHypervisor.Ports.Mm

variable {B : Board} {os : Nat → OsDesc} {e e' : Env} {vm vm' : Vm} {r : RtErr}

/-! ## Allocation -/

@[simp] theorem malloc_snd (B : Board) (e : Env) :
    (e.malloc B).2 = { e with allocs := e.allocs + 1 } := rfl

private theorem mallocArray_s2 (B : Board) (e : Env) (n : Nat) :
    (e.mallocArray B n).2.s2 = e.s2 := by
  unfold Env.mallocArray
  split <;> rfl

private theorem mallocArray_log (B : Board) (e : Env) (n : Nat) :
    (e.mallocArray B n).2.log = e.log := by
  unfold Env.mallocArray
  split <;> rfl

private theorem mallocArray_allocs (B : Board) (e : Env) (n : Nat) :
    e.allocs ≤ (e.mallocArray B n).2.allocs := by
  unfold Env.mallocArray
  split
  · exact Nat.le_refl _
  · exact Nat.le_succ _

/-! ## The exits of `vm_init` -/

theorem vmInitDevices_cases (h : vmInitDevices B os e vm = .ok (r, vm', e')) :
    (r ≠ .eok ∧ vcpusCreate B e vm = .ok (r, vm', e')) ∨
    ∃ vm1 e1 vm2 e2 e3 i, vcpusCreate B e vm = .ok (.eok, vm1, e1) ∧
      vgicInit B os e1 vm1 = .ok (vm2, e2) ∧ vcCreate B os e2 vm2 = .ok (vm', e3) ∧
      vm'.os = some i ∧ osImgLoad (os i) e3 vm'.mm = .ok (r, e') := by
  unfold vmInitDevices at h
  obtain ⟨⟨r1, vm1, e1⟩, h1, h⟩ := bind_eq_ok.mp h
  cases r1 with
  | eok =>
      simp only [bind_eq_ok, Prod.exists, deref_eq_ok, pure_eq_ok, Prod.mk.injEq] at h
      obtain ⟨vm2, e2, h2, vm3, e3, h3, i, hi, r4, e4, h4, rfl, rfl, rfl⟩ := h
      exact Or.inr ⟨vm1, e1, vm2, e2, e3, i, h1, h2, h3, hi, h4⟩
  | _ =>
      simp only [pure_eq_ok, Prod.mk.injEq] at h
      obtain ⟨rfl, rfl, rfl⟩ := h
      exact Or.inl ⟨by decide, h1⟩

theorem vmInitMemory_cases (h : vmInitMemory B os e vm = .ok (r, vm', e')) :
    ∃ i r1 mm1 e1, vm.os = some i ∧
      vmMmStructInit B e vm.mm vm.id (os i).memAddr (os i).memSize = .ok (r1, mm1, e1) ∧
      ((r1 ≠ .eok ∧ r = r1 ∧ vm' = { vm with mm := mm1 } ∧ e' = e1) ∨
       ∃ r2 mm2 e2, r1 = .eok ∧ vmMemoryInit B e1 mm1 vm.id = .ok (r2, mm2, e2) ∧
        ((r2 ≠ .eok ∧ r = r2 ∧ vm' = { vm with mm := mm2 } ∧ e' = e2) ∨
         (r2 = .eok ∧ vmInitDevices B os e2 { vm with mm := mm2 } = .ok (r, vm', e')))) := by
  unfold vmInitMemory at h
  simp only [bind_eq_ok, Prod.exists, deref_eq_ok] at h
  obtain ⟨i, hi, r1, mm1, e1, h1, h⟩ := h
  refine ⟨i, r1, mm1, e1, hi, h1, ?_⟩
  by_cases hr1 : r1 = .eok
  · right
    simp only [hr1, ne_eq, not_true, if_false, bind_eq_ok, Prod.exists] at h
    obtain ⟨r2, mm2, e2, h2, h⟩ := h
    refine ⟨r2, mm2, e2, hr1, h2, ?_⟩
    by_cases hr2 : r2 = .eok
    · right
      simp only [hr2, not_true, if_false] at h
      exact ⟨hr2, h⟩
    · left
      simp only [hr2, not_false_eq_true, if_true, pure_eq_ok, Prod.mk.injEq] at h
      obtain ⟨rfl, rfl, rfl⟩ := h
      exact ⟨hr2, rfl, rfl, rfl⟩
  · left
    simp only [hr1, ne_eq, not_false_eq_true, if_true, pure_eq_ok, Prod.mk.injEq] at h
    obtain ⟨rfl, rfl, rfl⟩ := h
    exact ⟨hr1, rfl, rfl, rfl⟩

/-- `alloc` is the allocation of `vm->vcpus`, if it has succeeded. -/
theorem vmInit_cases (h : vmInit B os e vm = .ok (r, vm', e')) :
    ∃ e1 alloc, e1.s2 = e.s2 ∧ e1.log = e.log ∧ e.allocs ≤ e1.allocs ∧
      (vm.nrVcpus = 0 → alloc = none) ∧
      ((r = .enomem ∧
        vm' = { vm with vcpus := alloc.map fun n => staleCells B n vm.nrVcpus } ∧ e' = e1) ∨
       ∃ n, alloc = some n ∧
        vmInitMemory B os e1 { vm with vcpus := some (staleCells B n vm.nrVcpus) } =
          .ok (r, vm', e')) := by
  unfold vmInit at h
  have hs2 := mallocArray_s2 B e vm.nrVcpus
  have hlog := mallocArray_log B e vm.nrVcpus
  have hallocs := mallocArray_allocs B e vm.nrVcpus
  have hempty : vm.nrVcpus = 0 → (e.mallocArray B vm.nrVcpus).1 = none := by
    intro hn
    simp only [Env.mallocArray, hn, if_true]
  rcases hm : e.mallocArray B vm.nrVcpus with ⟨vcpus, e1⟩
  rw [hm] at hs2 hlog hallocs hempty
  refine ⟨(e1.malloc B).2, vcpus, hs2, hlog, Nat.le_succ_of_le hallocs, hempty, ?_⟩
  rcases hm' : e1.malloc B with ⟨arch, e2⟩
  simp only [hm, hm'] at h
  split at h
  · exact Or.inr ⟨_, rfl, h⟩
  · simp only [pure_eq_ok, Prod.mk.injEq] at h
    obtain ⟨rfl, rfl, rfl⟩ := h
    exact Or.inl ⟨rfl, rfl, rfl⟩

/-! ## What no operation changes -/

/-- The index of a VM, its image and the number of its vCPUs. -/
def Vm.ident (vm : Vm) : Nat × Option Nat × Nat × Nat := (vm.id, vm.os, vm.osIdx, vm.nrVcpus)

private theorem vcpusCreate_ident (h : vcpusCreate B e vm = .ok (r, vm', e')) :
    vm'.ident = vm.ident := by
  unfold vcpusCreate at h
  simp only [bind_eq_ok, pure_eq_ok, Prod.exists, Prod.mk.injEq] at h
  obtain ⟨cells, -, r', cells', e'', -, -, rfl, -⟩ := h
  rfl

private theorem vgicInit_ident (h : vgicInit B os e vm = .ok (vm', e')) : vm'.ident = vm.ident := by
  unfold vgicInit at h
  split at h
  · simp only [pure_eq_ok, Prod.mk.injEq] at h
    obtain ⟨rfl, -⟩ := h
    rfl
  · simp only [bind_eq_ok, pure_eq_ok, Prod.mk.injEq] at h
    obtain ⟨_, -, _, -, _, -, _, -, rfl, -⟩ := h
    rfl

private theorem vcCreate_ident (h : vcCreate B os e vm = .ok (vm', e')) : vm'.ident = vm.ident := by
  unfold vcCreate at h
  split at h
  · simp only [pure_eq_ok, Prod.mk.injEq] at h
    obtain ⟨rfl, -⟩ := h
    rfl
  · simp only [bind_eq_ok, pure_eq_ok, Prod.mk.injEq] at h
    obtain ⟨_, -, rfl, -⟩ := h
    rfl

private theorem vmInitDevices_ident (h : vmInitDevices B os e vm = .ok (r, vm', e')) :
    vm'.ident = vm.ident := by
  rcases vmInitDevices_cases h with ⟨-, h1⟩ | ⟨vm1, e1, vm2, e2, e3, i, h1, h2, h3, -, -⟩
  · exact vcpusCreate_ident h1
  · rw [vcCreate_ident h3, vgicInit_ident h2, vcpusCreate_ident h1]

theorem vmInit_ident (h : vmInit B os e vm = .ok (r, vm', e')) : vm'.ident = vm.ident := by
  obtain ⟨e1, alloc, -, -, -, -, ⟨-, rfl, -⟩ | ⟨n, -, h⟩⟩ := vmInit_cases h
  · rfl
  · obtain ⟨i, r1, mm1, e2, -, -, ⟨-, -, rfl, -⟩ | ⟨r2, mm2, e3, -, -, h⟩⟩ := vmInitMemory_cases h
    · rfl
    · rcases h with ⟨-, -, rfl, -⟩ | ⟨-, h⟩
      · rfl
      · have hid := vmInitDevices_ident h
        exact hid

theorem vmGo_leaves (h : vmGo e vm = .ok (vm', e')) :
    ∃ vcpus, vm' = { vm with vcpus := vcpus } := by
  unfold vmGo at h
  obtain ⟨c, -, h⟩ := bind_eq_ok.mp h
  split at h
  · simp only [pure_eq_ok, Prod.mk.injEq] at h
    obtain ⟨rfl, -⟩ := h
    exact ⟨vm.vcpus, rfl⟩
  · simp only [bind_eq_ok, pure_eq_ok, Prod.exists, Prod.mk.injEq] at h
    obtain ⟨v, -, v', e'', -, rfl, -⟩ := h
    exact ⟨_, rfl⟩

theorem vmSuspend_leaves (h : vmSuspend e vm = .ok (vm', e')) :
    ∃ vcpus st, st ≠ .neverRun ∧ vm' = { vm with vcpus := vcpus, status := st } := by
  unfold vmSuspend at h
  split at h
  · simp only [pure_eq_ok, Prod.mk.injEq] at h
    obtain ⟨rfl, -⟩ := h
    exact ⟨vm.vcpus, .suspend, by decide, rfl⟩
  · simp only [bind_eq_ok, Prod.exists] at h
    obtain ⟨cells, -, r1, cells1, e1, -, h⟩ := h
    split at h
    · simp only [pure_eq_ok, Prod.mk.injEq] at h
      obtain ⟨rfl, -⟩ := h
      exact ⟨_, .suspend, by decide, rfl⟩
    · simp only [pure_eq_ok, Prod.mk.injEq] at h
      obtain ⟨rfl, -⟩ := h
      exact ⟨_, .unknown, by decide, rfl⟩

theorem vmShutdown_leaves (h : vmShutdown e vm = .ok (vm', e')) :
    ∃ vcpus, vm' = { vm with vcpus := vcpus, status := .offline } := by
  unfold vmShutdown at h
  split at h
  · simp only [pure_eq_ok, Prod.mk.injEq] at h
    obtain ⟨rfl, -⟩ := h
    exact ⟨vm.vcpus, rfl⟩
  · simp only [bind_eq_ok, pure_eq_ok, Prod.exists, Prod.mk.injEq] at h
    obtain ⟨cells, -, cells1, e1, -, rfl, -⟩ := h
    exact ⟨_, rfl⟩

theorem vmGo_ident (h : vmGo e vm = .ok (vm', e')) : vm'.ident = vm.ident := by
  obtain ⟨vcpus, rfl⟩ := vmGo_leaves h
  rfl

theorem vmSuspend_ident (h : vmSuspend e vm = .ok (vm', e')) : vm'.ident = vm.ident := by
  obtain ⟨vcpus, st, -, rfl⟩ := vmSuspend_leaves h
  rfl

theorem vmShutdown_ident (h : vmShutdown e vm = .ok (vm', e')) : vm'.ident = vm.ident := by
  obtain ⟨vcpus, rfl⟩ := vmShutdown_leaves h
  rfl

end RtHypervisor.Ports.VmLife
