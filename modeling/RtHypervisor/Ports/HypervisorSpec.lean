import RtHypervisor.Ports.Hypervisor
import RtHypervisor.Ports.VmLifeSpec

/-!
# What the commands leave alone

Only `create_vm` and `delete_vm` change which VMs exist.  `SameVms` says that a
command has at most changed the contents of VMs: the entries of `rt_hyp.vms` that
are in use, the identity of each, and the bookkeeping beside them are as before.
-/

namespace RtHypervisor.Ports.Hypervisor

open RtHypervisor.Verified.Run
open RtHypervisor.Ports.Platform
open RtHypervisor.Ports.Stage2
open RtHypervisor.Ports.Mm
open RtHypervisor.Ports.VmLife

variable {B : Board} {os : Nat → OsDesc} {h h' h'' : Hyp} {i j : Nat} {vm vm' : Vm} {r : RtErr}

@[simp] theorem setVm_self (h : Hyp) (i : Nat) (vm : Option Vm) : (h.setVm i vm).vms i = vm := by
  simp only [Hyp.setVm, Function.update_self]

/-- The VMs of `h` and `h'` are the same, up to what they contain. -/
structure SameVms (h h' : Hyp) : Prop where
  hypInitOk_eq : h'.hypInitOk = h.hypInitOk
  totalVm_eq : h'.totalVm = h.totalVm
  vmBitmap_eq : h'.vmBitmap = h.vmBitmap
  ident_eq : ∀ i, (h'.vms i).map Vm.ident = (h.vms i).map Vm.ident

namespace SameVms

theorem refl (h : Hyp) : SameVms h h := ⟨rfl, rfl, rfl, fun _ => rfl⟩

theorem trans (hs : SameVms h h') (hs' : SameVms h' h'') : SameVms h h'' where
  hypInitOk_eq := hs'.hypInitOk_eq.trans hs.hypInitOk_eq
  totalVm_eq := hs'.totalVm_eq.trans hs.totalVm_eq
  vmBitmap_eq := hs'.vmBitmap_eq.trans hs.vmBitmap_eq
  ident_eq i := (hs'.ident_eq i).trans (hs.ident_eq i)

/-- Writing one VM back, whatever else changes. -/
theorem of_update (hvm : h.vms i = some vm) (hident : vm'.ident = vm.ident)
    (hok : h'.hypInitOk = h.hypInitOk) (htotal : h'.totalVm = h.totalVm)
    (hbitmap : h'.vmBitmap = h.vmBitmap) (hvms : h'.vms = Function.update h.vms i (some vm')) :
    SameVms h h' := by
  refine ⟨hok, htotal, hbitmap, fun j => ?_⟩
  rw [hvms]
  by_cases hj : j = i
  · subst hj
    rw [Function.update_self, hvm, Option.map_some, Option.map_some, hident]
  · rw [Function.update_of_ne hj]

theorem setVm (hvm : h.vms i = some vm) (hident : vm'.ident = vm.ident) :
    SameVms h (h.setVm i (some vm')) :=
  of_update hvm hident rfl rfl rfl rfl

theorem put (hvm : h.vms i = some vm) {r : Vm × Env} (hident : r.1.ident = vm.ident) :
    SameVms h (h.put i r) :=
  of_update hvm hident rfl rfl rfl rfl

theorem isSome_eq (hs : SameVms h h') (i : Nat) : (h'.vms i).isSome = (h.vms i).isSome := by
  have hident := congrArg Option.isSome (hs.ident_eq i)
  rwa [Option.isSome_map, Option.isSome_map] at hident

/-- A VM after the command has the identity of the one before. -/
theorem exists_before (hs : SameVms h h') (hvm : h'.vms i = some vm') :
    ∃ vm, h.vms i = some vm ∧ vm'.ident = vm.ident := by
  have hident := hs.ident_eq i
  rw [hvm, Option.map_some] at hident
  obtain ⟨vm, hold, heq⟩ := Option.map_eq_some_iff.mp hident.symm
  exact ⟨vm, hold, heq.symm⟩

end SameVms

/-! ## Commands on the current VM -/

/-- `onCurrVm` either refuses and changes nothing, or runs on an existing VM. -/
theorem onCurrVm_cases {f : Vm → Except Fault (RtErr × Hyp)}
    (hok : onCurrVm h f = .ok (r, h')) :
    (r = .einval ∧ h' = h ∧ (h.currVmIdx < maxVmNum → h.vms h.currVmIdx = none)) ∨
    ∃ vm, h.currVmIdx < maxVmNum ∧ h.vms h.currVmIdx = some vm ∧ f vm = .ok (r, h') := by
  unfold onCurrVm at hok
  split at hok
  · simp only [pure_eq_ok, Prod.mk.injEq] at hok
    obtain ⟨rfl, rfl⟩ := hok
    exact Or.inl ⟨rfl, rfl, by omega⟩
  · split at hok
    · rename_i hnone
      simp only [pure_eq_ok, Prod.mk.injEq] at hok
      obtain ⟨rfl, rfl⟩ := hok
      exact Or.inl ⟨rfl, rfl, fun _ => hnone⟩
    · rename_i vm hvm
      exact Or.inr ⟨vm, by omega, hvm, hok⟩

theorem runVmOn_ident {e : Env} {p : Vm × Env} (hok : runVmOn B os e vm = .ok (r, p)) :
    p.1.ident = vm.ident := by
  unfold runVmOn at hok
  split at hok
  · simp only [bind_eq_ok, pure_eq_ok, Prod.mk.injEq] at hok
    obtain ⟨⟨vm1, e1⟩, hgo, -, rfl⟩ := hok
    have hident := vmGo_ident hgo
    exact hident
  · simp only [bind_eq_ok, pure_eq_ok, Prod.mk.injEq] at hok
    obtain ⟨⟨vm1, e1⟩, hgo, -, rfl⟩ := hok
    have hident := vmGo_ident hgo
    exact hident
  · simp only [pure_eq_ok, Prod.mk.injEq] at hok
    obtain ⟨-, rfl⟩ := hok
    rfl
  · obtain ⟨⟨r1, vm1, e1⟩, hinit, hok⟩ := bind_eq_ok.mp hok
    have hident := vmInit_ident hinit
    split at hok
    · rename_i heq
      obtain ⟨-, rfl, rfl⟩ := heq
      simp only [bind_eq_ok, pure_eq_ok, Prod.mk.injEq] at hok
      obtain ⟨⟨vm2, e2⟩, hgo, -, rfl⟩ := hok
      have hident' := vmGo_ident hgo
      exact hident'.trans hident
    · simp only [pure_eq_ok, Prod.mk.injEq] at hok
      obtain ⟨-, rfl⟩ := hok
      exact hident
  · simp only [pure_eq_ok, Prod.mk.injEq] at hok
    obtain ⟨-, rfl⟩ := hok
    rfl

private theorem runVm_same (hok : runVm B os h = .ok (r, h')) :
    SameVms h h' ∧ h'.currVmIdx = h.currVmIdx ∧ h'.currVcIdx = h.currVcIdx := by
  rcases onCurrVm_cases hok with ⟨-, rfl, -⟩ | ⟨vm, -, hvm, hf⟩
  · exact ⟨SameVms.refl h', rfl, rfl⟩
  · simp only [bind_eq_ok, pure_eq_ok, Prod.exists, Prod.mk.injEq] at hf
    obtain ⟨r1, vm1, e1, hrun, -, rfl⟩ := hf
    exact ⟨SameVms.put hvm (runVmOn_ident hrun), rfl, rfl⟩

private theorem pauseVm_same (hok : pauseVm h = .ok (r, h')) :
    SameVms h h' ∧ h'.currVmIdx = h.currVmIdx ∧ h'.currVcIdx = h.currVcIdx := by
  rcases onCurrVm_cases hok with ⟨-, rfl, -⟩ | ⟨vm, -, hvm, hf⟩
  · exact ⟨SameVms.refl h', rfl, rfl⟩
  · simp only [bind_eq_ok, pure_eq_ok, Prod.exists, Prod.mk.injEq] at hf
    obtain ⟨vm1, e1, hsuspend, -, rfl⟩ := hf
    exact ⟨SameVms.put hvm (vmSuspend_ident hsuspend), rfl, rfl⟩

theorem haltVm_cases (hok : haltVm h = .ok (r, h')) :
    h' = h ∨ ∃ vm vm' e', h.vms h.currVmIdx = some vm ∧ vmShutdown h.env vm = .ok (vm', e') ∧
      h' = h.put h.currVmIdx (vm', e') := by
  unfold haltVm at hok
  split at hok
  · simp only [pure_eq_ok, Prod.mk.injEq] at hok
    exact Or.inl hok.2.symm
  · split at hok
    · simp only [pure_eq_ok, Prod.mk.injEq] at hok
      exact Or.inl hok.2.symm
    · rename_i vm hvm
      simp only [bind_eq_ok, pure_eq_ok, Prod.exists, Prod.mk.injEq] at hok
      obtain ⟨vm1, e1, hshut, -, rfl⟩ := hok
      exact Or.inr ⟨vm, vm1, e1, hvm, hshut, rfl⟩

private theorem haltVm_same (hok : haltVm h = .ok (r, h')) :
    SameVms h h' ∧ h'.currVmIdx = h.currVmIdx ∧ h'.currVcIdx = h.currVcIdx := by
  rcases haltVm_cases hok with rfl | ⟨vm, vm1, e1, hvm, hshut, rfl⟩
  · exact ⟨SameVms.refl h', rfl, rfl⟩
  · exact ⟨SameVms.put hvm (vmShutdown_ident hshut), rfl, rfl⟩

/-! ## Guests and the host -/

theorem onVcpu_cases {may : Vcpu → Bool} {f : Env → Vcpu → Except Fault (Vcpu × Env)}
    (hok : onVcpu h i j may f = .ok h') :
    h' = h ∨ ∃ vm cells v v' e', h.vms i = some vm ∧ vm.vcpus = some cells ∧
      cells[j]? = some (.vcpu v) ∧ may v = true ∧ f h.env v = .ok (v', e') ∧
      h' = h.put i ({ vm with vcpus := some (cells.set j (.vcpu v')) }, e') := by
  unfold onVcpu at hok
  split at hok
  · exact Or.inl (pure_eq_ok.mp hok).symm
  · rename_i vm hvm
    split at hok
    · exact Or.inl (pure_eq_ok.mp hok).symm
    · rename_i cells hcells
      split at hok
      · rename_i v hv
        split at hok
        · rename_i hmay
          simp only [bind_eq_ok, pure_eq_ok, Prod.exists] at hok
          obtain ⟨v', e', hf, rfl⟩ := hok
          exact Or.inr ⟨vm, cells, v, v', e', hvm, hcells, hv, hmay, hf, rfl⟩
        · exact Or.inl (pure_eq_ok.mp hok).symm
      · exact Or.inl (pure_eq_ok.mp hok).symm

private theorem onVcpu_same {may : Vcpu → Bool} {f : Env → Vcpu → Except Fault (Vcpu × Env)}
    (hok : onVcpu h i j may f = .ok h') :
    SameVms h h' ∧ h'.currVmIdx = h.currVmIdx ∧ h'.currVcIdx = h.currVcIdx := by
  rcases onVcpu_cases hok with rfl | ⟨vm, cells, v, v', e', hvm, -, -, -, -, rfl⟩
  · exact ⟨SameVms.refl h', rfl, rfl⟩
  · exact ⟨SameVms.put hvm rfl, rfl, rfl⟩

theorem gicdWriteEnabler_cases {enable : Bool} {word : Nat} {val : BitVec 64}
    (hok : gicdWriteEnabler h i j enable word val = .ok h') :
    h' = h ∨ ∃ vm virqs virqs', h.vms i = some vm ∧ vm.gicd = some virqs ∧
      writeEnable enable word val virqs (List.range 32) = .ok virqs' ∧
      h' = h.setVm i (some { vm with gicd := some virqs' }) := by
  unfold gicdWriteEnabler at hok
  split at hok
  · exact Or.inl (pure_eq_ok.mp hok).symm
  · rename_i vm hvm
    split at hok
    · split at hok
      · simp only [bind_eq_ok, deref_eq_ok, pure_eq_ok] at hok
        obtain ⟨virqs, hvirqs, virqs', hwrite, rfl⟩ := hok
        exact Or.inr ⟨vm, virqs, virqs', hvm, hvirqs, hwrite, rfl⟩
      · exact Or.inl (pure_eq_ok.mp hok).symm
    · exact Or.inl (pure_eq_ok.mp hok).symm

private theorem gicdWriteEnabler_same {enable : Bool} {word : Nat} {val : BitVec 64}
    (hok : gicdWriteEnabler h i j enable word val = .ok h') :
    SameVms h h' ∧ h'.currVmIdx = h.currVmIdx ∧ h'.currVcIdx = h.currVcIdx := by
  rcases gicdWriteEnabler_cases hok with rfl | ⟨vm, virqs, virqs', hvm, -, -, rfl⟩
  · exact ⟨SameVms.refl h', rfl, rfl⟩
  · exact ⟨SameVms.setVm hvm rfl, rfl, rfl⟩

theorem reapAll_same (h : Hyp) : SameVms h (reapAll h) := by
  refine ⟨rfl, rfl, rfl, fun i => ?_⟩
  simp only [reapAll, Option.map_map]
  rfl

/-! ## The console -/

private theorem setUartHw_ident {hw : Bool} {pINTID : BitVec 16}
    (hok : setUartHw vm hw pINTID = .ok vm') : vm'.ident = vm.ident := by
  unfold setUartHw at hok
  split at hok
  · rw [pure_eq_ok.mp hok]
  · simp only [bind_eq_ok] at hok
    obtain ⟨cells, -, b, -, hok⟩ := hok
    split at hok
    · cases pure_eq_ok.mp hok
      rfl
    · rw [pure_eq_ok.mp hok]

theorem vcDetach_cases (hok : vcDetach h i = .ok h') :
    ∃ vm vm', h.vms i = some vm ∧ vgicVirqUmount (setOpen false vm) = .ok vm' ∧
      h' = { h.setVm i (some vm') with currVcIdx := maxVmNum, hostConsole := true } := by
  unfold vcDetach at hok
  simp only [bind_eq_ok, deref_eq_ok, pure_eq_ok] at hok
  obtain ⟨vm, hvm, vm', humount, rfl⟩ := hok
  exact ⟨vm, vm', hvm, humount, rfl⟩

theorem vcDetach_same (hok : vcDetach h i = .ok h') :
    SameVms h h' ∧ h'.currVmIdx = h.currVmIdx ∧ h'.currVcIdx = maxVmNum := by
  obtain ⟨vm, vm', hvm, humount, rfl⟩ := vcDetach_cases hok
  have hident := setUartHw_ident humount
  exact ⟨SameVms.of_update hvm hident rfl rfl rfl rfl, rfl, rfl⟩

theorem openConsole_cases (hok : openConsole h i = .ok h') :
    ∃ vm, h.vms i = some vm ∧
      ((vm.devList = [] ∧ h' = h) ∨
       ∃ vm', vm.devList ≠ [] ∧ vgicVirqMount (setOpen true vm) = .ok vm' ∧
        h' = { h.setVm i (some vm') with currVcIdx := vm.id }) := by
  unfold openConsole at hok
  simp only [bind_eq_ok, deref_eq_ok] at hok
  obtain ⟨vm, hvm, hok⟩ := hok
  refine ⟨vm, hvm, ?_⟩
  split at hok
  · rename_i hempty
    exact Or.inl ⟨List.isEmpty_iff.mp hempty, (pure_eq_ok.mp hok).symm⟩
  · rename_i hne
    simp only [bind_eq_ok, pure_eq_ok] at hok
    obtain ⟨vm', hmount, rfl⟩ := hok
    exact Or.inr ⟨vm', fun hnil => hne (by rw [hnil]; rfl), hmount, rfl⟩

theorem openConsole_same (hok : openConsole h i = .ok h') :
    SameVms h h' ∧ h'.currVmIdx = h.currVmIdx := by
  obtain ⟨vm, hvm, ⟨-, rfl⟩ | ⟨vm', -, hmount, rfl⟩⟩ := openConsole_cases hok
  · exact ⟨SameVms.refl h', rfl⟩
  · have hident := setUartHw_ident hmount
    exact ⟨SameVms.of_update hvm hident rfl rfl rfl rfl, rfl⟩

/-- `vc_attach` first closes what uses the UART, then opens the console of VM `i`. -/
theorem vcAttach_cases (hok : vcAttach h i = .ok h') :
    ∃ h1, openConsole h1 i = .ok h' ∧
      ((getCurrVc h = .ok none ∧ h1 = { h with hostConsole := false }) ∨
       ∃ j, getCurrVc h = .ok (some j) ∧ vcDetach h j = .ok h1) := by
  unfold vcAttach at hok
  obtain ⟨vc, hvc, hok⟩ := bind_eq_ok.mp hok
  cases vc with
  | none =>
      obtain ⟨h1, hh1, hok⟩ := bind_eq_ok.mp hok
      exact ⟨h1, hok, Or.inl ⟨hvc, (pure_eq_ok.mp hh1).symm⟩⟩
  | some j =>
      obtain ⟨h1, hh1, hok⟩ := bind_eq_ok.mp hok
      exact ⟨h1, hok, Or.inr ⟨j, hvc, hh1⟩⟩

theorem vcAttach_same (hok : vcAttach h i = .ok h') :
    SameVms h h' ∧ h'.currVmIdx = h.currVmIdx := by
  obtain ⟨h1, hopen, ⟨-, rfl⟩ | ⟨j, -, hdetach⟩⟩ := vcAttach_cases hok
  · obtain ⟨hsame, hidx⟩ := openConsole_same hopen
    exact ⟨⟨hsame.hypInitOk_eq, hsame.totalVm_eq, hsame.vmBitmap_eq, hsame.ident_eq⟩, hidx⟩
  · obtain ⟨hsame, hidx, -⟩ := vcDetach_same hdetach
    obtain ⟨hsame', hidx'⟩ := openConsole_same hopen
    exact ⟨hsame.trans hsame', hidx'.trans hidx⟩

/-- What `attach_vm` does with its first option. -/
theorem attachVm_cases {o : IdxOpt} {opts : List IdxOpt}
    (hok : attachVm h (o :: opts) = .ok (r, h')) :
    h' = h ∨ ∃ n vm h1, o = .i n ∧ toUint8 n < maxVmNum ∧ h.vms (toUint8 n) = some vm ∧
      vm.status = .online ∧ vcAttach h (toUint8 n) = .ok h1 ∧ attachVm h1 opts = .ok (r, h') := by
  cases o with
  | bad =>
      simp only [attachVm, pure_eq_ok, Prod.mk.injEq] at hok
      exact Or.inl hok.2.symm
  | i n =>
      simp only [attachVm] at hok
      split at hok
      · simp only [pure_eq_ok, Prod.mk.injEq] at hok
        exact Or.inl hok.2.symm
      · rename_i hlt
        split at hok
        · simp only [pure_eq_ok, Prod.mk.injEq] at hok
          exact Or.inl hok.2.symm
        · rename_i vm hvm
          split at hok
          · simp only [pure_eq_ok, Prod.mk.injEq] at hok
            exact Or.inl hok.2.symm
          · rename_i honline
            obtain ⟨h1, hattach, hok⟩ := bind_eq_ok.mp hok
            exact Or.inr ⟨n, vm, h1, rfl, by omega, hvm, by simpa using honline, hattach, hok⟩

/-- `attach_vm` is a sequence of `vc_attach` calls on existing VMs. -/
theorem attachVm_induct {P : Hyp → Prop}
    (hstep : ∀ h h' n vm, P h → toUint8 n < maxVmNum → h.vms (toUint8 n) = some vm →
      vm.status = .online → vcAttach h (toUint8 n) = .ok h' → P h')
    {opts : List IdxOpt} (hp : P h) (hok : attachVm h opts = .ok (r, h')) : P h' := by
  induction opts generalizing h with
  | nil =>
      simp only [attachVm, pure_eq_ok, Prod.mk.injEq] at hok
      obtain ⟨-, rfl⟩ := hok
      exact hp
  | cons o opts ih =>
      rcases attachVm_cases hok with rfl | ⟨n, vm, h1, rfl, hlt, hvm, honline, hattach, hrest⟩
      · exact hp
      · exact ih (hstep h h1 n vm hp hlt hvm honline hattach) hrest

private theorem attachVm_same {opts : List IdxOpt} (hok : attachVm h opts = .ok (r, h')) :
    SameVms h h' ∧ h'.currVmIdx = h.currVmIdx := by
  refine attachVm_induct (P := fun k => SameVms h k ∧ k.currVmIdx = h.currVmIdx) ?_
    ⟨SameVms.refl h, rfl⟩ hok
  rintro h1 h2 n vm ⟨hsame, hidx⟩ - - - hattach
  obtain ⟨hsame', hidx'⟩ := vcAttach_same hattach
  exact ⟨hsame.trans hsame', hidx'.trans hidx⟩

theorem consoleQuit_cases (hok : consoleQuit h = .ok (r, h')) :
    (getCurrVc h = .ok none ∧ h' = h) ∨
    ∃ i, getCurrVc h = .ok (some i) ∧ vcDetach h i = .ok h' := by
  unfold consoleQuit at hok
  obtain ⟨vc, hvc, hok⟩ := bind_eq_ok.mp hok
  cases vc with
  | none =>
      simp only [pure_eq_ok, Prod.mk.injEq] at hok
      exact Or.inl ⟨hvc, hok.2.symm⟩
  | some i =>
      simp only [bind_eq_ok, pure_eq_ok, Prod.mk.injEq] at hok
      obtain ⟨h1, hdetach, -, rfl⟩ := hok
      exact Or.inr ⟨i, hvc, hdetach⟩

private theorem consoleQuit_same (hok : consoleQuit h = .ok (r, h')) :
    SameVms h h' ∧ h'.currVmIdx = h.currVmIdx := by
  rcases consoleQuit_cases hok with ⟨-, rfl⟩ | ⟨i, -, hdetach⟩
  · exact ⟨SameVms.refl h', rfl⟩
  · obtain ⟨hsame, hidx, -⟩ := vcDetach_same hdetach
    exact ⟨hsame, hidx⟩

/-! ## `pick_vm` -/

theorem pickOpts_same {opts : List IdxOpt} {k k' : Option Nat} {b : Bool}
    (hok : pickOpts opts h k = (h', k', b)) : ∃ n, h' = { h with currVmIdx := n } := by
  induction opts generalizing h k with
  | nil =>
      simp only [pickOpts, Prod.mk.injEq] at hok
      obtain ⟨rfl, -, -⟩ := hok
      exact ⟨h.currVmIdx, rfl⟩
  | cons o opts ih =>
      cases o with
      | bad =>
          simp only [pickOpts, Prod.mk.injEq] at hok
          obtain ⟨rfl, -, -⟩ := hok
          exact ⟨h.currVmIdx, rfl⟩
      | i n =>
          simp only [pickOpts] at hok
          split at hok
          · simp only [Prod.mk.injEq] at hok
            obtain ⟨rfl, -, -⟩ := hok
            exact ⟨h.currVmIdx, rfl⟩
          · obtain ⟨m, rfl⟩ := ih hok
            exact ⟨m, rfl⟩

theorem pickVm_same {opts : List IdxOpt} (hok : pickVm h opts = .ok (r, h')) :
    ∃ n, h' = { h with currVmIdx := n } := by
  unfold pickVm at hok
  split at hok
  · rename_i heq
    simp only [pure_eq_ok, Prod.mk.injEq] at hok
    obtain ⟨-, rfl⟩ := hok
    exact pickOpts_same heq
  · cases hok
  · rename_i heq
    obtain ⟨n, rfl⟩ := pickOpts_same heq
    split at hok <;>
    · simp only [pure_eq_ok, Prod.mk.injEq] at hok
      obtain ⟨-, rfl⟩ := hok
      exact ⟨_, rfl⟩

/-! ## `create_vm` and `delete_vm` -/

/-- The VM `create_vm` installs for image `k`. -/
def newVm (os : Nat → OsDesc) (k id : Nat) : Vm where
  id := id
  status := .neverRun
  os := some k
  osIdx := k
  mm := ⟨(os k).memSize, 0, 0, []⟩
  nrVcpus := (os k).cpuNum
  vcpus := none
  gicd := none
  devList := []

/-- The option loop sets nothing but the image, to one of the table. -/
theorem createOpts_image {opts : List CreateOpt} {vm0 : Vm}
    (hok : createOpts opts vm0 = (.eok, vm)) :
    vm = vm0 ∨ ∃ k, k < maxOsNum ∧ vm = { vm0 with os := some k, osIdx := k } := by
  induction opts generalizing vm0 with
  | nil =>
      simp only [createOpts, Prod.mk.injEq] at hok
      exact Or.inl hok.2.symm
  | cons o opts ih =>
      cases o with
      | bad => simp [createOpts] at hok
      | n => exact ih hok
      | i n =>
          simp only [createOpts] at hok
          split at hok
          · simp at hok
          · rename_i hlt
            right
            rcases ih hok with rfl | ⟨k, hk, rfl⟩
            · exact ⟨toUint8 n, by omega, rfl⟩
            · exact ⟨k, hk, rfl⟩

private theorem vmConfigInit_cases {vm0 : Vm} (hok : vmConfigInit os vm0 i = .ok vm) :
    ∃ k, vm0.os = some k ∧ vm = { vm0 with
      id := i
      status := .neverRun
      mm := { vm0.mm with memSize := (os k).memSize, memUsed := 0 }
      nrVcpus := (os k).cpuNum
      devList := [] } := by
  unfold vmConfigInit at hok
  simp only [bind_eq_ok, deref_eq_ok, pure_eq_ok] at hok
  obtain ⟨k, hk, rfl⟩ := hok
  exact ⟨k, hk, rfl⟩

/-- `create_vm` with an index in hand either fails, having only allocated, or installs a
new VM. -/
theorem installVm_cases {opts : List CreateOpt} (hok : installVm B os h i opts = .ok (r, h')) :
    (r ≠ .eok ∧ h' = { h with env := { h.env with allocs := h.env.allocs + 3 } } ∧
      ((∃ n, n < 3 ∧ B.grants (h.env.allocs + n) = false) ∨ (createOpts opts zeroVm).1 ≠ .eok)) ∨
    ∃ k, r = .eok ∧ k < maxOsNum ∧ i < maxVmNum ∧
      h' = { h.setVm i (some (newVm os k i)) with
        env := { h.env with allocs := h.env.allocs + 3 }
        currVmIdx := i
        totalVm := h.totalVm + 1 } := by
  simp only [installVm] at hok
  split at hok
  · split at hok
    · rename_i vm0 hopts
      simp only [bind_eq_ok, pure_eq_ok, check_eq_ok, Prod.mk.injEq, decide_eq_true_eq] at hok
      obtain ⟨vm1, hconfig, -, hlt, rfl, rfl⟩ := hok
      obtain ⟨k, hos, rfl⟩ := vmConfigInit_cases hconfig
      rcases createOpts_image hopts with rfl | ⟨k', hk', rfl⟩
      · cases hos
      · cases hos
        exact Or.inr ⟨k, rfl, hk', hlt, rfl⟩
    · rename_i r0 vm0 hne hopts
      simp only [pure_eq_ok, Prod.mk.injEq] at hok
      obtain ⟨rfl, rfl⟩ := hok
      have hr : r0 ≠ .eok := by
        rintro rfl
        exact hne rfl
      exact Or.inl ⟨hr, rfl, Or.inr (by rw [hopts]; exact hr)⟩
  · rename_i hnone
    simp only [bind_eq_ok, pure_eq_ok, Prod.mk.injEq] at hok
    obtain ⟨-, -, rfl, rfl⟩ := hok
    refine Or.inl ⟨by decide, rfl, Or.inl ?_⟩
    by_contra hall
    have hgrant : ∀ n, n < 3 → B.grants (h.env.allocs + n) = true := by
      intro n hn
      by_contra hf
      exact hall ⟨n, hn, by simpa using hf⟩
    apply hnone h.env.allocs (h.env.allocs + 1) (h.env.allocs + 2)
    · have hfirst := hgrant 0 (by decide)
      rw [Nat.add_zero] at hfirst
      simp [Env.malloc, hfirst]
    · simp [Env.malloc, hgrant 1 (by decide)]
    · simp [Env.malloc, hgrant 2 (by decide)]

private theorem createVmReady_cases {opts : List CreateOpt}
    (hok : createVmReady B os h opts = .ok (r, h')) :
    (h.totalVm = maxVmNum ∧ r = .error ∧ h' = h) ∨
    (h.totalVm ≠ maxVmNum ∧
      installVm B os
        { h with vmBitmap := h.vmBitmap ||| BitVec.twoPow 32 (B.findNext h.vmBitmap) }
        (B.findNext h.vmBitmap) opts = .ok (r, h')) := by
  simp only [createVmReady] at hok
  split at hok
  · rename_i hfull
    simp only [pure_eq_ok, Prod.mk.injEq] at hok
    exact Or.inl ⟨hfull, hok.1.symm, hok.2.symm⟩
  · rename_i hfull
    rw [B.setBit_eq _ _ (B.findNext_lt _)] at hok
    exact Or.inr ⟨hfull, hok⟩

/-- The first `create_vm` clears the stage-2 tables. -/
theorem createVm_cases {el2 : Bool} {opts : List CreateOpt}
    (hok : createVm B os h el2 opts = .ok (r, h')) :
    (h.hypInitOk = true ∧ createVmReady B os h opts = .ok (r, h')) ∨
    ∃ s2, h.hypInitOk = false ∧ rtInitS2MmuTable B h.env.s2 = .ok s2 ∧
      ((el2 = false ∧ r = .error ∧ h' = { h with env := { h.env with s2 := s2 } }) ∨
       (el2 = true ∧
        createVmReady B os
          { h with env := { h.env with s2 := s2 }, hypInitOk := true } opts = .ok (r, h'))) := by
  unfold createVm at hok
  split at hok
  · rename_i hinit
    exact Or.inl ⟨hinit, hok⟩
  · rename_i hinit
    simp only [rtHypervisorInit, bind_eq_ok, pure_eq_ok, Prod.exists, Prod.mk.injEq] at hok
    obtain ⟨r1, h1, ⟨s2, hs2, rfl, rfl⟩, hok⟩ := hok
    refine Or.inr ⟨s2, by simpa using hinit, hs2, ?_⟩
    cases el2 with
    | false =>
        simp only [Bool.false_eq_true, if_false, pure_eq_ok, Prod.mk.injEq] at hok
        exact Or.inl ⟨rfl, hok.1.symm, hok.2.symm⟩
    | true => exact Or.inr ⟨rfl, hok⟩

/-- What `create_vm` leaves behind, with the stage-2 tables `s2`.  A failure keeps everything
but a bit of `vm_bitmap`, which leaks once the index has been taken. -/
def CreateLeaves (B : Board) (os : Nat → OsDesc) (h : Hyp) (el2 : Bool) (opts : List CreateOpt)
    (s2 : S2) (r : RtErr) (h' : Hyp) : Prop :=
  (r ≠ .eok ∧ ∃ ok bitmap allocs, h.env.allocs ≤ allocs ∧
    h' = { h with hypInitOk := ok, vmBitmap := bitmap, env := ⟨s2, allocs, h.env.log⟩ } ∧
    (bitmap = h.vmBitmap ∨
     (bitmap = h.vmBitmap ||| BitVec.twoPow 32 (B.findNext h.vmBitmap) ∧
      ¬(h.hypInitOk = false ∧ el2 = false) ∧ h.totalVm ≠ maxVmNum ∧
      ((∃ n, n < 3 ∧ B.grants (h.env.allocs + n) = false) ∨
        (createOpts opts zeroVm).1 ≠ .eok)))) ∨
  ∃ k, r = .eok ∧ k < maxOsNum ∧ h.totalVm ≠ maxVmNum ∧ B.findNext h.vmBitmap < maxVmNum ∧
    h' = { h with
      hypInitOk := true
      totalVm := h.totalVm + 1
      vmBitmap := h.vmBitmap ||| BitVec.twoPow 32 (B.findNext h.vmBitmap)
      vms := Function.update h.vms (B.findNext h.vmBitmap)
        (some (newVm os k (B.findNext h.vmBitmap)))
      currVmIdx := B.findNext h.vmBitmap
      env := ⟨s2, h.env.allocs + 3, h.env.log⟩ }

private theorem createVmReady_leaves {el2 : Bool} {opts : List CreateOpt} {s2 : S2}
    (hinit : ¬(h.hypInitOk = false ∧ el2 = false))
    (hok : createVmReady B os
      { h with hypInitOk := true, env := ⟨s2, h.env.allocs, h.env.log⟩ } opts = .ok (r, h')) :
    CreateLeaves B os h el2 opts s2 r h' := by
  rcases createVmReady_cases hok with ⟨-, rfl, rfl⟩ | ⟨hroom, hinstall⟩
  · exact Or.inl ⟨by decide, true, h.vmBitmap, h.env.allocs, Nat.le_refl _, rfl, Or.inl rfl⟩
  · rcases installVm_cases hinstall with ⟨hr, rfl, hwhy⟩ | ⟨k, rfl, hk, hlt, rfl⟩
    · exact Or.inl ⟨hr, true, _, h.env.allocs + 3, Nat.le_add_right _ _, rfl,
        Or.inr ⟨rfl, hinit, hroom, hwhy⟩⟩
    · exact Or.inr ⟨k, rfl, hk, hroom, hlt, rfl⟩

/-- The tables are those of before, or the first `create_vm` has just cleared them. -/
theorem createVm_outcome {el2 : Bool} {opts : List CreateOpt}
    (hok : createVm B os h el2 opts = .ok (r, h')) :
    ∃ s2, ((h.hypInitOk = true ∧ s2 = h.env.s2) ∨
        (h.hypInitOk = false ∧ rtInitS2MmuTable B h.env.s2 = .ok s2)) ∧
      CreateLeaves B os h el2 opts s2 r h' := by
  rcases createVm_cases hok with ⟨htrue, hcreate⟩ | ⟨s2, hfalse, hs2, hrest⟩
  · refine ⟨h.env.s2, Or.inl ⟨htrue, rfl⟩, createVmReady_leaves (by simp [htrue]) ?_⟩
    rw [← hcreate, ← htrue]
  · refine ⟨s2, Or.inr ⟨hfalse, hs2⟩, ?_⟩
    rcases hrest with ⟨-, rfl, rfl⟩ | ⟨hel2, hcreate⟩
    · exact Or.inl ⟨by decide, _, _, h.env.allocs, Nat.le_refl _, rfl, Or.inl rfl⟩
    · exact createVmReady_leaves (by simp [hel2]) hcreate

theorem deleteVm_cases (hok : deleteVm B h = .ok (r, h')) :
    (r = .einval ∧ h' = h ∧ (h.currVmIdx < maxVmNum → h.vms h.currVmIdx = none)) ∨
    ∃ vm vm' e1 e2, h.currVmIdx < maxVmNum ∧ h.vms h.currVmIdx = some vm ∧ r = .eok ∧
      vmShutdown h.env vm = .ok (vm', e1) ∧ vmFree e1 vm' = .ok e2 ∧
      h' = { h.setVm h.currVmIdx none with
        env := e2
        vmBitmap := h.vmBitmap &&& ~~~(BitVec.twoPow 32 h.currVmIdx) } := by
  rcases onCurrVm_cases hok with hsame | ⟨vm, hlt, hvm, hf⟩
  · exact Or.inl hsame
  · simp only [bind_eq_ok, pure_eq_ok, Prod.exists, Prod.mk.injEq] at hf
    obtain ⟨vm', e1, hshut, e2, hfree, rfl, rfl⟩ := hf
    refine Or.inr ⟨vm, vm', e1, e2, hlt, hvm, rfl, hshut, hfree, ?_⟩
    rw [B.clrBit_eq _ _ (Nat.lt_of_lt_of_le hlt (by decide))]

/-! ## All of them -/

/-- The commands that neither create nor delete a VM nor switch the console. -/
def Cmd.Inside : Cmd → Prop
  | .create _ _ | .delete | .attach _ | .quit => False
  | _ => True

theorem exec_inside {c : Cmd} (hok : exec B os h c = .ok (r, h')) (hc : c.Inside) :
    SameVms h h' ∧ h'.currVcIdx = h.currVcIdx := by
  cases c with
  | create el2 opts => exact hc.elim
  | delete => exact hc.elim
  | attach opts => exact hc.elim
  | quit => exact hc.elim
  | pick opts =>
      obtain ⟨n, rfl⟩ := pickVm_same hok
      exact ⟨⟨rfl, rfl, rfl, fun _ => rfl⟩, rfl⟩
  | run => exact ⟨(runVm_same hok).1, (runVm_same hok).2.2⟩
  | pause => exact ⟨(pauseVm_same hok).1, (pauseVm_same hok).2.2⟩
  | halt => exact ⟨(haltVm_same hok).1, (haltVm_same hok).2.2⟩
  | wfi i j =>
      simp only [exec, bind_eq_ok, pure_eq_ok, Prod.mk.injEq] at hok
      obtain ⟨h1, hon, -, rfl⟩ := hok
      exact ⟨(onVcpu_same hon).1, (onVcpu_same hon).2.2⟩
  | fault i j =>
      simp only [exec, bind_eq_ok, pure_eq_ok, Prod.mk.injEq] at hok
      obtain ⟨h1, hon, -, rfl⟩ := hok
      exact ⟨(onVcpu_same hon).1, (onVcpu_same hon).2.2⟩
  | wake i j =>
      simp only [exec, bind_eq_ok, pure_eq_ok, Prod.mk.injEq] at hok
      obtain ⟨h1, hon, -, rfl⟩ := hok
      exact ⟨(onVcpu_same hon).1, (onVcpu_same hon).2.2⟩
  | writeEnabler i j enable word val =>
      simp only [exec, bind_eq_ok, pure_eq_ok, Prod.mk.injEq] at hok
      obtain ⟨h1, hon, -, rfl⟩ := hok
      exact ⟨(gicdWriteEnabler_same hon).1, (gicdWriteEnabler_same hon).2.2⟩
  | reap =>
      simp only [exec, pure_eq_ok, Prod.mk.injEq] at hok
      obtain ⟨-, rfl⟩ := hok
      exact ⟨reapAll_same h, rfl⟩

/-- Which VMs exist changes only in `create_vm` and `delete_vm`. -/
theorem exec_same {c : Cmd} (hcreate : ∀ el2 opts, c ≠ .create el2 opts) (hdelete : c ≠ .delete)
    (hok : exec B os h c = .ok (r, h')) : SameVms h h' := by
  cases c with
  | create el2 opts => exact absurd rfl (hcreate el2 opts)
  | delete => exact absurd rfl hdelete
  | attach opts => exact (attachVm_same hok).1
  | quit => exact (consoleQuit_same hok).1
  | _ => exact (exec_inside hok trivial).1

theorem step_cases {c : Cmd} (hok : step B os h c = .ok h') : ∃ r, exec B os h c = .ok (r, h') := by
  simp only [step, bind_eq_ok, pure_eq_ok, Prod.exists] at hok
  obtain ⟨r, h1, hexec, rfl⟩ := hok
  exact ⟨r, hexec⟩

end RtHypervisor.Ports.Hypervisor
