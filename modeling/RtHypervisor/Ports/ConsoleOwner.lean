import RtHypervisor.Ports.ConsoleInv
import RtHypervisor.Ports.VmTable

/-!
# One owner of the UART

The commands that attach and detach keep the invariant as long as they go between
the host and a VM, detach only when the interrupt can be unmounted, and the guest
never enables the interrupt behind an attachment that could not mount it.
`console_exclusive` is that statement for whole runs.
-/

namespace RtHypervisor.Ports.Hypervisor

open RtHypervisor.Verified.Run
open RtHypervisor.Ports.ListRegister (Virq virqPrivNum)
open RtHypervisor.Ports.Platform
open RtHypervisor.Ports.Stage2
open RtHypervisor.Ports.Mm
open RtHypervisor.Ports.VmLife

variable {B : Board} {os : Nat → OsDesc} {h h' : Hyp} {vm vm' : Vm} {r : RtErr}

/-! ## Attaching and detaching -/

/-- What attaching and detaching leave of each VM. -/
def SameConsoles (h h' : Hyp) : Prop :=
  ∀ i, (h'.vms i).map (fun vm => (vm.status, vm.devList.isEmpty)) =
    (h.vms i).map fun vm => (vm.status, vm.devList.isEmpty)

private theorem setOpen_isEmpty (b : Bool) (vm : Vm) :
    (setOpen b vm).devList.isEmpty = vm.devList.isEmpty := by
  unfold setOpen
  cases vm.devList <;> rfl

private theorem setOpen_tail (b : Bool) (vm : Vm) :
    (setOpen b vm).devList.tail = vm.devList.tail := by
  unfold setOpen
  cases vm.devList <;> rfl

/-- After closing, an open device is not the first one. -/
theorem setOpen_false_open {d : Vdev} (hd : d ∈ (setOpen false vm).devList)
    (hopen : d.isOpen = true) : d ∈ vm.devList.tail := by
  unfold setOpen at hd
  cases hdevs : vm.devList with
  | nil =>
      rw [hdevs] at hd
      cases hd
  | cons d0 ds =>
      rw [hdevs] at hd
      rcases List.mem_cons.mp hd with rfl | hmem
      · cases hopen
      · exact hmem

private theorem setUartHw_leaves {hw : Bool} {pINTID : BitVec 16}
    (hok : setUartHw vm hw pINTID = .ok vm') : ∃ gicd, vm' = { vm with gicd := gicd } := by
  unfold setUartHw at hok
  split at hok
  · exact ⟨vm.gicd, (pure_eq_ok.mp hok).symm⟩
  · simp only [bind_eq_ok] at hok
    obtain ⟨cells, -, b, -, hok⟩ := hok
    split at hok
    · exact ⟨_, (pure_eq_ok.mp hok).symm⟩
    · exact ⟨vm.gicd, (pure_eq_ok.mp hok).symm⟩

theorem SameConsoles.update {i : Nat} (hvm : h.vms i = some vm)
    (hvms : h'.vms = Function.update h.vms i (some vm')) (hst : vm'.status = vm.status)
    (hdevs : vm'.devList.isEmpty = vm.devList.isEmpty) : SameConsoles h h' := by
  intro j
  rw [hvms, Function.update_apply]
  split
  · rename_i heq
    rw [heq, hvm, Option.map_some, Option.map_some, hst, hdevs]
  · rfl

theorem Attachable.isEmpty_eq (ha : Attachable vm) (hst : vm'.status = vm.status)
    (hdevs : vm'.devList.isEmpty = vm.devList.isEmpty) : Attachable vm' where
  ran := by rw [hst]; exact ha.ran
  console hnil := by
    rw [hnil, List.isEmpty_nil] at hdevs
    exact ha.console (List.isEmpty_iff.mp hdevs.symm)

/-- `vc_detach` gives the UART back to the host if the interrupt can be unmounted. -/
theorem ConsoleInv.vcDetach (hi : ConsoleInv h) (hg : Unmounts h)
    (hvc : h.currVcIdx ≠ maxVmNum) (hok : vcDetach h h.currVcIdx = .ok h') :
    ConsoleInv h' ∧ h'.currVcIdx = maxVmNum ∧ SameConsoles h h' := by
  have hshape : Shapes h' := hi.shapes.vcDetach hok
  have hsameVms := (vcDetach_same hok).1
  obtain ⟨vm, vm', hvm, humount, rfl⟩ := vcDetach_cases hok
  obtain ⟨vm0, hvm0, hatt⟩ := hi.attached hvc
  rw [hvm] at hvm0
  cases hvm0
  obtain ⟨gicd, hleaves⟩ := setUartHw_leaves humount
  have hold := hi.owned.vms _ vm hvm
  refine ⟨hi.give rfl hshape hsameVms rfl (Or.inr ⟨Or.inl rfl, Or.inr rfl⟩) (by simp) ?_
    (fun heq => absurd heq.symm hvc), rfl, SameConsoles.update hvm rfl (by rw [hleaves]; rfl)
    (by rw [hleaves]; exact setOpen_isEmpty false vm)⟩
  have hcases := setUartHw_cases ((hi.shapes _ vm hvm).setOpen false) hatt.ran humount
  have hdevs : vm'.devList = (setOpen false vm).devList := by rw [hleaves]
  refine
    { mounted := ?_
      served := fun _ _ heq => absurd heq.symm hvc
      opened := ?_
      single := ?_ }
  · intro virqs hvirqs hhw
    rcases hcases with ⟨heq, hdis⟩ | ⟨virqs0, -, -, heq⟩
    · -- not unmounted: the flag was not set
      rw [heq] at hvirqs
      have hen := hg vm virqs hvm hvirqs hhw
      rw [hdis virqs hvirqs] at hen
      cases hen
    · rw [heq] at hvirqs
      cases hvirqs
      rw [Function.update_self] at hhw
      cases hhw
  · intro d hd hopen
    rw [hdevs] at hd
    have hclosed := hold.single d (setOpen_false_open hd hopen)
    rw [hopen] at hclosed
    cases hclosed
  · intro d hd
    rw [hdevs, setOpen_tail] at hd
    exact hold.single d hd

/-- Opening the console of a VM while the host has just closed its own. -/
theorem ConsoleInv.openConsole (hi : ConsoleInv h) (hvc : h.currVcIdx = maxVmNum) {i : Nat}
    (hvm : h.vms i = some vm) (hatt : Attachable vm)
    (hok : openConsole { h with hostConsole := false } i = .ok h') :
    ConsoleInv h' ∧ h'.currVcIdx = i ∧ Unmounts h' ∧ SameConsoles h h' := by
  have hid := hi.placed.in_range i vm hvm
  have hsame := (openConsole_same hok).1
  obtain ⟨vm0, hvm0, hcases⟩ := openConsole_cases hok
  have heq0 : vm0 = vm := Option.some.inj (hvm0.symm.trans hvm)
  subst heq0
  rcases hcases with ⟨hnil, -⟩ | ⟨vm', -, hmount, rfl⟩
  · exact absurd hnil hatt.console
  obtain ⟨gicd, hleaves⟩ := setUartHw_leaves hmount
  have hold := hi.owned.vms _ vm0 hvm
  have hdevs : vm'.devList = (setOpen true vm0).devList := by rw [hleaves]
  have hempty : vm'.devList.isEmpty = vm0.devList.isEmpty := by
    rw [hdevs]
    exact setOpen_isEmpty true vm0
  have hst : vm'.status = vm0.status := by rw [hleaves]; rfl
  have hfree : h.currVcIdx ≠ i := by omega
  have hhw : ∀ virqs, vm0.gicd = some virqs → (virqs uartVirq).hw ≠ true :=
    fun virqs hvirqs hset => hfree (hold.mounted virqs hvirqs hset)
  have hflag : ∀ virqs, vm'.gicd = some virqs →
      (virqs uartVirq).hw = (virqs uartVirq).enable := by
    intro virqs hvirqs
    rcases setUartHw_cases ((hi.shapes _ vm0 hvm).setOpen true) hatt.ran hmount with
      ⟨heq, hdis⟩ | ⟨virqs0, -, hen, heq⟩
    · rw [heq] at hvirqs
      rw [hdis virqs hvirqs]
      exact Bool.eq_false_iff.mpr (hhw virqs hvirqs)
    · rw [heq] at hvirqs
      cases hvirqs
      rw [Function.update_self]
      exact hen.symm
  have hvms : ({ { h with hostConsole := false }.setVm i (some vm') with
      currVcIdx := vm0.id } : Hyp).vms = Function.update h.vms i (some vm') := rfl
  refine ⟨hi.give hvms ?_ ⟨hsame.hypInitOk_eq, hsame.totalVm_eq, hsame.vmBitmap_eq, hsame.ident_eq⟩
    hid.2 (Or.inr ⟨Or.inr hvc, Or.inl rfl⟩) ⟨fun heq => (by cases heq), fun heq => ?_⟩ ?_
    (fun _ => hatt.isEmpty_eq hst hempty), hid.2, ?_, SameConsoles.update hvm hvms hst hempty⟩
  · refine hi.shapes.update (o := some vm') ?_ hvms
    rintro vm1 ⟨⟩
    exact ((hi.shapes i vm0 hvm).setOpen true).setUartHw hmount
  · omega
  · refine
      { mounted := fun _ _ _ => rfl
        served := fun virqs hvirqs _ hen => (hflag virqs hvirqs).trans hen
        opened := fun _ _ _ => rfl
        single := fun d hd => ?_ }
    rw [hdevs, setOpen_tail] at hd
    exact hold.single d hd
  · intro vm1 virqs hvm1 hvirqs hset
    have hself : some vm' = some vm1 := by
      rw [← hvm1]
      show some vm' = Function.update h.vms i (some vm') vm0.id
      rw [hid.2, Function.update_self]
    cases hself
    exact (hflag virqs hvirqs).symm.trans hset

theorem SameConsoles.exists_before (hs : SameConsoles h h') {i : Nat} (hvm : h'.vms i = some vm') :
    ∃ vm, h.vms i = some vm ∧ vm'.status = vm.status ∧
      vm'.devList.isEmpty = vm.devList.isEmpty := by
  have heq := hs i
  rw [hvm, Option.map_some] at heq
  obtain ⟨vm, hold, hpair⟩ := Option.map_eq_some_iff.mp heq.symm
  exact ⟨vm, hold, (congrArg Prod.fst hpair).symm, (congrArg Prod.snd hpair).symm⟩

theorem Alternates.same (hs : SameConsoles h h') (hu : Unmounts h') {att : Bool}
    {opts : List IdxOpt} (ha : Alternates h att opts) : Alternates h' att opts := by
  induction opts generalizing att with
  | nil => trivial
  | cons o opts ih =>
      cases o with
      | bad => trivial
      | i n =>
          intro hlt vm' hvm' honline
          obtain ⟨vm, hvm, hst, hempty⟩ := hs.exists_before hvm'
          obtain ⟨hdevs, hrest⟩ := ha hlt vm hvm (hst.symm.trans honline)
          refine ⟨?_, ih hrest⟩
          have hiff : vm'.devList = [] ↔ vm.devList = [] := by
            rw [← List.isEmpty_iff, ← List.isEmpty_iff, hempty]
          cases att with
          | true => exact ⟨hiff.mpr hdevs.1, hu⟩
          | false => exact fun hnil => hdevs (hiff.mp hnil)

/-- `get_curr_vc` finds the console of the attached VM. -/
theorem ConsoleInv.getCurrVc_eq (hi : ConsoleInv h) :
    getCurrVc h = .ok (if h.currVcIdx = maxVmNum then none else some h.currVcIdx) := by
  unfold getCurrVc
  by_cases hvc : h.currVcIdx = maxVmNum
  · rw [if_neg (not_not_intro hvc), if_pos hvc]
    rfl
  · obtain ⟨vm, hvm, hatt⟩ := hi.attached hvc
    have hempty : vm.devList.isEmpty = false := by simpa using hatt.console
    rw [if_pos hvc, if_neg hvc, hvm, deref_some, ok_bind, hempty]
    rfl

private theorem unmounts_of_host (hi : ConsoleInv h) (hvc : h.currVcIdx = maxVmNum) :
    Unmounts h := by
  intro vm virqs hvm
  have hlt := (hi.placed.in_range _ vm hvm).1
  omega

theorem ConsoleInv.vcAttach (hi : ConsoleInv h) {i : Nat} (hvm : h.vms i = some vm)
    (honline : vm.status = .online)
    (hg : if h.currVcIdx != maxVmNum then vm.devList = [] ∧ Unmounts h else vm.devList ≠ [])
    (hok : vcAttach h i = .ok h') :
    ConsoleInv h' ∧ (h'.currVcIdx != maxVmNum) = !(h.currVcIdx != maxVmNum) ∧ Unmounts h' ∧
      SameConsoles h h' := by
  have hlt := (hi.placed.in_range i vm hvm).1
  obtain ⟨h1, hopen, hfirst⟩ := vcAttach_cases hok
  rw [hi.getCurrVc_eq] at hfirst
  by_cases hvc : h.currVcIdx = maxVmNum
  · rw [if_pos hvc] at hfirst
    rw [hvc, bne_self_eq_false, if_neg (by decide)] at hg
    rcases hfirst with ⟨-, rfl⟩ | ⟨j, hj, -⟩
    · have hatt : Attachable vm := ⟨by rw [honline]; decide, hg⟩
      obtain ⟨hinv, howner, hunmounts, hsame⟩ := hi.openConsole hvc hvm hatt hopen
      refine ⟨hinv, ?_, hunmounts, hsame⟩
      rw [hvc, howner, bne_self_eq_false, Bool.not_false, bne_iff_ne]
      omega
    · cases hj
  · rw [if_neg hvc] at hfirst
    rw [bne_iff_ne.mpr hvc, if_pos rfl] at hg
    rcases hfirst with ⟨hj, -⟩ | ⟨j, hj, hdetach⟩
    · cases hj
    · cases hj
      obtain ⟨hinv, howner, hsame⟩ := hi.vcDetach hg.2 hvc hdetach
      obtain ⟨vm1, hvm1, hcases⟩ := openConsole_cases hopen
      obtain ⟨vm0, hvm0, -, hempty⟩ := hsame.exists_before hvm1
      rw [hvm] at hvm0
      cases hvm0
      rw [hg.1, List.isEmpty_nil] at hempty
      rcases hcases with ⟨-, rfl⟩ | ⟨vm', hne, -⟩
      · refine ⟨hinv, ?_, unmounts_of_host hinv howner, hsame⟩
        rw [howner, bne_self_eq_false, bne_iff_ne.mpr hvc, Bool.not_true]
      · exact absurd (List.isEmpty_iff.mp hempty) hne

/-- Along the options of one `attach_vm`, the UART goes back and forth. -/
theorem ConsoleInv.attach (hi : ConsoleInv h) {opts : List IdxOpt}
    (hg : Alternates h (h.currVcIdx != maxVmNum) opts) (hok : attachVm h opts = .ok (r, h')) :
    ConsoleInv h' := by
  induction opts generalizing h with
  | nil =>
      simp only [attachVm, pure_eq_ok, Prod.mk.injEq] at hok
      obtain ⟨-, rfl⟩ := hok
      exact hi
  | cons o opts ih =>
      rcases attachVm_cases hok with rfl | ⟨n, vm, h1, rfl, hlt, hvm, honline, hattach, hrest⟩
      · exact hi
      · obtain ⟨hdevs, hgrest⟩ := hg hlt vm hvm honline
        obtain ⟨hinv, howner, hunmounts, hsame⟩ := hi.vcAttach hvm honline hdevs hattach
        refine ih hinv ?_ hrest
        rw [howner]
        exact hgrest.same hsame hunmounts

theorem ConsoleInv.quit (hi : ConsoleInv h) (hg : Unmounts h)
    (hok : consoleQuit h = .ok (r, h')) : ConsoleInv h' := by
  rcases consoleQuit_cases hok with ⟨-, rfl⟩ | ⟨i, hvc, hdetach⟩
  · exact hi
  · rw [hi.getCurrVc_eq] at hvc
    by_cases hhost : h.currVcIdx = maxVmNum
    · rw [if_pos hhost] at hvc
      cases hvc
    · rw [if_neg hhost] at hvc
      cases hvc
      exact (hi.vcDetach hg hhost hdetach).1

/-! ## Runs -/

theorem ConsoleInv.step (hi : ConsoleInv h) {c : Cmd} (hg : KeepsConsole h c)
    (hok : step B osImg h c = .ok h') : ConsoleInv h' := by
  obtain ⟨r, hexec⟩ := step_cases hok
  cases c with
  | create el2 opts => exact hi.create hexec
  | pick opts =>
      obtain ⟨n, rfl⟩ := pickVm_same hexec
      exact ⟨⟨hi.owned.vms, hi.owned.host⟩, hi.shapes, ⟨hi.placed.in_range, hi.placed.bit_set⟩,
        hi.attached⟩
  | run => exact hi.run hexec
  | pause => exact hi.pause hexec
  | halt => exact hi.halt hexec
  | delete => exact hi.delete hg hexec
  | attach opts => exact hi.attach hg hexec
  | quit => exact hi.quit hg hexec
  | wfi i j =>
      simp only [exec, bind_eq_ok, pure_eq_ok, Prod.mk.injEq] at hexec
      obtain ⟨h1, hon, -, rfl⟩ := hexec
      exact hi.onVcpu hon
  | fault i j =>
      simp only [exec, bind_eq_ok, pure_eq_ok, Prod.mk.injEq] at hexec
      obtain ⟨h1, hon, -, rfl⟩ := hexec
      exact hi.onVcpu hon
  | wake i j =>
      simp only [exec, bind_eq_ok, pure_eq_ok, Prod.mk.injEq] at hexec
      obtain ⟨h1, hon, -, rfl⟩ := hexec
      exact hi.onVcpu hon
  | writeEnabler i j enable word val =>
      simp only [exec, bind_eq_ok, pure_eq_ok, Prod.mk.injEq] at hexec
      obtain ⟨h1, hwrite, -, rfl⟩ := hexec
      exact hi.writeEnabler hg hwrite
  | reap =>
      simp only [exec, pure_eq_ok, Prod.mk.injEq] at hexec
      obtain ⟨-, rfl⟩ := hexec
      exact hi.reap

/-- The UART interrupt of VM `i` is mounted. -/
def Mounts (h : Hyp) (i : Nat) : Prop :=
  ∃ vm virqs, h.vms i = some vm ∧ vm.gicd = some virqs ∧ (virqs uartVirq).hw = true

/-- VM `i` has an open console device. -/
def Opens (h : Hyp) (i : Nat) : Prop :=
  ∃ vm d, h.vms i = some vm ∧ d ∈ vm.devList ∧ d.isOpen = true

/-- In every run whose commands keep the console, the UART has one owner. -/
theorem console_exclusive {t : Hyp} {es : List Cmd} (hb : Boot h)
    (hg : Guarded (step B osImg) KeepsConsole h es) (hrun : run (step B osImg) h es = .ok t) :
    ConsoleOwned t ∧ (∀ i j, Mounts t i → Mounts t j → i = j) ∧
      ∀ i j, Opens t i → Opens t j → i = j := by
  have hinv : ConsoleInv t :=
    run_inv_of_returns (fun _ _ _ hi hc hok => hi.step hc hok) (consoleInv_boot hb) hg hrun
  refine ⟨hinv.owned, ?_, ?_⟩
  · rintro i j ⟨vm, virqs, hvm, hvirqs, hhw⟩ ⟨vm', virqs', hvm', hvirqs', hhw'⟩
    have howner := (hinv.owned.vms i vm hvm).mounted virqs hvirqs hhw
    exact howner.symm.trans ((hinv.owned.vms j vm' hvm').mounted virqs' hvirqs' hhw')
  · rintro i j ⟨vm, d, hvm, hd, hopen⟩ ⟨vm', d', hvm', hd', hopen'⟩
    have howner := (hinv.owned.vms i vm hvm).opened d hd hopen
    exact howner.symm.trans ((hinv.owned.vms j vm' hvm').opened d' hd' hopen')

/-- `hw` and `enable` of the UART interrupt, and the `is_open` flags, of VM `i`. -/
def consoleOf (h : Hyp) (i : Nat) : Option (Bool × Bool × List Bool) :=
  (h.vms i).bind fun vm => vm.gicd.map fun virqs =>
    ((virqs uartVirq).hw, (virqs uartVirq).enable, vm.devList.map (·.isOpen))

private theorem exists_of_consoleOf {i : Nat} {hw en : Bool} {devs : List Bool}
    (heq : consoleOf h i = some (hw, en, devs)) :
    ∃ vm virqs, h.vms i = some vm ∧ vm.gicd = some virqs ∧ (virqs uartVirq).hw = hw ∧
      (virqs uartVirq).enable = en := by
  obtain ⟨vm, hvm, heq⟩ := Option.bind_eq_some_iff.mp heq
  obtain ⟨virqs, hvirqs, heq⟩ := Option.map_eq_some_iff.mp heq
  simp only [Prod.mk.injEq] at heq
  exact ⟨vm, virqs, hvm, hvirqs, heq.1, heq.2.1⟩

/-- The guest enables the UART interrupt, its console is attached, and it quits. -/
theorem console_exclusive_quit :
    Guarded (step roomy osImg) KeepsConsole boot
      [.create true [.i 0], .run, .writeEnabler 0 0 true 1 2, .attach [.i 0], .quit] ∧
    ∃ t, run (step roomy osImg) boot
      [.create true [.i 0], .run, .writeEnabler 0 0 true 1 2, .attach [.i 0], .quit] = .ok t ∧
      ConsoleOwned t := by
  have hstart : (run (step roomy osImg) boot [.create true [.i 0], .run]).map
      (fun t => t.currVcIdx) = .ok 4 := by
    decide
  have henabled : (run (step roomy osImg) boot
      [.create true [.i 0], .run, .writeEnabler 0 0 true 1 2]).map
        (fun t => (t.currVcIdx, (t.vms 0).map (·.devList.isEmpty))) = .ok (4, some false) := by
    decide
  have hattached : (run (step roomy osImg) boot
      [.create true [.i 0], .run, .writeEnabler 0 0 true 1 2, .attach [.i 0]]).map
        (fun t => (t.currVcIdx, consoleOf t 0)) = .ok (0, some (true, true, [true])) := by
    decide
  have hend : (run (step roomy osImg) boot
      [.create true [.i 0], .run, .writeEnabler 0 0 true 1 2, .attach [.i 0], .quit]).map
        (fun t => t.currVcIdx) = .ok 4 := by
    decide
  have hg : Guarded (step roomy osImg) KeepsConsole boot
      [.create true [.i 0], .run, .writeEnabler 0 0 true 1 2, .attach [.i 0], .quit] := by
    refine ⟨trivial, fun h1 hs1 => ⟨trivial, fun h2 hs2 => ⟨?_, fun h3 hs3 =>
      ⟨?_, fun h4 hs4 => ⟨?_, fun _ _ => trivial⟩⟩⟩⟩⟩
    · -- the host owns the UART
      rw [run_cons_ok hs1, run_cons_ok hs2] at hstart
      have hvc : h2.currVcIdx = 4 := Except.ok.inj hstart
      intro _ hatt
      rw [hvc] at hatt
      cases hatt
    · rw [run_cons_ok hs1, run_cons_ok hs2, run_cons_ok hs3] at henabled
      obtain ⟨hvc, hdevs⟩ := Prod.mk.inj (Except.ok.inj henabled)
      intro _ vm hvm _
      refine ⟨?_, trivial⟩
      rw [hvc, if_neg (by decide)]
      intro hnil
      rw [show h3.vms 0 = some vm from hvm, Option.map_some, hnil] at hdevs
      cases hdevs
    · rw [run_cons_ok hs1, run_cons_ok hs2, run_cons_ok hs3, run_cons_ok hs4] at hattached
      obtain ⟨hvc, hconsole⟩ := Prod.mk.inj (Except.ok.inj hattached)
      intro vm virqs hvm hvirqs _
      rw [hvc] at hvm
      obtain ⟨vm0, virqs0, hvm0, hvirqs0, -, hen⟩ := exists_of_consoleOf hconsole
      cases hvm.symm.trans hvm0
      cases hvirqs.symm.trans hvirqs0
      exact hen
  obtain ⟨t, hok, -⟩ := exists_of_map_eq_ok hend
  exact ⟨hg, t, hok, (console_exclusive boot_boot hg hok).1⟩

/-- The three ways to lose track of the UART: the console goes from VM 0 to VM 1, and the
host console is open; the guest enables the interrupt after it was attached, and it is not
mounted; the guest disables it before it quits, and it stays mounted. -/
theorem console_shared :
    (∃ t, run (step roomy osImg) boot [.create true [.i 0], .run, .create true [.i 0], .run,
      .attach [.i 0], .attach [.i 1]] = .ok t ∧ ¬ConsoleOwned t) ∧
    (∃ t, run (step roomy osImg) boot [.create true [.i 0], .run, .attach [.i 0],
      .writeEnabler 0 0 true 1 2] = .ok t ∧ ¬ConsoleOwned t) ∧
    ∃ t, run (step roomy osImg) boot [.create true [.i 0], .run, .writeEnabler 0 0 true 1 2,
      .attach [.i 0], .writeEnabler 0 0 false 1 2, .quit] = .ok t ∧ ¬ConsoleOwned t := by
  refine ⟨?_, ?_, ?_⟩
  · have hrun : (run (step roomy osImg) boot [.create true [.i 0], .run, .create true [.i 0],
        .run, .attach [.i 0], .attach [.i 1]]).map (fun t => (t.hostConsole, t.currVcIdx)) =
          .ok (true, 1) := by
      decide
    obtain ⟨t, hok, hval⟩ := exists_of_map_eq_ok hrun
    obtain ⟨hhost, hvc⟩ := Prod.mk.inj hval
    refine ⟨t, hok, fun howned => ?_⟩
    have hvc' := howned.host.mp hhost
    rw [hvc] at hvc'
    cases hvc'
  · have hrun : (run (step roomy osImg) boot [.create true [.i 0], .run, .attach [.i 0],
        .writeEnabler 0 0 true 1 2]).map (fun t => (t.currVcIdx, consoleOf t 0)) =
          .ok (0, some (false, true, [true])) := by
      decide
    obtain ⟨t, hok, hval⟩ := exists_of_map_eq_ok hrun
    obtain ⟨hvc, hconsole⟩ := Prod.mk.inj hval
    obtain ⟨vm, virqs, hvm, hvirqs, hhw, hen⟩ := exists_of_consoleOf hconsole
    refine ⟨t, hok, fun howned => ?_⟩
    have hserved := (howned.vms 0 vm hvm).served virqs hvirqs hvc hen
    rw [hhw] at hserved
    cases hserved
  · have hrun : (run (step roomy osImg) boot [.create true [.i 0], .run,
        .writeEnabler 0 0 true 1 2, .attach [.i 0], .writeEnabler 0 0 false 1 2, .quit]).map
          (fun t => (t.currVcIdx, consoleOf t 0)) = .ok (4, some (true, false, [false])) := by
      decide
    obtain ⟨t, hok, hval⟩ := exists_of_map_eq_ok hrun
    obtain ⟨hvc, hconsole⟩ := Prod.mk.inj hval
    obtain ⟨vm, virqs, hvm, hvirqs, hhw, -⟩ := exists_of_consoleOf hconsole
    refine ⟨t, hok, fun howned => ?_⟩
    have hvc' := (howned.vms 0 vm hvm).mounted virqs hvirqs hhw
    rw [hvc] at hvc'
    cases hvc'

end RtHypervisor.Ports.Hypervisor
