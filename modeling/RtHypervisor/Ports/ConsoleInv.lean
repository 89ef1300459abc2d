import RtHypervisor.Ports.VmShape

/-!
# Who owns the UART

Four things say whose the UART is: `curr_vc_idx`, the `hw` flag of the UART
interrupt in each distributor, the `is_open` flag of each console device, and
whether the host console device is open.  `vc_attach` and `vc_detach` change all of
them, but `vgic_virq_mount` and `vgic_virq_umount` act only if the guest has the
interrupt enabled at that moment, and the way from one VM to another goes through
`vc_detach`, which opens the host console, without closing it again.

`ConsoleInv` is the invariant, kept here by the commands that attach and detach
nothing.
-/

namespace RtHypervisor.Ports.Hypervisor

open RtHypervisor.Verified.Run
open RtHypervisor.Ports.ListRegister (Virq virqPrivNum)
open RtHypervisor.Ports.Platform
open RtHypervisor.Ports.Stage2
open RtHypervisor.Ports.Mm
open RtHypervisor.Ports.VmLife

variable {B : Board} {os : Nat → OsDesc} {h h' : Hyp} {vm vm' : Vm} {r : RtErr}

/-- What must hold of a VM whose console is attached (`att`) or not. -/
structure VmConsole (att : Prop) (vm : Vm) : Prop where
  mounted : ∀ virqs, vm.gicd = some virqs → (virqs uartVirq).hw = true → att
  served : ∀ virqs, vm.gicd = some virqs → att → (virqs uartVirq).enable = true →
    (virqs uartVirq).hw = true
  opened : ∀ d ∈ vm.devList, d.isOpen = true → att
  single : ∀ d ∈ vm.devList.tail, d.isOpen = false

/-- The UART has one owner: every VM agrees with `curr_vc_idx`, and the host console is open
exactly while the host owns it. -/
structure ConsoleOwned (h : Hyp) : Prop where
  vms : ∀ i vm, h.vms i = some vm → VmConsole (h.currVcIdx = i) vm
  host : h.hostConsole = true ↔ h.currVcIdx = maxVmNum

/-- The UART interrupt of the attached VM can be unmounted. -/
def Unmounts (h : Hyp) : Prop :=
  ∀ vm virqs, h.vms h.currVcIdx = some vm → vm.gicd = some virqs →
    (virqs uartVirq).hw = true → (virqs uartVirq).enable = true

/-- The options of `attach_vm`, up to the first one it refuses, go from the host to a VM with
a console and from a VM (`att`) to one without. -/
def Alternates (h : Hyp) : Bool → List IdxOpt → Prop
  | _, [] => True
  | _, .bad :: _ => True
  | att, .i n :: rest => toUint8 n < maxVmNum → ∀ vm, h.vms (toUint8 n) = some vm →
      vm.status = .online →
      (if att then vm.devList = [] ∧ Unmounts h else vm.devList ≠ []) ∧ Alternates h (!att) rest

/-- The condition on a command. -/
def KeepsConsole (h : Hyp) : Cmd → Prop
  | .attach opts => Alternates h (h.currVcIdx != maxVmNum) opts
  | .quit => Unmounts h
  | .writeEnabler i _ enable word val =>
      enable = true → h.currVcIdx = i → word = 1 → val.getLsbD 1 = true →
      ∀ vm virqs, h.vms i = some vm → vm.gicd = some virqs → (virqs uartVirq).hw = true
  | .delete => h.currVmIdx = h.currVcIdx → h.vms h.currVmIdx = none
  | _ => True

/-! ## The operations -/

/-- A VM that looks the same to the console. -/
theorem VmConsole.congr {att : Prop} (hc : VmConsole att vm) (hgicd : vm'.gicd = vm.gicd)
    (hdevs : vm'.devList = vm.devList) : VmConsole att vm' where
  mounted virqs hv := hc.mounted virqs (by rw [← hgicd, hv])
  served virqs hv := hc.served virqs (by rw [← hgicd, hv])
  opened d hd := hc.opened d (by rw [← hdevs]; exact hd)
  single d hd := hc.single d (by rw [← hdevs]; exact hd)

private theorem uartEnabled_of_vcpu {virqs : Nat → Virq} {v : Vcpu} {cells : List Cell} {b : Bool}
    (hok : uartEnabled (some virqs) (.vcpu v :: cells) = .ok b) (hb : b = false) :
    (virqs uartVirq).enable = false := by
  simp only [uartEnabled, Cell.deref, deref_some, ok_bind] at hok
  split at hok
  · rw [← pure_eq_ok.mp hok] at hb
    cases hb
  · rename_i hdis
    simpa using hdis

private theorem uartEnabled_true {gicd : Option (Nat → Virq)} {cells : List Cell}
    (hok : uartEnabled gicd cells = .ok true) :
    ∃ virqs, gicd = some virqs ∧ (virqs uartVirq).enable = true := by
  induction cells with
  | nil => cases pure_eq_ok.mp hok
  | cons c cells ih =>
      cases c with
      | null => exact ih hok
      | wild => cases hok
      | vcpu v =>
          simp only [uartEnabled, Cell.deref, ok_bind, bind_eq_ok, deref_eq_ok] at hok
          obtain ⟨virqs, hvirqs, hok⟩ := hok
          split at hok
          · rename_i hen
            exact ⟨virqs, hvirqs, hen⟩
          · exact ih hok

/-- Mounting and unmounting reach the flag exactly if the interrupt is enabled. -/
theorem setUartHw_cases {hw : Bool} {pINTID : BitVec 16} (hs : Shape vm)
    (hran : vm.status ≠ .neverRun) (hok : setUartHw vm hw pINTID = .ok vm') :
    (vm' = vm ∧ ∀ virqs, vm.gicd = some virqs → (virqs uartVirq).enable = false) ∨
    ∃ virqs, vm.gicd = some virqs ∧ (virqs uartVirq).enable = true ∧
      vm' = { vm with gicd := some (Function.update virqs uartVirq
        { virqs uartVirq with hw := hw, pINTID := pINTID }) } := by
  unfold setUartHw at hok
  split at hok
  · rename_i hn
    refine Or.inl ⟨(pure_eq_ok.mp hok).symm, fun virqs hvirqs => ?_⟩
    rw [hs.empty hn] at hvirqs
    cases hvirqs
  · rename_i hn
    obtain ⟨v, cells, hcells⟩ := hs.main hran hn
    simp only [bind_eq_ok, deref_eq_ok] at hok
    obtain ⟨cells', hcells', b, hb, hok⟩ := hok
    rw [hcells] at hcells'
    cases hcells'
    cases b with
    | true =>
        obtain ⟨virqs, hvirqs, hen⟩ := uartEnabled_true hb
        simp only [if_true, hvirqs, Option.map_some, pure_eq_ok] at hok
        exact Or.inr ⟨virqs, hvirqs, hen, hok.symm⟩
    | false =>
        simp only [Bool.false_eq_true, if_false, pure_eq_ok] at hok
        refine Or.inl ⟨hok.symm, fun virqs hvirqs => ?_⟩
        rw [hvirqs] at hb
        exact uartEnabled_of_vcpu hb rfl

/-- A write to an enable register changes no `hw` flag, and the UART's `enable` only through
its own bit. -/
theorem writeEnable_uart {enable : Bool} {word : Nat} {val : BitVec 64} {is : List Nat}
    {virqs virqs' : Nat → Virq} (his : ∀ i ∈ is, i < 32)
    (hok : writeEnable enable word val virqs is = .ok virqs') :
    (virqs' uartVirq).hw = (virqs uartVirq).hw ∧
    ((virqs' uartVirq).enable = (virqs uartVirq).enable ∨
     ((virqs' uartVirq).enable = enable ∧ word = 1 ∧ val.getLsbD 1 = true)) := by
  induction is generalizing virqs with
  | nil =>
      cases pure_eq_ok.mp hok
      exact ⟨rfl, Or.inl rfl⟩
  | cons i is ih =>
      have hi := his i List.mem_cons_self
      have hrest : ∀ j ∈ is, j < 32 := fun j hj => his j (List.mem_cons_of_mem _ hj)
      unfold writeEnable at hok
      split at hok
      · rename_i hbit
        simp only [bind_eq_ok, check_eq_ok, Bool.and_eq_true, decide_eq_true_eq] at hok
        obtain ⟨-, ⟨hlo, -⟩, hok⟩ := hok
        obtain ⟨hhw, hen⟩ := ih hrest hok
        by_cases hk : uartVirq = 32 * word + i - virqPrivNum
        · -- INTID 33 is bit 1 of the second register
          rw [← hk, Function.update_self] at hhw hen
          have hwi : word = 1 ∧ i = 1 := by
            unfold uartVirq virqPrivNum at hk
            unfold virqPrivNum at hlo
            omega
          obtain ⟨rfl, rfl⟩ := hwi
          refine ⟨hhw, Or.inr ⟨?_, rfl, hbit⟩⟩
          rcases hen with heq | ⟨heq, -⟩
          · exact heq
          · exact heq
        · rw [Function.update_of_ne hk] at hhw hen
          exact ⟨hhw, hen⟩
      · exact ih hrest hok

/-- What the console sees of `run_vm`. -/
theorem runVmOn_console {e : Env} {p : Vm × Env} (hok : runVmOn B os e vm = .ok (r, p)) :
    (vm.status ≠ .neverRun ∧ p.1.status ≠ .neverRun ∧ p.1.gicd = vm.gicd ∧
      p.1.devList = vm.devList) ∨
    (vm.status = .neverRun ∧
      (p.1.gicd = vm.gicd ∨ ∃ k old virqs, vgicdInit old (os k).virqNum = .ok virqs ∧
        p.1.gicd = some virqs) ∧
      (p.1.devList = vm.devList ∨ p.1.devList = ⟨false⟩ :: vm.devList)) := by
  unfold runVmOn at hok
  have hgo : ∀ e0 : Env, vm.status ≠ .neverRun →
      (vmGo e0 { vm with status := .online } >>= fun q => pure (RtErr.eok, q)) = .ok (r, p) →
      vm.status ≠ .neverRun ∧ p.1.status ≠ .neverRun ∧ p.1.gicd = vm.gicd ∧
        p.1.devList = vm.devList := by
    intro e0 hran hok
    simp only [bind_eq_ok, pure_eq_ok, Prod.mk.injEq] at hok
    obtain ⟨⟨vm1, e1⟩, hgo, -, rfl⟩ := hok
    obtain ⟨vcpus, rfl⟩ := vmGo_leaves hgo
    exact ⟨hran, fun heq => (by cases heq), rfl, rfl⟩
  split at hok
  · rename_i hst
    exact Or.inl (hgo e (by rw [hst]; decide) hok)
  · rename_i hst
    exact Or.inl (hgo e (by rw [hst]; decide) hok)
  · rename_i hst
    simp only [pure_eq_ok, Prod.mk.injEq] at hok
    obtain ⟨-, rfl⟩ := hok
    exact Or.inl ⟨by rw [hst]; decide, by rw [hst]; decide, rfl, rfl⟩
  · rename_i hst
    obtain ⟨⟨r1, vm1, e1⟩, hinit, hok⟩ := bind_eq_ok.mp hok
    obtain ⟨vcpus, mm, gicd, devs, rfl, -, -, hgicd, hdevs⟩ := vmInit_leaves hinit
    have hgicd' : gicd = vm.gicd ∨ ∃ k old virqs, vgicdInit old (os k).virqNum = .ok virqs ∧
        gicd = some virqs := by
      rcases hgicd with heq | ⟨k, old, virqs, -, -, hvirqs, heq⟩
      · exact Or.inl heq
      · exact Or.inr ⟨k, old, virqs, hvirqs, heq⟩
    right
    split at hok
    · rename_i heq
      cases heq
      simp only [bind_eq_ok, pure_eq_ok, Prod.mk.injEq] at hok
      obtain ⟨⟨vm2, e2⟩, hgo1, -, rfl⟩ := hok
      obtain ⟨vcpus2, rfl⟩ := vmGo_leaves hgo1
      exact ⟨hst, hgicd', hdevs⟩
    · simp only [pure_eq_ok, Prod.mk.injEq] at hok
      obtain ⟨-, rfl⟩ := hok
      exact ⟨hst, hgicd', hdevs⟩
  · rename_i hst
    simp only [pure_eq_ok, Prod.mk.injEq] at hok
    obtain ⟨-, rfl⟩ := hok
    exact Or.inl ⟨by rw [hst]; decide, by rw [hst]; decide, rfl, rfl⟩

/-- For the images of the table, `vgicd_init` clears the UART interrupt. -/
theorem vgicdInit_osImg {k : Nat} {old virqs : Nat → Virq}
    (hok : vgicdInit old (osImg k).virqNum = .ok virqs) :
    (virqs uartVirq).hw = false ∧ (virqs uartVirq).enable = false := by
  have hzero : ∀ num : BitVec 64, num = 0 → vgicdInit old num ≠ .ok virqs := by
    rintro num rfl heq
    simp only [vgicdInit, bind_eq_ok, check_eq_ok] at heq
    obtain ⟨-, hbound, -⟩ := heq
    exact absurd hbound (by decide)
  match k with
  | 0 =>
      simp only [vgicdInit, bind_eq_ok, pure_eq_ok] at hok
      obtain ⟨-, -, rfl⟩ := hok
      have hlt : uartVirq < ((osImg 0).virqNum - BitVec.ofNat 64 virqPrivNum).toNat := by decide
      constructor <;> simp only [if_pos hlt]
  | 1 => exact absurd hok (hzero _ rfl)
  | n + 2 => exact absurd hok (hzero _ rfl)

/-! ## The invariant -/

/-- A VM that `attach_vm` can have taken. -/
structure Attachable (vm : Vm) : Prop where
  ran : vm.status ≠ .neverRun
  console : vm.devList ≠ []

/-- Every VM stands at its own index, and the bitmap knows it. -/
structure Placed (h : Hyp) : Prop where
  in_range : ∀ i vm, h.vms i = some vm → i < maxVmNum ∧ vm.id = i
  bit_set : ∀ i vm, h.vms i = some vm → h.vmBitmap.getLsbD i = true

theorem Placed.same (hp : Placed h) (hs : SameVms h h') : Placed h' where
  in_range i vm hvm := by
    obtain ⟨vm0, hvm0, hident⟩ := hs.exists_before hvm
    obtain ⟨hlt, hid⟩ := hp.in_range i vm0 hvm0
    exact ⟨hlt, (congrArg Prod.fst hident).trans hid⟩
  bit_set i vm hvm := by
    obtain ⟨vm0, hvm0, -⟩ := hs.exists_before hvm
    rw [hs.vmBitmap_eq]
    exact hp.bit_set i vm0 hvm0

structure ConsoleInv (h : Hyp) : Prop where
  owned : ConsoleOwned h
  shapes : Shapes h
  placed : Placed h
  attached : h.currVcIdx ≠ maxVmNum →
    ∃ vm, h.vms h.currVcIdx = some vm ∧ Attachable vm

theorem consoleInv_boot (hb : Boot h) : ConsoleInv h := by
  have hnone : ∀ i vm, h.vms i ≠ some vm := by
    intro i vm hvm
    rw [hb.vms_eq] at hvm
    cases hvm
  exact
    { owned :=
        { vms := fun i vm hvm => absurd hvm (hnone i vm)
          host := by rw [hb.hostConsole_eq, hb.currVcIdx_eq]; exact ⟨fun _ => rfl, fun _ => rfl⟩ }
      shapes := shapes_boot hb
      placed := ⟨fun i vm hvm => absurd hvm (hnone i vm), fun i vm hvm => absurd hvm (hnone i vm)⟩
      attached := fun hne => absurd hb.currVcIdx_eq hne }

/-- A VM that has not been run is not attached. -/
theorem ConsoleInv.not_attached (hi : ConsoleInv h) {i : Nat} (hvm : h.vms i = some vm)
    (hst : vm.status = .neverRun) : h.currVcIdx ≠ i := by
  rintro rfl
  have hlt := (hi.placed.in_range _ vm hvm).1
  obtain ⟨vm0, hvm0, hran⟩ := hi.attached (by omega)
  rw [hvm] at hvm0
  cases hvm0
  exact hran.ran hst

/-- One VM changes, and the UART passes to `o`: from the host or that VM to the host or that
VM, unless it stays where it is. -/
theorem ConsoleInv.give (hi : ConsoleInv h) {i o : Nat}
    (hvms : h'.vms = Function.update h.vms i (some vm')) (hshape : Shapes h')
    (hsame : SameVms h h') (howner : h'.currVcIdx = o)
    (hpass : o = h.currVcIdx ∨
      ((h.currVcIdx = i ∨ h.currVcIdx = maxVmNum) ∧ (o = i ∨ o = maxVmNum)))
    (hhost : h'.hostConsole = true ↔ o = maxVmNum) (hconsole : VmConsole (o = i) vm')
    (hatt : o = i → Attachable vm') : ConsoleInv h' where
  owned :=
    { vms := fun j vmj hj => by
        have hlt := ((hi.placed.same hsame).in_range j vmj hj).1
        rw [hvms, Function.update_apply] at hj
        rw [howner]
        split at hj
        · rename_i heq
          cases hj
          rw [heq]
          exact hconsole
        · rename_i hne
          have hiff : h.currVcIdx = j ↔ o = j := by omega
          rw [← hiff]
          exact hi.owned.vms j vmj hj
      host := by rw [howner]; exact hhost }
  shapes := hshape
  placed := hi.placed.same hsame
  attached hne := by
    rw [howner] at hne ⊢
    by_cases heq : o = i
    · exact ⟨vm', by rw [hvms, heq, Function.update_self], hatt heq⟩
    · have hcur : o = h.currVcIdx := by omega
      rw [hvms, Function.update_of_ne heq, hcur]
      exact hi.attached (by omega)

/-- One VM changes, the owner does not. -/
theorem ConsoleInv.update (hi : ConsoleInv h) {i : Nat} (hvm : h.vms i = some vm)
    (hvms : h'.vms = Function.update h.vms i (some vm')) (hshape : Shapes h')
    (hvc : h'.currVcIdx = h.currVcIdx) (hhost : h'.hostConsole = h.hostConsole)
    (hsame : SameVms h h') (hstatus : Attachable vm → Attachable vm')
    (hconsole : VmConsole (h.currVcIdx = i) vm') : ConsoleInv h' := by
  refine hi.give hvms hshape hsame hvc (Or.inl rfl) (by rw [hhost]; exact hi.owned.host)
    hconsole (fun heq => hstatus ?_)
  have hlt := (hi.placed.in_range i vm hvm).1
  obtain ⟨vm0, hvm0, hatt⟩ := hi.attached (by omega)
  rw [heq, hvm] at hvm0
  cases hvm0
  exact hatt

/-! ## Commands that leave the console alone -/

theorem ConsoleInv.run (hi : ConsoleInv h) (hok : runVm B osImg h = .ok (r, h')) :
    ConsoleInv h' := by
  have hshape : Shapes h' := hi.shapes.exec (c := .run) hok
  rcases onCurrVm_cases hok with ⟨-, rfl, -⟩ | ⟨vm, -, hvm, hf⟩
  · exact hi
  simp only [bind_eq_ok, pure_eq_ok, Prod.exists, Prod.mk.injEq] at hf
  obtain ⟨r1, vm1, e1, hrun, -, rfl⟩ := hf
  have hident := runVmOn_ident hrun
  have hold := hi.owned.vms _ vm hvm
  rcases runVmOn_console hrun with ⟨-, hran, hgicd, hdevs⟩ | ⟨hst, hgicd, hdevs⟩
  · exact hi.update hvm rfl hshape rfl rfl (SameVms.put hvm hident)
      (fun hatt => ⟨hran, by rw [hdevs]; exact hatt.console⟩) (hold.congr hgicd hdevs)
  · -- the first run of a VM that is not attached
    have hfree := hi.not_attached hvm hst
    refine hi.update hvm rfl hshape rfl rfl (SameVms.put hvm hident)
      (fun hatt => absurd hst hatt.ran)
      { mounted := ?_, served := fun virqs _ hatt => absurd hatt hfree, opened := ?_, single := ?_ }
    · intro virqs hvirqs hhw
      rcases hgicd with heq | ⟨k, old, virqs', hinit, heq⟩
      · exact hold.mounted virqs (heq.symm.trans hvirqs) hhw
      · rw [hvirqs] at heq
        cases heq
        rw [(vgicdInit_osImg hinit).1] at hhw
        cases hhw
    · intro d hd hopen
      rcases hdevs with heq | heq
      · exact hold.opened d (heq ▸ hd) hopen
      · rcases List.mem_cons.mp (heq ▸ hd) with rfl | hd
        · cases hopen
        · exact hold.opened d hd hopen
    · intro d hd
      rcases hdevs with heq | heq
      · exact hold.single d (heq ▸ hd)
      · rw [heq, List.tail_cons] at hd
        by_contra hopen
        exact hfree (hold.opened d hd (by simpa using hopen))

theorem ConsoleInv.pause (hi : ConsoleInv h) (hok : pauseVm h = .ok (r, h')) : ConsoleInv h' := by
  have hexec : exec roomy osImg h .pause = .ok (r, h') := hok
  have hshape : Shapes h' := hi.shapes.exec hexec
  rcases onCurrVm_cases hok with ⟨-, rfl, -⟩ | ⟨vm, -, hvm, hf⟩
  · exact hi
  simp only [bind_eq_ok, pure_eq_ok, Prod.exists, Prod.mk.injEq] at hf
  obtain ⟨vm1, e1, hsuspend, -, rfl⟩ := hf
  obtain ⟨vcpus, st, hst, rfl⟩ := vmSuspend_leaves hsuspend
  exact hi.update hvm rfl hshape rfl rfl (SameVms.put hvm rfl) (fun hatt => ⟨hst, hatt.console⟩)
    ((hi.owned.vms _ vm hvm).congr rfl rfl)

theorem ConsoleInv.halt (hi : ConsoleInv h) (hok : haltVm h = .ok (r, h')) : ConsoleInv h' := by
  have hexec : exec roomy osImg h .halt = .ok (r, h') := hok
  have hshape : Shapes h' := hi.shapes.exec hexec
  rcases haltVm_cases hok with rfl | ⟨vm, vm1, e1, hvm, hshut, rfl⟩
  · exact hi
  obtain ⟨vcpus, rfl⟩ := vmShutdown_leaves hshut
  exact hi.update hvm rfl hshape rfl rfl (SameVms.put hvm rfl)
    (fun hatt => ⟨fun heq => (by cases heq), hatt.console⟩)
    ((hi.owned.vms _ vm hvm).congr rfl rfl)

theorem ConsoleInv.onVcpu (hi : ConsoleInv h) {i j : Nat} {may : Vcpu → Bool}
    {f : Env → Vcpu → Except Fault (Vcpu × Env)} (hok : onVcpu h i j may f = .ok h') :
    ConsoleInv h' := by
  have hshape : Shapes h' := hi.shapes.onVcpu hok
  rcases onVcpu_cases hok with rfl | ⟨vm, cells, v, v', e', hvm, -, -, -, -, rfl⟩
  · exact hi
  · exact hi.update hvm rfl hshape rfl rfl (SameVms.put hvm rfl)
      (fun hatt => ⟨hatt.ran, hatt.console⟩)
      ((hi.owned.vms _ vm hvm).congr rfl rfl)

theorem ConsoleInv.reap (hi : ConsoleInv h) : ConsoleInv (reapAll h) := by
  have hback : ∀ i vm, (reapAll h).vms i = some vm → ∃ vm0, h.vms i = some vm0 ∧
      vm = { vm0 with vcpus := vm0.vcpus.map fun cells => cells.map Cell.reap } := by
    intro i vm hvm
    obtain ⟨vm0, hvm0, rfl⟩ := Option.map_eq_some_iff.mp hvm
    exact ⟨vm0, hvm0, rfl⟩
  have hexec : exec roomy osImg h .reap = .ok (.eok, reapAll h) := rfl
  have hshape : Shapes (reapAll h) := hi.shapes.exec hexec
  refine
    { owned := ⟨fun i vm hvm => ?_, hi.owned.host⟩
      shapes := hshape
      placed := hi.placed.same (reapAll_same h)
      attached := fun hne => ?_ }
  · obtain ⟨vm0, hvm0, rfl⟩ := hback i vm hvm
    exact (hi.owned.vms i vm0 hvm0).congr rfl rfl
  · obtain ⟨vm0, hvm0, hran⟩ := hi.attached hne
    exact ⟨{ vm0 with vcpus := vm0.vcpus.map fun cells => cells.map Cell.reap },
      by simp only [reapAll, hvm0, Option.map_some], hran.ran, hran.console⟩

theorem ConsoleInv.writeEnabler (hi : ConsoleInv h) {i j word : Nat} {enable : Bool}
    {val : BitVec 64} (hg : KeepsConsole h (.writeEnabler i j enable word val))
    (hok : gicdWriteEnabler h i j enable word val = .ok h') : ConsoleInv h' := by
  have hexec : exec roomy osImg h (.writeEnabler i j enable word val) = .ok (.eok, h') := by
    simp only [exec, hok, ok_bind]
    rfl
  have hshape : Shapes h' := hi.shapes.exec hexec
  rcases gicdWriteEnabler_cases hok with rfl | ⟨vm, virqs, virqs', hvm, hgicd, hwrite, rfl⟩
  · exact hi
  obtain ⟨hhw, hen⟩ := writeEnable_uart (fun i hi => List.mem_range.mp hi) hwrite
  have hold := hi.owned.vms i vm hvm
  refine hi.update hvm rfl hshape rfl rfl (SameVms.setVm hvm rfl)
    (fun hatt => ⟨hatt.ran, hatt.console⟩)
    { mounted := ?_, served := ?_, opened := hold.opened, single := hold.single }
  · rintro virqs'' ⟨⟩ hset
    rw [hhw] at hset
    exact hold.mounted virqs hgicd hset
  · rintro virqs'' ⟨⟩ hatt henabled
    rw [hhw]
    rcases hen with heq | ⟨heq, hword, hbit⟩
    · exact hold.served virqs hgicd hatt (heq.symm.trans henabled)
    · exact hg (heq.symm.trans henabled) hatt hword hbit vm virqs hvm hgicd

/-! ## Creating and deleting -/

theorem ConsoleInv.create (hi : ConsoleInv h) {el2 : Bool} {opts : List CreateOpt}
    (hok : createVm B os h el2 opts = .ok (r, h')) : ConsoleInv h' := by
  have hshape : Shapes h' := hi.shapes.create hok
  obtain ⟨s2, -, ⟨-, ok, bitmap, allocs, -, rfl, hbit⟩ | ⟨k, -, -, -, hlt, rfl⟩⟩ :=
    createVm_outcome hok
  · have hmono : ∀ i, h.vmBitmap.getLsbD i = true → bitmap.getLsbD i = true := by
      intro i hset
      rcases hbit with rfl | ⟨rfl, -⟩
      · exact hset
      · rw [BitVec.getLsbD_or, hset, Bool.true_or]
    exact ⟨⟨hi.owned.vms, hi.owned.host⟩, hshape,
      ⟨hi.placed.in_range, fun i vm hvm => hmono i (hi.placed.bit_set i vm hvm)⟩, hi.attached⟩
  · -- the new VM takes an index whose bit was clear
    have hclear : h.vms (B.findNext h.vmBitmap) = none := by
      cases hvm : h.vms (B.findNext h.vmBitmap) with
      | none => rfl
      | some vm =>
          have hset := hi.placed.bit_set _ vm hvm
          by_cases hones : h.vmBitmap = BitVec.allOnes 32
          · rw [hones, B.findNext_full] at hlt
            exact absurd hlt (by decide)
          · rw [B.findNext_clear _ hones] at hset
            cases hset
    have hne : h.currVcIdx ≠ B.findNext h.vmBitmap := by
      intro heq
      obtain ⟨vm, hvm, -⟩ := hi.attached (by omega)
      rw [heq, hclear] at hvm
      cases hvm
    refine ⟨⟨fun i vm hvm => ?_, hi.owned.host⟩, hshape,
      ⟨fun i vm hvm => ?_, fun i vm hvm => ?_⟩, fun hhost => ?_⟩
    · simp only [Function.update_apply] at hvm
      split at hvm
      · cases hvm
        refine ⟨?_, ?_, ?_, ?_⟩
        · rintro virqs ⟨⟩
        · rintro virqs ⟨⟩
        · rintro d ⟨⟩
        · rintro d ⟨⟩
      · exact hi.owned.vms i vm hvm
    · simp only [Function.update_apply] at hvm
      split at hvm
      · rename_i heq
        cases hvm
        exact ⟨by rw [heq]; exact hlt, heq.symm⟩
      · exact hi.placed.in_range i vm hvm
    · simp only [Function.update_apply] at hvm
      show (h.vmBitmap ||| BitVec.twoPow 32 (B.findNext h.vmBitmap)).getLsbD i = true
      rw [BitVec.getLsbD_or, BitVec.getLsbD_twoPow]
      split at hvm
      · rename_i heq
        have h32 := B.findNext_lt h.vmBitmap
        simp [heq, h32]
      · rw [hi.placed.bit_set i vm hvm, Bool.true_or]
    · obtain ⟨vm, hvm, hran⟩ := hi.attached hhost
      exact ⟨vm, by simp only [Function.update_of_ne hne]; exact hvm, hran⟩

theorem ConsoleInv.delete (hi : ConsoleInv h) (hg : KeepsConsole h .delete)
    (hok : deleteVm B h = .ok (r, h')) : ConsoleInv h' := by
  have hexec : exec B osImg h .delete = .ok (r, h') := hok
  have hshape : Shapes h' := hi.shapes.exec hexec
  rcases deleteVm_cases hok with ⟨-, rfl, -⟩ | ⟨vm, vm1, e1, e2, -, hvm, -, -, -, rfl⟩
  · exact hi
  have hne : h.currVcIdx ≠ h.currVmIdx := by
    intro heq
    rw [hg heq.symm] at hvm
    cases hvm
  have hback : ∀ i vmi, (h.setVm h.currVmIdx none).vms i = some vmi →
      i ≠ h.currVmIdx ∧ h.vms i = some vmi := by
    intro i vmi hvmi
    simp only [Hyp.setVm, Function.update_apply] at hvmi
    split at hvmi
    · cases hvmi
    · rename_i hi'
      exact ⟨hi', hvmi⟩
  refine ⟨⟨fun i vmi hvmi => hi.owned.vms i vmi (hback i vmi hvmi).2, hi.owned.host⟩, hshape,
    ⟨fun i vmi hvmi => hi.placed.in_range i vmi (hback i vmi hvmi).2, fun i vmi hvmi => ?_⟩,
    fun hhost => ?_⟩
  · obtain ⟨hi', hvmi⟩ := hback i vmi hvmi
    have hset := hi.placed.bit_set i vmi hvmi
    have h32 : i < 32 := Nat.lt_of_lt_of_le (hi.placed.in_range i vmi hvmi).1 (by decide)
    show (h.vmBitmap &&& ~~~(BitVec.twoPow 32 h.currVmIdx)).getLsbD i = true
    rw [BitVec.getLsbD_and, BitVec.getLsbD_not, BitVec.getLsbD_twoPow, hset]
    simp [h32, Ne.symm hi']
  · obtain ⟨vm0, hvm0, hran⟩ := hi.attached hhost
    exact ⟨vm0, by simp only [Hyp.setVm, Function.update_of_ne hne]; exact hvm0, hran⟩

end RtHypervisor.Ports.Hypervisor
