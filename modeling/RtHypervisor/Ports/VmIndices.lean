import RtHypervisor.Ports.VmTable

/-!
# The current VM and the current console

`curr_vm_idx` and `curr_vc_idx` are indices into the VM table that several commands
write.  `pick_vm` stores an index before it knows whether the VM exists, a number
given to `-i` is reduced modulo 256 before it is checked, and `delete_vm` does not
look at `curr_vc_idx`.  In runs that avoid these three the console index is always
that of an existing VM, and a command acts on the VM it names (`indices_valid`).
-/

namespace RtHypervisor.Ports.Hypervisor

open RtHypervisor.Verified.Run
open RtHypervisor.Ports.Platform
open RtHypervisor.Ports.Stage2
open RtHypervisor.Ports.Mm
open RtHypervisor.Ports.VmLife

variable {B : Board} {os : Nat → OsDesc} {h h' : Hyp} {r : RtErr} {opts : List IdxOpt}

/-- The UART belongs to the host or to a VM that exists. -/
def ConsoleValid (h : Hyp) : Prop :=
  h.currVcIdx = maxVmNum ∨ (h.currVcIdx < maxVmNum ∧ (h.vms h.currVcIdx).isSome = true)

/-- An accepted `pick_vm` selects the VM its last option names; a rejected one leaves
`curr_vm_idx` alone. -/
def PicksNamed (h : Hyp) (opts : List IdxOpt) (r : RtErr) (h' : Hyp) : Prop :=
  (r = .eok → ∃ k : Nat, opts.getLast? = some (.i k) ∧ (h.vms k).isSome = true ∧
    h' = { h with currVmIdx := k }) ∧
  (r ≠ .eok → h'.currVmIdx = h.currVmIdx)

/-- `attach_vm` attaches the VMs its options name, one after the other; an option it rejects
ends the command. -/
def AttachesNamed (h : Hyp) (opts : List IdxOpt) (r : RtErr) (h' : Hyp) : Prop :=
  ∃ (ks : List Nat) (rest : List IdxOpt), opts = (ks.map fun (k : Nat) => IdxOpt.i k) ++ rest ∧
    ks.foldlM vcAttach h = .ok h' ∧ (r = .eok → rest = [])

/-- No number given to `-i` becomes a VM index only by its reduction modulo 256. -/
def NoWrap (opts : List IdxOpt) : Prop :=
  ∀ n, IdxOpt.i n ∈ opts → toUint8 n < maxVmNum → (toUint8 n : Int) = n

/-- Every option is `-i` with an index in range, and the last one names an existing VM. -/
def Selects (h : Hyp) (opts : List IdxOpt) : Prop :=
  (∀ o ∈ opts, ∃ n, o = .i n ∧ toUint8 n < maxVmNum) ∧
  ∃ n, opts.getLast? = some (.i n) ∧ (h.vms (toUint8 n)).isSome = true

/-- Up to the first option that is refused, `-i` only repeats the current index. -/
def Repeats (cur : Nat) : List IdxOpt → Prop
  | [] => True
  | .bad :: _ => True
  | .i n :: rest => toUint8 n < maxVmNum → toUint8 n = cur ∧ Repeats cur rest

/-- The condition on a command. -/
def KeepsIndices (h : Hyp) : Cmd → Prop
  | .pick opts => NoWrap opts ∧ (Selects h opts ∨ Repeats h.currVmIdx opts)
  | .attach opts => NoWrap opts
  | .delete => h.currVmIdx = h.currVcIdx → h.vms h.currVmIdx = none
  | _ => True

/-! ## `pick_vm` -/

private theorem pickOpts_last {k k' : Option Nat} (hok : pickOpts opts h k = (h', k', true)) :
    (opts = [] ∧ k' = k) ∨ ∃ n, opts.getLast? = some (.i n) ∧ k' = some (toUint8 n) ∧
      toUint8 n < maxVmNum := by
  induction opts generalizing h k with
  | nil =>
      simp only [pickOpts, Prod.mk.injEq] at hok
      exact Or.inl ⟨rfl, hok.2.1.symm⟩
  | cons o opts ih =>
      cases o with
      | bad => simp [pickOpts] at hok
      | i n =>
          simp only [pickOpts] at hok
          split at hok
          · simp at hok
          · right
            rcases ih hok with ⟨rfl, hk⟩ | ⟨m, hlast, hk, hlt⟩
            · exact ⟨n, rfl, hk, by omega⟩
            · refine ⟨m, ?_, hk, hlt⟩
              rw [List.getLast?_cons, hlast]
              rfl

/-- In-range options end the loop without a `return`. -/
theorem pickOpts_returns {k : Option Nat}
    (hall : ∀ o ∈ opts, ∃ n, o = .i n ∧ toUint8 n < maxVmNum) :
    (pickOpts opts h k).2.2 = true := by
  induction opts generalizing h k with
  | nil => rfl
  | cons o opts ih =>
      obtain ⟨n, rfl, hlt⟩ := hall o List.mem_cons_self
      simp only [pickOpts, if_neg (Nat.not_le.mpr hlt)]
      exact ih fun o ho => hall o (List.mem_cons_of_mem _ ho)

private theorem pickOpts_repeats {k : Option Nat} (hrep : Repeats h.currVmIdx opts) :
    (pickOpts opts h k).1 = h := by
  induction opts generalizing k with
  | nil => rfl
  | cons o opts ih =>
      cases o with
      | bad => rfl
      | i n =>
          simp only [pickOpts]
          split
          · rfl
          · rename_i hlt
            obtain ⟨heq, hrest⟩ := hrep (by omega)
            rw [heq]
            exact ih hrest

private theorem pickVm_named (hg : KeepsIndices h (.pick opts))
    (hok : pickVm h opts = .ok (r, h')) :
    PicksNamed h opts r h' := by
  obtain ⟨hwrap, hsel⟩ := hg
  unfold pickVm at hok
  split at hok
  · rename_i h1 k1 heq
    simp only [pure_eq_ok, Prod.mk.injEq] at hok
    obtain ⟨rfl, rfl⟩ := hok
    refine ⟨by simp, fun _ => ?_⟩
    rcases hsel with hsel | hrep
    · have htrue := pickOpts_returns (h := h) (k := none) hsel.1
      rw [heq] at htrue
      cases htrue
    · have hsame := pickOpts_repeats (k := none) hrep
      rw [heq] at hsame
      exact congrArg Hyp.currVmIdx hsame
  · cases hok
  · rename_i h1 idx heq
    obtain ⟨m, rfl⟩ := pickOpts_same heq
    rcases pickOpts_last heq with ⟨-, hnone⟩ | ⟨n, hlast, hidx, hlt⟩
    · cases hnone
    · cases hidx
      have hmem : IdxOpt.i n ∈ opts := List.mem_of_getLast? hlast
      have hn := hwrap n hmem hlt
      split at hok
      · rename_i hsome
        simp only [pure_eq_ok, Prod.mk.injEq] at hok
        obtain ⟨rfl, rfl⟩ := hok
        exact ⟨fun _ => ⟨toUint8 n, by rw [hlast, hn], hsome, rfl⟩, by simp⟩
      · rename_i hnone
        simp only [pure_eq_ok, Prod.mk.injEq] at hok
        obtain ⟨rfl, rfl⟩ := hok
        refine ⟨by simp, fun _ => ?_⟩
        rcases hsel with ⟨-, n', hlast', hsome⟩ | hrep
        · rw [hlast] at hlast'
          cases hlast'
          exact absurd hsome hnone
        · have hsame := pickOpts_repeats (k := none) hrep
          rw [heq] at hsame
          exact congrArg Hyp.currVmIdx hsame

/-! ## `attach_vm` -/

private theorem attachVm_named (hwrap : NoWrap opts) (hok : attachVm h opts = .ok (r, h')) :
    AttachesNamed h opts r h' := by
  induction opts generalizing h with
  | nil =>
      simp only [attachVm, pure_eq_ok, Prod.mk.injEq] at hok
      obtain ⟨-, rfl⟩ := hok
      exact ⟨[], [], rfl, rfl, fun _ => rfl⟩
  | cons o opts ih =>
      -- every refusal ends the command in the state it has reached
      have hrefuse : r ≠ .eok → h' = h → AttachesNamed h (o :: opts) r h' := by
        rintro hr rfl
        exact ⟨[], o :: opts, rfl, rfl, fun hr' => absurd hr' hr⟩
      cases o with
      | bad =>
          simp only [attachVm, pure_eq_ok, Prod.mk.injEq] at hok
          exact hrefuse (by rw [← hok.1]; decide) hok.2.symm
      | i n =>
          simp only [attachVm] at hok
          split at hok
          · simp only [pure_eq_ok, Prod.mk.injEq] at hok
            exact hrefuse (by rw [← hok.1]; decide) hok.2.symm
          · rename_i hlt
            split at hok
            · simp only [pure_eq_ok, Prod.mk.injEq] at hok
              exact hrefuse (by rw [← hok.1]; decide) hok.2.symm
            · split at hok
              · simp only [pure_eq_ok, Prod.mk.injEq] at hok
                exact hrefuse (by rw [← hok.1]; decide) hok.2.symm
              · obtain ⟨h1, hattach, hok⟩ := bind_eq_ok.mp hok
                have hrest : NoWrap opts := fun m hm => hwrap m (List.mem_cons_of_mem _ hm)
                obtain ⟨ks, rest, hopts, hfold, hr⟩ := ih hrest hok
                have hn := hwrap n List.mem_cons_self (by omega)
                refine ⟨toUint8 n :: ks, rest, ?_, ?_, hr⟩
                · rw [List.map_cons, List.cons_append, ← hopts, hn]
                · rw [List.foldlM_cons, hattach]
                  exact hfold

/-! ## The console index -/

structure IndexInv (h : Hyp) : Prop where
  console : ConsoleValid h
  id_eq : ∀ i vm, h.vms i = some vm → vm.id = i

theorem IndexInv.of_same (hi : IndexInv h) (hs : SameVms h h')
    (hconsole : h'.currVcIdx = maxVmNum ∨ h'.currVcIdx = h.currVcIdx) : IndexInv h' where
  console := by
    rcases hconsole with heq | heq
    · exact Or.inl heq
    · rcases hi.console with hhost | ⟨hlt, hsome⟩
      · exact Or.inl (heq.trans hhost)
      · exact Or.inr ⟨by rw [heq]; exact hlt, by rw [heq, hs.isSome_eq]; exact hsome⟩
  id_eq i vm hvm := by
    obtain ⟨vm0, hvm0, hident⟩ := hs.exists_before hvm
    rw [← hi.id_eq i vm0 hvm0]
    exact congrArg Prod.fst hident

theorem IndexInv.attach (hi : IndexInv h) {i : Nat} (hlt : i < maxVmNum)
    (hok : vcAttach h i = .ok h') : IndexInv h' := by
  obtain ⟨hs, -⟩ := vcAttach_same hok
  obtain ⟨h1, hopen, hfirst⟩ := vcAttach_cases hok
  have hvc : h1.currVcIdx = maxVmNum ∨ h1.currVcIdx = h.currVcIdx := by
    rcases hfirst with ⟨-, rfl⟩ | ⟨j, -, hdetach⟩
    · exact Or.inr rfl
    · exact Or.inl (vcDetach_same hdetach).2.2
  obtain ⟨vm, hvm, ⟨-, rfl⟩ | ⟨vm', -, -, rfl⟩⟩ := openConsole_cases hopen
  · exact hi.of_same hs hvc
  · -- the console of VM `i` is open now
    have hsame1 : IndexInv h1 := by
      rcases hfirst with ⟨-, rfl⟩ | ⟨j, -, hdetach⟩
      · exact ⟨hi.console, hi.id_eq⟩
      · exact hi.of_same (vcDetach_same hdetach).1 (Or.inl (vcDetach_same hdetach).2.2)
    have hid := hsame1.id_eq i vm hvm
    refine ⟨Or.inr ⟨?_, ?_⟩, fun k vmk hk => ?_⟩
    · show vm.id < maxVmNum
      rw [hid]
      exact hlt
    · show ((h1.setVm i (some vm')).vms vm.id).isSome = true
      rw [hid, setVm_self]
      rfl
    · obtain ⟨vm0, hvm0, hident⟩ := hs.exists_before hk
      rw [← hi.id_eq k vm0 hvm0]
      exact congrArg Prod.fst hident

theorem IndexInv.create (hi : IndexInv h) {el2 : Bool} {copts : List CreateOpt}
    (hok : createVm B os h el2 copts = .ok (r, h')) : IndexInv h' := by
  obtain ⟨s2, -, ⟨-, ok, bitmap, allocs, -, rfl, -⟩ | ⟨k, -, -, -, -, rfl⟩⟩ := createVm_outcome hok
  · exact ⟨hi.console, hi.id_eq⟩
  · refine ⟨?_, fun i vm hvm => ?_⟩
    · rcases hi.console with hhost | ⟨hlt, hsome⟩
      · exact Or.inl hhost
      · refine Or.inr ⟨hlt, ?_⟩
        simp only [Function.update_apply]
        split
        · rfl
        · exact hsome
    · simp only [Function.update_apply] at hvm
      split at hvm
      · rename_i heq
        cases hvm
        exact heq.symm
      · exact hi.id_eq i vm hvm

theorem IndexInv.delete (hi : IndexInv h) (hg : KeepsIndices h .delete)
    (hok : deleteVm B h = .ok (r, h')) : IndexInv h' := by
  rcases deleteVm_cases hok with ⟨-, rfl, -⟩ | ⟨vm, vm', e1, e2, -, hvm, -, -, -, rfl⟩
  · exact hi
  · have hne : h.currVcIdx ≠ h.currVmIdx := by
      intro heq
      rw [hg heq.symm] at hvm
      cases hvm
    refine ⟨?_, fun i vmi hi' => ?_⟩
    · rcases hi.console with hhost | ⟨hlt, hsome⟩
      · exact Or.inl hhost
      · refine Or.inr ⟨hlt, ?_⟩
        simp only [Hyp.setVm, Function.update_of_ne hne]
        exact hsome
    · simp only [Hyp.setVm, Function.update_apply] at hi'
      split at hi'
      · cases hi'
      · exact hi.id_eq i vmi hi'

theorem IndexInv.step (hi : IndexInv h) {c : Cmd} (hg : KeepsIndices h c)
    (hok : step B os h c = .ok h') : IndexInv h' := by
  obtain ⟨r, hexec⟩ := step_cases hok
  cases c with
  | create el2 copts => exact hi.create hexec
  | delete => exact hi.delete hg hexec
  | attach opts =>
      refine attachVm_induct ?_ hi hexec
      rintro h1 h2 n vm hi1 hlt - - hattach
      exact hi1.attach hlt hattach
  | quit =>
      rcases consoleQuit_cases hexec with ⟨-, rfl⟩ | ⟨i, -, hdetach⟩
      · exact hi
      · obtain ⟨hs, -, hvc⟩ := vcDetach_same hdetach
        exact hi.of_same hs (Or.inl hvc)
  | _ =>
      obtain ⟨hs, hvc⟩ := exec_inside hexec trivial
      exact hi.of_same hs (Or.inr hvc)

/-- With a valid console index `get_curr_vc` dereferences a VM that exists. -/
theorem ConsoleValid.getCurrVc_returns (hc : ConsoleValid h) : ∃ vc, getCurrVc h = .ok vc := by
  unfold getCurrVc
  rcases hc with hhost | ⟨hlt, hsome⟩
  · exact ⟨none, by simp only [hhost, ne_eq, not_true, if_false]; rfl⟩
  · obtain ⟨vm, hvm⟩ := Option.isSome_iff_exists.mp hsome
    have hne : h.currVcIdx ≠ maxVmNum := by omega
    rw [if_pos hne, hvm]
    exact ⟨_, rfl⟩

/-- In a run that meets the condition the console index is always valid, `get_curr_vc` never
dereferences a null VM, and `pick_vm` and `attach_vm` act on the VMs they name or reject
them. -/
theorem indices_valid {t : Hyp} {es : List Cmd} (hb : Boot h)
    (hg : Guarded (step B os) KeepsIndices h es) (hrun : run (step B os) h es = .ok t) :
    ConsoleValid t ∧ (∃ vc, getCurrVc t = .ok vc) ∧
    (∀ opts r t', KeepsIndices t (.pick opts) → exec B os t (.pick opts) = .ok (r, t') →
      PicksNamed t opts r t') ∧
    (∀ opts r t', KeepsIndices t (.attach opts) → exec B os t (.attach opts) = .ok (r, t') →
      AttachesNamed t opts r t') := by
  have hboot : IndexInv h :=
    ⟨Or.inl hb.currVcIdx_eq, fun i vm hvm => by rw [hb.vms_eq] at hvm; cases hvm⟩
  have hinv : IndexInv t :=
    run_inv_of_returns (fun _ _ _ hi hc hok => hi.step hc hok) hboot hg hrun
  exact ⟨hinv.console, hinv.console.getCurrVc_returns,
    fun opts r t' hc hexec => pickVm_named hc hexec,
    fun opts r t' hc hexec => attachVm_named hc hexec⟩

/-- VM 0 runs and is attached; VM 1 is created and deleted. -/
theorem indices_valid_attached :
    Guarded (step roomy osImg) KeepsIndices boot
      [.create true [.i 0], .run, .attach [.i 0], .create true [.i 2], .delete] ∧
    ∃ t, run (step roomy osImg) boot
      [.create true [.i 0], .run, .attach [.i 0], .create true [.i 2], .delete] = .ok t ∧
      ConsoleValid t := by
  have hbefore : (run (step roomy osImg) boot
      [.create true [.i 0], .run, .attach [.i 0], .create true [.i 2]]).map
        (fun t => (t.currVmIdx, t.currVcIdx)) = .ok (1, 0) := by
    decide
  have hafter : (run (step roomy osImg) boot
      [.create true [.i 0], .run, .attach [.i 0], .create true [.i 2], .delete]).map
        (fun t => t.currVcIdx) = .ok 0 := by
    decide
  have hwrap : NoWrap [.i 0] := by
    intro n hn _
    cases List.mem_singleton.mp hn
    rfl
  have hg : Guarded (step roomy osImg) KeepsIndices boot
      [.create true [.i 0], .run, .attach [.i 0], .create true [.i 2], .delete] := by
    refine ⟨trivial, fun h1 hs1 => ⟨trivial, fun h2 hs2 => ⟨hwrap, fun h3 hs3 =>
      ⟨trivial, fun h4 hs4 => ⟨?_, fun _ _ => trivial⟩⟩⟩⟩⟩
    -- VM 1 is current when `delete_vm` is given, VM 0 is attached
    rw [run_cons_ok hs1, run_cons_ok hs2, run_cons_ok hs3, run_cons_ok hs4] at hbefore
    obtain ⟨hcur, hvc⟩ := Prod.mk.inj (Except.ok.inj hbefore)
    intro heq
    rw [hcur, hvc] at heq
    cases heq
  obtain ⟨t, hok, -⟩ := exists_of_map_eq_ok hafter
  exact ⟨hg, t, hok, (indices_valid boot_boot hg hok).1⟩

/-- The three ways the indices go wrong: the attached VM is deleted; a rejected `pick_vm` has
already moved `curr_vm_idx`; and `pick_vm -i 256` selects VM 0. -/
theorem indices_go_wrong :
    (∃ t, run (step roomy osImg) boot
      [.create true [.i 0], .run, .attach [.i 0], .delete] = .ok t ∧ ¬ConsoleValid t) ∧
    (∃ t t', run (step roomy osImg) boot [.create true [.i 2]] = .ok t ∧
      exec roomy osImg t (.pick [.i 3]) = .ok (.einval, t') ∧ t'.currVmIdx ≠ t.currVmIdx) ∧
    (∃ t t', run (step roomy osImg) boot [.create true [.i 2], .create true [.i 2]] = .ok t ∧
      exec roomy osImg t (.pick [.i 256]) = .ok (.eok, t') ∧ t'.currVmIdx = 0) := by
  refine ⟨?_, ?_, ?_⟩
  · have hrun : (run (step roomy osImg) boot
        [.create true [.i 0], .run, .attach [.i 0], .delete]).map
          (fun t => (t.currVcIdx, (t.vms 0).isSome)) = .ok (0, false) := by
      decide
    obtain ⟨t, hok, hval⟩ := exists_of_map_eq_ok hrun
    obtain ⟨hvc, hnone⟩ := Prod.mk.inj hval
    refine ⟨t, hok, ?_⟩
    rintro (hhost | ⟨-, hsome⟩)
    · rw [hvc] at hhost
      cases hhost
    · rw [hvc, hnone] at hsome
      cases hsome
  · have hrun : (run (step roomy osImg) boot [.create true [.i 2]] >>= fun t =>
        (exec roomy osImg t (.pick [.i 3])).map
          fun p => (p.1, p.2.currVmIdx, t.currVmIdx)) = .ok (.einval, 3, 0) := by
      decide
    obtain ⟨t, hok, hpick⟩ := bind_eq_ok.mp hrun
    obtain ⟨⟨r, t'⟩, hexec, hval⟩ := exists_of_map_eq_ok hpick
    simp only [Prod.mk.injEq] at hval
    obtain ⟨rfl, hnew, hold⟩ := hval
    exact ⟨t, t', hok, hexec, by rw [hnew, hold]; decide⟩
  · have hrun : (run (step roomy osImg) boot [.create true [.i 2], .create true [.i 2]] >>=
        fun t => (exec roomy osImg t (.pick [.i 256])).map
          fun p => (p.1, p.2.currVmIdx)) = .ok (.eok, 0) := by
      decide
    obtain ⟨t, hok, hpick⟩ := bind_eq_ok.mp hrun
    obtain ⟨⟨r, t'⟩, hexec, hval⟩ := exists_of_map_eq_ok hpick
    simp only [Prod.mk.injEq] at hval
    obtain ⟨rfl, hnew⟩ := hval
    exact ⟨t, t', hok, hexec, hnew⟩

end RtHypervisor.Ports.Hypervisor
