import RtHypervisor.Ports.SwitchIsolation

/-!
# The EL1 registers over a visit to the host

A guest is switched out, the host does something, and the guest is switched in again.
The save list and the restore list name the same registers, so a register comes back as
it was unless another statement of the two handlers touches it, and two are touched.
`deactivate_trap` runs before `hook_vcpu_regs_save` and puts the host's value into
`CPACR_EL1`; `activate_trap` runs after `hook_vcpu_regs_restore` and overwrites
`CPACR_EL1` and `VBAR_EL1` with constants.

`el1_round_trip_iff` states the outcome exactly: the guest finds its registers again if
and only if these two held the constants already.
-/

namespace RtHypervisor.Ports.SwitchContext

open RtHypervisor.Verified.Run
open RtHypervisor.Verified.RegFile
open RtHypervisor.Ports.ListRegister
open RtHypervisor.Ports.LrList

/-- The value `activate_trap` writes to `CPACR_EL1`. -/
def guestCpacr : BitVec 64 := cpacrEl1Tta ||| cpacrEl1Fpen ||| cptrEl2Tam

/-- What the host may do between the two handlers: anything to the registers of the CPU,
to the interrupts and to the other vCPUs, but nothing to what vCPU `v` has saved.  The
vector table is linked at a fixed address. -/
structure HostActivity (m h : Machine) (v : VcpuId) : Prop where
  arch_eq : h.arch v = m.arch v
  vectors_eq : h.systemVectors = m.systemVectors

variable {m m₁ h m₂ : Machine} {v : VcpuId}

/-! ## What the handlers do to the registers, whether or not the lists are in order -/

private theorem regs_of_hostToGuest [Bitmap] (hin : hostToGuestArchHandler h v = .ok m₂) :
    m₂.regs = (loadStage2Setting (activateTrap (hookVcpuRegsRestore h v) v) v).regs ∧
      m₂.arch = h.arch := by
  simp only [hostToGuestArchHandler, bind_eq_ok, pure_eq_ok] at hin
  obtain ⟨s, -, rfl⟩ := hin
  simp only [loadStage2Setting, flushVmAllTlb_eq]
  exact ⟨rfl, rfl⟩

private theorem arch_of_guestToHost [Bitmap] (hout : guestToHostArchHandler m v = .ok m₁) :
    m₁.arch = (hookVcpuRegsSave (deactivateTrap (saveStage2Setting m v)) v).arch ∧
      m₁.systemVectors = m.systemVectors := by
  simp only [guestToHostArchHandler, bind_eq_ok, pure_eq_ok] at hout
  obtain ⟨s, -, rfl⟩ := hout
  exact ⟨rfl, rfl⟩

private theorem entered_hcr [Bitmap] (hin : hostToGuestArchHandler h v = .ok m₂) :
    m₂.regs .hcrEl2 = (h.arch v).hcrEl2 := by
  rw [(regs_of_hostToGuest hin).1]
  simp only [loadStage2Setting, flushVmAllTlb_eq, Machine.setReg, activateTrap]
  rw [Function.update_of_ne (by decide), Function.update_of_ne (by decide),
    Function.update_of_ne (by decide), Function.update_of_ne (by decide), Function.update_self]
  rfl

private theorem entered_cpacr [Bitmap] (hin : hostToGuestArchHandler h v = .ok m₂) :
    m₂.regs .cpacrEl1 = guestCpacr := by
  rw [(regs_of_hostToGuest hin).1]
  simp only [loadStage2Setting, flushVmAllTlb_eq, Machine.setReg, activateTrap]
  rw [Function.update_of_ne (by decide), Function.update_of_ne (by decide),
    Function.update_of_ne (by decide), Function.update_self]
  decide

private theorem entered_vbar [Bitmap] (hin : hostToGuestArchHandler h v = .ok m₂) :
    m₂.regs .vbarEl1 = h.systemVectors := by
  rw [(regs_of_hostToGuest hin).1]
  simp only [loadStage2Setting, flushVmAllTlb_eq, Machine.setReg, activateTrap]
  rw [Function.update_of_ne (by decide), Function.update_of_ne (by decide),
    Function.update_self]
  rfl

private theorem entered_reg [Bitmap] (hin : hostToGuestArchHandler h v = .ok m₂)
    {p : HwReg × VcpuSysreg}
    (hp : p ∈ savedRegs) (hcpacr : p.1 ≠ .cpacrEl1) (hvbar : p.1 ≠ .vbarEl1) :
    m₂.regs p.1 = (h.arch v).sysRegs p.2 := by
  obtain ⟨hhcr, hvtcr, hvttbr⟩ := savedRegs_ne p hp
  rw [(regs_of_hostToGuest hin).1]
  simp only [loadStage2Setting, flushVmAllTlb_eq, Machine.setReg, activateTrap,
    hookVcpuRegsRestore]
  rw [Function.update_of_ne hvttbr, Function.update_of_ne hvtcr, Function.update_of_ne hvbar,
    Function.update_of_ne hcpacr, Function.update_of_ne hhcr]
  exact copyInto_of_mem savedRegs_nodup_fst hp

private theorem left_hcr [Bitmap] (hout : guestToHostArchHandler m v = .ok m₁) :
    (m₁.arch v).hcrEl2 = (m.arch v).hcrEl2 := by
  rw [(arch_of_guestToHost hout).1]
  simp only [hookVcpuRegsSave, Function.update_self]
  rfl

private theorem left_reg [Bitmap] (hout : guestToHostArchHandler m v = .ok m₁)
    {p : HwReg × VcpuSysreg} (hp : p ∈ savedRegs) (hcpacr : p.1 ≠ .cpacrEl1) :
    (m₁.arch v).sysRegs p.2 = m.regs p.1 := by
  have hmem : (p.2, p.1) ∈ savedRegs.map Prod.swap := List.mem_map.mpr ⟨p, hp, rfl⟩
  rw [(arch_of_guestToHost hout).1]
  simp only [hookVcpuRegsSave, Function.update_self]
  rw [copyInto_of_mem savedRegs_nodup_snd hmem]
  show Function.update (Function.update m.regs HwReg.hcrEl2 _) HwReg.cpacrEl1 _ p.1 = _
  rw [Function.update_of_ne hcpacr, Function.update_of_ne (savedRegs_ne p hp).1]

/-! ## The round trip -/

/-- Everything but `CPACR_EL1` and `VBAR_EL1` comes back. -/
theorem round_trip_reg [Bitmap] (hout : guestToHostArchHandler m v = .ok m₁)
    (hhost : HostActivity m₁ h v) (hin : hostToGuestArchHandler h v = .ok m₂)
    {p : HwReg × VcpuSysreg} (hp : p ∈ savedRegs) (hcpacr : p.1 ≠ .cpacrEl1)
    (hvbar : p.1 ≠ .vbarEl1) : m₂.regs p.1 = m.regs p.1 := by
  calc m₂.regs p.1 = (h.arch v).sysRegs p.2 := entered_reg hin hp hcpacr hvbar
    _ = (m₁.arch v).sysRegs p.2 := by rw [hhost.arch_eq]
    _ = m.regs p.1 := left_reg hout hp hcpacr

private theorem round_trip_vbar [Bitmap] (hout : guestToHostArchHandler m v = .ok m₁)
    (hhost : HostActivity m₁ h v) (hin : hostToGuestArchHandler h v = .ok m₂) :
    m₂.regs .vbarEl1 = m.systemVectors := by
  rw [entered_vbar hin, hhost.vectors_eq, (arch_of_guestToHost hout).2]

/-- The whole save list comes back exactly when the two overwritten registers held what
they are overwritten with. -/
theorem round_trip_regs_iff [Bitmap] (hout : guestToHostArchHandler m v = .ok m₁)
    (hhost : HostActivity m₁ h v) (hin : hostToGuestArchHandler h v = .ok m₂) :
    (∀ p ∈ savedRegs, m₂.regs p.1 = m.regs p.1) ↔
      m.regs .cpacrEl1 = guestCpacr ∧ m.regs .vbarEl1 = m.systemVectors := by
  constructor
  · intro hall
    have hcpacr := hall (.cpacrEl1, .cpacrEl1) (by decide)
    have hvbar := hall (.vbarEl1, .vbarEl1) (by decide)
    rw [entered_cpacr hin] at hcpacr
    rw [round_trip_vbar hout hhost hin] at hvbar
    exact ⟨hcpacr.symm, hvbar.symm⟩
  · rintro ⟨hcpacr, hvbar⟩ p hp
    by_cases h₁ : p.1 = .cpacrEl1
    · rw [h₁, entered_cpacr hin, hcpacr]
    · by_cases h₂ : p.1 = .vbarEl1
      · rw [h₂, round_trip_vbar hout hhost hin, hvbar]
      · exact round_trip_reg hout hhost hin hp h₁ h₂

/-! ## `HCR_EL2` while the guest runs -/

/-- The events while one thread runs: all but a switch. -/
def Stays : Event → Prop
  | .switchTo _ => False
  | _ => True

private theorem step_hcr [Bitmap] {w w' : World} {e : Event} (he : Stays e)
    (hstep : step w e = .ok w') :
    w'.machine.regs .hcrEl2 = w.machine.regs .hcrEl2 ∧ w'.machine.arch = w.machine.arch := by
  cases e with
  | switchTo t => cases he
  | write r val =>
      rw [← pure_eq_ok.mp hstep]
      split
      · rename_i hmem
        obtain ⟨p, hp, rfl⟩ := List.mem_map.mp hmem
        exact ⟨Function.update_of_ne (Ne.symm (savedRegs_ne p hp).1) .., rfl⟩
      · exact ⟨rfl, rfl⟩
  | inject u virq =>
      simp only [step, bind_eq_ok, pure_eq_ok] at hstep
      obtain ⟨r, -, rfl⟩ := hstep
      exact ⟨rfl, rfl⟩
  | acknowledge i =>
      rw [← pure_eq_ok.mp hstep]
      simp only [Machine.guest]
      split
      · split
        · exact ⟨rfl, rfl⟩
        · exact ⟨rfl, rfl⟩
      · exact ⟨rfl, rfl⟩
  | complete i =>
      rw [← pure_eq_ok.mp hstep]
      simp only [Machine.guest]
      split
      · split
        · exact ⟨rfl, rfl⟩
        · exact ⟨rfl, rfl⟩
      · exact ⟨rfl, rfl⟩

/-- Nothing but a switch changes `HCR_EL2` or what is saved of it. -/
theorem run_hcr [Bitmap] {w w' : World} {es : List Event} (hes : ∀ e ∈ es, Stays e)
    (hrun : run step w es = .ok w') :
    w'.machine.regs .hcrEl2 = w.machine.regs .hcrEl2 ∧ w'.machine.arch = w.machine.arch := by
  induction es generalizing w with
  | nil =>
      cases hrun
      exact ⟨rfl, rfl⟩
  | cons e es ih =>
      obtain ⟨w₁, hstep, hrest⟩ := run_cons_eq_ok hrun
      obtain ⟨hhcr, harch⟩ := step_hcr (hes e (List.mem_cons_self ..)) hstep
      obtain ⟨hhcr', harch'⟩ := ih (fun e he => hes e (List.mem_cons_of_mem _ he)) hrest
      exact ⟨hhcr'.trans hhcr, harch'.trans harch⟩

/-- vCPU `v` leaves for the host and is entered again.  Both handlers return when its
list of interrupts is in order, it runs under its own `HCR_EL2` until the next switch, and
every register of the save list has the guest's value again exactly when its `CPACR_EL1`
and `VBAR_EL1` were the constants `activate_trap` writes. -/
theorem el1_round_trip_iff [Bitmap] (m : Machine) (v : VcpuId) :
    (Ready (m.slice v) → ∃ m₁, guestToHostArchHandler m v = .ok m₁) ∧
    (∀ h, Ready (h.slice v) → ∃ m₂, hostToGuestArchHandler h v = .ok m₂) ∧
    ∀ m₁ h m₂, guestToHostArchHandler m v = .ok m₁ → HostActivity m₁ h v →
      hostToGuestArchHandler h v = .ok m₂ →
      (∀ last injected es t, (∀ e ∈ es, Stays e) → run step ⟨m₂, last, injected⟩ es = .ok t →
        t.machine.regs .hcrEl2 = (m.arch v).hcrEl2) ∧
      ((∀ p ∈ savedRegs, m₂.regs p.1 = m.regs p.1) ↔
        m.regs .cpacrEl1 = guestCpacr ∧ m.regs .vbarEl1 = m.systemVectors) := by
  refine ⟨?_, ?_, ?_⟩
  · intro hready
    obtain ⟨m₁, hout, -⟩ := guestToHostArchHandler_spec hready
    exact ⟨m₁, hout⟩
  · intro h hready
    obtain ⟨m₂, hin, -⟩ := hostToGuestArchHandler_spec hready
    exact ⟨m₂, hin⟩
  · intro m₁ h m₂ hout hhost hin
    refine ⟨?_, round_trip_regs_iff hout hhost hin⟩
    intro last injected es t hes hrun
    rw [(run_hcr hes hrun).1]
    show m₂.regs .hcrEl2 = (m.arch v).hcrEl2
    rw [entered_hcr hin, hhost.arch_eq, left_hcr hout]

/-- A guest that has set its own vector table and is preempted finds the host's vectors in
`VBAR_EL1` afterwards, although nothing happened in between. -/
theorem vbar_lost :
    ¬∀ (m m₁ h m₂ : Machine) (v : VcpuId), guestToHostArchHandler m v = .ok m₁ →
      HostActivity m₁ h v → hostToGuestArchHandler h v = .ok m₂ →
      ∀ p ∈ savedRegs, m₂.regs p.1 = m.regs p.1 := by
  intro hevery
  have hm : ∃ m : Machine, m = bootMachine.setReg .vbarEl1 0x40080000 := ⟨_, rfl⟩
  obtain ⟨m, hm⟩ := hm
  have hwired : Wired m := by
    have hboot := wired_initial initial_bootWorld
    rw [hm]
    exact ⟨hboot.bounds, hboot.nrLr_le⟩
  obtain ⟨m₁, hout, hleft⟩ := guestToHostArchHandler_spec (hwired.ready ⟨0, 0⟩)
  obtain ⟨s, hs, -, hgicr, hctxt⟩ := hleft.slice
  have hwired₁ : Wired m₁ := hwired.put hgicr hctxt hs.bounds hs.nrLr_eq
  obtain ⟨m₂, hin, -⟩ := hostToGuestArchHandler_spec (hwired₁.ready ⟨0, 0⟩)
  have hidle : HostActivity m₁ m₁ ⟨0, 0⟩ := ⟨rfl, rfl⟩
  have hall := hevery m m₁ m₁ m₂ ⟨0, 0⟩ hout hidle hin
  have hvbar := ((round_trip_regs_iff hout hidle hin).mp hall).2
  rw [hm] at hvbar
  exact absurd hvbar (by decide)

end RtHypervisor.Ports.SwitchContext
