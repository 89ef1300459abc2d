import RtHypervisor.Verified.RegFile
import RtHypervisor.Ports.LrInject

/-!
# Thread switches between the host and vCPUs

`switch_hook` is called by the scheduler with the thread that stops and the
thread that starts.  It classifies the switch and runs one of four handlers of
`virt_arch.c`: entering a guest from the host loads its EL1 registers, traps,
stage-2 setting and interrupts, leaving a guest for the host saves them, and the
two handlers for a switch between vCPUs only print a line.

`Machine` is one CPU with the registers these handlers touch, and the memory of
every vCPU and VM they are saved to.  `RT_USING_NVHE` is configured, so
`EL1_(REG)` is `REG_EL1`.
-/

namespace RtHypervisor.Ports.SwitchContext

open RtHypervisor.Verified.Run
open RtHypervisor.Verified.RegFile
open RtHypervisor.Ports.ListRegister
open RtHypervisor.Ports.LrList

/-- The system registers the handlers read and write. -/
inductive HwReg
  | tpidrEl0 | tpidrroEl0 | contextidrEl1
  | csselrEl1 | cpacrEl1
  | ttbr0El1 | ttbr1El1 | tcrEl1 | vbarEl1
  | esrEl1 | farEl1
  | afsr0El1 | afsr1El1 | mairEl1 | amairEl1
  | cntkctlEl1
  | parEl1 | spEl1 | elrEl1 | spsrEl1
  | vmpidrEl2 | vpidrEl2
  | sctlrEl1
  | hcrEl2 | vtcrEl2 | vttbrEl2
deriving DecidableEq, Repr

/-- `enum vcpu_sysreg`: the indices of `sys_regs`. -/
inductive VcpuSysreg
  | tpidrEl0 | tpidrroEl0 | contextidrEl1
  | csselrEl1 | sctlrEl1 | cpacrEl1
  | ttbr0El1 | ttbr1El1 | tcrEl1 | vbarEl1
  | esrEl1 | farEl1
  | afsr0El1 | afsr1El1 | mairEl1 | amairEl1
  | cntkctlEl1 | cntvoffEl2
  | parEl1 | spEl1 | elrEl1 | spsrEl1
  | mpidrEl1 | midrEl1
deriving DecidableEq, Repr

/-- The save list: the moves of `hook_vcpu_regs_restore`, in order.
`hook_vcpu_regs_save` executes the same moves backwards. -/
def savedRegs : List (HwReg × VcpuSysreg) :=
  [(.tpidrEl0, .tpidrEl0), (.tpidrroEl0, .tpidrroEl0), (.contextidrEl1, .contextidrEl1),
   (.csselrEl1, .csselrEl1), (.cpacrEl1, .cpacrEl1),
   (.ttbr0El1, .ttbr0El1), (.ttbr1El1, .ttbr1El1), (.tcrEl1, .tcrEl1), (.vbarEl1, .vbarEl1),
   (.esrEl1, .esrEl1), (.farEl1, .farEl1),
   (.afsr0El1, .afsr0El1), (.afsr1El1, .afsr1El1), (.mairEl1, .mairEl1),
   (.amairEl1, .amairEl1),
   (.cntkctlEl1, .cntkctlEl1),
   (.parEl1, .parEl1), (.spEl1, .spEl1), (.elrEl1, .elrEl1), (.spsrEl1, .spsrEl1),
   (.vmpidrEl2, .mpidrEl1), (.vpidrEl2, .midrEl1),
   (.sctlrEl1, .sctlrEl1)]

theorem savedRegs_nodup_fst : (savedRegs.map Prod.fst).Nodup := by decide

theorem savedRegs_nodup_snd : ((savedRegs.map Prod.swap).map Prod.fst).Nodup := by decide

/-- The fields of `struct vcpu_arch` the handlers use. -/
structure VcpuArch where
  sysRegs : VcpuSysreg → BitVec 64
  hcrEl2 : BitVec 64

/-- `struct vm_arch`. -/
structure VmArch where
  vtcrEl2 : BitVec 64
  vttbrEl2 : BitVec 64
deriving DecidableEq, Repr

/-- A vCPU, by the id of its VM and its index there. -/
structure VcpuId where
  vm : Nat
  id : Nat
deriving DecidableEq, Repr

/-- A thread: of the host, or the thread of a vCPU. -/
inductive Thread
  | host (n : Nat)
  | vcpu (v : VcpuId)
deriving DecidableEq, Repr

/-- One CPU and the memory the handlers use. -/
structure Machine where
  regs : HwReg → BitVec 64
  ich : IchRegs
  arch : VcpuId → VcpuArch
  vmArch : Nat → VmArch
  pgdTbl : Nat → BitVec 64
  ctxt : Nat → VgicContext
  gicr : VcpuId → Vgicr
  systemVectors : BitVec 64
  current : Thread

/-! ## Constants -/

def hcrBit (i : Nat) : BitVec 64 := 1 <<< i

/-- `HCR_GUEST_FLAGS`: TSC, VM and RW. -/
def hcrGuestFlags : BitVec 64 := hcrBit 19 ||| hcrBit 0 ||| hcrBit 31
/-- `HCR_GUEST_XMO_FLAGS`: AMO, IMO and FMO. -/
def hcrGuestXmoFlags : BitVec 64 := hcrBit 5 ||| hcrBit 4 ||| hcrBit 3
/-- `HCR_HOST_NVHE_FLAGS`: RW and TGE. -/
def hcrHostNvheFlags : BitVec 64 := hcrBit 31 ||| hcrBit 27

def cpacrEl1Tta : BitVec 64 := 1 <<< 28
def cpacrEl1Fpen : BitVec 64 := (1 <<< 20) ||| (1 <<< 21)
def cpacrEl1Zen : BitVec 64 := (1 <<< 16) ||| (1 <<< 17)
def cpacrEl1Default : BitVec 64 := cpacrEl1Fpen ||| cpacrEl1Zen
def cptrEl2Tam : BitVec 64 := 1 <<< 30

def s2VaMask : BitVec 64 := 0x0000FFFFFFFFF000
def vmidShift : Nat := 48

/-- `get_vtcr_el2`. -/
def getVtcrEl2 : BitVec 64 :=
  (64 - 40) ||| (1 <<< 6) ||| (1 <<< 8) ||| (1 <<< 10) ||| (3 <<< 12) ||| (0 <<< 14)
    ||| (2 <<< 16) ||| (0 <<< 19)

/-- The `VTTBR_EL2` value of a VM: its level-1 table and its id. -/
def vttbrOf (pgdTbl : BitVec 64) (vmId : Nat) : BitVec 64 :=
  (pgdTbl &&& s2VaMask) ||| (BitVec.ofNat 64 vmId <<< vmidShift)

/-! ## The handlers -/

def Machine.setReg (m : Machine) (r : HwReg) (val : BitVec 64) : Machine :=
  { m with regs := Function.update m.regs r val }

def Machine.slice (m : Machine) (v : VcpuId) : VgicSlice := ⟨m.ich, m.gicr v, m.ctxt v.vm⟩

def Machine.putSlice (m : Machine) (v : VcpuId) (s : VgicSlice) : Machine :=
  { m with
    ich := s.ich
    gicr := Function.update m.gicr v s.gicr
    ctxt := Function.update m.ctxt v.vm s.ctxt }

/-- The `sys_regs` a vCPU starts with: `vcpu_create` zeroes `vcpu_arch`, then
`vcpu_state_init` sets four of them to something else. -/
def vcpuStateInitRegs (id : Nat) : VcpuSysreg → BitVec 64
  | .mpidrEl1 => BitVec.ofNat 64 id
  | .midrEl1 => 0x410FC050
  | .cpacrEl1 => cpacrEl1Fpen
  | .sctlrEl1 => 0x00C50078
  | _ => 0

/-- `vcpu_state_init`. -/
def vcpuStateInit (m : Machine) (v : VcpuId) : Machine :=
  { m with
    arch := Function.update m.arch v
      ⟨vcpuStateInitRegs v.id, hcrGuestFlags ||| hcrGuestXmoFlags⟩
    vmArch := Function.update m.vmArch v.vm ⟨getVtcrEl2, vttbrOf (m.pgdTbl v.vm) v.vm⟩ }

/-- `hook_vcpu_regs_restore`. -/
def hookVcpuRegsRestore (m : Machine) (v : VcpuId) : Machine :=
  { m with regs := copyInto savedRegs (m.arch v).sysRegs m.regs }

/-- `hook_vcpu_regs_save`. -/
def hookVcpuRegsSave (m : Machine) (v : VcpuId) : Machine :=
  let sysRegs := copyInto (savedRegs.map Prod.swap) m.regs (m.arch v).sysRegs
  { m with arch := Function.update m.arch v ⟨sysRegs, (m.arch v).hcrEl2⟩ }

/-- `activate_trap`. -/
def activateTrap (m : Machine) (v : VcpuId) : Machine :=
  let m := m.setReg .hcrEl2 (m.arch v).hcrEl2
  let val : BitVec 64 := 0 &&& ~~~cpacrEl1Zen
  let m := m.setReg .cpacrEl1 (val ||| cpacrEl1Tta ||| cpacrEl1Fpen ||| cptrEl2Tam)
  m.setReg .vbarEl1 m.systemVectors

/-- `deactivate_trap`. -/
def deactivateTrap (m : Machine) : Machine :=
  (m.setReg .hcrEl2 hcrHostNvheFlags).setReg .cpacrEl1 cpacrEl1Default

/-- `flush_vm_all_tlb`: the invalidation runs under the VM's own `VTTBR_EL2`. -/
def flushVmAllTlb (m : Machine) (vm : Nat) : Machine :=
  let vttbr := vttbrOf (m.pgdTbl vm) vm
  let oldVttbr := m.regs .vttbrEl2
  let m := if oldVttbr ≠ vttbr then m.setReg .vttbrEl2 vttbr else m
  if oldVttbr ≠ vttbr then m.setReg .vttbrEl2 oldVttbr else m

/-- `load_stage2_setting`. -/
def loadStage2Setting (m : Machine) (v : VcpuId) : Machine :=
  let m := m.setReg .vtcrEl2 (m.vmArch v.vm).vtcrEl2
  let m := m.setReg .vttbrEl2 (m.vmArch v.vm).vttbrEl2
  flushVmAllTlb m v.vm

/-- `save_stage2_setting`. -/
def saveStage2Setting (m : Machine) (v : VcpuId) : Machine :=
  { m with vmArch := Function.update m.vmArch v.vm ⟨m.regs .vtcrEl2, m.regs .vttbrEl2⟩ }

/-- `host_to_guest_arch_handler`. -/
def hostToGuestArchHandler [Bitmap] (m : Machine) (v : VcpuId) : Except Fault Machine := do
  let m := hookVcpuRegsRestore m v
  let m := activateTrap m v
  let m := loadStage2Setting m v
  let s ← hookVgicContextRestore (m.slice v)
  pure (m.putSlice v s)

/-- `guest_to_host_arch_handler`. -/
def guestToHostArchHandler [Bitmap] (m : Machine) (v : VcpuId) : Except Fault Machine := do
  let m := saveStage2Setting m v
  let m := deactivateTrap m
  let m := hookVcpuRegsSave m v
  let s ← hookVgicContextSave (m.slice v)
  pure (m.putSlice v s)

/-- `vcpu_to_vcpu_arch_handler`: it prints a line. -/
def vcpuToVcpuArchHandler (m : Machine) (_src _dst : VcpuId) : Machine := m

/-- `guest_to_guest_arch_handler`: it prints a line. -/
def guestToGuestArchHandler (m : Machine) (_src _dst : VcpuId) : Machine := m

inductive SwitchType
  | hostToHost
  | hostToGuest (v : VcpuId)
  | guestToHost (v : VcpuId)
  | vcpuToVcpu (a b : VcpuId)
  | guestToGuest (a b : VcpuId)
deriving DecidableEq, Repr

/-- `this_switch_type`, with the vCPUs the handler of that type is given. -/
def thisSwitchType : Thread → Thread → SwitchType
  | .host _, .host _ => .hostToHost
  | .host _, .vcpu v => .hostToGuest v
  | .vcpu v, .host _ => .guestToHost v
  | .vcpu a, .vcpu b => if a.vm = b.vm then .vcpuToVcpu a b else .guestToGuest a b

/-- `switch_hook`. -/
def switchHook [Bitmap] (m : Machine) (src dst : Thread) : Except Fault Machine :=
  match thisSwitchType src dst with
  | .hostToGuest v => hostToGuestArchHandler m v
  | .guestToHost v => guestToHostArchHandler m v
  | .vcpuToVcpu a b => pure (vcpuToVcpuArchHandler m a b)
  | .guestToGuest a b => pure (guestToGuestArchHandler m a b)
  | .hostToHost => pure m

end RtHypervisor.Ports.SwitchContext
