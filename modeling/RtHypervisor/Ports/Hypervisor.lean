import RtHypervisor.Ports.VmLife

/-!
# The hypervisor and its shell commands

`struct hypervisor`, the commands of `hypervisor.c` and the console switching of
`vconsole.c`, together with what guests and the host do in between: a vCPU
executes WFI, faults or is woken by an interrupt, a guest writes an enable
register of its distributor, and the idle thread frees deleted threads.  `exec`
runs one command; `step` forgets what it returned.

A command line is the list of its options.  `strtol` yields an integer, which the
commands store in an `rt_uint8_t`.
-/

namespace RtHypervisor.Ports.Hypervisor

open RtHypervisor.Verified.Run
open RtHypervisor.Ports.ListRegister (Virq virqPrivNum)
open RtHypervisor.Ports.Platform
open RtHypervisor.Ports.Stage2
open RtHypervisor.Ports.Mm
open RtHypervisor.Ports.VmLife

/-- `struct hypervisor`, the state of the host console and the environment.  `currVcIdx` is
`maxVmNum` while the host uses the UART; `hostConsole` says that the host console device is
open. -/
structure Hyp where
  hypInitOk : Bool
  totalVm : Nat
  vmBitmap : BitVec 32
  vms : Nat → Option Vm
  currVmIdx : Nat
  currVcIdx : Nat
  hostConsole : Bool
  env : Env

/-- Store a pointer in `rt_hyp.vms`. -/
def Hyp.setVm (h : Hyp) (i : Nat) (vm : Option Vm) : Hyp :=
  { h with vms := Function.update h.vms i vm }

/-- Write back a VM and the environment an operation on it has left. -/
def Hyp.put (h : Hyp) (i : Nat) (r : Vm × Env) : Hyp :=
  { h.setVm i (some r.1) with env := r.2 }

/-- What `rt_hyp_init` sets up, before any command. -/
structure Boot (h : Hyp) : Prop where
  hypInitOk_eq : h.hypInitOk = false
  totalVm_eq : h.totalVm = 0
  vmBitmap_eq : h.vmBitmap = 0
  vms_eq : ∀ i, h.vms i = none
  currVmIdx_eq : h.currVmIdx = maxVmNum
  currVcIdx_eq : h.currVcIdx = maxVmNum
  hostConsole_eq : h.hostConsole = true
  log_eq : h.env.log = []

/-- The options of `create_vm`: `-i N`, `-n NAME`, or one `optparse` does not accept. -/
inductive CreateOpt
  | i (n : Int)
  | n
  | bad
deriving DecidableEq, Repr

/-- The options of `pick_vm` and `attach_vm`. -/
inductive IdxOpt
  | i (n : Int)
  | bad
deriving DecidableEq, Repr

/-- The value an `rt_uint8_t` holds after an assignment. -/
def toUint8 (n : Int) : Nat := (n % 256).toNat

section Commands

variable (B : Board) (os : Nat → OsDesc)

/-! ## `create_vm` -/

/-- `rt_hypervisor_init`; `el2` says that every processor runs at EL2. -/
def rtHypervisorInit (h : Hyp) (el2 : Bool) : Except Fault (RtErr × Hyp) := do
  let s2 ← rtInitS2MmuTable B h.env.s2
  let h := { h with env := { h.env with s2 := s2 } }
  pure (if el2 then .eok else .error, h)

/-- The option loop of `create_vm`. -/
def createOpts : List CreateOpt → Vm → RtErr × Vm
  | [], vm => (.eok, vm)
  | .i n :: rest, vm =>
      let osIdx := toUint8 n
      if osIdx ≥ maxOsNum then (.einval, vm)
      else createOpts rest { vm with os := some osIdx, osIdx := osIdx }
  | .n :: rest, vm => createOpts rest vm
  | .bad :: _, vm => (.error, vm)

/-- A `struct vm` after `rt_memset`, with its zeroed `mm_struct`. -/
def zeroVm : Vm where
  id := 0
  status := .offline
  os := none
  osIdx := 0
  mm := ⟨0, 0, 0, []⟩
  nrVcpus := 0
  vcpus := none
  gicd := none
  devList := []

/-- `create_vm` after the index has been taken from the bitmap. -/
def installVm (h : Hyp) (vmIdx : Nat) (opts : List CreateOpt) : Except Fault (RtErr × Hyp) :=
  let (newVm, e) := h.env.malloc B
  let (mm, e) := e.malloc B
  let (vgic, e) := e.malloc B
  let h := { h with env := e }
  match newVm, mm, vgic with
  | some _, some _, some _ =>
      match createOpts opts zeroVm with
      | (.eok, vm) => do
          let vm ← vmConfigInit os vm vmIdx
          check .outOfBounds (vmIdx < maxVmNum)
          pure (.eok, { h.setVm vmIdx (some vm) with
            currVmIdx := vmIdx
            totalVm := h.totalVm + 1 })
      | (ret, _) => pure (ret, h)
  | _, _, vgic => do
      -- vgic_free writes to the pointer it is given
      check .nullPointer vgic.isSome
      pure (.enomem, h)

/-- `create_vm` once the hypervisor is initialised. -/
def createVmReady (h : Hyp) (opts : List CreateOpt) : Except Fault (RtErr × Hyp) :=
  if h.totalVm = maxVmNum then
    pure (.error, h)
  else
    let vmIdx := B.findNext h.vmBitmap
    installVm B os { h with vmBitmap := B.setBit h.vmBitmap vmIdx } vmIdx opts

/-- `create_vm`. -/
def createVm (h : Hyp) (el2 : Bool) (opts : List CreateOpt) : Except Fault (RtErr × Hyp) :=
  if h.hypInitOk then
    createVmReady B os h opts
  else do
    match ← rtHypervisorInit B h el2 with
    | (.eok, h) => createVmReady B os { h with hypInitOk := true } opts
    | r => pure r

/-! ## `pick_vm` -/

/-- The option loop of `pick_vm`: the hypervisor, `vm_idx`, and whether the loop ended
without a `return`. -/
def pickOpts : List IdxOpt → Hyp → Option Nat → Hyp × Option Nat × Bool
  | [], h, vmIdx => (h, vmIdx, true)
  | .i n :: rest, h, _ =>
      let vmIdx := toUint8 n
      if vmIdx ≥ maxVmNum then (h, some vmIdx, false)
      else pickOpts rest { h with currVmIdx := vmIdx } (some vmIdx)
  | .bad :: _, h, vmIdx => (h, vmIdx, false)

/-- `pick_vm`; `einval` stands for the error message of a rejected command. -/
def pickVm (h : Hyp) (opts : List IdxOpt) : Except Fault (RtErr × Hyp) :=
  match pickOpts opts h none with
  | (h, _, false) => pure (.einval, h)
  | (_, none, true) => .error .uninitialised
  | (h, some vmIdx, true) =>
      if (h.vms vmIdx).isSome then pure (.eok, { h with currVmIdx := vmIdx })
      else pure (.einval, h)

/-! ## `run_vm`, `pause_vm`, `halt_vm`, `delete_vm` -/

/-- Run `f` on the VM `curr_vm_idx` names, after `vm_idx_check`. -/
def onCurrVm (h : Hyp) (f : Vm → Except Fault (RtErr × Hyp)) : Except Fault (RtErr × Hyp) :=
  if h.currVmIdx ≥ maxVmNum then
    pure (.einval, h)
  else
    match h.vms h.currVmIdx with
    | none => pure (.einval, h)
    | some vm => f vm

/-- The switch of `run_vm`. -/
def runVmOn (e : Env) (vm : Vm) : Except Fault (RtErr × Vm × Env) :=
  match vm.status with
  | .offline | .suspend => do
      let r ← vmGo e { vm with status := .online }
      pure (.eok, r)
  | .online => pure (.eok, vm, e)
  | .neverRun => do
      match ← vmInit B os e vm with
      | (.eok, vm, e) => do
          let r ← vmGo e { vm with status := .online }
          pure (.eok, r)
      | r => pure r
  | .unknown => pure (.error, vm, e)

/-- `run_vm`. -/
def runVm (h : Hyp) : Except Fault (RtErr × Hyp) :=
  onCurrVm h fun vm => do
    let (ret, r) ← runVmOn B os h.env vm
    pure (ret, h.put h.currVmIdx r)

/-- `pause_vm`. -/
def pauseVm (h : Hyp) : Except Fault (RtErr × Hyp) :=
  onCurrVm h fun vm => do
    let r ← vmSuspend h.env vm
    pure (.eok, h.put h.currVmIdx r)

/-- `halt_vm`.  For a VM that does not exist, `vm_shutdown` does nothing. -/
def haltVm (h : Hyp) : Except Fault (RtErr × Hyp) :=
  if h.currVmIdx ≥ maxVmNum then
    pure (.einval, h)
  else
    match h.vms h.currVmIdx with
    | none => pure (.eok, h)
    | some vm => do
        let r ← vmShutdown h.env vm
        pure (.eok, h.put h.currVmIdx r)

/-- `delete_vm`. -/
def deleteVm (h : Hyp) : Except Fault (RtErr × Hyp) :=
  onCurrVm h fun vm => do
    let (vm, e) ← vmShutdown h.env vm
    let e ← vmFree e vm
    pure (.eok, { h.setVm h.currVmIdx none with
      env := e
      vmBitmap := B.clrBit h.vmBitmap h.currVmIdx })

/-! ## The console -/

/-- The index of the UART interrupt, `PL011_UART0_IRQNUM`, in `gicd->virqs`. -/
def uartVirq : Nat := 1

/-- The loop of `vgic_virq_mount` and `vgic_virq_umount`: does some vCPU have the interrupt
enabled? -/
def uartEnabled (gicd : Option (Nat → Virq)) : List Cell → Except Fault Bool
  | [] => pure false
  | .null :: cs => uartEnabled gicd cs
  | c :: cs => do
      let _ ← c.deref
      let virqs ← deref gicd
      if (virqs uartVirq).enable then pure true else uartEnabled gicd cs

/-- The common body of `vgic_virq_mount` and `vgic_virq_umount`. -/
def setUartHw (vm : Vm) (hw : Bool) (pINTID : BitVec 16) : Except Fault Vm :=
  if vm.nrVcpus = 0 then
    pure vm
  else do
    let cells ← deref vm.vcpus
    if ← uartEnabled vm.gicd cells then
      pure { vm with gicd := vm.gicd.map fun virqs =>
        Function.update virqs uartVirq { virqs uartVirq with hw := hw, pINTID := pINTID } }
    else pure vm

/-- `vgic_virq_mount` for the UART. -/
def vgicVirqMount (vm : Vm) : Except Fault Vm := setUartHw vm true 33

/-- `vgic_virq_umount` for the UART. -/
def vgicVirqUmount (vm : Vm) : Except Fault Vm := setUartHw vm false 0

/-- `get_curr_vc`: the VM whose first console device it returns. -/
def getCurrVc (h : Hyp) : Except Fault (Option Nat) :=
  if h.currVcIdx ≠ maxVmNum then do
    let vm ← deref (h.vms h.currVcIdx)
    pure (if vm.devList.isEmpty then none else some h.currVcIdx)
  else pure none

/-- The first device of the list with another `is_open`. -/
def setOpen (isOpen : Bool) (vm : Vm) : Vm :=
  { vm with devList := vm.devList.modifyHead fun _ => ⟨isOpen⟩ }

/-- `vc_detach` on the console of VM `i`. -/
def vcDetach (h : Hyp) (i : Nat) : Except Fault Hyp := do
  let vm ← deref (h.vms i)
  let vm ← vgicVirqUmount (setOpen false vm)
  pure { h.setVm i (some vm) with currVcIdx := maxVmNum, hostConsole := true }

/-- The second half of `vc_attach`: take the first console device of VM `i`. -/
def openConsole (h : Hyp) (i : Nat) : Except Fault Hyp := do
  let vm ← deref (h.vms i)
  if vm.devList.isEmpty then
    pure h
  else
    let vm' ← vgicVirqMount (setOpen true vm)
    pure { h.setVm i (some vm') with currVcIdx := vm.id }

/-- `vc_attach` on VM `i`. -/
def vcAttach (h : Hyp) (i : Nat) : Except Fault Hyp := do
  let h ← match ← getCurrVc h with
    | none => pure { h with hostConsole := false }
    | some j => vcDetach h j
  openConsole h i

/-- `attach_vm`. -/
def attachVm : Hyp → List IdxOpt → Except Fault (RtErr × Hyp)
  | h, [] => pure (.eok, h)
  | h, .i n :: rest =>
      let vmIdx := toUint8 n
      if vmIdx ≥ maxVmNum then
        pure (.einval, h)
      else
        match h.vms vmIdx with
        | none => pure (.einval, h)
        | some vm =>
            if vm.status ≠ .online then
              pure (.einval, h)
            else do
              let h ← vcAttach h vmIdx
              attachVm h rest
  | h, .bad :: _ => pure (.error, h)

/-- A guest writes Ctrl-B to the console: `console_mmio_handler` calls `vc_detach`. -/
def consoleQuit (h : Hyp) : Except Fault (RtErr × Hyp) := do
  match ← getCurrVc h with
  | none => pure (.eok, h)
  | some i => do
      let h ← vcDetach h i
      pure (.eok, h)

/-! ## Guests and the host in between -/

/-- Run `f` on vCPU `j` of VM `i`, where `may` says when the event can happen. -/
def onVcpu (h : Hyp) (i j : Nat) (may : Vcpu → Bool)
    (f : Env → Vcpu → Except Fault (Vcpu × Env)) : Except Fault Hyp :=
  match h.vms i with
  | none => pure h
  | some vm =>
      match vm.vcpus with
      | none => pure h
      | some cells =>
          match cells[j]? with
          | some (.vcpu v) =>
              if may v then do
                let (v, e) ← f h.env v
                pure (h.put i ({ vm with vcpus := some (cells.set j (.vcpu v)) }, e))
              else pure h
          | _ => pure h

/-- A guest event needs the vCPU's thread on the processor. -/
def Vcpu.runs (v : Vcpu) : Bool := v.thread.stat == .ready

/-- The loop of `vgic_gicd_write_isenabler` and `vgic_gicd_write_icenabler`, for the register
`word` of the range. -/
def writeEnable (enable : Bool) (word : Nat) (val : BitVec 64) (virqs : Nat → Virq) :
    List Nat → Except Fault (Nat → Virq)
  | [] => pure virqs
  | i :: is =>
      if val.getLsbD i then do
        let irq := 32 * word + i
        check .outOfBounds (virqPrivNum ≤ irq && irq - virqPrivNum < 128)
        let k := irq - virqPrivNum
        writeEnable enable word val
          (Function.update virqs k { virqs k with enable := enable }) is
      else writeEnable enable word val virqs is

/-- `vgic_gicd_write_isenabler` (`enable` true) or `vgic_gicd_write_icenabler`, by a running
vCPU of VM `i`. -/
def gicdWriteEnabler (h : Hyp) (i j : Nat) (enable : Bool) (word : Nat) (val : BitVec 64) :
    Except Fault Hyp :=
  match h.vms i with
  | none => pure h
  | some vm =>
      match vm.vcpus.bind (·[j]?) with
      | some (.vcpu v) =>
          if Vcpu.runs v then do
            let virqs ← deref vm.gicd
            let virqs ← writeEnable enable word val virqs (List.range 32)
            pure (h.setVm i (some { vm with gicd := some virqs }))
          else pure h
      | _ => pure h

/-- The idle thread frees the deleted threads. -/
def Cell.reap : Cell → Cell
  | .vcpu v => .vcpu { v with thread := v.thread.reap }
  | c => c

def reapAll (h : Hyp) : Hyp :=
  { h with vms := fun i => (h.vms i).map fun vm =>
      { vm with vcpus := vm.vcpus.map fun cells => cells.map Cell.reap } }

/-! ## One command -/

inductive Cmd
  | create (el2 : Bool) (opts : List CreateOpt)
  | pick (opts : List IdxOpt)
  | run
  | pause
  | halt
  | delete
  | attach (opts : List IdxOpt)
  | quit
  | wfi (i j : Nat)
  | fault (i j : Nat)
  | wake (i j : Nat)
  | writeEnabler (i j : Nat) (enable : Bool) (word : Nat) (val : BitVec 64)
  | reap
deriving DecidableEq, Repr

/-- What a command returns and leaves behind. -/
def exec (h : Hyp) : Cmd → Except Fault (RtErr × Hyp)
  | .create el2 opts => createVm B os h el2 opts
  | .pick opts => pickVm h opts
  | .run => runVm B os h
  | .pause => pauseVm h
  | .halt => haltVm h
  | .delete => deleteVm B h
  | .attach opts => attachVm h opts
  | .quit => consoleQuit h
  | .wfi i j => do
      let h ← onVcpu h i j Vcpu.runs vcpuSuspendSelf
      pure (.eok, h)
  | .fault i j => do
      let h ← onVcpu h i j Vcpu.runs vcpuShutdownSelf
      pure (.eok, h)
  | .wake i j => do
      let h ← onVcpu h i j (fun _ => true) vcpuGoOn
      pure (.eok, h)
  | .writeEnabler i j enable word val => do
      let h ← gicdWriteEnabler h i j enable word val
      pure (.eok, h)
  | .reap => pure (.eok, reapAll h)

def step (h : Hyp) (c : Cmd) : Except Fault Hyp := do
  let (_, h) ← exec B os h c
  pure h

end Commands

end RtHypervisor.Ports.Hypervisor
