import RtHypervisor.Ports.Mm
import RtHypervisor.Ports.Vcpu

/-!
# A virtual machine and its vCPUs

`vm.c`, with the parts of `vgic.c` and `vconsole.c` that `vm_init` calls and the
thread operations of `thread.c` that act on a vCPU's thread.

`vm->vcpus` is an array `rt_malloc` returns and `vcpus_create` fills from the
front, so a cell is null, a vCPU, or something that is not a vCPU: what the heap
left there, or a vCPU that has been freed.  A deleted thread is freed by the idle
thread some time later.
-/

namespace RtHypervisor.Ports.VmLife

open RtHypervisor.Verified.Run
open RtHypervisor.Verified.ByteMem
open RtHypervisor.Ports.ListRegister (Virq virqPrivNum)
open RtHypervisor.Ports.Platform
open RtHypervisor.Ports.Stage2
open RtHypervisor.Ports.Mm
open RtHypervisor.Ports.Vcpu (VcpuStatus ThreadCall vcpuGo vcpuSuspend)

/-! ## Data -/

/-- `VM_STATUS_*`. -/
inductive VmStatus
  | offline
  | online
  | suspend
  | neverRun
  | unknown
deriving DecidableEq, Repr

/-- `thread->stat`; `ready` is `RT_THREAD_READY` or `RT_THREAD_RUNNING`, `freed` a
thread whose memory the idle thread has released. -/
inductive ThreadStat
  | init
  | ready
  | suspend
  | close
  | freed
deriving DecidableEq, Repr

/-- A thread, named by the allocation it comes from. -/
structure Thread where
  tid : Nat
  stat : ThreadStat
deriving DecidableEq, Repr

/-- `struct vcpu`, named by the allocation it comes from. -/
structure Vcpu where
  uid : Nat
  thread : Thread
  status : VcpuStatus
deriving DecidableEq, Repr

/-- An element of `vm->vcpus`. -/
inductive Cell
  | null
  | wild
  | vcpu (v : Vcpu)
deriving DecidableEq, Repr

/-- `struct vdev`.  The only devices created are consoles. -/
structure Vdev where
  isOpen : Bool
deriving DecidableEq, Repr

/-- The entries of `struct os_desc` the code reads; `hasDev` says that `devs.dev` is
not null. -/
structure OsDesc where
  imgAddr : BitVec 64
  imgSize : BitVec 64
  imgEp : BitVec 64
  cpuNum : Nat
  memAddr : BitVec 64
  memSize : BitVec 64
  virqNum : BitVec 64
  hasDev : Bool
deriving DecidableEq, Repr

/-- `MAX_OS_NUM`. -/
def maxOsNum : Nat := 3

/-- `os_img`.  The last entry has no initialiser. -/
def osImg : Nat → OsDesc
  | 0 => ⟨0x45000000, 0x29CD0, 0x40008000, 1, 0x40000000, 8, 127, true⟩
  | 1 => ⟨0x00208000, 0x1DC80, 0x00208000, 1, 0x40000000, 8, 0, true⟩
  | _ => ⟨0, 0, 0, 0, 0, 0, 0, false⟩

/-- `struct vm`.  `os` is the index behind the pointer `vm->os`, `vcpus` is null until
`vm_init`, and `gicd` is `vm->vgic->gicd->virqs`. -/
structure Vm where
  id : Nat
  status : VmStatus
  os : Option Nat
  osIdx : Nat
  mm : MmStruct
  nrVcpus : Nat
  vcpus : Option (List Cell)
  gicd : Option (Nat → Virq)
  devList : List Vdev

/-! ## Threads -/

/-- A thread operation starts by reading the thread. -/
def Thread.touch (t : Thread) : Except Fault Unit := check .wildPointer (t.stat != .freed)

/-- `rt_thread_startup`. -/
def rtThreadStartup (e : Env) (t : Thread) : Except Fault (Thread × Env) := do
  t.touch
  check .threadAssertion (t.stat == .init)
  pure ({ t with stat := .ready }, e.note (.threadStartup t.tid))

/-- `rt_thread_suspend`; `self` says that it is the calling thread. -/
def rtThreadSuspend (e : Env) (t : Thread) (self : Bool) : Except Fault (RtErr × Thread × Env) := do
  t.touch
  check .threadAssertion self
  let e := e.note (.threadSuspend t.tid)
  if t.stat = .ready then pure (.eok, { t with stat := .suspend }, e) else pure (.error, t, e)

/-- `rt_thread_resume`. -/
def rtThreadResume (e : Env) (t : Thread) : Except Fault (RtErr × Thread × Env) := do
  t.touch
  let e := e.note (.threadResume t.tid)
  if t.stat = .suspend then pure (.eok, { t with stat := .ready }, e) else pure (.error, t, e)

/-- `rt_thread_delete`. -/
def rtThreadDelete (e : Env) (t : Thread) : Except Fault (Thread × Env) := do
  t.touch
  pure ({ t with stat := .close }, e.note (.threadDelete t.tid))

/-- The idle thread frees a deleted thread. -/
def Thread.reap (t : Thread) : Thread :=
  if t.stat = .close then { t with stat := .freed } else t

/-! ## vCPUs -/

section Vcpus

variable (B : Board)

/-- `vtimer_ctxt_create`; what it returns is not looked at. -/
def vtimerCtxtCreate (e : Env) : Env :=
  match e.malloc B with
  | (none, e) => e
  | (some _, e) => ((e.malloc B).2.malloc B).2

/-- `vcpu_create`, up to the assignment to `vm->vcpus[vcpu_id]`.  `rt_thread_create` is one
allocation.  The affinity is read from `vm->os[vm->os_idx]`, which is
`os_img[os_idx + os_idx]`. -/
def vcpuCreate (osIdx : Nat) (e : Env) : Except Fault (Option Vcpu × Env) :=
  match e.malloc B with
  | (vcpu, e) =>
    match e.malloc B with
    | (arch, e) =>
      match vcpu, arch with
      | some uid, some _ =>
          match e.malloc B with
          | (none, e) => pure (none, e.note (.freeVcpu uid))
          | (some tid, e) => do
              check .outOfBounds (osIdx + osIdx < maxOsNum)
              pure (some ⟨uid, ⟨tid, .init⟩, .neverRun⟩, vtimerCtxtCreate B e)
      | _, _ => pure (none, e)

/-- Read a cell of `vm->vcpus`. -/
def cellAt (vcpus : Option (List Cell)) (i : Nat) : Except Fault Cell := do
  let cells ← deref vcpus
  match cells[i]? with
  | some c => pure c
  | none => .error .outOfBounds

/-- The vCPU a cell points to. -/
def Cell.deref : Cell → Except Fault Vcpu
  | .null => .error .nullPointer
  | .wild => .error .wildPointer
  | .vcpu v => .ok v

/-- `vcpu_free` on a non-null pointer.  The cell dangles afterwards. -/
def vcpuFree (e : Env) (v : Vcpu) : Except Fault Env := do
  let (_, e) ← rtThreadDelete e v.thread
  pure (e.note (.freeVcpu v.uid))

/-- `vcpu_free` on every non-null cell: the cells afterwards and the vCPUs freed. -/
def freeCells : List Cell → Env → Except Fault (List Cell × List Nat × Env)
  | [], e => pure ([], [], e)
  | .null :: cs, e => do
      let (cs, freed, e) ← freeCells cs e
      pure (.null :: cs, freed, e)
  | .wild :: _, _ => .error .wildPointer
  | .vcpu v :: cs, e => do
      let e ← vcpuFree e v
      let (cs, freed, e) ← freeCells cs e
      pure (.wild :: cs, v.uid :: freed, e)

/-- The loop of `vcpus_create` over the remaining indices. -/
def createCells (osIdx : Nat) :
    List Nat → List Cell → List Nat → Env → Except Fault (RtErr × List Cell × Env)
  | [], cells, _, e => pure (.eok, cells, e)
  | i :: is, cells, created, e => do
      match ← vcpuCreate B osIdx e with
      | (some v, e) => createCells osIdx is (cells.set i (.vcpu v)) (created ++ [v.uid]) e
      | (none, e) => do
          let (cells, freed, e) ← freeCells cells e
          pure (.enomem, cells, e.note (.rollback created freed))

/-- `vcpus_create`. -/
def vcpusCreate (e : Env) (vm : Vm) : Except Fault (RtErr × Vm × Env) := do
  let cells ← deref vm.vcpus
  let (ret, cells, e) ← createCells B vm.osIdx (List.range vm.nrVcpus) cells [] e
  pure (ret, { vm with vcpus := some cells }, e)

/-- `vcpu_go`. -/
def vcpuGoOn (e : Env) (v : Vcpu) : Except Fault (Vcpu × Env) :=
  match vcpuGo v.status with
  | (st, .startup) => do
      let (t, e) ← rtThreadStartup e v.thread
      pure ({ v with status := st, thread := t }, e)
  | (st, .resumeThenSchedule) => do
      let (_, t, e) ← rtThreadResume e v.thread
      pure ({ v with status := st, thread := t }, e)
  | (st, _) => pure ({ v with status := st }, e)

/-- `vcpu_suspend` by the vCPU's own thread. -/
def vcpuSuspendSelf (e : Env) (v : Vcpu) : Except Fault (Vcpu × Env) :=
  match vcpuSuspend v.status with
  | (st, .suspendThenSchedule) => do
      let (_, t, e) ← rtThreadSuspend e v.thread true
      pure ({ v with status := st, thread := t }, e)
  | (st, _) => pure ({ v with status := st }, e)

/-- `vcpu_shutdown` by the vCPU's own thread.  In the first case the thread gives up the
processor and is not resumed, so the rest of the function is not reached. -/
def vcpuShutdownSelf (e : Env) (v : Vcpu) : Except Fault (Vcpu × Env) :=
  match v.status with
  | .online => do
      let (_, t, e) ← rtThreadSuspend e v.thread true
      pure ({ v with status := .offline, thread := t }, e)
  | .suspend => do
      let (t, e) ← rtThreadDelete e v.thread
      pure ({ v with status := .unknown, thread := t }, e)
  | _ => pure ({ v with status := .unknown }, e)

/-! ## The vGIC and the console of a new VM -/

/-- `vgicd_init`: the `virqs` of the distributor, from what the allocation held before. -/
def vgicdInit (old : Nat → Virq) (virqNum : BitVec 64) : Except Fault (Nat → Virq) := do
  let bound := (virqNum - BitVec.ofNat 64 virqPrivNum).toNat
  check .outOfBounds (bound ≤ 128)
  pure fun i =>
    if i < bound then
      { vINIID := BitVec.ofNat 16 (i + virqPrivNum)
        pINTID := 0
        state := .inactive
        prio := 0xFF
        cfg := 0
        inLr := false
        enable := false
        hw := false }
    else old i

/-- The loop of `vgic_init` that allocates a redistributor for each vCPU. -/
def createGicrs : List Cell → Env → Except Fault Env
  | [], e => pure e
  | .null :: _, e => pure e
  | c :: cs, e =>
      match e.malloc B with
      | (none, _) => .error .assertion
      | (some _, e) => do
          let _ ← c.deref
          createGicrs cs e

/-- `vgic_init`. -/
def vgicInit (os : Nat → OsDesc) (e : Env) (vm : Vm) : Except Fault (Vm × Env) :=
  match e.malloc B with
  | (none, e) => pure (vm, e)
  | (some n, e) => do
      let idx ← deref vm.os
      let virqs ← vgicdInit (B.staleVirqs n) (os idx).virqNum
      let cells ← deref vm.vcpus
      let e ← createGicrs B (cells.take vm.nrVcpus) e
      pure ({ vm with gicd := some virqs }, e)

/-- `vc_create`; what it returns is not looked at. -/
def vcCreate (os : Nat → OsDesc) (e : Env) (vm : Vm) : Except Fault (Vm × Env) :=
  match e.malloc B with
  | (none, e) => pure (vm, e)
  | (some _, e) => do
      check .nullPointer (os vm.osIdx).hasDev
      pure ({ vm with devList := ⟨false⟩ :: vm.devList }, e)

/-! ## Loading the image -/

/-- The loop of `os_img_load`.  The source pointer is not advanced. -/
def loadLoop (pgdTbl src : BitVec 64) : Nat → S2 → BitVec 64 → BitVec 64 → Except Fault (RtErr × S2)
  | 0, _, _, _ => .error .fuel
  | fuel + 1, s, dstVa, count => do
      match ← s2Translate s pgdTbl dstVa with
      | (.eok, dstPa) =>
          let copySize := if count ≥ s2PmdSize then s2PmdSize else count
          let mem := s.mem
          let s := { s with
            mem := blit mem dstPa.toNat copySize.toNat (fun i => mem (src.toNat + i)) }
          if count - copySize > 0 then
            loadLoop pgdTbl src fuel s (dstVa + copySize) (count - copySize)
          else pure (.eok, s)
      | (ret, _) => pure (ret, s)

/-- `os_img_load`. -/
def osImgLoad (d : OsDesc) (e : Env) (mm : MmStruct) : Except Fault (RtErr × Env) := do
  let (ret, s2) ← loadLoop mm.pgdTbl d.imgAddr (d.imgSize.toNat / memBlockSize + 1) e.s2
    d.imgEp d.imgSize
  pure (ret, { e with s2 := s2 })

/-! ## The life of a VM -/

/-- `vm_config_init`. -/
def vmConfigInit (os : Nat → OsDesc) (vm : Vm) (id : Nat) : Except Fault Vm := do
  let idx ← deref vm.os
  pure { vm with
    id := id
    status := .neverRun
    mm := { vm.mm with memSize := (os idx).memSize, memUsed := 0 }
    nrVcpus := (os idx).cpuNum
    devList := [] }

/-- The cells of an array of `n` pointers before anything is written to it. -/
def staleCells (alloc n : Nat) : List Cell :=
  (List.range n).map fun j => if B.stale alloc j then .wild else .null

/-- `vm_init` from the point where the guest memory is set up. -/
def vmInitDevices (os : Nat → OsDesc) (e : Env) (vm : Vm) : Except Fault (RtErr × Vm × Env) := do
  match ← vcpusCreate B e vm with
  | (.eok, vm, e) => do
      let (vm, e) ← vgicInit B os e vm
      let (vm, e) ← vcCreate B os e vm
      let idx ← deref vm.os
      let (ret, e) ← osImgLoad (os idx) e vm.mm
      pure (ret, vm, e)
  | r => pure r

/-- `vm_init` from the point where its pointers are allocated. -/
def vmInitMemory (os : Nat → OsDesc) (e : Env) (vm : Vm) : Except Fault (RtErr × Vm × Env) := do
  let idx ← deref vm.os
  let (ret, mm, e) ← vmMmStructInit B e vm.mm vm.id (os idx).memAddr (os idx).memSize
  if ret ≠ .eok then
    pure (ret, { vm with mm := mm }, e)
  else
    let (ret, mm, e) ← vmMemoryInit B e mm vm.id
    if ret ≠ .eok then
      pure (ret, { vm with mm := mm }, e)
    else
      vmInitDevices B os e { vm with mm := mm }

/-- `vm_init`. -/
def vmInit (os : Nat → OsDesc) (e : Env) (vm : Vm) : Except Fault (RtErr × Vm × Env) :=
  match e.mallocArray B vm.nrVcpus with
  | (vcpus, e) =>
    match e.malloc B with
    | (arch, e) =>
      match vcpus, arch with
      | some n, some _ => vmInitMemory B os e { vm with vcpus := some (staleCells B n vm.nrVcpus) }
      | _, _ =>
          pure (.enomem, { vm with vcpus := vcpus.map fun n => staleCells B n vm.nrVcpus }, e)

/-- `vm_go`. -/
def vmGo (e : Env) (vm : Vm) : Except Fault (Vm × Env) := do
  match ← cellAt vm.vcpus 0 with
  | .null => pure (vm, e)
  | c => do
      let v ← c.deref
      let (v, e) ← vcpuGoOn e v
      pure ({ vm with vcpus := vm.vcpus.map fun cells => cells.set 0 (.vcpu v) }, e)

/-- The loop of `vm_suspend`: the result of the first `rt_thread_suspend` that fails. -/
def suspendCells : List Nat → List Cell → Env → Except Fault (RtErr × List Cell × Env)
  | [], cells, e => pure (.eok, cells, e)
  | i :: is, cells, e => do
      let c ← cellAt (some cells) i
      let v ← c.deref
      match ← rtThreadSuspend e v.thread false with
      | (.eok, t, e) => suspendCells is (cells.set i (.vcpu { v with thread := t })) e
      | (ret, t, e) => pure (ret, cells.set i (.vcpu { v with thread := t }), e)

/-- `vm_suspend`, called by a host thread. -/
def vmSuspend (e : Env) (vm : Vm) : Except Fault (Vm × Env) :=
  if vm.nrVcpus = 0 then
    pure ({ vm with status := .suspend }, e)
  else do
    let cells ← deref vm.vcpus
    match ← suspendCells (List.range vm.nrVcpus) cells e with
    | (.eok, cells, e) => pure ({ vm with vcpus := some cells, status := .suspend }, e)
    | (_, cells, e) => pure ({ vm with vcpus := some cells, status := .unknown }, e)

/-- The loop of `vm_shutdown`. -/
def deleteCells : List Cell → Env → Except Fault (List Cell × Env)
  | [], e => pure ([], e)
  | c :: cs, e => do
      let v ← c.deref
      let (t, e) ← rtThreadDelete e v.thread
      let (cs, e) ← deleteCells cs e
      pure (.vcpu { v with thread := t } :: cs, e)

/-- `vm_shutdown` on a non-null pointer. -/
def vmShutdown (e : Env) (vm : Vm) : Except Fault (Vm × Env) :=
  if vm.nrVcpus = 0 then
    pure ({ vm with status := .offline }, e)
  else do
    let cells ← deref vm.vcpus
    let (cells, e) ← deleteCells cells e
    pure ({ vm with vcpus := some cells, status := .offline }, e)

/-- `vm_free`. -/
def vmFree (e : Env) (vm : Vm) : Except Fault Env :=
  if vm.nrVcpus = 0 then
    pure e
  else do
    let cells ← deref vm.vcpus
    let (_, _, e) ← freeCells cells e
    pure e

end Vcpus

end RtHypervisor.Ports.VmLife
