import RtHypervisor.Ports.Stage2

/-!
# Guest memory

`mm.c`: a VM's memory is a list of areas; the one normal area is backed by 2 MB
blocks taken from the heap of the host, kept in a list with the last one first
and mapped in that order.

The functions pass an `Env` along: the memory of the host with the stage-2
tables, the number of allocations made so far, which is what the board decides
their outcome by, and a log of the calls that later modules speak about.
-/

namespace RtHypervisor.Ports.Mm

open RtHypervisor.Verified.Run
open RtHypervisor.Verified.ByteMem
open RtHypervisor.Ports.Platform
open RtHypervisor.Ports.Stage2

/-- The calls that are recorded.  vCPUs and threads are named by the allocation they
come from. -/
inductive Call
  | mapVmMemory (id : Nat)
  | threadStartup (tid : Nat)
  | threadSuspend (tid : Nat)
  | threadResume (tid : Nat)
  | threadDelete (tid : Nat)
  | freeVcpu (uid : Nat)
  | rollback (created freed : List Nat)
deriving DecidableEq, Repr

structure Env where
  s2 : S2
  allocs : Nat
  log : List Call

/-- Record a call. -/
def Env.note (e : Env) (c : Call) : Env := { e with log := e.log ++ [c] }

/-- `rt_malloc` of a non-empty object: the number of the allocation, if it succeeds. -/
def Env.malloc (B : Board) (e : Env) : Option Nat × Env :=
  (if B.grants e.allocs then some e.allocs else none, { e with allocs := e.allocs + 1 })

/-- `rt_malloc` of an array, which fails for an empty one. -/
def Env.mallocArray (B : Board) (e : Env) (n : Nat) : Option Nat × Env :=
  if n = 0 then (none, e) else e.malloc B

/-! ## Data -/

/-- `VM_MAP_BK`. -/
def vmMapBk : BitVec 64 := 0x10000

/-- `VM_MAP_PT`. -/
def vmMapPt : BitVec 64 := 0x20000

/-- `VM_MAP_TYPE_MASK`. -/
def vmMapTypeMask : BitVec 64 := 0x30000

/-- `struct vm_area`; `mbHead` is the list of blocks, first to last. -/
structure VmArea where
  desc : MemDesc
  mbHead : List Nat
  flag : BitVec 64
deriving DecidableEq, Repr

/-- `struct mm_struct`. -/
structure MmStruct where
  memSize : BitVec 64
  memUsed : BitVec 64
  pgdTbl : BitVec 64
  vmAreaUsed : List VmArea
deriving DecidableEq, Repr

/-- `BYTE(n)`. -/
def byte (n : BitVec 64) : BitVec 64 := n <<< 20

/-- `RT_ALIGN_DOWN(x, MEM_BLOCK_SIZE)`. -/
def blockAlignDown (x : BitVec 64) : BitVec 64 := x &&& ~~~(s2PmdSize - 1)

/-- `RT_ALIGN(x, MEM_BLOCK_SIZE)`. -/
def blockAlign (x : BitVec 64) : BitVec 64 := blockAlignDown (x + (s2PmdSize - 1))

/-! ## Initialising the structure -/

section Init

variable (B : Board)

/-- `vm_area_init`. -/
def vmAreaInit (e : Env) (start finish : BitVec 64) : Option VmArea × Env :=
  match e.malloc B with
  | (none, e) => (none, e)
  | (some _, e) =>
      (some
        { desc := { vaddrStart := start, vaddrEnd := finish, paddrStart := 0, attr := 0 }
          mbHead := []
          flag := 0 }, e)

/-- `vm_mm_struct_init`, for the VM with this id whose image names the memory
`[addr, addr + size MB)`. -/
def vmMmStructInit (e : Env) (mm : MmStruct) (id : Nat) (addr size : BitVec 64) :
    Except Fault (RtErr × MmStruct × Env) := do
  let pgd ← allocVmPgd B id
  let mm := { mm with
    vmAreaUsed := []
    pgdTbl := mmuTypeTable ||| (BitVec.ofNat 64 pgd &&& tableAddrMask) }
  match vmAreaInit B e addr (addr + byte size) with
  | (none, e) => pure (.enomem, mm, e)
  | (some va, e) => pure (.eok, { mm with vmAreaUsed := va :: mm.vmAreaUsed }, e)

/-! ## Allocating the blocks -/

/-- `alloc_mem_block`.  The descriptor of the block is written without a null check. -/
def allocMemBlock (e : Env) : Except Fault (Option Nat × Env) :=
  match e.malloc B with
  | (none, _) => .error .nullPointer
  | (some _, e) =>
      match e.malloc B with
      | (none, e) => pure (none, e)
      | (some n, e) => pure (some (B.block n), e)

/-- The loop of `alloc_vm_memory`: the blocks so far and `mm->mem_used`. -/
def allocBlocks : Nat → Env → List Nat → BitVec 64 →
    Except Fault (RtErr × List Nat × BitVec 64 × Env)
  | 0, e, mbHead, used => pure (.eok, mbHead, used, e)
  | n + 1, e, mbHead, used => do
      match ← allocMemBlock B e with
      | (none, e) => pure (.enomem, mbHead, used, e)
      | (some mb, e) => allocBlocks n e (mb :: mbHead) (used + s2PmdSize)

/-- `alloc_vm_memory`. -/
def allocVmMemory (e : Env) (mm : MmStruct) : Except Fault (RtErr × MmStruct × Env) :=
  match mm.vmAreaUsed with
  | [] => .error .wildPointer
  | vma :: rest =>
      if blockAlignDown vma.desc.vaddrStart ≠ vma.desc.vaddrStart then
        pure (.einval, mm, e)
      else do
        let count := (byte mm.memSize).toNat / memBlockSize
        let (ret, mbHead, used, e) ← allocBlocks B count e [] mm.memUsed
        let vma := { vma with mbHead := mbHead, flag := vma.flag ||| vmMapBk }
        pure (ret, { mm with memUsed := used, vmAreaUsed := vma :: rest }, e)

/-! ## Mapping -/

/-- `create_vm_mmap`; the descriptor is an in-out argument. -/
def createVmMmap (s : S2) (pgdTbl : BitVec 64) (id : Nat) (d : MemDesc) :
    Except Fault (RtErr × S2 × MemDesc) :=
  let d := { d with
    vaddrEnd := blockAlign d.vaddrEnd
    vaddrStart := blockAlignDown d.vaddrStart }
  if d.vaddrEnd - d.vaddrStart = 0 then pure (.einval, s, d) else s2Map B s pgdTbl id d

/-- The loop of `map_vma_bk` over the block list. -/
def mapBlocks (pgdTbl : BitVec 64) (id : Nat) (attr : BitVec 64) :
    List Nat → S2 → MemDesc → Except Fault (RtErr × S2)
  | [], s, _ => pure (.eok, s)
  | mb :: mbs, s, d => do
      let d := { d with paddrStart := BitVec.ofNat 64 mb, attr := attr ||| s2BlockNormal }
      match ← createVmMmap B s pgdTbl id d with
      | (.eok, s, d) =>
          mapBlocks pgdTbl id attr mbs s { d with vaddrEnd := d.vaddrEnd + s2PmdSize }
      | (ret, s, _) => pure (ret, s)

/-- `map_vma_bk`. -/
def mapVmaBk (s : S2) (pgdTbl : BitVec 64) (id : Nat) (vma : VmArea) : Except Fault (RtErr × S2) :=
  mapBlocks B pgdTbl id vma.desc.attr vma.mbHead s
    { vaddrStart := vma.desc.vaddrStart
      vaddrEnd := vma.desc.vaddrStart + s2PmdSize
      paddrStart := 0
      attr := 0 }

/-- `map_vma_pt`. -/
def mapVmaPt (s : S2) (pgdTbl : BitVec 64) (id : Nat) (vma : VmArea) :
    Except Fault (RtErr × S2 × VmArea) := do
  let (ret, s, d) ← createVmMmap B s pgdTbl id
    { vma.desc with attr := vma.desc.attr ||| s2BlockDevice }
  pure (ret, s, { vma with desc := d })

/-- One round of the loop of `map_vm_memory`. -/
def mapArea (s : S2) (pgdTbl : BitVec 64) (id : Nat) (vma : VmArea) :
    Except Fault (RtErr × S2 × VmArea) :=
  if vma.flag &&& vmMapTypeMask = vmMapBk then do
    let (ret, s) ← mapVmaBk B s pgdTbl id vma
    pure (ret, s, vma)
  else if vma.flag &&& vmMapTypeMask = vmMapPt then
    mapVmaPt B s pgdTbl id
      { vma with desc := { vma.desc with paddrStart := vma.desc.vaddrStart } }
  else
    mapVmaPt B s pgdTbl id { vma with desc := { vma.desc with paddrStart := 0 } }

/-- The loop of `map_vm_memory`; `ret` is what the last area returned. -/
def mapAreas (pgdTbl : BitVec 64) (id : Nat) :
    List VmArea → S2 → RtErr → Except Fault (RtErr × S2 × List VmArea)
  | [], s, ret => pure (ret, s, [])
  | vma :: rest, s, _ => do
      let (ret, s, vma) ← mapArea B s pgdTbl id vma
      let (ret, s, rest) ← mapAreas pgdTbl id rest s ret
      pure (ret, s, vma :: rest)

/-- `map_vm_memory`. -/
def mapVmMemory (e : Env) (mm : MmStruct) (id : Nat) : Except Fault (RtErr × MmStruct × Env) := do
  let (ret, s2, areas) ← mapAreas B mm.pgdTbl id mm.vmAreaUsed e.s2 .eok
  pure (ret, { mm with vmAreaUsed := areas }, { e with s2 := s2 })

/-- `vm_memory_init`. -/
def vmMemoryInit (e : Env) (mm : MmStruct) (id : Nat) : Except Fault (RtErr × MmStruct × Env) := do
  match ← allocVmMemory B e mm with
  | (.eok, mm, e) => mapVmMemory B (e.note (.mapVmMemory id)) mm id
  | r => pure r

end Init

end RtHypervisor.Ports.Mm
