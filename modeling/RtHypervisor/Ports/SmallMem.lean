import Mathlib.Tactic
import RtHypervisor.Verified.Run

/-!
# The small-memory heap

`mem.c` keeps a heap of items that lie one behind the other.  An item is a header of
`SIZEOF_STRUCT_MEM` bytes with the offsets of its neighbours, followed by the data handed
out; whether it is in use is bit 0 of `pool_ptr`, whose other bits name the heap.  A last
header at `heap_end` is always in use.

`RtSmallMem` is `struct rt_small_mem` together with the memory it manages, seen as headers:
`items off` is what a header at `heap_ptr + off` reads as, also where no item is linked.
Pointers into the heap are offsets here, and the pointers the caller sees are addresses,
with 0 for `RT_NULL`.  A header access outside the heap is a fault.  The 64-bit build has
headers of 32 bytes, `MIN_SIZE` 24 and `RT_ALIGN_SIZE` 4, without `RT_USING_MEMTRACE`.
-/

namespace RtHypervisor.Ports.SmallMem

open RtHypervisor.Verified.Run

def rtAlignSize : Nat := 4
def sizeofStructMem : Nat := 32
def sizeofSmallMem : Nat := 112
def minSize : Nat := 24
def minSizeAligned : Nat := 24
def memMask : BitVec 64 := 0xfffffffe

/-! ## 64-bit arithmetic -/

/-- Subtraction of `rt_size_t` values. -/
def sub64 (a b : Nat) : Nat := (a + 2 ^ 64 - b) % 2 ^ 64

/-- `RT_ALIGN(n, RT_ALIGN_SIZE)`, whose sum can wrap. -/
def rtAlign (n : Nat) : Nat :=
  let sum := (n + rtAlignSize - 1) % 2 ^ 64
  sum - sum % rtAlignSize

/-- `RT_ALIGN_DOWN(n, RT_ALIGN_SIZE)`. -/
def rtAlignDown (n : Nat) : Nat := n - n % rtAlignSize

/-! ## The heap -/

/-- `struct rt_small_mem_item`, without the padding. -/
structure Item where
  poolPtr : BitVec 64
  next : Nat
  prev : Nat
deriving DecidableEq, Repr

/-- `struct rt_small_mem` at address `addr`, and the headers in its heap. -/
structure RtSmallMem where
  addr : Nat
  type : BitVec 8
  used : Nat
  max : Nat
  heapPtr : Nat
  heapEnd : Nat
  lfree : Nat
  memSizeAligned : Nat
  items : Nat → Item

/-- `MEM_USED()`. -/
def memUsed (addr : Nat) : BitVec 64 := (BitVec.ofNat 64 addr &&& memMask) ||| 1

/-- `MEM_FREED()`. -/
def memFreed (addr : Nat) : BitVec 64 := (BitVec.ofNat 64 addr &&& memMask) ||| 0

/-- `MEM_ISUSED`. -/
def memIsUsed (item : Item) : Bool := item.poolPtr &&& 1 != 0

/-- `MEM_POOL`. -/
def memPool (item : Item) : BitVec 64 := item.poolPtr &&& memMask

/-- Read the header at offset `off`. -/
def getItem (m : RtSmallMem) (off : Nat) : Except Fault Item := do
  check .outOfBounds (off ≤ m.heapEnd)
  pure (m.items off)

/-- Change the header at offset `off`. -/
def modifyItem (m : RtSmallMem) (off : Nat) (f : Item → Item) : Except Fault RtSmallMem := do
  check .outOfBounds (off ≤ m.heapEnd)
  pure { m with items := Function.update m.items off (f (m.items off)) }

def classMemory : BitVec 8 := 0x0c
def classStatic : BitVec 8 := 0x80

/-- `rt_object_get_type(&m->parent) == RT_Object_Class_Memory` and
`rt_object_is_systemobject(&m->parent)`. -/
def isMemoryObject (m : RtSmallMem) : Bool :=
  m.type &&& ~~~classStatic == classMemory && m.type &&& classStatic != 0

/-- `rt_smem_init`, on memory that reads as `items`. -/
def rtSmemInit (items : Nat → Item) (beginAddr size : Nat) : Option RtSmallMem :=
  let smallMem := rtAlign beginAddr
  let startAddr := (smallMem + sizeofSmallMem) % 2 ^ 64
  let beginAlign := rtAlign startAddr
  let endAlign := rtAlignDown ((beginAddr + size) % 2 ^ 64)
  if endAlign > 2 * sizeofStructMem ∧ sub64 endAlign (2 * sizeofStructMem) ≥ startAddr then
    let memSize := sub64 (sub64 endAlign beginAlign) (2 * sizeofStructMem)
    let heapEnd := memSize + sizeofStructMem
    let first : Item := ⟨memFreed smallMem, memSize + sizeofStructMem, 0⟩
    let last : Item :=
      ⟨memUsed smallMem, memSize + sizeofStructMem, memSize + sizeofStructMem⟩
    some
      { addr := smallMem
        type := classMemory ||| classStatic
        used := 0
        max := 0
        heapPtr := beginAlign
        heapEnd := heapEnd
        lfree := 0
        memSizeAligned := memSize
        items := Function.update (Function.update items 0 first) heapEnd last }
  else none

/-! ## `plug_holes` -/

/-- The forward half: combine `mem` with a free successor. -/
def plugForward (m : RtSmallMem) (mem : Nat) : Except Fault RtSmallMem := do
  let item ← getItem m mem
  let nmem := item.next
  let nitem ← getItem m nmem
  if mem ≠ nmem ∧ ¬memIsUsed nitem ∧ nmem ≠ m.heapEnd then
    let m := if m.lfree = nmem then { m with lfree := mem } else m
    let m ← modifyItem m nmem fun it => { it with poolPtr := 0 }
    let m ← modifyItem m mem fun it => { it with next := nitem.next }
    modifyItem m nitem.next fun it => { it with prev := mem }
  else pure m

/-- The backward half: combine a free predecessor with `mem`. -/
def plugBackward (m : RtSmallMem) (mem : Nat) : Except Fault RtSmallMem := do
  let item ← getItem m mem
  let pmem := item.prev
  let pitem ← getItem m pmem
  if pmem ≠ mem ∧ ¬memIsUsed pitem then
    let m := if m.lfree = mem then { m with lfree := pmem } else m
    let m ← modifyItem m mem fun it => { it with poolPtr := 0 }
    let m ← modifyItem m pmem fun it => { it with next := item.next }
    modifyItem m item.next fun it => { it with prev := pmem }
  else pure m

/-- `plug_holes`. -/
def plugHoles (m : RtSmallMem) (mem : Nat) : Except Fault RtSmallMem := do
  check .assertion (mem < m.heapEnd)
  let m ← plugForward m mem
  plugBackward m mem

/-! ## `rt_smem_alloc` -/

/-- The search of `rt_smem_alloc` for a free item with room for `size` bytes. -/
def findFit (m : RtSmallMem) (size : Nat) : Nat → Nat → Except Fault (Option Nat)
  | _, 0 => .error .fuel
  | ptr, fuel + 1 =>
      if ptr ≤ sub64 m.memSizeAligned size then do
        let mem ← getItem m ptr
        if ¬memIsUsed mem ∧ sub64 mem.next (ptr + sizeofStructMem) ≥ size then pure (some ptr)
        else findFit m size mem.next fuel
      else pure none

/-- The loop that moves `lfree` on from an item that has been taken. -/
def nextFree (m : RtSmallMem) : Nat → Nat → Except Fault Nat
  | _, 0 => .error .fuel
  | lfree, fuel + 1 => do
      let item ← getItem m lfree
      if memIsUsed item ∧ lfree ≠ m.heapEnd then nextFree m item.next fuel else pure lfree

def addUsed (m : RtSmallMem) (n : Nat) : RtSmallMem :=
  let used := (m.used + n) % 2 ^ 64
  { m with used := used, max := if m.max < used then used else m.max }

/-- Cut the item at `ptr` off after `size` bytes of data and make the rest a free item. -/
def splitItem (m : RtSmallMem) (ptr size : Nat) : Except Fault RtSmallMem := do
  let mem ← getItem m ptr
  let ptr2 := ptr + sizeofStructMem + size
  let m ← modifyItem m ptr2 fun _ => ⟨memFreed m.addr, mem.next, ptr⟩
  let m ← modifyItem m ptr fun it => { it with next := ptr2 }
  if mem.next ≠ m.memSizeAligned + sizeofStructMem then
    modifyItem m mem.next fun it => { it with prev := ptr2 }
  else pure m

/-- What `rt_smem_alloc` does with the item it has found. -/
def takeItem (m : RtSmallMem) (ptr size : Nat) : Except Fault (RtSmallMem × Nat) := do
  let mem ← getItem m ptr
  let m ←
    if sub64 mem.next (ptr + sizeofStructMem) ≥ size + sizeofStructMem + minSizeAligned then do
      let m ← splitItem m ptr size
      pure (addUsed m (size + sizeofStructMem))
    else pure (addUsed m (sub64 mem.next ptr))
  let m ← modifyItem m ptr fun it => { it with poolPtr := memUsed m.addr }
  let m ←
    if ptr = m.lfree then do
      let lfree ← nextFree m m.lfree (m.heapEnd + 1)
      let m := { m with lfree := lfree }
      let item ← getItem m m.lfree
      check .assertion (m.lfree = m.heapEnd || !memIsUsed item)
      pure m
    else pure m
  check .assertion (ptr + sizeofStructMem + size ≤ m.heapEnd)
  check .assertion ((m.heapPtr + ptr + sizeofStructMem) % rtAlignSize = 0)
  check .assertion ((m.heapPtr + ptr) % rtAlignSize = 0)
  pure (m, m.heapPtr + ptr + sizeofStructMem)

/-- `rt_smem_alloc`. -/
def rtSmemAlloc (m : RtSmallMem) (size : Nat) : Except Fault (RtSmallMem × Nat) :=
  if size = 0 then pure (m, 0)
  else do
    check .assertion (isMemoryObject m)
    let size := rtAlign size
    if size > m.memSizeAligned then pure (m, 0)
    else
      let size := if size < minSizeAligned then minSizeAligned else size
      match ← findFit m size m.lfree (m.heapEnd + 1) with
      | some ptr => takeItem m ptr size
      | none => pure (m, 0)

/-! ## `rt_smem_free` and `rt_smem_realloc` -/

/-- `rt_smem_free`.  The heap is the one the header names; with one heap, a header that
names another address leads nowhere. -/
def rtSmemFree (m : RtSmallMem) (rmem : Nat) : Except Fault RtSmallMem :=
  if rmem = 0 then pure m
  else do
    check .assertion (rmem % rtAlignSize = 0)
    let mem := sub64 (sub64 rmem sizeofStructMem) m.heapPtr
    let item ← getItem m mem
    check .assertion (memPool item != 0)
    check .wildPointer (memPool item == BitVec.ofNat 64 m.addr)
    check .assertion (memIsUsed item)
    check .assertion (isMemoryObject m)
    check .assertion (m.heapPtr ≤ rmem ∧ rmem < m.heapPtr + m.heapEnd)
    let nitem ← getItem m item.next
    check .assertion (memPool nitem == BitVec.ofNat 64 m.addr)
    let m ← modifyItem m mem fun it => { it with poolPtr := memFreed m.addr }
    let m := if mem < m.lfree then { m with lfree := mem } else m
    let m := { m with used := sub64 m.used (sub64 item.next mem) }
    plugHoles m mem

/-- `rt_smem_realloc`.  The copy into a new block stays inside its data. -/
def rtSmemRealloc (m : RtSmallMem) (rmem newsize : Nat) : Except Fault (RtSmallMem × Nat) := do
  check .assertion (isMemoryObject m)
  let newsize := rtAlign newsize
  if newsize > m.memSizeAligned then pure (m, 0)
  else if newsize = 0 then do
    let m ← rtSmemFree m rmem
    pure (m, 0)
  else if rmem = 0 then rtSmemAlloc m newsize
  else do
    check .assertion (rmem % rtAlignSize = 0)
    check .assertion (m.heapPtr ≤ rmem)
    check .assertion (rmem < m.heapPtr + m.heapEnd)
    let ptr := sub64 (sub64 rmem sizeofStructMem) m.heapPtr
    let item ← getItem m ptr
    let size := sub64 (sub64 item.next ptr) sizeofStructMem
    if size = newsize then pure (m, rmem)
    else if newsize + sizeofStructMem + minSize < size then do
      let m := { m with used := sub64 m.used (size - newsize) }
      let m ← splitItem m ptr newsize
      let mem2 := ptr + sizeofStructMem + newsize
      let m := if mem2 < m.lfree then { m with lfree := mem2 } else m
      let m ← plugHoles m mem2
      pure (m, rmem)
    else do
      let (m, nmem) ← rtSmemAlloc m newsize
      if nmem ≠ 0 then do
        let m ← rtSmemFree m rmem
        pure (m, nmem)
      else pure (m, nmem)

end RtHypervisor.Ports.SmallMem
