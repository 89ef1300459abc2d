import RtHypervisor.Ports.SmallMemAlloc
import RtHypervisor.Verified.ByteMem

/-!
# The small-memory heap, byte by byte

The headers and the data of a heap lie in one memory.  A header at `heap_ptr + off` is four
words, `pool_ptr`, `resv` with its padding, `next` and `prev`; a store to one of its fields
writes eight bytes there, and `rt_memcpy` writes bytes anywhere.

The functions are those of `mem.c` once more, over this memory.  `ByteHeap.view` reads the
headers at every offset, which gives the heap of the header model.
-/

namespace RtHypervisor.Ports.HeapBytes

open RtHypervisor.Verified.Run
open RtHypervisor.Verified.ByteMem
open RtHypervisor.Ports.SmallMem (Item sizeofStructMem minSize minSizeAligned rtAlignSize sub64
  rtAlign memUsed memFreed memIsUsed memPool classMemory classStatic)

/-- `struct rt_small_mem` and the memory its heap lies in. -/
structure ByteHeap where
  addr : Nat
  type : BitVec 8
  used : Nat
  max : Nat
  heapPtr : Nat
  heapEnd : Nat
  lfree : Nat
  memSizeAligned : Nat
  bytes : Mem

/-- The fields of the header at `off`. -/
def ByteHeap.item (h : ByteHeap) (off : Nat) : Item :=
  ⟨load64 h.bytes (h.heapPtr + off), (load64 h.bytes (h.heapPtr + off + 16)).toNat,
    (load64 h.bytes (h.heapPtr + off + 24)).toNat⟩

/-- The heap as its headers. -/
def ByteHeap.view (h : ByteHeap) : SmallMem.RtSmallMem :=
  { addr := h.addr
    type := h.type
    used := h.used
    max := h.max
    heapPtr := h.heapPtr
    heapEnd := h.heapEnd
    lfree := h.lfree
    memSizeAligned := h.memSizeAligned
    items := h.item }

/-! ## Headers -/

/-- Read the header at offset `off`. -/
def getItem (h : ByteHeap) (off : Nat) : Except Fault Item := do
  check .outOfBounds (off ≤ h.heapEnd)
  pure (h.item off)

/-- Store a word at distance `field` from the header at `off`. -/
def setWord (h : ByteHeap) (off field : Nat) (v : BitVec 64) : Except Fault ByteHeap := do
  check .outOfBounds (off ≤ h.heapEnd)
  pure { h with bytes := store64 h.bytes (h.heapPtr + off + field) v }

/-- `mem->pool_ptr = v`. -/
def setPoolPtr (h : ByteHeap) (off : Nat) (v : BitVec 64) : Except Fault ByteHeap :=
  setWord h off 0 v

/-- `mem->next = n`. -/
def setNext (h : ByteHeap) (off n : Nat) : Except Fault ByteHeap :=
  setWord h off 16 (BitVec.ofNat 64 n)

/-- `mem->prev = n`. -/
def setPrev (h : ByteHeap) (off n : Nat) : Except Fault ByteHeap :=
  setWord h off 24 (BitVec.ofNat 64 n)

/-- `rt_memcpy` between two blocks that do not overlap.  Its counter is an `int`. -/
def rtMemcpy (h : ByteHeap) (dst src count : Nat) : ByteHeap :=
  { h with bytes := blit h.bytes dst (count % 2 ^ 32) fun i => h.bytes (src + i) }

def isMemoryObject (h : ByteHeap) : Bool :=
  h.type &&& ~~~classStatic == classMemory && h.type &&& classStatic != 0

/-! ## `plug_holes` -/

def plugForward (h : ByteHeap) (mem : Nat) : Except Fault ByteHeap := do
  let item ← getItem h mem
  let nmem := item.next
  let nitem ← getItem h nmem
  if mem ≠ nmem ∧ ¬memIsUsed nitem ∧ nmem ≠ h.heapEnd then do
    let h := if h.lfree = nmem then { h with lfree := mem } else h
    let h ← setPoolPtr h nmem 0
    let h ← setNext h mem nitem.next
    setPrev h nitem.next mem
  else pure h

def plugBackward (h : ByteHeap) (mem : Nat) : Except Fault ByteHeap := do
  let item ← getItem h mem
  let pmem := item.prev
  let pitem ← getItem h pmem
  if pmem ≠ mem ∧ ¬memIsUsed pitem then do
    let h := if h.lfree = mem then { h with lfree := pmem } else h
    let h ← setPoolPtr h mem 0
    let h ← setNext h pmem item.next
    setPrev h item.next pmem
  else pure h

/-- `plug_holes`. -/
def plugHoles (h : ByteHeap) (mem : Nat) : Except Fault ByteHeap := do
  check .assertion (mem < h.heapEnd)
  let h ← plugForward h mem
  plugBackward h mem

/-! ## `rt_smem_alloc` -/

def findFit (h : ByteHeap) (size : Nat) : Nat → Nat → Except Fault (Option Nat)
  | _, 0 => .error .fuel
  | ptr, fuel + 1 =>
      if ptr ≤ sub64 h.memSizeAligned size then do
        let mem ← getItem h ptr
        if ¬memIsUsed mem ∧ sub64 mem.next (ptr + sizeofStructMem) ≥ size then pure (some ptr)
        else findFit h size mem.next fuel
      else pure none

def nextFree (h : ByteHeap) : Nat → Nat → Except Fault Nat
  | _, 0 => .error .fuel
  | lfree, fuel + 1 => do
      let item ← getItem h lfree
      if memIsUsed item ∧ lfree ≠ h.heapEnd then nextFree h item.next fuel else pure lfree

def addUsed (h : ByteHeap) (n : Nat) : ByteHeap :=
  let used := (h.used + n) % 2 ^ 64
  { h with used := used, max := if h.max < used then used else h.max }

/-- Cut the item at `ptr` off after `size` bytes of data and make the rest a free item. -/
def splitItem (h : ByteHeap) (ptr size : Nat) : Except Fault ByteHeap := do
  let mem ← getItem h ptr
  let ptr2 := ptr + sizeofStructMem + size
  let h ← setPoolPtr h ptr2 (memFreed h.addr)
  let h ← setNext h ptr2 mem.next
  let h ← setPrev h ptr2 ptr
  let h ← setNext h ptr ptr2
  if mem.next ≠ h.memSizeAligned + sizeofStructMem then setPrev h mem.next ptr2 else pure h

/-- The first half of taking an item: cut it off where the rest is large enough. -/
def cutItem (h : ByteHeap) (ptr size : Nat) : Except Fault ByteHeap := do
  let mem ← getItem h ptr
  if sub64 mem.next (ptr + sizeofStructMem) ≥ size + sizeofStructMem + minSizeAligned then do
    let h ← splitItem h ptr size
    pure (addUsed h (size + sizeofStructMem))
  else pure (addUsed h (sub64 mem.next ptr))

/-- The second half: mark the item and move `lfree` on. -/
def markItem (h : ByteHeap) (ptr size : Nat) : Except Fault (ByteHeap × Nat) := do
  let h ← setPoolPtr h ptr (memUsed h.addr)
  let h ←
    if ptr = h.lfree then do
      let lfree ← nextFree h h.lfree (h.heapEnd + 1)
      let h := { h with lfree := lfree }
      let item ← getItem h h.lfree
      check .assertion (h.lfree = h.heapEnd || !memIsUsed item)
      pure h
    else pure h
  check .assertion (ptr + sizeofStructMem + size ≤ h.heapEnd)
  check .assertion ((h.heapPtr + ptr + sizeofStructMem) % rtAlignSize = 0)
  check .assertion ((h.heapPtr + ptr) % rtAlignSize = 0)
  pure (h, h.heapPtr + ptr + sizeofStructMem)

/-- `rt_smem_alloc`. -/
def rtSmemAlloc (h : ByteHeap) (size : Nat) : Except Fault (ByteHeap × Nat) :=
  if size = 0 then pure (h, 0)
  else do
    check .assertion (isMemoryObject h)
    let size := rtAlign size
    if size > h.memSizeAligned then pure (h, 0)
    else
      let size := if size < minSizeAligned then minSizeAligned else size
      match ← findFit h size h.lfree (h.heapEnd + 1) with
      | some ptr => do
          let h ← cutItem h ptr size
          markItem h ptr size
      | none => pure (h, 0)

/-! ## `rt_smem_free` and `rt_smem_realloc` -/

/-- `rt_smem_free`. -/
def rtSmemFree (h : ByteHeap) (rmem : Nat) : Except Fault ByteHeap :=
  if rmem = 0 then pure h
  else do
    check .assertion (rmem % rtAlignSize = 0)
    let mem := sub64 (sub64 rmem sizeofStructMem) h.heapPtr
    let item ← getItem h mem
    check .assertion (memPool item != 0)
    check .wildPointer (memPool item == BitVec.ofNat 64 h.addr)
    check .assertion (memIsUsed item)
    check .assertion (isMemoryObject h)
    check .assertion (h.heapPtr ≤ rmem ∧ rmem < h.heapPtr + h.heapEnd)
    let nitem ← getItem h item.next
    check .assertion (memPool nitem == BitVec.ofNat 64 h.addr)
    let h ← setPoolPtr h mem (memFreed h.addr)
    let h := if mem < h.lfree then { h with lfree := mem } else h
    let h := { h with used := sub64 h.used (sub64 item.next mem) }
    plugHoles h mem

/-- `rt_smem_realloc`. -/
def rtSmemRealloc (h : ByteHeap) (rmem newsize : Nat) : Except Fault (ByteHeap × Nat) := do
  check .assertion (isMemoryObject h)
  let newsize := rtAlign newsize
  if newsize > h.memSizeAligned then pure (h, 0)
  else if newsize = 0 then do
    let h ← rtSmemFree h rmem
    pure (h, 0)
  else if rmem = 0 then rtSmemAlloc h newsize
  else do
    check .assertion (rmem % rtAlignSize = 0)
    check .assertion (h.heapPtr ≤ rmem)
    check .assertion (rmem < h.heapPtr + h.heapEnd)
    let ptr := sub64 (sub64 rmem sizeofStructMem) h.heapPtr
    let item ← getItem h ptr
    let size := sub64 (sub64 item.next ptr) sizeofStructMem
    if size = newsize then pure (h, rmem)
    else if newsize + sizeofStructMem + minSize < size then do
      let h := { h with used := sub64 h.used (size - newsize) }
      let h ← splitItem h ptr newsize
      let mem2 := ptr + sizeofStructMem + newsize
      let h := if mem2 < h.lfree then { h with lfree := mem2 } else h
      let h ← plugHoles h mem2
      pure (h, rmem)
    else do
      let (h, nmem) ← rtSmemAlloc h newsize
      if nmem ≠ 0 then do
        let h := rtMemcpy h nmem rmem (if size < newsize then size else newsize)
        let h ← rtSmemFree h rmem
        pure (h, nmem)
      else pure (h, nmem)

end RtHypervisor.Ports.HeapBytes
