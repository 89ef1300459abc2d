import RtHypervisor.Ports.SmallMem
import RtHypervisor.Verified.LinkedRing

/-!
# The memory heap of `memheap.c`

A pool is divided into blocks, each behind a header.  The headers are linked to two rings: all of
them, up to a tail header that is always in use, in the order of their addresses, and the free
ones, through `free_header` of the heap object, in the order of their release.

`RtMemheap` has one map for each field of a header: `next a` is what the field `next` of a header at
`a` reads as, also where no header is linked.  The heap object and its `free_header` are not in
the pool.  The lock is taken by nobody else, data are not modelled, and the 64-bit build has
headers of 48 bytes, without `RT_USING_MEMTRACE`.
-/

namespace RtHypervisor.Ports.Memheap

open RtHypervisor.Verified.Run
open RtHypervisor.Ports.SmallMem (rtAlign rtAlignDown sub64)

def memheapMagic : BitVec 32 := 0x1ea01ea0
def memheapMask : BitVec 32 := 0xfffffffe
def memheapUsed : BitVec 32 := 1
def memheapFreed : BitVec 32 := 0
def memheapMinialloc : Nat := 12
def memheapSize : Nat := 48

/-- Addition of `rt_size_t` values. -/
def add64 (a b : Nat) : Nat := (a + b) % 2 ^ 64

/-- A value of type `rt_size_t` as `rt_int32_t`, and back. -/
def throughInt32 (n : Nat) : Nat := ((BitVec.ofNat 32 n).signExtend 64).toNat

/-- `struct rt_memheap` at address `self`, and the fields of the headers. -/
structure RtMemheap where
  self : Nat
  startAddr : Nat
  poolSize : Nat
  availableSize : Nat
  maxUsedSize : Nat
  blockList : Nat
  freeList : Nat
  magic : Nat → BitVec 32
  poolPtr : Nat → Nat
  next : Nat → Nat
  prev : Nat → Nat
  nextFree : Nat → Nat
  prevFree : Nat → Nat

/-- `RT_MEMHEAP_IS_USED`. -/
def isUsed (m : RtMemheap) (item : Nat) : Bool := m.magic item &&& memheapUsed != 0

/-- `MEMITEM_SIZE`. -/
def memitemSize (m : RtMemheap) (item : Nat) : Nat := sub64 (sub64 (m.next item) item) memheapSize

def setMagic (m : RtMemheap) (item : Nat) (state : BitVec 32) : RtMemheap :=
  { m with magic := Function.update m.magic item (memheapMagic ||| state) }

/-- The statistics after `available_size` has become smaller. -/
def noteUsed (m : RtMemheap) : RtMemheap :=
  if m.maxUsedSize < sub64 m.poolSize m.availableSize then
    { m with maxUsedSize := sub64 m.poolSize m.availableSize }
  else m

/-- Align the size, and make it at least `RT_MEMHEAP_MINIALLOC`. -/
def requested (size : Nat) : Nat :=
  let size := rtAlign size
  if size < memheapMinialloc then memheapMinialloc else size

/-! ## The two rings -/

/-- Put the new header, marked as free, into the block list behind `header`. -/
def linkBlock (m : RtMemheap) (header new : Nat) : RtMemheap :=
  let m := setMagic m new memheapFreed
  let m := { m with poolPtr := Function.update m.poolPtr new m.self }
  let m := { m with prev := Function.update m.prev new header }
  let m := { m with next := Function.update m.next new (m.next header) }
  let m := { m with prev := Function.update m.prev (m.next header) new }
  { m with next := Function.update m.next header new }

/-- Take a header out of the block list. -/
def unlinkBlock (m : RtMemheap) (item : Nat) : RtMemheap :=
  let m := { m with prev := Function.update m.prev (m.next item) (m.prev item) }
  { m with next := Function.update m.next (m.prev item) (m.next item) }

/-- Insert at the head of the free list. -/
def linkFree (m : RtMemheap) (new : Nat) : RtMemheap :=
  let m := { m with nextFree := Function.update m.nextFree new (m.nextFree m.freeList) }
  let m := { m with prevFree := Function.update m.prevFree new m.freeList }
  let m := { m with prevFree := Function.update m.prevFree (m.nextFree m.freeList) new }
  { m with nextFree := Function.update m.nextFree m.freeList new }

/-- Remove from the free list. -/
def unlinkFree (m : RtMemheap) (item : Nat) : RtMemheap :=
  let m := { m with prevFree := Function.update m.prevFree (m.nextFree item) (m.prevFree item) }
  { m with nextFree := Function.update m.nextFree (m.prevFree item) (m.nextFree item) }

/-- An allocated header has no place in the free list. -/
def clearFree (m : RtMemheap) (item : Nat) : RtMemheap :=
  let m := { m with nextFree := Function.update m.nextFree item 0 }
  { m with prevFree := Function.update m.prevFree item 0 }

/-- `_remove_next_ptr`. -/
def removeNextPtr (m : RtMemheap) (item : Nat) : RtMemheap :=
  unlinkBlock (unlinkFree m item) item

/-! ## The functions -/

/-- The free list header. -/
def initFreeHeader (m : RtMemheap) : RtMemheap :=
  let m := setMagic m m.freeList memheapFreed
  { m with
    poolPtr := Function.update m.poolPtr m.freeList m.self
    next := Function.update m.next m.freeList 0
    prev := Function.update m.prev m.freeList 0
    nextFree := Function.update m.nextFree m.freeList m.freeList
    prevFree := Function.update m.prevFree m.freeList m.freeList }

/-- The first big memory block, which goes to the free list. -/
def initBlock (m : RtMemheap) (startAddr tail : Nat) : RtMemheap :=
  let m := setMagic m startAddr memheapFreed
  linkFree
    { m with
      poolPtr := Function.update m.poolPtr startAddr m.self
      next := Function.update m.next startAddr tail
      prev := Function.update m.prev startAddr tail
      blockList := startAddr } startAddr

/-- The tailer block. -/
def initTail (m : RtMemheap) (startAddr tail : Nat) : RtMemheap :=
  let m := setMagic m tail memheapUsed
  { m with
    poolPtr := Function.update m.poolPtr tail m.self
    next := Function.update m.next tail startAddr
    prev := Function.update m.prev tail startAddr
    nextFree := Function.update m.nextFree tail 0
    prevFree := Function.update m.prevFree tail 0 }

/-- `rt_memheap_init`, on memory whose headers are those of `m`; `m.freeList` is the address of the
`free_header` of the heap object. -/
def rtMemheapInit (m : RtMemheap) (startAddr : Nat) (size : Nat) : RtMemheap :=
  let poolSize := rtAlignDown size
  let availableSize := sub64 poolSize (2 * memheapSize)
  let m := { m with
    startAddr, poolSize, availableSize, maxUsedSize := sub64 poolSize availableSize }
  let tail := add64 (add64 startAddr availableSize) memheapSize
  initTail (initBlock (initFreeHeader m) startAddr tail) startAddr tail

/-- The search on the free list. -/
def findFit (m : RtMemheap) (size : Nat) : Nat → Nat → Nat → Except Fault (Nat × Nat)
  | 0, _, _ => throw .fuel
  | k + 1, header, freeSize =>
      if header ≠ m.freeList ∧ freeSize < size then
        let freeSize := memitemSize m header
        findFit m size k (if freeSize < size then m.nextFree header else header) freeSize
      else pure (header, freeSize)

/-- Split the block and use its front. -/
def allocSplit (m : RtMemheap) (header : Nat) (size : Nat) : RtMemheap :=
  let new := add64 (add64 header size) memheapSize
  let m := linkBlock m header new
  let m := clearFree (unlinkFree m header) header
  let m := linkFree m new
  noteUsed { m with availableSize := sub64 (sub64 m.availableSize size) memheapSize }

/-- Use the whole block. -/
def allocWhole (m : RtMemheap) (header : Nat) (freeSize : Nat) : RtMemheap :=
  let m := noteUsed { m with availableSize := sub64 m.availableSize freeSize }
  clearFree (unlinkFree m header) header

/-- `rt_memheap_alloc`; a null pointer is 0. -/
def rtMemheapAlloc (m : RtMemheap) (size : Nat) : Except Fault (RtMemheap × Nat) :=
  let size := requested size
  if size < m.availableSize then do
    let (header, freeSize) ← findFit m size (m.poolSize + 2) (m.nextFree m.freeList) 0
    if size ≤ freeSize then
      let m :=
        if add64 (add64 size memheapSize) memheapMinialloc ≤ freeSize then
          allocSplit m header size
        else allocWhole m header freeSize
      pure (setMagic m header memheapUsed, add64 header memheapSize)
    else pure (m, 0)
  else pure (m, 0)

/-- Merge a freed block with its left neighbour; the neighbour and whether the block is still to
be inserted into the free list. -/
def mergeLeft (m : RtMemheap) (header : Nat) : RtMemheap × Nat × Bool :=
  if !isUsed m (m.prev header) then
    let left := m.prev header
    let m := { m with availableSize := add64 m.availableSize memheapSize }
    let m := { m with next := Function.update m.next (m.prev header) (m.next header) }
    ({ m with prev := Function.update m.prev (m.next header) (m.prev header) }, left, false)
  else (m, header, true)

/-- Merge a block with its right neighbour. -/
def mergeRight (m : RtMemheap) (header : Nat) : RtMemheap :=
  if !isUsed m (m.next header) then
    let m := { m with availableSize := add64 m.availableSize memheapSize }
    let new := m.next header
    let m := { m with prev := Function.update m.prev (m.next new) header }
    let m := { m with next := Function.update m.next header (m.next new) }
    unlinkFree m new
  else m

/-- Insert a freed block into the free list. -/
def insertHeader (m : RtMemheap) (header : Nat) : RtMemheap :=
  let n := m.nextFree m.freeList
  let m := { m with nextFree := Function.update m.nextFree header n }
  let m := { m with prevFree := Function.update m.prevFree header (m.prevFree n) }
  let m := { m with nextFree := Function.update m.nextFree (m.prevFree n) header }
  { m with prevFree := Function.update m.prevFree n header }

/-- `rt_memheap_free`; a heap other than this one is out of the model. -/
def rtMemheapFree (m : RtMemheap) (ptr : Nat) : Except Fault RtMemheap :=
  if ptr = 0 then pure m
  else do
    let header := sub64 ptr memheapSize
    check .assertion (m.magic header == memheapMagic ||| memheapUsed)
    check .assertion (m.magic (m.next header) &&& memheapMask == memheapMagic)
    check .wildPointer (m.poolPtr header == m.self)
    let m := setMagic m header memheapFreed
    let m := { m with availableSize := add64 m.availableSize (memitemSize m header) }
    let (m, header, insert) := mergeLeft m header
    let m := mergeRight m header
    pure (if insert then insertHeader m header else m)

/-- Grow into the free block behind. -/
def growInto (m : RtMemheap) (ptr header nextPtr : Nat) (newsize oldsize : Nat) : RtMemheap :=
  let m := noteUsed { m with availableSize := sub64 m.availableSize (sub64 newsize oldsize) }
  let m := removeNextPtr m nextPtr
  let new := add64 ptr newsize
  linkFree (linkBlock m header new) new

/-- Merge what is split off with a free block behind. -/
def mergeSplit (m : RtMemheap) (new : Nat) : RtMemheap :=
  if !isUsed m (m.next new) then
    let free := m.next new
    let m := { m with availableSize := sub64 m.availableSize (memitemSize m free) }
    let m := { m with prev := Function.update m.prev (m.next free) new }
    let m := { m with next := Function.update m.next new (m.next free) }
    unlinkFree m free
  else m

/-- Split off what is behind `newsize`. -/
def shrink (m : RtMemheap) (header : Nat) (newsize : Nat) : RtMemheap :=
  let new := add64 (add64 header newsize) memheapSize
  let m := linkFree (mergeSplit (linkBlock m header new) new) new
  { m with availableSize := add64 m.availableSize (memitemSize m new) }

/-- Whether a block can grow into the free one behind it. -/
def canGrow (m : RtMemheap) (nextPtr : Nat) (newsize oldsize : Nat) : Bool :=
  !isUsed m nextPtr &&
    decide (add64 newsize memheapMinialloc <
      add64 (throughInt32 (memitemSize m nextPtr)) oldsize)

/-- `rt_memheap_realloc`; the bytes it copies are not modelled. -/
def rtMemheapRealloc (m : RtMemheap) (ptr : Nat) (newsize : Nat) : Except Fault (RtMemheap × Nat) :=
  if newsize = 0 then do
    let m ← rtMemheapFree m ptr
    pure (m, 0)
  else
    let newsize := requested newsize
    if ptr = 0 then rtMemheapAlloc m newsize
    else
      let header := sub64 ptr memheapSize
      let oldsize := memitemSize m header
      if oldsize < newsize then do
        let nextPtr := m.next header
        check .assertion (header < nextPtr)
        if canGrow m nextPtr newsize oldsize then
          pure (growInto m ptr header nextPtr newsize oldsize, ptr)
        else do
          let (m, new) ← rtMemheapAlloc m newsize
          if new = 0 then pure (m, 0)
          else do
            let m ← rtMemheapFree m ptr
            pure (m, new)
      else if oldsize ≤ add64 (add64 newsize memheapSize) memheapMinialloc then pure (m, ptr)
      else pure (shrink m header newsize, ptr)

end RtHypervisor.Ports.Memheap
