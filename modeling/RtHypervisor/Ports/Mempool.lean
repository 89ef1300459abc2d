import Mathlib.Tactic
import RtHypervisor.Ports.Ipc
import RtHypervisor.Ports.SmallMem
import RtHypervisor.Verified.LinkedWords

/-!
# Memory pools

A pool is cut into blocks of one size.  In front of the data of each block stands a word that
links the free blocks, or names the pool while the block is given out.  A thread that finds
no free block waits, and looks again when it is resumed, with what is left of its waiting time.

Memory is bytes, pointers are natural numbers below `2 ^ 64`, and the arithmetic on sizes
wraps.  The structure `rt_mempool` itself is not part of the memory.  A division by zero gives
zero, as the processor has it.
-/

namespace RtHypervisor.Ports.Mempool

open RtHypervisor.Verified.Run
open RtHypervisor.Verified.ByteMem
open RtHypervisor.Verified.LinkedWords
open RtHypervisor.Ports.Ipc
open RtHypervisor.Ports.SmallMem (rtAlign rtAlignDown sub64)

/-- `rt_size_t`, or a pointer. -/
abbrev Word := BitVec 64

/-- `struct rt_mempool` at address `addr`, with the memory, the threads and the tick. -/
structure RtMempool where
  threads : Threads
  tick : BitVec 32
  mem : Mem
  addr : Word
  startAddress : Nat
  size : Nat
  blockSize : Nat
  blockList : Nat
  blockTotalCount : Nat
  blockFreeCount : Nat
  suspendThread : List ThreadId

/-- `block_size + sizeof(rt_uint8_t *)`. -/
def stride (blockSize : Nat) : Nat := (blockSize + 8) % 2 ^ 64

/-- The block number `offset`. -/
def blockAt (blockPtr blockSize offset : Nat) : Nat :=
  (blockPtr + offset * stride blockSize) % 2 ^ 64

/-- The loop of `rt_mp_init` over the blocks up to `count`. -/
def linkBlocks (mem : Mem) (blockPtr blockSize : Nat) : Nat → Mem
  | 0 => mem
  | offset + 1 =>
      store64 (linkBlocks mem blockPtr blockSize offset) (blockAt blockPtr blockSize offset)
        (BitVec.ofNat 64 (blockAt blockPtr blockSize (offset + 1)))

/-- `rt_mp_init`, among threads in any state. -/
def rtMpInit (threads : Threads) (tick : BitVec 32) (mem : Mem) (addr start size blockSize : Word) :
    Except Fault RtMempool := do
  check .assertion (start ≠ 0)
  check .assertion (0 < size && 0 < blockSize)
  let poolSize := rtAlignDown size.toNat
  let blockSize := rtAlign blockSize.toNat
  let count := poolSize / stride blockSize
  let blockPtr := start.toNat
  let mem := linkBlocks mem blockPtr blockSize count
  let mem := store64 mem (blockAt blockPtr blockSize (sub64 count 1)) 0
  pure
    { threads := threads
      tick := tick
      mem := mem
      addr := addr
      startAddress := start.toNat
      size := poolSize
      blockSize := blockSize
      blockList := blockPtr
      blockTotalCount := count
      blockFreeCount := count
      suspendThread := [] }

/-- The local variables of a thread that waits: the time it has left, and the tick at which it
began to wait. -/
structure Wait where
  time : BitVec 32
  beforeSleep : BitVec 32
deriving DecidableEq, Repr

/-- A call has returned a pointer, which may be 0, or waits. -/
inductive Outcome
  | returned (p : Nat)
  | blocked (w : Wait)
deriving DecidableEq, Repr

/-- What is left of the waiting time. -/
def Wait.resumed (w : Wait) (tick : BitVec 32) : Wait :=
  if (0 : BitVec 32).slt w.time then
    let time := w.time - (tick - w.beforeSleep)
    { w with time := if time.slt 0 then 0 else time }
  else w

/-- The end of `rt_mp_alloc`, once there is a free block. -/
def takeBlock (s : RtMempool) : Except Fault (RtMempool × Nat) := do
  let blockPtr := s.blockList
  check .assertion (blockPtr ≠ 0)
  pure
    ({ s with
      blockFreeCount := s.blockFreeCount - 1
      blockList := (load64 s.mem blockPtr).toNat
      mem := store64 s.mem blockPtr s.addr }, blockPtr + 8)

/-- The loop of `rt_mp_alloc`, up to where the thread waits. -/
def allocLoop (s : RtMempool) (t : ThreadId) (w : Wait) : Except Fault (RtMempool × Outcome) :=
  if s.blockFreeCount = 0 then
    if w.time = 0 then
      pure ({ s with threads := setError s.threads t .etimeout }, .returned 0)
    else do
      let threads := rtThreadSuspend (setError s.threads t .eok) t
      let threads ← startTimer threads t w.time
      let w := { w with
        beforeSleep := if (0 : BitVec 32).slt w.time then s.tick else w.beforeSleep }
      pure ({ s with threads := threads, suspendThread := t :: s.suspendThread }, .blocked w)
  else do
    let (s, p) ← takeBlock s
    pure (s, .returned p)

/-- `rt_mp_alloc`. -/
def rtMpAlloc (s : RtMempool) (t : ThreadId) (time : BitVec 32) :
    Except Fault (RtMempool × Outcome) :=
  allocLoop s t ⟨time, 0⟩

/-- `rt_mp_alloc` by an interrupt handler, which cannot wait. -/
def rtMpAllocIsr (s : RtMempool) : Except Fault (RtMempool × Nat) :=
  if s.blockFreeCount = 0 then pure (s, 0) else takeBlock s

/-- The part of `rt_mp_free` that links the block into the free list. -/
def giveBlock (s : RtMempool) (block : Nat) : Except Fault RtMempool := do
  let blockPtr := sub64 block 8
  check .wildPointer (load64 s.mem blockPtr = s.addr)
  pure { s with
    blockFreeCount := s.blockFreeCount + 1
    mem := store64 s.mem blockPtr (BitVec.ofNat 64 s.blockList)
    blockList := blockPtr }

/-- `rt_mp_free`. -/
def rtMpFree (s : RtMempool) (block : Nat) : Except Fault RtMempool :=
  if block = 0 then pure s
  else do
    let s ← giveBlock s block
    match s.suspendThread with
    | t :: _ =>
        let (threads, list) := rtThreadResume (setError s.threads t .eok) s.suspendThread t
        pure { s with threads := threads, suspendThread := list }
    | [] => pure s

/-- The thread timer of a waiting thread runs out. -/
def mpTimeout (s : RtMempool) (t : ThreadId) : Except Fault RtMempool := do
  let (threads, list) ← threadTimeout s.threads s.suspendThread t
  pure { s with threads := threads, suspendThread := list }

/-! ## Runs -/

/-- Where a thread is inside `rt_mp_alloc`: behind its call of `rt_schedule`, or about to look
again. -/
inductive Phase
  | waiting (w : Wait)
  | retrying (w : Wait)
deriving DecidableEq, Repr

/-- `outstanding` are the pointers that were returned and not freed since. -/
structure MpSys where
  pool : RtMempool
  phase : ThreadId → Option Phase
  outstanding : List Nat

inductive Event
  | alloc (t : ThreadId) (time : BitVec 32)
  | allocIsr
  | woken (t : ThreadId)
  | retry (t : ThreadId)
  | free (block : Nat)
  | timeout (t : ThreadId)
  | tick
  | write (a : Nat) (b : BitVec 8)
  | priority (t : ThreadId) (p : Nat)
  | other (t : ThreadId) (x : Thread)

/-- A thread calls while it runs, and goes on while it is not suspended.  Only a pointer that is
outstanding is freed, and only the data of such a block is written. -/
def Enabled (s : MpSys) : Event → Prop
  | .alloc t _ => s.phase t = none ∧ (s.pool.threads t).suspended = false
  | .woken t => (∃ w, s.phase t = some (.waiting w)) ∧ (s.pool.threads t).suspended = false
  | .retry t => (∃ w, s.phase t = some (.retrying w)) ∧ (s.pool.threads t).suspended = false
  | .free block => block = 0 ∨ block ∈ s.outstanding
  | .timeout t => (∃ w, s.phase t = some (.waiting w)) ∧ (s.pool.threads t).timer = true
  | .write a _ => ∃ p ∈ s.outstanding, p ≤ a ∧ a < p + s.pool.blockSize
  | .other t _ => s.phase t = none
  | _ => True

/-- A call has got as far as its outcome. -/
def finish (s : MpSys) (t : ThreadId) (pool : RtMempool) : Outcome → MpSys
  | .returned p =>
      { pool := pool
        phase := Function.update s.phase t none
        outstanding := if p = 0 then s.outstanding else p :: s.outstanding }
  | .blocked w =>
      { s with pool := pool, phase := Function.update s.phase t (some (.waiting w)) }

def step (s : MpSys) : Event → Except Fault MpSys
  | .alloc t time => do
      let (pool, r) ← rtMpAlloc s.pool t time
      pure (finish s t pool r)
  | .allocIsr => do
      let (pool, p) ← rtMpAllocIsr s.pool
      pure { s with
        pool := pool
        outstanding := if p = 0 then s.outstanding else p :: s.outstanding }
  | .woken t =>
      match s.phase t with
      | some (.waiting w) =>
          if (s.pool.threads t).error ≠ .eok then pure (finish s t s.pool (.returned 0))
          else
            pure { s with
              phase := Function.update s.phase t (some (.retrying (w.resumed s.pool.tick))) }
      | _ => pure s
  | .retry t =>
      match s.phase t with
      | some (.retrying w) => do
          let (pool, r) ← allocLoop s.pool t w
          pure (finish s t pool r)
      | _ => pure s
  | .free block => do
      let pool ← rtMpFree s.pool block
      pure { s with pool := pool, outstanding := s.outstanding.erase block }
  | .timeout t => do
      let pool ← mpTimeout s.pool t
      pure { s with pool := pool }
  | .tick => pure { s with pool := { s.pool with tick := s.pool.tick + 1 } }
  | .write a b =>
      pure { s with pool := { s.pool with mem := Function.update s.pool.mem a b } }
  | .priority t p =>
      pure { s with
        pool := { s.pool with
          threads := modify s.pool.threads t fun x => { x with currentPriority := p } } }
  | .other t x =>
      pure { s with pool := { s.pool with threads := Function.update s.pool.threads t x } }

/-- A new pool. -/
def boot (pool : RtMempool) : MpSys := ⟨pool, fun _ => none, []⟩

end RtHypervisor.Ports.Mempool
