import Mathlib
import RtHypervisor.Verified.SList

/-!
# Ring block buffers

Blocks of a buffer are handed out one behind the other, from the end of the last to the start of
the first, and may be freed in any order.  The descriptors are in one of two lists, linked
through the same pointer, and `tail` is the last node of the list of blocks.

`rbb_consistent` says in which runs the blocks stay apart and every descriptor is in one list.
-/

namespace RtHypervisor.Ports.RingBlock

open RtHypervisor.Verified.Run
open RtHypervisor.Verified.SList

/-- `rt_slist_t` : the heads of the two lists, and the node of a block. -/
inductive Node
  | blkList
  | freeList
  | blk (i : Nat)
deriving DecidableEq, Repr

/-- `enum rt_rbb_status`. -/
inductive Status
  | unused
  | inited
  | put
  | get
deriving DecidableEq, Repr

/-- `struct rt_rbb_blk`, but for its node. -/
structure Blk where
  status : Status
  size : BitVec 24
  buf : BitVec 64
deriving DecidableEq, Repr

/-- `struct rt_rbb`, with `blk_set`. -/
structure Rbb where
  buf : BitVec 64
  bufSize : BitVec 64
  blkMaxNum : Nat
  next : Node → Option Node
  tail : Node
  blk : Nat → Blk

/-- `rt_slist_entry`, of a node that is in a block. -/
def entry : Node → Except Fault Nat
  | .blk i => pure i
  | .blkList | .freeList => throw .wildPointer

def setBlk (r : Rbb) (i : Nat) (b : Blk) : Rbb := { r with blk := Function.update r.blk i b }

def setStatus (r : Rbb) (i : Nat) (status : Status) : Rbb :=
  setBlk r i { r.blk i with status := status }

/-- `rt_slist_insert`. -/
def slistInsert (r : Rbb) (l n : Node) : Rbb :=
  { r with next := Function.update (Function.update r.next n (r.next l)) l (some n) }

/-- `rt_slist_remove`, whose loop is `seek`. -/
def slistRemove (r : Rbb) (l n : Node) : Except Fault Rbb := do
  let node ← seek r.next n (r.blkMaxNum + 1) l
  match r.next node with
  | none => pure r
  | some m => pure { r with next := Function.update r.next node (r.next m) }

/-- The loop of `rt_rbb_init`, which puts the last block in front. -/
def initLoop (r : Rbb) : Nat → Rbb
  | 0 => r
  | i + 1 => slistInsert (setStatus (initLoop r i) i .unused) .freeList (.blk i)

/-- `rt_rbb_init`, with anything in the blocks. -/
def rtRbbInit (blk : Nat → Blk) (buf bufSize : BitVec 64) (blkMaxNum : Nat) : Rbb :=
  initLoop ⟨buf, bufSize, blkMaxNum, fun _ => none, .blkList, blk⟩ blkMaxNum

/-- `find_empty_blk_in_set`. -/
def findEmptyBlkInSet (r : Rbb) : Except Fault (Rbb × Option Nat) :=
  match r.next .freeList with
  | none => pure (r, none)
  | some n => do
      let i ← entry n
      let r ← slistRemove r .freeList n
      check .assertion ((r.blk i).status = .unused)
      pure (r, some i)

/-- `list_append`. -/
def listAppend (r : Rbb) (n : Node) : Rbb :=
  { r with
    next := Function.update (Function.update r.next r.tail (some n)) n none
    tail := n }

/-- `list_remove`. -/
def listRemove (r : Rbb) (n : Node) : Except Fault Rbb := do
  let node ← seek r.next n (r.blkMaxNum + 1) .blkList
  match r.next node with
  | none => pure r
  | some m =>
      pure
        { r with
          next := Function.update (Function.update r.next node (r.next m)) n none
          tail := if r.tail = n then node else r.tail }

/-- The address behind a block. -/
def Blk.behind (b : Blk) : BitVec 64 := b.buf + b.size.setWidth 64

/-- `empty1` of blocks that do not go around: what is left behind the last. -/
def emptyBehind (r : Rbb) (tail : Blk) : BitVec 64 := r.buf + r.bufSize - tail.behind

/-- `empty2`: what is left in front of the first. -/
def emptyFront (r : Rbb) (head : Blk) : BitVec 64 := head.buf - r.buf

/-- `empty1` of blocks that go around: what is left between the last and the first. -/
def emptyBetween (head tail : Blk) : BitVec 64 := head.buf - tail.behind

/-- The block is appended to the list. -/
def initBlk (r : Rbb) (i : Nat) (buf size : BitVec 64) : Rbb :=
  setBlk (listAppend r (.blk i)) i ⟨.inited, size.setWidth 24, buf⟩

/-- `1L << 24`. -/
def blkSizeEnd : BitVec 64 := 0x1000000

/-- `rt_rbb_blk_alloc`. -/
def rtRbbBlkAlloc (r : Rbb) (blkSize : BitVec 64) : Except Fault (Rbb × Option Nat) := do
  check .assertion (blkSize < blkSizeEnd)
  let (r, found) ← findEmptyBlkInSet r
  match found with
  | none => pure (r, none)
  | some i =>
      match r.next .blkList with
      | none => pure (initBlk r i r.buf blkSize, some i)
      | some first => do
          let h ← entry first
          let t ← entry r.tail
          let head := r.blk h
          let tail := r.blk t
          if head.buf ≤ tail.buf then
            if blkSize ≤ emptyBehind r tail then
              pure (initBlk r i tail.behind blkSize, some i)
            else if blkSize ≤ emptyFront r head then
              pure (initBlk r i r.buf blkSize, some i)
            else pure (r, none)
          else if blkSize ≤ emptyBetween head tail then
            pure (initBlk r i tail.behind blkSize, some i)
          else pure (r, none)

/-- `rt_rbb_blk_put`. -/
def rtRbbBlkPut (r : Rbb) (i : Nat) : Except Fault Rbb := do
  check .assertion ((r.blk i).status = .inited)
  pure (setStatus r i .put)

/-- The loop of `rt_rbb_blk_get`. -/
def getLoop : Nat → Rbb → Option Node → Except Fault (Rbb × Option Nat)
  | 0, _, _ => throw .fuel
  | _ + 1, r, none => pure (r, none)
  | k + 1, r, some n => do
      let i ← entry n
      if (r.blk i).status = .put then pure (setStatus r i .get, some i)
      else getLoop k r (r.next n)

/-- `rt_rbb_blk_get`. -/
def rtRbbBlkGet (r : Rbb) : Except Fault (Rbb × Option Nat) :=
  getLoop (r.blkMaxNum + 1) r (r.next .blkList)

/-- `rt_rbb_blk_free`. -/
def rtRbbBlkFree (r : Rbb) (i : Nat) : Except Fault Rbb := do
  check .assertion ((r.blk i).status ≠ .unused)
  let r ← listRemove r (.blk i)
  pure (slistInsert (setStatus r i .unused) .freeList (.blk i))

/-- `struct rt_rbb_blk_queue`. -/
structure BlkQueue where
  blocks : Option Nat
  blkNum : Nat
deriving DecidableEq, Repr

/-- The local variables of `rt_rbb_blk_queue_get`. -/
structure QueueGet where
  lastBlock : Option Nat
  dataTotalSize : BitVec 64
  blkQueue : BlkQueue
deriving DecidableEq, Repr

/-- `node = tmp, tmp = rt_slist_next(node)`, and another round. -/
def forward (r : Rbb) (tmp : Option Node)
    (rest : Node → Option Node → Except Fault (Rbb × QueueGet)) :
    Except Fault (Rbb × QueueGet) := do
  let node ← deref tmp
  rest node (r.next node)

/-- The loop of `rt_rbb_blk_queue_get`, from a node on. -/
def queueGetLoop (queueDataLen : BitVec 64) :
    Nat → Rbb → QueueGet → Node → Option Node → Except Fault (Rbb × QueueGet)
  | 0, _, _, _, _ => throw .fuel
  | k + 1, r, g, node, tmp => do
      let i ← entry node
      let block := r.blk i
      let size := block.size.setWidth 64
      match g.lastBlock with
      | none =>
          if block.status = .put then
            let r := setStatus r i .get
            forward r tmp (queueGetLoop queueDataLen k r
              ⟨some i, g.dataTotalSize + size, ⟨some i, 1⟩⟩)
          else forward r tmp (queueGetLoop queueDataLen k r g)
      | some j =>
          if block.status ≠ .put ∨ block.buf < (r.blk j).buf ∨
              queueDataLen < g.dataTotalSize + size then
            pure (r, g)
          else
            let r := setStatus r i .get
            forward r tmp (queueGetLoop queueDataLen k r
              ⟨some i, g.dataTotalSize + size, ⟨g.blkQueue.blocks, g.blkQueue.blkNum + 1⟩⟩)

/-- `rt_rbb_blk_queue_get`. -/
def rtRbbBlkQueueGet (r : Rbb) (queueDataLen : BitVec 64) (blkQueue : BlkQueue) :
    Except Fault (Rbb × QueueGet) :=
  match r.next .blkList with
  | none => pure (r, ⟨none, 0, blkQueue⟩)
  | some node =>
      queueGetLoop queueDataLen (r.blkMaxNum + 1) r ⟨none, 0, blkQueue⟩ node (r.next node)

/-- The loop of `rt_rbb_blk_queue_free`. -/
def rtRbbBlkQueueFree : Nat → Rbb → Option Node → Except Fault Rbb
  | 0, r, _ => pure r
  | k + 1, r, blk => do
      let n ← deref blk
      let i ← entry n
      let nextBlk := r.next n
      let r ← rtRbbBlkFree r i
      rtRbbBlkQueueFree k r nextBlk

/-! ## Runs -/

inductive Event
  | alloc (blkSize : BitVec 64)
  | put (i : Nat)
  | get
  | queueGet (queueDataLen : BitVec 64)
  | free (i : Nat)
  | queueFree (blocks : Nat) (blkNum : Nat)
deriving DecidableEq, Repr

/-- The nodes behind one, at most so many. -/
def cells (next : Node → Option Node) : Nat → Node → List Node
  | 0, _ => []
  | k + 1, a =>
      match next a with
      | none => []
      | some b => b :: cells next k b

def blkNodes (r : Rbb) : List Node := cells r.next r.blkMaxNum .blkList

/-- A block is put, or freed, that was allocated; of a queue that is freed, all blocks are still
in the list. -/
def Enabled (r : Rbb) : Event → Prop
  | .alloc blkSize => blkSize < blkSizeEnd
  | .put i => .blk i ∈ blkNodes r ∧ (r.blk i).status = .inited
  | .free i => .blk i ∈ blkNodes r
  | .queueFree blocks blkNum => blkNum ≤ ((blkNodes r).dropWhile (· ≠ .blk blocks)).length
  | .get | .queueGet _ => True

instance (r : Rbb) : ∀ e, Decidable (Enabled r e)
  | .alloc _ => inferInstanceAs (Decidable (_ < _))
  | .put _ => inferInstanceAs (Decidable (_ ∧ _))
  | .free _ => inferInstanceAs (Decidable (_ ∈ _))
  | .queueFree .. => inferInstanceAs (Decidable (_ ≤ _))
  | .get | .queueGet _ => inferInstanceAs (Decidable True)

def step (r : Rbb) : Event → Except Fault Rbb
  | .alloc blkSize => do
      let (r, _) ← rtRbbBlkAlloc r blkSize
      pure r
  | .put i => rtRbbBlkPut r i
  | .get => do
      let (r, _) ← rtRbbBlkGet r
      pure r
  | .queueGet queueDataLen => do
      let (r, _) ← rtRbbBlkQueueGet r queueDataLen ⟨none, 0⟩
      pure r
  | .free i => rtRbbBlkFree r i
  | .queueFree blocks blkNum => rtRbbBlkQueueFree blkNum r (some (.blk blocks))

/-- The addresses of a block. -/
def Blk.range (b : Blk) : Set Nat := Set.Ico b.buf.toNat (b.buf.toNat + b.size.toNat)

/-- The two lists hold the descriptors `used` and `free`, each once. -/
structure Lists (r : Rbb) (used free : List Nat) : Prop where
  blkList : Path r.next .blkList (used.map .blk)
  freeList : Path r.next .freeList (free.map .blk)
  once : (used ++ free).Perm (List.range r.blkMaxNum)
  usedStatus : ∀ i ∈ used, (r.blk i).status ≠ .unused
  freeStatus : ∀ i ∈ free, (r.blk i).status = .unused
  tail : r.tail = last .blkList (used.map .blk)

/-- Every descriptor is in one of the lists, and the blocks are disjoint parts of the buffer. -/
def Consistent (r : Rbb) : Prop :=
  ∃ used free, Lists r used free ∧
    (∀ i ∈ used, (r.blk i).range ⊆ Set.Ico r.buf.toNat (r.buf.toNat + r.bufSize.toNat)) ∧
    used.Pairwise fun i j => Disjoint (r.blk i).range (r.blk j).range

/-- There is room for a block, and it is not an empty one that fills the gap between the last and
the first. -/
def Room (r : Rbb) (blkSize : BitVec 64) : Prop :=
  r.next .freeList = none ∨
    match r.next .blkList, r.tail with
    | none, _ => blkSize ≤ r.bufSize
    | some (.blk h), .blk t =>
        if (r.blk h).buf ≤ (r.blk t).buf then
          blkSize ≤ emptyBehind r (r.blk t) ∨ blkSize ≤ emptyFront r (r.blk h)
        else
          blkSize ≤ emptyBetween (r.blk h) (r.blk t) ∧
            (blkSize = 0 → emptyBetween (r.blk h) (r.blk t) ≠ 0)
    | _, _ => False

instance (r : Rbb) (blkSize : BitVec 64) : Decidable (Room r blkSize) := by
  rw [Room]
  split <;> infer_instance

/-- The blocks behind the first one that is put come to one that does not continue them. -/
def queueEnds (blk : Nat → Blk) (queueDataLen : BitVec 64) :
    Option (BitVec 64) → BitVec 64 → List Nat → Bool
  | _, _, [] => false
  | none, total, i :: rest =>
      if (blk i).status = .put then
        queueEnds blk queueDataLen (some (blk i).buf) (total + (blk i).size.setWidth 64) rest
      else queueEnds blk queueDataLen none total rest
  | some buf, total, i :: rest =>
      if (blk i).status ≠ .put ∨ (blk i).buf < buf ∨
          queueDataLen < total + (blk i).size.setWidth 64 then true
      else queueEnds blk queueDataLen (some (blk i).buf) (total + (blk i).size.setWidth 64) rest

def Node.index : Node → Option Nat
  | .blk i => some i
  | .blkList | .freeList => none

/-- A block is only allocated when there is room for it or no descriptor, and a queue that is
taken ends in front of the end of the list. -/
def Fits (r : Rbb) : Event → Prop
  | .alloc blkSize => Room r blkSize
  | .queueGet queueDataLen =>
      r.next .blkList = none ∨
        queueEnds r.blk queueDataLen none 0 ((blkNodes r).filterMap Node.index) = true
  | _ => True

instance (r : Rbb) : ∀ e, Decidable (Fits r e)
  | .alloc _ => inferInstanceAs (Decidable (Room _ _))
  | .queueGet _ => inferInstanceAs (Decidable (_ ∨ _))
  | .put _ | .get | .free _ | .queueFree .. => inferInstanceAs (Decidable True)

/-! ## The lists -/

section Lists

variable {r r' : Rbb} {used free pre post : List Nat} {i : Nat}

theorem mem_map_blk : Node.blk i ∈ used.map Node.blk ↔ i ∈ used := by
  simp

/-- The two lists, whatever has become of the other descriptors. -/
structure Linked (r : Rbb) (used free : List Nat) : Prop where
  blkList : Path r.next .blkList (used.map .blk)
  freeList : Path r.next .freeList (free.map .blk)
  nodup : (used ++ free).Nodup
  below : ∀ i ∈ used ++ free, i < r.blkMaxNum
  usedStatus : ∀ i ∈ used, (r.blk i).status ≠ .unused
  freeStatus : ∀ i ∈ free, (r.blk i).status = .unused
  tail : r.tail = last .blkList (used.map .blk)

theorem Lists.linked (h : Lists r used free) : Linked r used free :=
  ⟨h.blkList, h.freeList, h.once.nodup_iff.mpr List.nodup_range,
    fun _ hi => List.mem_range.mp (h.once.mem_iff.mp hi), h.usedStatus, h.freeStatus, h.tail⟩

theorem Linked.lists (h : Linked r used free)
    (honce : (used ++ free).Perm (List.range r.blkMaxNum)) :
    Lists r used free :=
  ⟨h.blkList, h.freeList, honce, h.usedStatus, h.freeStatus, h.tail⟩

theorem Linked.not_free (h : Linked r used free) (hi : i ∈ used) : i ∉ free :=
  fun hfree => (List.nodup_append.mp h.nodup).2.2 i hi i hfree rfl

theorem Linked.length (h : Linked r used free) : used.length + free.length ≤ r.blkMaxNum := by
  rw [← List.length_append, ← List.length_range (n := r.blkMaxNum)]
  exact (h.nodup.subperm fun i hi => List.mem_range.mpr (h.below i hi)).length_le

private theorem head_not_mem :
    Node.blkList ∉ used.map Node.blk ∧ Node.freeList ∉ used.map Node.blk := by
  simp

/-- What is read of the statuses of the blocks. -/
theorem Linked.congr (h : Linked r used free) (hnext : r'.next = r.next) (htail : r'.tail = r.tail)
    (hnum : r'.blkMaxNum = r.blkMaxNum)
    (hstatus : ∀ i, (r'.blk i).status = .unused ↔ (r.blk i).status = .unused) :
    Linked r' used free := by
  refine ⟨?_, ?_, h.nodup, ?_, fun i hi => ?_, fun i hi => ?_, ?_⟩
  · rw [hnext]
    exact h.blkList
  · rw [hnext]
    exact h.freeList
  · rw [hnum]
    exact h.below
  · rw [ne_eq, hstatus]
    exact h.usedStatus i hi
  · rw [hstatus]
    exact h.freeStatus i hi
  · rw [htail]
    exact h.tail

theorem findEmptyBlkInSet_nil (h : Linked r used []) : findEmptyBlkInSet r = .ok (r, none) := by
  have hnone : r.next .freeList = none := h.freeList
  rw [findEmptyBlkInSet, hnone]
  rfl

/-- The first descriptor leaves the free list. -/
theorem findEmptyBlkInSet_cons (h : Linked r used (i :: free)) :
    findEmptyBlkInSet r =
      .ok ({ r with next := Function.update r.next .freeList (r.next (.blk i)) }, some i) := by
  have hfree : Path r.next .freeList ([] ++ Node.blk i :: free.map .blk) := h.freeList
  have hseek : seek r.next (.blk i) (r.blkMaxNum + 1) .freeList = .ok .freeList :=
    hfree.seek_eq (Nat.succ_pos _)
  have hstatus := h.freeStatus i (List.mem_cons_self ..)
  rw [findEmptyBlkInSet, hfree.1]
  simp only [entry, pure_bind, slistRemove, hseek, ok_bind, hfree.1, hstatus, decide_true,
    check_true]
  rfl

/-- The first descriptor leaves the free list. -/
theorem Linked.lose (h : Linked r used (i :: free)) :
    Linked { r with next := Function.update r.next .freeList (r.next (.blk i)) } used free := by
  have hsub : (used ++ free).Sublist (used ++ i :: free) :=
    (List.Sublist.refl used).append (List.sublist_cons_self i free)
  refine ⟨?_, ?_, h.nodup.sublist hsub, fun j hj => h.below j (hsub.subset hj), h.usedStatus,
    fun j hj => h.freeStatus j (List.mem_cons_of_mem i hj), h.tail⟩
  · have hhead : Function.update r.next .freeList (r.next (.blk i)) .blkList = r.next .blkList :=
      Function.update_of_ne (by simp) ..
    refine h.blkList.frame hhead fun b hb => ?_
    exact Function.update_of_ne (fun heq => head_not_mem.2 (heq ▸ hb)) ..
  · have hcons : Path r.next .freeList ([] ++ Node.blk i :: free.map .blk) := h.freeList
    exact hcons.remove

/-- The descriptor taken from the free list is appended to the blocks. -/
theorem Linked.initBlk (h : Linked r used (i :: free)) (buf size : BitVec 64) :
    Linked
      (initBlk { r with next := Function.update r.next .freeList (r.next (.blk i)) } i buf size)
      (used ++ [i]) free := by
  have hused : i ∉ used := fun hmem => h.not_free hmem (List.mem_cons_self ..)
  have hfree : i ∉ free :=
    (List.nodup_cons.mp (List.nodup_append.mp h.nodup).2.1).1
  have hassoc : used ++ [i] ++ free = used ++ i :: free := by
    rw [List.append_assoc]
    rfl
  -- the paths behind the removal from the free list
  have hblkList := h.lose.blkList
  have hfreeList := h.lose.freeList
  have hnew : Node.blk i ∉ Node.blkList :: used.map Node.blk := by
    simp [hused]
  have htail : r.tail ∈ Node.blkList :: used.map Node.blk := h.tail ▸ last_mem
  refine ⟨?_, ?_, ?_, ?_, fun j hj => ?_, fun j hj => ?_, ?_⟩
  · rw [List.map_append]
    show Path (Function.update (Function.update _ r.tail _) _ _) _ _
    rw [h.tail]
    exact hblkList.append hnew
  · refine hfreeList.frame ?_ fun b hb => ?_
    · show Function.update (Function.update (Function.update r.next .freeList (r.next (.blk i)))
        r.tail (some (.blk i))) (.blk i) none .freeList = _
      have hne : Node.freeList ≠ r.tail := by
        intro heq
        rw [← heq] at htail
        simp at htail
      rw [Function.update_of_ne (by simp), Function.update_of_ne hne]
    · show Function.update (Function.update (Function.update r.next .freeList (r.next (.blk i)))
        r.tail (some (.blk i))) (.blk i) none b = _
      obtain ⟨j, hj, rfl⟩ := List.mem_map.mp hb
      have hji : Node.blk j ≠ Node.blk i := by
        rintro ⟨⟩
        exact hfree hj
      have hne : Node.blk j ≠ r.tail := by
        intro heq
        rw [← heq, List.mem_cons, mem_map_blk] at htail
        rcases htail with hhead | hmem
        · cases hhead
        · exact h.not_free hmem (List.mem_cons_of_mem i hj)
      rw [Function.update_of_ne hji, Function.update_of_ne hne]
  · rw [hassoc]
    exact h.nodup
  · rw [hassoc]
    exact h.below
  · by_cases hji : j = i
    · subst hji
      simp [RingBlock.initBlk, setBlk]
    · have hmem : j ∈ used := by
        rcases List.mem_append.mp hj with hmem | hmem
        · exact hmem
        · exact absurd (List.mem_singleton.mp hmem) hji
      simp only [RingBlock.initBlk, setBlk, Function.update_of_ne hji]
      exact h.usedStatus j hmem
  · have hji : j ≠ i := fun heq => hfree (heq ▸ hj)
    simp only [RingBlock.initBlk, setBlk, Function.update_of_ne hji]
    exact h.freeStatus j (List.mem_cons_of_mem i hj)
  · rw [List.map_append]
    exact last_append.symm

theorem Lists.initBlk (h : Lists r used (i :: free)) (buf size : BitVec 64) :
    Lists (initBlk { r with next := Function.update r.next .freeList (r.next (.blk i)) } i buf size)
      (used ++ [i]) free := by
  refine (h.linked.initBlk buf size).lists ?_
  rw [List.append_assoc]
  exact h.once

private theorem last_map {a : Nat} {l : List Nat} :
    last (Node.blk a) (l.map Node.blk) = .blk (last a l) := by
  induction l generalizing a with
  | nil => rfl
  | cons b l ih => exact ih

/-- A block leaves the list. -/
theorem listRemove_eq (h : Linked r (pre ++ i :: post) free) :
    listRemove r (.blk i) =
      .ok { r with
        next := Function.update (Function.update r.next (last .blkList (pre.map .blk))
          (r.next (.blk i))) (.blk i) none
        tail := if r.tail = .blk i then last .blkList (pre.map .blk) else r.tail } := by
  have hpath : Path r.next .blkList (pre.map .blk ++ Node.blk i :: post.map .blk) := by
    have hused := h.blkList
    rwa [List.map_append, List.map_cons] at hused
  have hlen := h.length
  rw [List.length_append, List.length_cons] at hlen
  have hseek : seek r.next (.blk i) (r.blkMaxNum + 1) .blkList =
      .ok (last .blkList (pre.map .blk)) := hpath.seek_eq (by rw [List.length_map]; omega)
  have hnext : r.next (last .blkList (pre.map .blk)) = some (.blk i) := hpath.next_last
  rw [listRemove, hseek]
  simp only [ok_bind, hnext]
  rfl

/-- The paths once a block has left the list. -/
theorem remove_paths (h : Linked r (pre ++ i :: post) free) :
    Path (Function.update (Function.update r.next (last .blkList (pre.map .blk))
        (r.next (.blk i))) (.blk i) none) .blkList ((pre ++ post).map .blk) ∧
      Path (Function.update (Function.update r.next (last .blkList (pre.map .blk))
        (r.next (.blk i))) (.blk i) none) .freeList (free.map .blk) := by
  have hpath : Path r.next .blkList (pre.map .blk ++ Node.blk i :: post.map .blk) := by
    have hused := h.blkList
    rwa [List.map_append, List.map_cons] at hused
  have hin : ∀ j ∈ pre ++ post, j ≠ i ∧ j ∈ pre ++ i :: post := by
    intro j hj
    have hnodup := (List.nodup_append.mp h.nodup).1
    have hcons := List.nodup_cons.mp (List.perm_middle.nodup_iff.mp hnodup)
    refine ⟨fun heq => hcons.1 (heq ▸ hj), ?_⟩
    exact List.perm_middle.mem_iff.mpr (List.mem_cons_of_mem i hj)
  have hlast : last Node.blkList (pre.map .blk) ∈ Node.blkList :: pre.map Node.blk := last_mem
  constructor
  · rw [List.map_append]
    refine hpath.remove.frame (Function.update_of_ne (by simp) ..) fun b hb => ?_
    rw [← List.map_append] at hb
    obtain ⟨j, hj, rfl⟩ := List.mem_map.mp hb
    refine Function.update_of_ne (fun heq => (hin j hj).1 ?_) ..
    cases heq
    rfl
  · refine h.freeList.frame ?_ fun b hb => ?_
    · have hne : Node.freeList ≠ last .blkList (pre.map .blk) := by
        intro heq
        rw [← heq] at hlast
        simp at hlast
      rw [Function.update_of_ne (by simp), Function.update_of_ne hne]
    · obtain ⟨j, hj, rfl⟩ := List.mem_map.mp hb
      have hused : j ∉ pre ++ i :: post := fun hmem => h.not_free hmem hj
      have hji : Node.blk j ≠ Node.blk i := by
        rintro ⟨⟩
        exact hused (List.mem_append_right _ (List.mem_cons_self ..))
      have hne : Node.blk j ≠ last .blkList (pre.map .blk) := by
        intro heq
        rw [← heq, List.mem_cons, mem_map_blk] at hlast
        rcases hlast with hhead | hmem
        · cases hhead
        · exact hused (List.mem_append_left _ hmem)
      rw [Function.update_of_ne hji, Function.update_of_ne hne]

/-- The last node once a block has left the list. -/
theorem remove_tail (h : Linked r (pre ++ i :: post) free) :
    (if r.tail = .blk i then last .blkList (pre.map .blk) else r.tail) =
      last .blkList ((pre ++ post).map .blk) := by
  have htail : r.tail = .blk (last i post) := by
    rw [h.tail, List.map_append, List.map_cons, last_append_cons, last_map]
  rw [htail]
  cases post with
  | nil =>
      rw [last_nil, if_pos rfl, List.append_nil]
  | cons j post =>
      have hnodup := (List.nodup_append.mp h.nodup).1
      have hcons := List.nodup_cons.mp (List.nodup_append.mp hnodup).2.1
      have hne : ¬Node.blk (last i (j :: post)) = .blk i := by
        intro heq
        have hmem : last j post ∈ j :: post := last_mem
        have hlast : last i (j :: post) = i := Node.blk.inj heq
        rw [last_cons] at hlast
        exact hcons.1 (hlast ▸ hmem)
      rw [if_neg hne, List.map_append, List.map_cons, last_append_cons, last_map, last_cons]

private theorem freed_perm : (pre ++ post ++ i :: free).Perm (pre ++ i :: post ++ free) := by
  have hmiddle : (pre ++ post ++ i :: free).Perm (i :: (pre ++ post ++ free)) := List.perm_middle
  have hfront : (pre ++ i :: post ++ free).Perm (i :: (pre ++ post ++ free)) := by
    rw [List.append_assoc, List.append_assoc]
    exact List.perm_middle
  exact hmiddle.trans hfront.symm

/-- A block goes from the one list to the other. -/
theorem rtRbbBlkFree_spec (h : Linked r (pre ++ i :: post) free) :
    ∃ r', rtRbbBlkFree r i = .ok r' ∧ Linked r' (pre ++ post) (i :: free) ∧
      r'.blk = Function.update r.blk i { r.blk i with status := .unused } ∧
      r'.buf = r.buf ∧ r'.bufSize = r.bufSize ∧ r'.blkMaxNum = r.blkMaxNum := by
  have hstatus := h.usedStatus i (List.mem_append_right _ (List.mem_cons_self ..))
  obtain ⟨hblkList, hfreeList⟩ := remove_paths h
  have hnodup := List.perm_middle.nodup_iff.mp (List.nodup_append.mp h.nodup).1
  have hpost : i ∉ pre ++ post := (List.nodup_cons.mp hnodup).1
  have hfree : i ∉ free :=
    h.not_free (List.mem_append_right _ (List.mem_cons_self ..))
  have hfreed : rtRbbBlkFree r i = .ok (slistInsert (setStatus { r with
      next := Function.update (Function.update r.next (last .blkList (pre.map .blk))
        (r.next (.blk i))) (.blk i) none
      tail := if r.tail = .blk i then last .blkList (pre.map .blk) else r.tail }
        i .unused) .freeList (.blk i)) := by
    rw [rtRbbBlkFree, listRemove_eq h, decide_eq_true hstatus]
    rfl
  refine ⟨_, hfreed, ⟨?_, ?_, ?_, ?_, fun j hj => ?_, fun j hj => ?_, remove_tail h⟩, rfl, rfl,
    rfl, rfl⟩
  · refine hblkList.frame ?_ fun b hb => ?_
    · simp only [slistInsert, setStatus, setBlk]
      rw [Function.update_of_ne (by simp), Function.update_of_ne (by simp)]
    · obtain ⟨j, hj, rfl⟩ := List.mem_map.mp hb
      have hji : Node.blk j ≠ Node.blk i := by
        rintro ⟨⟩
        exact hpost hj
      simp only [slistInsert, setStatus, setBlk]
      rw [Function.update_of_ne (by simp), Function.update_of_ne hji]
  · exact hfreeList.insert (by simp [hfree])
  · exact freed_perm.nodup_iff.mpr h.nodup
  · exact fun j hj => h.below j (freed_perm.mem_iff.mp hj)
  · have hji : j ≠ i := fun heq => hpost (heq ▸ hj)
    simp only [slistInsert, setStatus, setBlk, Function.update_of_ne hji]
    refine h.usedStatus j ?_
    exact List.perm_middle.mem_iff.mpr (List.mem_cons_of_mem i hj)
  · by_cases hji : j = i
    · subst hji
      simp [slistInsert, setStatus, setBlk]
    · simp only [slistInsert, setStatus, setBlk, Function.update_of_ne hji]
      rcases List.mem_cons.mp hj with heq | hmem
      · exact absurd heq hji
      · exact h.freeStatus j hmem

private theorem cells_eq {next : Node → Option Node} {a : Node} {l : List Node}
    (h : Path next a l) {k : Nat}
    (hk : l.length ≤ k) : cells next k a = l := by
  induction l generalizing a k with
  | nil =>
      cases k with
      | zero => rfl
      | succ k =>
          have hnone : next a = none := h
          rw [cells, hnone]
  | cons b l ih =>
      obtain ⟨k, rfl⟩ : ∃ j, k = j + 1 := ⟨k - 1, by rw [List.length_cons] at hk; omega⟩
      rw [cells, h.1]
      simp only [ih h.2 (Nat.le_of_succ_le_succ hk)]

theorem Linked.blkNodes (h : Linked r used free) : blkNodes r = used.map .blk := by
  have hlen := h.length
  exact cells_eq h.blkList (by rw [List.length_map]; omega)

/-! The blocks of a new buffer. -/

private theorem initLoop_spec (k n : Nat) (buf bufSize : BitVec 64) (blk : Nat → Blk) :
    (initLoop ⟨buf, bufSize, n, fun _ => none, .blkList, blk⟩ k).buf = buf ∧
      (initLoop ⟨buf, bufSize, n, fun _ => none, .blkList, blk⟩ k).bufSize = bufSize ∧
      (initLoop ⟨buf, bufSize, n, fun _ => none, .blkList, blk⟩ k).blkMaxNum = n ∧
      (initLoop ⟨buf, bufSize, n, fun _ => none, .blkList, blk⟩ k).tail = .blkList ∧
      (initLoop ⟨buf, bufSize, n, fun _ => none, .blkList, blk⟩ k).next .blkList = none ∧
      Path (initLoop ⟨buf, bufSize, n, fun _ => none, .blkList, blk⟩ k).next .freeList
        ((List.range k).reverse.map .blk) ∧
      ∀ i < k, ((initLoop ⟨buf, bufSize, n, fun _ => none, .blkList, blk⟩ k).blk i).status =
        .unused := by
  induction k with
  | zero => exact ⟨rfl, rfl, rfl, rfl, rfl, rfl, fun i hi => absurd hi (Nat.not_lt_zero i)⟩
  | succ k ih =>
      obtain ⟨hbuf, hsize, hnum, htail, hnone, hpath, hstatus⟩ := ih
      refine ⟨hbuf, hsize, hnum, htail, ?_, ?_, fun i hi => ?_⟩
      · simp only [initLoop, slistInsert, setStatus, setBlk]
        rw [Function.update_of_ne (by simp), Function.update_of_ne (by simp)]
        exact hnone
      · have hrange : (List.range (k + 1)).reverse = k :: (List.range k).reverse := by
          rw [List.range_succ, List.reverse_append]
          rfl
        rw [hrange, List.map_cons]
        exact hpath.insert (by simp)
      · by_cases hik : i = k
        · subst hik
          simp [initLoop, slistInsert, setStatus, setBlk]
        · simp only [initLoop, slistInsert, setStatus, setBlk, Function.update_of_ne hik]
          exact hstatus i (by omega)

theorem rtRbbInit_lists (blk : Nat → Blk) (buf bufSize : BitVec 64) (n : Nat) :
    Lists (rtRbbInit blk buf bufSize n) [] (List.range n).reverse := by
  obtain ⟨-, -, hnum, htail, hnone, hpath, hstatus⟩ :=
    initLoop_spec n n buf bufSize blk
  refine ⟨hnone, hpath, ?_, fun i hi => absurd hi List.not_mem_nil, fun i hi => ?_, htail⟩
  · rw [rtRbbInit, hnum]
    exact List.reverse_perm (List.range n)
  · exact hstatus i (List.mem_range.mp (List.mem_reverse.mp hi))

end Lists

/-! ## The layout

The blocks lie in the buffer one behind the other, from some point on from its start again.  What
is left when some are freed is laid out in the same way. -/

def Blk.start (b : Blk) : Nat := b.buf.toNat

def Blk.stop (b : Blk) : Nat := b.buf.toNat + b.size.toNat

/-- The blocks `upper` are in front of those that have gone around, which end in front of
them. -/
structure Laid (r : Rbb) (upper lower : List Nat) : Prop where
  inside : ∀ i ∈ upper ++ lower, r.buf.toNat ≤ (r.blk i).start ∧
    (r.blk i).stop ≤ r.buf.toNat + r.bufSize.toNat
  ahead : upper.Pairwise fun i j => (r.blk i).stop ≤ (r.blk j).start
  behind : lower.Pairwise fun i j => (r.blk i).stop ≤ (r.blk j).start
  around : ∀ i ∈ upper, ∀ j ∈ lower, (r.blk j).stop ≤ (r.blk i).start ∧
    (r.blk j).start < (r.blk i).start

section Layout

variable {r r' : Rbb} {used upper lower upper' lower' rest : List Nat} {h i : Nat}

private theorem start_le_stop (b : Blk) : b.start ≤ b.stop := Nat.le_add_right ..

/-- Some blocks are freed. -/
theorem Laid.sublist (hl : Laid r upper lower) (hu : upper'.Sublist upper)
    (hw : lower'.Sublist lower) : Laid r upper' lower' :=
  ⟨fun i hi => hl.inside i ((hu.append hw).subset hi), hl.ahead.sublist hu, hl.behind.sublist hw,
    fun i hi j hj => hl.around i (hu.subset hi) j (hw.subset hj)⟩

/-- Only where the blocks of the list are matters. -/
theorem Laid.congr (hl : Laid r upper lower) (hbuf : r'.buf = r.buf)
    (hsize : r'.bufSize = r.bufSize)
    (hblk : ∀ i ∈ upper ++ lower, (r'.blk i).start = (r.blk i).start ∧
      (r'.blk i).stop = (r.blk i).stop) : Laid r' upper lower := by
  refine ⟨fun i hi => ?_, ?_, ?_, fun i hi j hj => ?_⟩
  · rw [hbuf, hsize, (hblk i hi).1, (hblk i hi).2]
    exact hl.inside i hi
  · refine hl.ahead.imp_of_mem fun {i j} hi hj hij => ?_
    rw [(hblk i (List.mem_append_left _ hi)).2, (hblk j (List.mem_append_left _ hj)).1]
    exact hij
  · refine hl.behind.imp_of_mem fun {i j} hi hj hij => ?_
    rw [(hblk i (List.mem_append_right _ hi)).2, (hblk j (List.mem_append_right _ hj)).1]
    exact hij
  · rw [(hblk i (List.mem_append_left _ hi)).1, (hblk j (List.mem_append_right _ hj)).1,
      (hblk j (List.mem_append_right _ hj)).2]
    exact hl.around i hi j hj

private theorem mem_last {P : Nat → Nat → Prop} {a : Nat} {l : List Nat}
    (hl : (a :: l).Pairwise P) :
    ∀ j ∈ a :: l, j = last a l ∨ P j (last a l) := by
  induction l generalizing a with
  | nil =>
      intro j hj
      exact Or.inl (List.mem_singleton.mp hj)
  | cons b l ih =>
      intro j hj
      rw [List.pairwise_cons] at hl
      rcases List.mem_cons.mp hj with rfl | hmem
      · exact Or.inr (hl.1 _ last_mem)
      · exact ih hl.2 j hmem

/-- The first block of those that do not go around starts in front of all others. -/
theorem head_le (hu : (h :: rest).Pairwise fun i j => (r.blk i).stop ≤ (r.blk j).start) :
    ∀ j ∈ h :: rest, (r.blk h).start ≤ (r.blk j).start := by
  intro j hj
  rcases List.mem_cons.mp hj with rfl | hmem
  · exact le_rfl
  · exact (start_le_stop _).trans ((List.pairwise_cons.mp hu).1 j hmem)

/-- The last one ends behind all others. -/
theorem le_last (hu : (h :: rest).Pairwise fun i j => (r.blk i).stop ≤ (r.blk j).start) :
    ∀ j ∈ h :: rest, (r.blk j).stop ≤ (r.blk (last h rest)).stop := by
  intro j hj
  rcases mem_last hu j hj with heq | hle
  · rw [← heq]
  · exact hle.trans (start_le_stop _)

/-- The comparison of the first and the last block tells whether the blocks go around. -/
theorem Laid.straight (hl : Laid r upper lower) (hused : upper ++ lower = h :: rest)
    (hle : (r.blk h).start ≤ (r.blk (last h rest)).start) : Laid r (h :: rest) [] := by
  have hsame : Laid r (upper ++ lower) [] ↔
      (upper ++ lower).Pairwise fun i j => (r.blk i).stop ≤ (r.blk j).start := by
    refine ⟨fun hs => hs.ahead,
      fun hp => ⟨fun i hi => ?_, hp, List.Pairwise.nil, fun _ _ j hj => ?_⟩⟩
    · rw [List.append_nil] at hi
      exact hl.inside i hi
    · cases hj
  rw [← hused, hsame]
  cases upper with
  | nil => exact hl.behind
  | cons a upper =>
      cases lower with
      | nil =>
          rw [List.append_nil]
          exact hl.ahead
      | cons b lower =>
          obtain ⟨rfl, hrest⟩ := List.cons.inj hused
          have hlast : last a rest = last b lower := by
            rw [← hrest]
            exact last_append_cons
          have haround := hl.around a (List.mem_cons_self ..) (last b lower) last_mem
          rw [hlast] at hle
          omega

/-- Blocks that go around have a last one in front of the first. -/
theorem Laid.around_last (hl : Laid r upper lower) (hused : upper ++ lower = h :: rest)
    (hlt : (r.blk (last h rest)).start < (r.blk h).start) :
    ∃ u b l, upper = h :: u ∧ lower = b :: l ∧ last h rest = last b l := by
  cases upper with
  | nil =>
      have hlower : lower = h :: rest := hused
      have hhead := head_le (hlower ▸ hl.behind) (last h rest) last_mem
      omega
  | cons a upper =>
      cases lower with
      | nil =>
          rw [List.append_nil] at hused
          have hhead := head_le (hused ▸ hl.ahead) (last h rest) last_mem
          omega
      | cons b lower =>
          obtain ⟨rfl, hrest⟩ := List.cons.inj hused
          refine ⟨upper, b, lower, rfl, rfl, ?_⟩
          rw [← hrest]
          exact last_append_cons

private theorem pairwise_snoc {P : Nat → Nat → Prop} {l : List Nat} (hl : l.Pairwise P)
    (hi : ∀ j ∈ l, P j i) : (l ++ [i]).Pairwise P :=
  List.pairwise_append.mpr ⟨hl, List.pairwise_singleton P i, fun j hj k hk => by
    rw [List.mem_singleton.mp hk]
    exact hi j hj⟩

/-- A block behind the last one. -/
theorem Laid.putBehind (hl : Laid r (h :: rest) [])
    (hstart : (r.blk i).start = (r.blk (last h rest)).stop)
    (hstop : (r.blk i).stop ≤ r.buf.toNat + r.bufSize.toNat) :
    Laid r (h :: rest ++ [i]) [] := by
  have hlast := hl.inside (last h rest) (by rw [List.append_nil]; exact last_mem)
  have hle := start_le_stop (r.blk (last h rest))
  refine ⟨fun j hj => ?_, pairwise_snoc hl.ahead fun j hj => ?_, List.Pairwise.nil,
    fun _ _ j hj => (by cases hj)⟩
  · rw [List.append_nil] at hj
    rcases List.mem_append.mp hj with hmem | hmem
    · exact hl.inside j (by rwa [List.append_nil])
    · rw [List.mem_singleton.mp hmem]
      omega
  · rw [hstart]
    exact le_last hl.ahead j hj

/-- A block in front of the first one. -/
theorem Laid.putFront (hl : Laid r (h :: rest) []) (hstart : (r.blk i).start = r.buf.toNat)
    (hstop : (r.blk i).stop ≤ (r.blk h).start) (hpos : (r.blk i).start < (r.blk i).stop) :
    Laid r (h :: rest) [i] := by
  have hhead := hl.inside h (List.mem_append_left _ (List.mem_cons_self ..))
  have hle := start_le_stop (r.blk h)
  refine ⟨fun j hj => ?_, hl.ahead, List.pairwise_singleton _ i, fun j hj k hk => ?_⟩
  · rcases List.mem_append.mp hj with hmem | hmem
    · exact hl.inside j (List.mem_append_left _ hmem)
    · rw [List.mem_singleton.mp hmem]
      omega
  · have hmin := head_le hl.ahead j hj
    rw [List.mem_singleton.mp hk]
    omega

/-- A block between the last one and the first. -/
theorem Laid.putBetween {u l : List Nat} {b : Nat} (hl : Laid r (h :: u) (b :: l))
    (hstart : (r.blk i).start = (r.blk (last b l)).stop) (hstop : (r.blk i).stop ≤ (r.blk h).start)
    (hlt : (r.blk i).start < (r.blk h).start) : Laid r (h :: u) (b :: l ++ [i]) := by
  have hhead := hl.inside h (List.mem_append_left _ (List.mem_cons_self ..))
  have hlast := hl.inside (last b l) (List.mem_append_right _ last_mem)
  have hle := start_le_stop (r.blk (last b l))
  have hle' := start_le_stop (r.blk h)
  refine ⟨fun j hj => ?_, hl.ahead, pairwise_snoc hl.behind fun j hj => ?_, fun j hj k hk => ?_⟩
  · rw [← List.append_assoc] at hj
    rcases List.mem_append.mp hj with hmem | hmem
    · exact hl.inside j hmem
    · rw [List.mem_singleton.mp hmem]
      omega
  · rw [hstart]
    exact le_last hl.behind j hj
  · rcases List.mem_append.mp hk with hmem | hmem
    · exact hl.around j hj k hmem
    · have hmin := head_le hl.ahead j hj
      rw [List.mem_singleton.mp hmem]
      omega

/-- The blocks are disjoint. -/
theorem Laid.disjoint (hl : Laid r upper lower) :
    (upper ++ lower).Pairwise fun i j => Disjoint (r.blk i).range (r.blk j).range := by
  have happart : ∀ i j, (r.blk i).stop ≤ (r.blk j).start →
      Disjoint (r.blk i).range (r.blk j).range := by
    intro i j hij
    refine Set.disjoint_left.mpr fun x hi hj => ?_
    have hlt : x < (r.blk i).stop := hi.2
    have hge : (r.blk j).start ≤ x := hj.1
    omega
  refine List.pairwise_append.mpr ⟨hl.ahead.imp fun {i j} => happart i j,
    hl.behind.imp fun {i j} => happart i j, fun i hi j hj => ?_⟩
  exact (happart j i (hl.around i hi j hj).1).symm

end Layout

/-! ## Steps -/

/-- The blocks in the list are laid out in the buffer, which does not reach around the address
space. -/
structure Inv (r : Rbb) : Prop where
  fits : r.buf.toNat + r.bufSize.toNat < 2 ^ 64
  lists : ∃ upper lower free, Lists r (upper ++ lower) free ∧ Laid r upper lower

theorem Inv.consistent {r : Rbb} (hi : Inv r) : Consistent r := by
  obtain ⟨upper, lower, free, hlists, hl⟩ := hi.lists
  refine ⟨_, free, hlists, fun i hi => ?_, hl.disjoint⟩
  obtain ⟨hge, hle⟩ := hl.inside i hi
  exact Set.Ico_subset_Ico hge hle

section Alloc

variable {r : Rbb} {upper lower free rest : List Nat} {h i : Nat} {b : Blk} {buf size : BitVec 64}

private theorem behind_toNat (hfits : r.buf.toNat + r.bufSize.toNat < 2 ^ 64)
    (hin : b.stop ≤ r.buf.toNat + r.bufSize.toNat) : b.behind.toNat = b.stop := by
  have hlt : b.buf.toNat + b.size.toNat < 2 ^ 64 := hin.trans_lt hfits
  have hsize := b.size.isLt
  have hwide : (b.size.setWidth 64).toNat = b.size.toNat := by
    rw [BitVec.toNat_setWidth]
    exact Nat.mod_eq_of_lt (by omega)
  rw [Blk.behind, BitVec.toNat_add, hwide, Nat.mod_eq_of_lt hlt]
  rfl

private theorem emptyBehind_toNat (hfits : r.buf.toNat + r.bufSize.toNat < 2 ^ 64)
    (hin : b.stop ≤ r.buf.toNat + r.bufSize.toNat) :
    (emptyBehind r b).toNat = r.buf.toNat + r.bufSize.toNat - b.stop := by
  have hbehind := behind_toNat hfits hin
  rw [emptyBehind]
  bv_omega

private theorem emptyFront_toNat (hin : r.buf.toNat ≤ b.start) :
    (emptyFront r b).toNat = b.start - r.buf.toNat := by
  have hstart : b.start = b.buf.toNat := rfl
  rw [emptyFront]
  bv_omega

private theorem emptyBetween_toNat {head : Blk} (hfits : r.buf.toNat + r.bufSize.toNat < 2 ^ 64)
    (hin : b.stop ≤ r.buf.toNat + r.bufSize.toNat) (hle : b.stop ≤ head.start) :
    (emptyBetween head b).toNat = head.start - b.stop := by
  have hbehind := behind_toNat hfits hin
  have hstart : head.start = head.buf.toNat := rfl
  rw [emptyBetween]
  bv_omega

/-- The state once the first descriptor has become a block. -/
def allocated (r : Rbb) (i : Nat) (buf size : BitVec 64) : Rbb :=
  initBlk { r with next := Function.update r.next .freeList (r.next (.blk i)) } i buf size

private theorem allocated_self (r : Rbb) (i : Nat) (buf : BitVec 64) (hsize : size.toNat < 2 ^ 24) :
    ((allocated r i buf size).blk i).start = buf.toNat ∧
      ((allocated r i buf size).blk i).stop = buf.toNat + size.toNat := by
  simp only [allocated, initBlk, setBlk, Function.update_self, Blk.start, Blk.stop,
    BitVec.toNat_setWidth, Nat.mod_eq_of_lt hsize, and_self]

private theorem allocated_of_ne {j : Nat} (hj : j ≠ i) :
    (allocated r i buf size).blk j = r.blk j := by
  simp only [allocated, initBlk, setBlk, Function.update_of_ne hj]
  rfl

/-- The other blocks stay where they are. -/
theorem Laid.allocated (hl : Laid r upper lower) (hi : i ∉ upper ++ lower) :
    Laid (allocated r i buf size) upper lower := by
  refine hl.congr rfl rfl fun j hj => ?_
  have hji : j ≠ i := fun heq => hi (heq ▸ hj)
  rw [allocated_of_ne hji]
  exact ⟨rfl, rfl⟩

/-- The first block of an empty list. -/
theorem allocated_first (hfits : r.buf.toNat + r.bufSize.toNat < 2 ^ 64)
    (hlists : Lists r [] (i :: free)) (hsize : size.toNat < 2 ^ 24) (hroom : size ≤ r.bufSize) :
    Inv (allocated r i r.buf size) := by
  obtain ⟨hstart, hstop⟩ := allocated_self r i r.buf hsize
  have hle : size.toNat ≤ r.bufSize.toNat := hroom
  refine ⟨hfits, [i], [], free, hlists.initBlk r.buf size, fun j hj => ?_,
    List.pairwise_singleton _ i, List.Pairwise.nil, fun _ _ j hj => (by cases hj)⟩
  rw [List.append_nil, List.mem_singleton] at hj
  rw [hj, hstart, hstop]
  show r.buf.toNat ≤ r.buf.toNat ∧ _ ≤ r.buf.toNat + r.bufSize.toNat
  omega

/-- A block behind the last, in front of the first or between them. -/
theorem allocated_next (hfits : r.buf.toNat + r.bufSize.toNat < 2 ^ 64)
    (hused : upper ++ lower = h :: rest) (hlists : Lists r (upper ++ lower) (i :: free))
    (hl : Laid r upper lower) (hsize : size.toNat < 2 ^ 24) :
    ((r.blk h).buf ≤ (r.blk (last h rest)).buf →
      size ≤ emptyBehind r (r.blk (last h rest)) →
        Inv (allocated r i (r.blk (last h rest)).behind size)) ∧
    ((r.blk h).buf ≤ (r.blk (last h rest)).buf →
      ¬size ≤ emptyBehind r (r.blk (last h rest)) → size ≤ emptyFront r (r.blk h) →
        Inv (allocated r i r.buf size)) ∧
    (¬(r.blk h).buf ≤ (r.blk (last h rest)).buf →
      size ≤ emptyBetween (r.blk h) (r.blk (last h rest)) →
      (size = 0 → emptyBetween (r.blk h) (r.blk (last h rest)) ≠ 0) →
        Inv (allocated r i (r.blk (last h rest)).behind size)) := by
  have hi : i ∉ upper ++ lower := fun hmem => hlists.linked.not_free hmem (List.mem_cons_self ..)
  have hlast_mem : last h rest ∈ upper ++ lower := by
    rw [hused]
    exact last_mem
  have hhead_mem : h ∈ upper ++ lower := by
    rw [hused]
    exact List.mem_cons_self ..
  obtain ⟨hlast_ge, hlast_le⟩ := hl.inside _ hlast_mem
  obtain ⟨hhead_ge, hhead_le⟩ := hl.inside _ hhead_mem
  have hbehind := behind_toNat hfits hlast_le
  have hlast_ne : last h rest ≠ i := fun heq => hi (heq ▸ hlast_mem)
  have hhead_ne : h ≠ i := fun heq => hi (heq ▸ hhead_mem)
  have hlists' : ∀ buf, Lists (allocated r i buf size) (upper ++ lower ++ [i]) free :=
    fun buf => hlists.initBlk buf size
  refine ⟨fun hle hroom => ?_, fun hle hfull hroom => ?_, fun hnot hroom hzero => ?_⟩
  · have hstraight := hl.straight hused hle
    have hempty := emptyBehind_toNat hfits hlast_le
    have hroom' : size.toNat ≤ (emptyBehind r (r.blk (last h rest))).toNat := hroom
    obtain ⟨hstart, hstop⟩ := allocated_self r i (r.blk (last h rest)).behind hsize
    refine ⟨hfits, h :: rest ++ [i], [], free, ?_, ?_⟩
    · rw [List.append_nil, ← hused]
      exact hlists' _
    · refine Laid.putBehind (hstraight.allocated ?_) ?_ ?_
      · rwa [List.append_nil, ← hused]
      · rw [hstart, allocated_of_ne hlast_ne, hbehind]
      · show _ ≤ r.buf.toNat + r.bufSize.toNat
        omega
  · have hstraight := hl.straight hused hle
    have hempty := emptyFront_toNat hhead_ge
    have hroom' : size.toNat ≤ (emptyFront r (r.blk h)).toNat := hroom
    have hpos : 0 < size.toNat := by
      have hfull' : ¬size.toNat ≤ (emptyBehind r (r.blk (last h rest))).toNat := hfull
      omega
    obtain ⟨hstart, hstop⟩ := allocated_self r i r.buf hsize
    refine ⟨hfits, h :: rest, [i], free, ?_, ?_⟩
    · rw [← hused]
      exact hlists' _
    · refine Laid.putFront (hstraight.allocated ?_) hstart ?_ ?_
      · rwa [List.append_nil, ← hused]
      · rw [hstop, allocated_of_ne hhead_ne]
        omega
      · omega
  · have hlt : (r.blk (last h rest)).start < (r.blk h).start := Nat.lt_of_not_le hnot
    obtain ⟨u, b, l, rfl, rfl, hlast⟩ := hl.around_last hused hlt
    have hgap := (hl.around h (List.mem_cons_self ..) (last b l) last_mem).1
    rw [← hlast] at hgap
    have hempty := emptyBetween_toNat hfits hlast_le hgap
    have hroom' : size.toNat ≤ (emptyBetween (r.blk h) (r.blk (last h rest))).toNat := hroom
    obtain ⟨hstart, hstop⟩ := allocated_self r i (r.blk (last h rest)).behind hsize
    refine ⟨hfits, h :: u, b :: l ++ [i], free, ?_, ?_⟩
    · rw [← List.append_assoc]
      exact hlists' _
    · refine Laid.putBetween (hl.allocated hi) ?_ ?_ ?_
      · rw [hstart, ← hlast, allocated_of_ne hlast_ne, hbehind]
      · rw [hstop, allocated_of_ne hhead_ne, hbehind]
        omega
      · rw [hstart, allocated_of_ne hhead_ne, hbehind]
        by_cases hsz : size = 0
        · -- an empty block does not fill the gap
          have hne := hzero hsz
          have hpos : (emptyBetween (r.blk h) (r.blk (last h rest))).toNat ≠ 0 := fun heq =>
            hne (BitVec.eq_of_toNat_eq heq)
          omega
        · have hpos : size.toNat ≠ 0 := fun heq => hsz (BitVec.eq_of_toNat_eq heq)
          omega

theorem rtRbbBlkAlloc_first (hsize : size < blkSizeEnd) (hlists : Linked r [] (i :: free)) :
    rtRbbBlkAlloc r size = .ok (allocated r i r.buf size, some i) := by
  have hnext : Function.update r.next .freeList (r.next (.blk i)) .blkList = none := by
    rw [Function.update_of_ne (by simp)]
    exact hlists.blkList
  rw [rtRbbBlkAlloc, decide_eq_true hsize, findEmptyBlkInSet_cons hlists]
  simp only [check_true, ok_bind, hnext]
  rfl

theorem rtRbbBlkAlloc_next (hsize : size < blkSizeEnd) (hlists : Linked r (h :: rest) (i :: free)) :
    rtRbbBlkAlloc r size =
      if (r.blk h).buf ≤ (r.blk (last h rest)).buf then
        if size ≤ emptyBehind r (r.blk (last h rest)) then
          .ok (allocated r i (r.blk (last h rest)).behind size, some i)
        else if size ≤ emptyFront r (r.blk h) then .ok (allocated r i r.buf size, some i)
        else .ok ({ r with next := Function.update r.next .freeList (r.next (.blk i)) }, none)
      else if size ≤ emptyBetween (r.blk h) (r.blk (last h rest)) then
        .ok (allocated r i (r.blk (last h rest)).behind size, some i)
      else .ok ({ r with next := Function.update r.next .freeList (r.next (.blk i)) }, none) := by
  have hnext : Function.update r.next .freeList (r.next (.blk i)) .blkList = some (.blk h) := by
    rw [Function.update_of_ne (by simp)]
    exact hlists.blkList.1
  have hhead : entry (.blk h) = .ok h := rfl
  have htail : entry r.tail = .ok (last h rest) := by
    rw [hlists.tail, List.map_cons, last_cons, last_map]
    rfl
  rw [rtRbbBlkAlloc, decide_eq_true hsize, findEmptyBlkInSet_cons hlists]
  simp only [check_true, ok_bind, hnext, hhead, htail]
  rfl

/-- An allocation takes the first descriptor and has room, or changes nothing. -/
theorem alloc_inv (hi : Inv r) (hsize : size < blkSizeEnd) (hroom : Room r size) :
    ∃ r' found, rtRbbBlkAlloc r size = .ok (r', found) ∧ Inv r' ∧ (found = none → r' = r) := by
  obtain ⟨upper, lower, free, hlists, hl⟩ := hi.lists
  have hsize' : size.toNat < 2 ^ 24 := hsize
  cases free with
  | nil =>
      refine ⟨r, none, ?_, hi, fun _ => rfl⟩
      rw [rtRbbBlkAlloc, decide_eq_true hsize, findEmptyBlkInSet_nil hlists.linked]
      rfl
  | cons i free =>
      have hfree : ¬r.next .freeList = none := by
        rw [hlists.freeList.1]
        simp
      have hroom' := hroom.resolve_left hfree
      cases hused : upper ++ lower with
      | nil =>
          rw [hused] at hlists
          have hnone : r.next .blkList = none := hlists.blkList
          simp only [hnone] at hroom'
          exact ⟨_, _, rtRbbBlkAlloc_first hsize hlists.linked,
            allocated_first hi.fits hlists hsize' hroom', fun hf => (by cases hf)⟩
      | cons h rest =>
          obtain ⟨hbehind, hfront, hbetween⟩ := allocated_next hi.fits hused hlists hl hsize'
          rw [hused] at hlists
          have hfirst : r.next .blkList = some (.blk h) := hlists.blkList.1
          have htail : r.tail = .blk (last h rest) := by
            rw [hlists.tail, List.map_cons, last_cons, last_map]
          simp only [hfirst, htail] at hroom'
          rw [rtRbbBlkAlloc_next hsize hlists.linked]
          by_cases hle : (r.blk h).buf ≤ (r.blk (last h rest)).buf
          · rw [if_pos hle] at hroom' ⊢
            by_cases hfits : size ≤ emptyBehind r (r.blk (last h rest))
            · rw [if_pos hfits]
              exact ⟨_, _, rfl, hbehind hle hfits, fun hf => (by cases hf)⟩
            · have hfits' := hroom'.resolve_left hfits
              rw [if_neg hfits, if_pos hfits']
              exact ⟨_, _, rfl, hfront hle hfits hfits', fun hf => (by cases hf)⟩
          · rw [if_neg hle] at hroom' ⊢
            rw [if_pos hroom'.1]
            exact ⟨_, _, rfl, hbetween hle hroom'.1 hroom'.2, fun hf => (by cases hf)⟩

end Alloc

/-! The blocks that are put, got and freed. -/

/-- Blocks change their status, but none is freed. -/
structure Marked (r r' : Rbb) : Prop where
  buf : r'.buf = r.buf
  bufSize : r'.bufSize = r.bufSize
  blkMaxNum : r'.blkMaxNum = r.blkMaxNum
  next : r'.next = r.next
  tail : r'.tail = r.tail
  place : ∀ i, (r'.blk i).buf = (r.blk i).buf ∧ (r'.blk i).size = (r.blk i).size
  status : ∀ i, (r'.blk i).status = .unused ↔ (r.blk i).status = .unused

/-- The blocks in the list are `used`. -/
structure InvAt (r : Rbb) (used free : List Nat) : Prop where
  fits : r.buf.toNat + r.bufSize.toNat < 2 ^ 64
  lists : Lists r used free
  laid : ∃ upper lower, used = upper ++ lower ∧ Laid r upper lower

section Marks

variable {r r' r₂ : Rbb} {used free pre post l rest : List Nat} {i : Nat} {status : Status}
  {k n : Nat} {len : BitVec 64}

private theorem inv_iff : Inv r ↔ ∃ used free, InvAt r used free := by
  constructor
  · rintro ⟨hfits, upper, lower, free, hlists, hl⟩
    exact ⟨_, free, hfits, hlists, upper, lower, rfl, hl⟩
  · rintro ⟨used, free, hfits, hlists, upper, lower, rfl, hl⟩
    exact ⟨hfits, upper, lower, free, hlists, hl⟩

theorem Marked.refl (r : Rbb) : Marked r r :=
  ⟨rfl, rfl, rfl, rfl, rfl, fun _ => ⟨rfl, rfl⟩, fun _ => Iff.rfl⟩

theorem marked_setStatus (hold : (r.blk i).status ≠ .unused) (hnew : status ≠ .unused) :
    Marked r (setStatus r i status) := by
  refine ⟨rfl, rfl, rfl, rfl, rfl, fun j => ?_, fun j => ?_⟩
  · by_cases hji : j = i
    · subst hji
      simp [setStatus, setBlk]
    · simp [setStatus, setBlk, Function.update_of_ne hji]
  · by_cases hji : j = i
    · subst hji
      simp [setStatus, setBlk, hold, hnew]
    · simp [setStatus, setBlk, Function.update_of_ne hji]

theorem Marked.linked (h : Marked r r') (hl : Linked r used free) : Linked r' used free :=
  hl.congr h.next h.tail h.blkMaxNum h.status

theorem Marked.lists (h : Marked r r') (hl : Lists r used free) : Lists r' used free := by
  refine (h.linked hl.linked).lists ?_
  rw [h.blkMaxNum]
  exact hl.once

theorem Marked.inv (h : Marked r r') (hi : Inv r) : Inv r' := by
  obtain ⟨upper, lower, free, hlists, hl⟩ := hi.lists
  refine ⟨?_, upper, lower, free, h.lists hlists,
    hl.congr h.buf h.bufSize fun i _ => ?_⟩
  · rw [h.buf, h.bufSize]
    exact hi.fits
  · rw [Blk.start, Blk.stop, (h.place i).1, (h.place i).2]
    exact ⟨rfl, rfl⟩

theorem put_ne {b : Blk} (h : b.status = .put) : b.status ≠ .unused := by
  rw [h]
  simp

theorem getLoop_spec {a : Node} (h : Path r.next a (l.map .blk)) (hk : l.length < k) :
    ∃ r' found, getLoop k r (r.next a) = .ok (r', found) ∧ Marked r r' := by
  induction l generalizing a k with
  | nil =>
      obtain ⟨k, rfl⟩ : ∃ j, k = j + 1 := ⟨k - 1, by rw [List.length_nil] at hk; omega⟩
      have hnone : r.next a = none := h
      rw [hnone]
      exact ⟨r, none, rfl, Marked.refl r⟩
  | cons i l ih =>
      obtain ⟨k, rfl⟩ : ∃ j, k = j + 1 := ⟨k - 1, by rw [List.length_cons] at hk; omega⟩
      have hentry : entry (.blk i) = .ok i := rfl
      rw [h.1, getLoop, hentry]
      simp only [ok_bind]
      by_cases hput : (r.blk i).status = .put
      · rw [if_pos hput]
        exact ⟨_, _, rfl, marked_setStatus (put_ne hput) (by simp)⟩
      · rw [if_neg hput]
        exact ih h.2 (Nat.lt_of_succ_lt_succ hk)

/-- The blocks that continue a queue whose last block starts at `buf`, of those behind it. -/
def follow (blk : Nat → Blk) (queueDataLen : BitVec 64) :
    BitVec 64 → BitVec 64 → List Nat → List Nat
  | _, _, [] => []
  | buf, total, i :: rest =>
      if (blk i).status ≠ .put ∨ (blk i).buf < buf ∨
          queueDataLen < total + (blk i).size.setWidth 64 then []
      else i :: follow blk queueDataLen (blk i).buf (total + (blk i).size.setWidth 64) rest

/-- What the sizes of blocks add up to, in the width of `data_total_size`. -/
def sizes (blk : Nat → Blk) (l : List Nat) : BitVec 64 :=
  l.foldr (fun i total => (blk i).size.setWidth 64 + total) 0

/-- Blocks become `get`. -/
def markGet (r : Rbb) (l : List Nat) : Rbb :=
  { r with blk := fun i => if i ∈ l then { r.blk i with status := .get } else r.blk i }

private theorem follow_congr {blk blk' : Nat → Blk} {buf total : BitVec 64}
    (h : ∀ j ∈ l, blk' j = blk j) :
    follow blk' len buf total l = follow blk len buf total l := by
  induction l generalizing buf total with
  | nil => rfl
  | cons i l ih =>
      simp only [follow, h i (List.mem_cons_self ..),
        ih fun j hj => h j (List.mem_cons_of_mem i hj)]

private theorem sizes_congr {blk blk' : Nat → Blk} (h : ∀ j ∈ l, blk' j = blk j) :
    sizes blk' l = sizes blk l := by
  induction l with
  | nil => rfl
  | cons i l ih =>
      have hl : sizes blk' l = sizes blk l := ih fun j hj => h j (List.mem_cons_of_mem i hj)
      show _ + sizes blk' l = _ + sizes blk l
      rw [hl, h i (List.mem_cons_self ..)]

theorem prefix_follow {blk : Nat → Blk} {buf total : BitVec 64} :
    follow blk len buf total l <+: l := by
  induction l generalizing buf total with
  | nil => exact List.nil_prefix
  | cons i l ih =>
      rw [follow]
      split
      · exact List.nil_prefix
      · exact List.cons_prefix_cons.mpr ⟨rfl, ih⟩

theorem follow_put {blk : Nat → Blk} {buf total : BitVec 64} :
    ∀ i ∈ follow blk len buf total l, (blk i).status = .put := by
  induction l generalizing buf total with
  | nil =>
      intro i hi
      cases hi
  | cons j l ih =>
      intro i hi
      rw [follow] at hi
      split at hi
      · cases hi
      · rename_i hgo
        rcases List.mem_cons.mp hi with rfl | hi
        · by_contra hput
          exact hgo (Or.inl hput)
        · exact ih i hi

/-- The queue ends in front of the end of the list exactly when a block does not continue it. -/
theorem queueEnds_some {blk : Nat → Blk} {buf total : BitVec 64} :
    queueEnds blk len (some buf) total l = true ↔
      (follow blk len buf total l).length < l.length := by
  induction l generalizing buf total with
  | nil => simp [queueEnds]
  | cons i l ih =>
      rw [queueEnds, follow]
      split
      · simp
      · rw [ih, List.length_cons, List.length_cons, Nat.succ_lt_succ_iff]

private theorem queueEnds_none {blk : Nat → Blk} (h : queueEnds blk len none 0 l = true) :
    ∃ skip i rest, l = skip ++ i :: rest ∧ (∀ j ∈ skip, (blk j).status ≠ .put) ∧
      (blk i).status = .put ∧
      (follow blk len (blk i).buf ((blk i).size.setWidth 64) rest).length < rest.length := by
  induction l with
  | nil => simp [queueEnds] at h
  | cons i l ih =>
      rw [queueEnds] at h
      by_cases hput : (blk i).status = .put
      · rw [if_pos hput, queueEnds_some, zero_add] at h
        exact ⟨[], i, l, rfl, fun j hj => (by cases hj), hput, h⟩
      · rw [if_neg hput] at h
        obtain ⟨skip, j, rest, rfl, hskip, hj⟩ := ih h
        refine ⟨i :: skip, j, rest, rfl, fun m hm => ?_, hj⟩
        rcases List.mem_cons.mp hm with rfl | hm
        · exact hput
        · exact hskip m hm

private theorem markGet_setStatus : markGet (setStatus r i .get) l = markGet r (i :: l) := by
  have hblk : (markGet (setStatus r i .get) l).blk = (markGet r (i :: l)).blk := by
    funext j
    simp only [markGet, setStatus, setBlk, List.mem_cons]
    by_cases hji : j = i
    · subst hji
      simp
    · simp [hji]
  simp only [markGet, setStatus, setBlk, Rbb.mk.injEq, true_and] at hblk ⊢
  exact hblk

theorem markGet_nil : markGet r [] = r := by
  simp [markGet]

theorem marked_markGet (h : ∀ i ∈ l, (r.blk i).status ≠ .unused) : Marked r (markGet r l) := by
  refine ⟨rfl, rfl, rfl, rfl, rfl, fun i => ?_, fun i => ?_⟩
  · by_cases hi : i ∈ l
    · simp [markGet, hi]
    · simp [markGet, hi]
  · by_cases hi : i ∈ l
    · simp [markGet, hi, h i hi]
    · simp [markGet, hi]

/-- `node = tmp` where the list goes on, and where it has ended. -/
theorem forward_some {next : Option Node} {tmp : Node}
    {round : Node → Option Node → Except Fault (Rbb × QueueGet)} (h : next = some tmp) :
    forward r next round = round tmp (r.next tmp) := by
  rw [h]
  rfl

private theorem forward_none {next : Option Node}
    {round : Node → Option Node → Except Fault (Rbb × QueueGet)} (h : next = none) :
    forward r next round = .error .nullPointer := by
  rw [h]
  rfl

/-- The loop has taken the blocks `t` behind the block `j`. -/
def extended (r : Rbb) (g : QueueGet) (j : Nat) (t : List Nat) : Rbb × QueueGet :=
  (markGet r t, ⟨some (last j t), g.dataTotalSize + sizes r.blk t,
    ⟨g.blkQueue.blocks, g.blkQueue.blkNum + t.length⟩⟩)

private theorem extended_nil {g : QueueGet} {j : Nat} (h : g.lastBlock = some j) :
    extended r g j [] = (r, g) := by
  simp only [extended, markGet_nil, last_nil, sizes, List.foldr_nil, add_zero, List.length_nil,
    ← h]

private theorem extended_cons {g : QueueGet} {j : Nat} {t : List Nat} (hi : i ∉ t) :
    extended (setStatus r i .get) ⟨some i, g.dataTotalSize + (r.blk i).size.setWidth 64,
      ⟨g.blkQueue.blocks, g.blkQueue.blkNum + 1⟩⟩ i t = extended r g j (i :: t) := by
  have hsame : ∀ n ∈ t, (setStatus r i .get).blk n = r.blk n := by
    intro n hn
    have hni : n ≠ i := fun heq => hi (heq ▸ hn)
    simp only [setStatus, setBlk, Function.update_of_ne hni]
  have hsizes : sizes r.blk (i :: t) = (r.blk i).size.setWidth 64 + sizes r.blk t := rfl
  simp only [extended, markGet_setStatus, sizes_congr hsame, hsizes, last_cons, List.length_cons,
    add_assoc, Nat.add_comm 1]

/-- **The loop behind the first block of a queue** takes the blocks that continue it, and runs
through the null pointer when these are all that is left of the list. -/
theorem queueGetLoop_some {g : QueueGet} {j : Nat} (h : Path r.next (.blk i) (rest.map .blk))
    (hk : rest.length < k) (hlast : g.lastBlock = some j) :
    queueGetLoop len k r g (.blk i) (r.next (.blk i)) =
      if (follow r.blk len (r.blk j).buf g.dataTotalSize (i :: rest)).length < (i :: rest).length
      then .ok (extended r g j (follow r.blk len (r.blk j).buf g.dataTotalSize (i :: rest)))
      else .error .nullPointer := by
  induction rest generalizing i j k r g with
  | nil =>
      obtain ⟨k, rfl⟩ : ∃ j, k = j + 1 := ⟨k - 1, by rw [List.length_nil] at hk; omega⟩
      have hentry : entry (.blk i) = .ok i := rfl
      have hnone : r.next (.blk i) = none := h
      rw [queueGetLoop, hentry]
      simp only [ok_bind, hlast, follow]
      split
      · simp only [List.length_nil, List.length_cons, Nat.zero_lt_succ, if_true,
          extended_nil hlast]
        rfl
      · simp only [List.length_cons, List.length_nil, lt_irrefl, if_false]
        exact forward_none hnone
  | cons m rest ih =>
      obtain ⟨k, rfl⟩ : ∃ j, k = j + 1 := ⟨k - 1, by rw [List.length_cons] at hk; omega⟩
      have hentry : entry (.blk i) = .ok i := rfl
      have hnot : i ∉ m :: rest := fun hmem => h.not_mem (List.mem_map.mpr ⟨i, hmem, rfl⟩)
      have hsame : ∀ n ∈ m :: rest, (setStatus r i .get).blk n = r.blk n := by
        intro n hn
        have hni : n ≠ i := fun heq => hnot (heq ▸ hn)
        simp only [setStatus, setBlk, Function.update_of_ne hni]
      have hbuf : ((setStatus r i .get).blk i).buf = (r.blk i).buf := by
        simp only [setStatus, setBlk, Function.update_self]
      rw [queueGetLoop, hentry]
      simp only [ok_bind, hlast]
      rw [follow]
      split
      · simp only [List.length_nil, List.length_cons, Nat.zero_lt_succ, if_true,
          extended_nil hlast]
        rfl
      · have hloop := ih (r := setStatus r i .get) (k := k)
          (g := ⟨some i, g.dataTotalSize + (r.blk i).size.setWidth 64,
            ⟨g.blkQueue.blocks, g.blkQueue.blkNum + 1⟩⟩) h.2 (Nat.lt_of_succ_lt_succ hk) rfl
        have hin : i ∉ follow r.blk len (r.blk i).buf
            (g.dataTotalSize + (r.blk i).size.setWidth 64) (m :: rest) :=
          fun hmem => hnot (prefix_follow.subset hmem)
        rw [hbuf, follow_congr hsame, extended_cons (j := j) hin] at hloop
        rw [forward_some h.1, List.length_cons, List.length_cons (a := i)]
        simp only [Nat.succ_lt_succ_iff]
        exact hloop

/-- The loop where there is nothing to take. -/
theorem queueGetLoop_none {g : QueueGet} (h : Path r.next (.blk i) (rest.map .blk))
    (hk : rest.length < k) (hlast : g.lastBlock = none)
    (hskip : ∀ j ∈ i :: rest, (r.blk j).status ≠ .put) :
    queueGetLoop len k r g (.blk i) (r.next (.blk i)) = .error .nullPointer := by
  induction rest generalizing i k with
  | nil =>
      obtain ⟨k, rfl⟩ : ∃ j, k = j + 1 := ⟨k - 1, by rw [List.length_nil] at hk; omega⟩
      have hentry : entry (.blk i) = .ok i := rfl
      have hnone : r.next (.blk i) = none := h
      rw [queueGetLoop, hentry]
      simp only [ok_bind, hlast, if_neg (hskip i (List.mem_cons_self ..))]
      exact forward_none hnone
  | cons m rest ih =>
      obtain ⟨k, rfl⟩ : ∃ j, k = j + 1 := ⟨k - 1, by rw [List.length_cons] at hk; omega⟩
      have hentry : entry (.blk i) = .ok i := rfl
      rw [queueGetLoop, hentry]
      simp only [ok_bind, hlast, if_neg (hskip i (List.mem_cons_self ..))]
      rw [forward_some h.1]
      exact ih h.2 (Nat.lt_of_succ_lt_succ hk) fun j hj => hskip j (List.mem_cons_of_mem i hj)

/-- The state once the blocks `i :: t` are taken. -/
def taken (r : Rbb) (i : Nat) (t : List Nat) : Rbb × QueueGet :=
  (markGet r (i :: t), ⟨some (last i t), sizes r.blk (i :: t), ⟨some i, t.length + 1⟩⟩)

/-- **The loop from the start**: it takes the first block that is put, and those that continue
it. -/
theorem queueGetLoop_first {skip : List Nat} {q : BlkQueue} {a : Node} {node : Node}
    (h : Path r.next a ((skip ++ i :: rest).map .blk)) (hnode : r.next a = some node)
    (hk : skip.length + rest.length < k) (hskip : ∀ j ∈ skip, (r.blk j).status ≠ .put)
    (hput : (r.blk i).status = .put) :
    queueGetLoop len k r ⟨none, 0, q⟩ node (r.next node) =
      if (follow r.blk len (r.blk i).buf ((r.blk i).size.setWidth 64) rest).length < rest.length
      then .ok (taken r i (follow r.blk len (r.blk i).buf ((r.blk i).size.setWidth 64) rest))
      else .error .nullPointer := by
  induction skip generalizing a node k with
  | nil =>
      obtain ⟨k, rfl⟩ : ∃ j, k = j + 1 := ⟨k - 1, by rw [List.length_nil] at hk; omega⟩
      have hentry : entry (.blk i) = .ok i := rfl
      cases hnode.symm.trans h.1
      rw [queueGetLoop, hentry]
      simp only [ok_bind, if_pos hput, zero_add]
      cases rest with
      | nil =>
          simp only [follow, List.length_nil, lt_irrefl, if_false]
          exact forward_none h.2
      | cons m rest =>
          have hpath := h.2
          have hnot : i ∉ m :: rest := fun hmem => hpath.not_mem (List.mem_map.mpr ⟨i, hmem, rfl⟩)
          have hsame : ∀ n ∈ m :: rest, (setStatus r i .get).blk n = r.blk n := by
            intro n hn
            have hni : n ≠ i := fun heq => hnot (heq ▸ hn)
            simp only [setStatus, setBlk, Function.update_of_ne hni]
          have hbuf : ((setStatus r i .get).blk i).buf = (r.blk i).buf := by
            simp only [setStatus, setBlk, Function.update_self]
          have hloop := @queueGetLoop_some (setStatus r i .get) _ _ k len
            ⟨some i, (r.blk i).size.setWidth 64, ⟨some i, 1⟩⟩ _ hpath.2
            (by rw [List.length_nil, List.length_cons] at hk; omega) rfl
          rw [hbuf, follow_congr hsame] at hloop
          rw [forward_some hpath.1, hloop]
          have hpre := @prefix_follow (m :: rest) len r.blk (r.blk i).buf
            ((r.blk i).size.setWidth 64)
          have hin : ∀ t : List Nat, t <+: m :: rest → extended (setStatus r i .get)
              ⟨some i, (r.blk i).size.setWidth 64, ⟨some i, 1⟩⟩ i t = taken r i t := by
            intro t ht
            have hcons := extended_cons (r := r) (g := ⟨none, 0, ⟨some i, 0⟩⟩) (j := i) (t := t)
              fun hmem => hnot (ht.subset hmem)
            simp only [zero_add] at hcons
            rw [hcons]
            simp only [extended, taken, zero_add, last_cons, List.length_cons]
          rw [hin _ hpre]
  | cons j skip ih =>
      obtain ⟨k, rfl⟩ : ∃ j, k = j + 1 := ⟨k - 1, by rw [List.length_cons] at hk; omega⟩
      have hentry : entry (.blk j) = .ok j := rfl
      cases hnode.symm.trans h.1
      have hgo : ∃ m, r.next (.blk j) = some m := by
        cases skip with
        | nil => exact ⟨_, h.2.1⟩
        | cons m skip => exact ⟨_, h.2.1⟩
      obtain ⟨m, hm⟩ := hgo
      rw [queueGetLoop, hentry]
      simp only [ok_bind, if_neg (hskip j (List.mem_cons_self ..))]
      rw [forward_some hm]
      exact ih h.2 hm (by rw [List.length_cons] at hk; omega)
        fun n hn => hskip n (List.mem_cons_of_mem j hn)

/-- A block is freed. -/
theorem free_inv (hi : InvAt r (pre ++ i :: post) free) :
    ∃ r', rtRbbBlkFree r i = .ok r' ∧ InvAt r' (pre ++ post) (i :: free) := by
  obtain ⟨r', hfree, hlinked, hblk, hbuf, hsize, hnum⟩ := rtRbbBlkFree_spec hi.lists.linked
  have hlists : Lists r' (pre ++ post) (i :: free) := by
    refine hlinked.lists ?_
    rw [hnum]
    exact freed_perm.trans hi.lists.once
  obtain ⟨upper, lower, hused, hl⟩ := hi.laid
  have hsub : (pre ++ post).Sublist (upper ++ lower) := by
    rw [← hused]
    exact (List.Sublist.refl pre).append (List.sublist_cons_self i post)
  obtain ⟨upper', lower', hsplit, hu, hw⟩ := List.sublist_append_iff.mp hsub
  refine ⟨r', hfree, ?_, hlists, upper', lower', hsplit, (hl.sublist hu hw).congr hbuf hsize
    fun j _ => ?_⟩
  · rw [hbuf, hsize]
    exact hi.fits
  · rw [hblk]
    by_cases hji : j = i
    · subst hji
      rw [Function.update_self]
      exact ⟨rfl, rfl⟩
    · rw [Function.update_of_ne hji]
      exact ⟨rfl, rfl⟩

/-- The blocks of a queue are freed, one after the other; `P` is what freeing one keeps. -/
theorem queueFree_keeps {P : Rbb → List Nat → List Nat → Prop}
    (hlinked : ∀ r used free, P r used free → Linked r used free)
    (hstep : ∀ r pre i post free, P r (pre ++ i :: post) free →
      ∃ r', rtRbbBlkFree r i = .ok r' ∧ P r' (pre ++ post) (i :: free))
    (hi : P r (pre ++ l) free) (hn : n ≤ l.length) :
    ∃ r', rtRbbBlkQueueFree n r (l.map .blk).head? = .ok r' ∧ ∃ used free, P r' used free := by
  induction n generalizing r l free with
  | zero => exact ⟨r, rfl, _, _, hi⟩
  | succ n ih =>
      cases l with
      | nil => exact absurd hn (Nat.not_succ_le_zero n)
      | cons i post =>
          obtain ⟨r₁, hfree, hi₁⟩ := hstep r pre i post free hi
          obtain ⟨r', hrest, hi'⟩ := ih hi₁ (Nat.le_of_succ_le_succ hn)
          have hpath : Path r.next .blkList (pre.map .blk ++ Node.blk i :: post.map .blk) := by
            have hused := (hlinked r _ _ hi).blkList
            rwa [List.map_append, List.map_cons] at hused
          have hentry : entry (.blk i) = .ok i := rfl
          refine ⟨r', ?_, hi'⟩
          rw [List.map_cons, List.head?_cons, rtRbbBlkQueueFree, deref_some, ok_bind, hentry,
            ok_bind, hfree, ok_bind, hpath.suffix.next_eq]
          exact hrest

theorem dropWhile_map (used : List Nat) (b : Nat) : ∃ pre l, used = pre ++ l ∧
    (used.map Node.blk).dropWhile (· ≠ .blk b) = l.map .blk ∧ (l = [] ∨ l.head? = some b) := by
  induction used with
  | nil => exact ⟨[], [], rfl, rfl, Or.inl rfl⟩
  | cons i used ih =>
      by_cases hib : i = b
      · subst hib
        exact ⟨[], i :: used, rfl, by simp, Or.inr rfl⟩
      · obtain ⟨pre, l, rfl, hdrop, hl⟩ := ih
        refine ⟨i :: pre, l, rfl, ?_, hl⟩
        have hne : Node.blk i ≠ Node.blk b := by
          rintro ⟨⟩
          exact hib rfl
        rw [List.map_cons, List.dropWhile_cons_of_pos (by simp [hne])]
        exact hdrop

end Marks

/-- Every step keeps the invariant. -/
theorem step_inv (r : Rbb) (e : Event) (hi : Inv r) (he : Enabled r e) (hfits : Fits r e) :
    ∃ r', step r e = .ok r' ∧ Inv r' := by
  obtain ⟨used, free, hat⟩ := inv_iff.mp hi
  have hnodes := hat.lists.linked.blkNodes
  have hlen := hat.lists.linked.length
  cases e with
  | alloc blkSize =>
      obtain ⟨r', found, halloc, hinv, -⟩ := alloc_inv hi he hfits
      exact ⟨r', by rw [step, halloc]; rfl, hinv⟩
  | put i =>
      obtain ⟨-, hstatus⟩ := he
      have hput : rtRbbBlkPut r i = .ok (setStatus r i .put) := by
        rw [rtRbbBlkPut, hstatus]
        rfl
      exact ⟨_, hput, (marked_setStatus (by rw [hstatus]; simp) (by simp)).inv hi⟩
  | get =>
      obtain ⟨r', found, hget, hmarked⟩ := getLoop_spec (k := r.blkMaxNum + 1) hat.lists.blkList
        (by omega)
      refine ⟨r', ?_, hmarked.inv hi⟩
      rw [step, rtRbbBlkGet, hget]
      rfl
  | queueGet len =>
      have hpath := hat.lists.blkList
      cases used with
      | nil =>
          have hnone : r.next .blkList = none := hpath
          refine ⟨r, ?_, hi⟩
          rw [step, rtRbbBlkQueueGet, hnone]
          rfl
      | cons i rest =>
          have hfirst : r.next .blkList = some (.blk i) := hpath.1
          have hindex : (blkNodes r).filterMap Node.index = i :: rest := by
            rw [hnodes, List.filterMap_map]
            exact List.filterMap_some
          have hends := hfits.resolve_left (by rw [hfirst]; simp)
          rw [hindex] at hends
          obtain ⟨skip, j, behind, hsplit, hskip, hput, hleft⟩ := queueEnds_none hends
          rw [hsplit] at hpath hlen
          rw [List.length_append, List.length_cons] at hlen
          have hloop := @queueGetLoop_first _ _ _ (r.blkMaxNum + 1) len _ ⟨none, 0⟩ _ _
            hpath hfirst (by omega) hskip hput
          rw [if_pos hleft] at hloop
          refine ⟨(taken r j
              (follow r.blk len (r.blk j).buf ((r.blk j).size.setWidth 64) behind)).1,
            ?_, (marked_markGet fun m hm => ?_).inv hi⟩
          · rw [step, rtRbbBlkQueueGet, hfirst]
            simp only [hloop, ok_bind]
            rfl
          · rcases List.mem_cons.mp hm with rfl | hm
            · exact put_ne hput
            · exact put_ne (follow_put m hm)
  | free i =>
      have hmem : Node.blk i ∈ blkNodes r := he
      rw [hnodes, mem_map_blk] at hmem
      obtain ⟨pre, post, rfl⟩ := List.append_of_mem hmem
      obtain ⟨r', hfree, hi'⟩ := free_inv hat
      exact ⟨r', hfree, inv_iff.mpr ⟨_, _, hi'⟩⟩
  | queueFree blocks blkNum =>
      have hle : blkNum ≤ ((blkNodes r).dropWhile (· ≠ .blk blocks)).length := he
      obtain ⟨pre, l, rfl, hdrop, hl⟩ := dropWhile_map used blocks
      rw [hnodes, hdrop, List.length_map] at hle
      obtain ⟨r', hqueue, hi'⟩ := queueFree_keeps (fun _ _ _ h => h.lists.linked)
        (fun _ _ _ _ _ h => free_inv h) hat hle
      refine ⟨r', ?_, inv_iff.mpr hi'⟩
      rcases hl with rfl | hhead
      · rw [Nat.le_zero.mp hle] at hqueue ⊢
        exact hqueue
      · rw [List.head?_map, hhead] at hqueue
        exact hqueue

/-! ## Runs from the start -/

theorem init_inv (blk : Nat → Blk) (buf bufSize : BitVec 64) (n : Nat)
    (hfits : buf.toNat + bufSize.toNat < 2 ^ 64) : Inv (rtRbbInit blk buf bufSize n) := by
  obtain ⟨hbuf, hsize, -⟩ := initLoop_spec n n buf bufSize blk
  refine ⟨?_, [], [], _, rtRbbInit_lists blk buf bufSize n, fun i hi => absurd hi List.not_mem_nil,
    List.Pairwise.nil, List.Pairwise.nil, fun i hi => absurd hi List.not_mem_nil⟩
  rw [rtRbbInit, hbuf, hsize]
  exact hfits

/-- In a run in which every allocation has room, no step faults, the blocks stay apart and every
descriptor is in one list; and an allocation that fails changes nothing. -/
theorem rbb_consistent (blk : Nat → Blk) (buf bufSize : BitVec 64) (n : Nat)
    (hbuf : buf.toNat + bufSize.toNat < 2 ^ 64) (es : List Event)
    (hg : Guarded step Enabled (rtRbbInit blk buf bufSize n) es)
    (hfits : Guarded step Fits (rtRbbInit blk buf bufSize n) es) :
    ((∃ r, run step (rtRbbInit blk buf bufSize n) es = .ok r) ∧
      Always step Consistent (rtRbbInit blk buf bufSize n) es) ∧
    ∀ pre post blkSize r r', es = pre ++ .alloc blkSize :: post →
      run step (rtRbbInit blk buf bufSize n) pre = .ok r →
      rtRbbBlkAlloc r blkSize = .ok (r', none) → r' = r := by
  have hboot := init_inv blk buf bufSize n hbuf
  have hstep : ∀ r e, Inv r → Enabled r e ∧ Fits r e → ∃ r', step r e = .ok r' ∧ Inv r' :=
    fun r e hi he => step_inv r e hi he.1 he.2
  have hboth := hg.and hfits
  obtain ⟨r, hrun, -⟩ := run_inv_of_guarded hstep hboot hboth
  refine ⟨⟨⟨r, hrun⟩, always_of_guarded hstep (fun _ hi => hi.consistent) hboot hboth⟩, ?_⟩
  rintro pre post blkSize r r' rfl hpre halloc
  obtain ⟨r₁, hrun₁, hi⟩ := run_inv_of_guarded hstep hboot hboth.of_append
  cases hpre.symm.trans hrun₁
  obtain ⟨hsize, hroom⟩ := (hboth.suffix hpre).1
  obtain ⟨r₂, found, halloc₂, -, hsame⟩ := alloc_inv hi hsize hroom
  cases halloc.symm.trans halloc₂
  exact hsame rfl

def fresh : Nat → Blk := fun _ => ⟨.unused, 0, 0⟩

/-- Two blocks fill a buffer of ten bytes, one goes around, and one finds no descriptor; the queue
that ends where the blocks go around is taken and freed. -/
def orderly : List Event :=
  [.alloc 4, .alloc 6, .put 2, .free 2, .alloc 3, .put 1, .put 2, .alloc 1, .put 0, .alloc 1,
    .queueGet 6, .queueFree 1 1, .free 0, .get, .free 2]

theorem rbb_consistent_three :
    ((∃ r, run step (rtRbbInit fresh 0x1000 10 3) orderly = .ok r) ∧
      Always step Consistent (rtRbbInit fresh 0x1000 10 3) orderly) ∧
    ∀ pre post blkSize r r', orderly = pre ++ .alloc blkSize :: post →
      run step (rtRbbInit fresh 0x1000 10 3) pre = .ok r →
      rtRbbBlkAlloc r blkSize = .ok (r', none) → r' = r :=
  rbb_consistent fresh 0x1000 10 3 (by decide) orderly (by decide) (by decide)

/-- An allocation that fails loses the descriptor. -/
theorem descriptor_lost :
    ∃ r r' : Rbb, run step (rtRbbInit fresh 0x1000 10 2) [.alloc 8] = .ok r ∧
      Guarded step Enabled (rtRbbInit fresh 0x1000 10 2) [.alloc 8, .alloc 4] ∧
      rtRbbBlkAlloc r 4 = .ok (r', none) ∧ r.next .freeList = some (.blk 0) ∧
      r'.next .freeList = none := by
  have hguarded : Guarded step Enabled (rtRbbInit fresh 0x1000 10 2) [.alloc 8, .alloc 4] := by
    decide
  have hfirst : (run step (rtRbbInit fresh 0x1000 10 2) [.alloc 8]).map
      (fun r => r.next .freeList) = .ok (some (.blk 0)) := by
    decide
  have hsecond : (run step (rtRbbInit fresh 0x1000 10 2) [.alloc 8] >>= fun r =>
      rtRbbBlkAlloc r 4).map (fun r => (r.2, r.1.next .freeList)) = .ok (none, none) := by
    decide
  obtain ⟨r, hrun, hfree⟩ := exists_of_map_eq_ok hfirst
  rw [hrun, ok_bind] at hsecond
  obtain ⟨⟨r', found⟩, halloc, hlost⟩ := exists_of_map_eq_ok hsecond
  obtain ⟨rfl, hnone⟩ := Prod.mk.inj hlost
  exact ⟨r, r', hrun, hguarded, halloc, hfree, hnone⟩

end RtHypervisor.Ports.RingBlock
