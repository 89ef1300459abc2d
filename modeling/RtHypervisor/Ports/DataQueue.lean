import Mathlib.Tactic
import RtHypervisor.Ports.Ipc
import RtHypervisor.Verified.Ring

/-!
# Data queues

A data queue keeps its items in a ring of `size` cells, and two flags tell a full ring from an
empty one.  The indices are fields of 15 bits, `size` is one of 16 bits.

A thread that finds the queue full, or empty, waits in one of two lists and looks again when it
is resumed.  A push resumes a thread that waits for an item; a pop resumes one that waits for
room only when at most `lwm` items are left.
-/

namespace RtHypervisor.Ports.DataQueue

open RtHypervisor.Verified.Run
open RtHypervisor.Verified
open RtHypervisor.Ports.Ipc

/-- `struct rt_data_item`. -/
structure DataItem where
  dataPtr : BitVec 64
  dataSize : BitVec 64
deriving DecidableEq, Repr

/-- `struct rt_data_queue`, with the threads. -/
structure RtDataQueue where
  threads : Threads
  size : BitVec 16
  lwm : BitVec 16
  getIndex : BitVec 15
  isEmpty : Bool
  putIndex : BitVec 15
  isFull : Bool
  queue : Nat → DataItem
  suspendedPushList : List ThreadId
  suspendedPopList : List ThreadId

/-- `rt_data_queue_init`, among threads in any state and with anything in the cells. -/
def rtDataQueueInit (threads : Threads) (queue : Nat → DataItem) (size lwm : BitVec 16) :
    RtDataQueue where
  threads := threads
  size := size
  lwm := lwm
  getIndex := 0
  isEmpty := true
  putIndex := 0
  isFull := false
  queue := queue
  suspendedPushList := []
  suspendedPopList := []

/-- `rt_data_queue_len`, with the interrupts disabled. -/
def rtDataQueueLen (q : RtDataQueue) : BitVec 16 :=
  let put := q.putIndex.setWidth 16
  let get := q.getIndex.setWidth 16
  if q.isEmpty then 0 else if get < put then put - get else q.size + put - get

/-- The index behind `index`. -/
def nextIndex (q : RtDataQueue) (index : BitVec 15) : BitVec 15 :=
  if (index + 1).setWidth 16 = q.size then 0 else index + 1

/-- A call has returned, with an item if it has popped one, or waits. -/
inductive Outcome
  | returned (e : Err) (item : Option DataItem)
  | blocked
deriving DecidableEq, Repr

/-- Resume the first thread that waits for an item. -/
def resumePop (q : RtDataQueue) : RtDataQueue :=
  if q.suspendedPopList ≠ [] then
    let (threads, list) := ipcListResume q.threads q.suspendedPopList
    { q with threads := threads, suspendedPopList := list }
  else q

/-- Resume the first thread that waits for room. -/
def resumePush (q : RtDataQueue) : RtDataQueue :=
  if q.suspendedPushList ≠ [] then
    let (threads, list) := ipcListResume q.threads q.suspendedPushList
    { q with threads := threads, suspendedPushList := list }
  else q

/-- The end of `rt_data_queue_push`, once there is room. -/
def putItem (q : RtDataQueue) (item : DataItem) : Except Fault RtDataQueue := do
  check .outOfBounds (q.putIndex.toNat < q.size.toNat)
  let putIndex := nextIndex q q.putIndex
  pure (resumePop { q with
    queue := Function.update q.queue q.putIndex.toNat item
    putIndex := putIndex
    isEmpty := false
    isFull := if putIndex = q.getIndex then true else q.isFull })

/-- Wait in a list. -/
def block (q : RtDataQueue) (list : List ThreadId) (t : ThreadId) (timeout : BitVec 32) :
    Except Fault (Threads × List ThreadId) := do
  let (threads, list) := ipcListSuspend (setError q.threads t .eok) list t .fifo
  let threads ← startTimer threads t timeout
  pure (threads, list)

/-- `rt_data_queue_push`, up to where the thread waits. -/
def rtDataQueuePush (q : RtDataQueue) (t : ThreadId) (item : DataItem) (timeout : BitVec 32) :
    Except Fault (RtDataQueue × Outcome) :=
  if q.isFull then
    if timeout = 0 then pure (q, .returned .etimeout none)
    else do
      let (threads, list) ← block q q.suspendedPushList t timeout
      pure ({ q with threads := threads, suspendedPushList := list }, .blocked)
  else do
    let q ← putItem q item
    pure (q, .returned .eok none)

/-- `rt_data_queue_push` once the thread runs again. -/
def pushWoken (q : RtDataQueue) (t : ThreadId) (item : DataItem) (timeout : BitVec 32) :
    Except Fault (RtDataQueue × Outcome) :=
  if (q.threads t).error ≠ .eok then pure (q, .returned (q.threads t).error none)
  else rtDataQueuePush q t item timeout

/-- The end of `rt_data_queue_pop`, once there is an item. -/
def getItem (q : RtDataQueue) : Except Fault (RtDataQueue × DataItem) := do
  check .outOfBounds (q.getIndex.toNat < q.size.toNat)
  let item := q.queue q.getIndex.toNat
  let getIndex := nextIndex q q.getIndex
  let q := { q with
    getIndex := getIndex
    isFull := false
    isEmpty := if q.putIndex = getIndex then true else q.isEmpty }
  pure (if rtDataQueueLen q ≤ q.lwm then resumePush q else q, item)

/-- `rt_data_queue_pop`, up to where the thread waits. -/
def rtDataQueuePop (q : RtDataQueue) (t : ThreadId) (timeout : BitVec 32) :
    Except Fault (RtDataQueue × Outcome) :=
  if q.isEmpty then
    if timeout = 0 then pure (q, .returned .etimeout none)
    else do
      let (threads, list) ← block q q.suspendedPopList t timeout
      pure ({ q with threads := threads, suspendedPopList := list }, .blocked)
  else do
    let (q, item) ← getItem q
    pure (q, .returned .eok (some item))

/-- `rt_data_queue_pop` once the thread runs again. -/
def popWoken (q : RtDataQueue) (t : ThreadId) (timeout : BitVec 32) :
    Except Fault (RtDataQueue × Outcome) :=
  if (q.threads t).error ≠ .eok then pure (q, .returned (q.threads t).error none)
  else rtDataQueuePop q t timeout

/-- `rt_data_queue_peek`, with the interrupts disabled: `is_empty` was read before. -/
def peekItem (q : RtDataQueue) : Except Fault DataItem := do
  check .outOfBounds (q.getIndex.toNat < q.size.toNat)
  pure (q.queue q.getIndex.toNat)

/-- `rt_data_queue_reset`, up to where the interrupts are enabled. -/
def rtDataQueueReset (q : RtDataQueue) : RtDataQueue :=
  { q with getIndex := 0, putIndex := 0, isEmpty := true, isFull := false }

def RtDataQueue.list (q : RtDataQueue) : Side → List ThreadId :=
  lists q.suspendedPopList q.suspendedPushList

/-- `rt_data_queue_reset` resumes the first thread of a list with an error.  The list was looked
at before; an empty one has no first thread. -/
def resetWake (q : RtDataQueue) : Side → Except Fault RtDataQueue
  | .recv =>
      match q.suspendedPopList with
      | [] => throw .wildPointer
      | t :: list =>
          let (threads, list) := rtThreadResume (setError q.threads t .error) (t :: list) t
          pure { q with threads := threads, suspendedPopList := list }
  | .send =>
      match q.suspendedPushList with
      | [] => throw .wildPointer
      | t :: list =>
          let (threads, list) := rtThreadResume (setError q.threads t .error) (t :: list) t
          pure { q with threads := threads, suspendedPushList := list }

/-- The thread timer of a waiting thread runs out, in the list it is in. -/
def queueTimeout (q : RtDataQueue) (t : ThreadId) : Except Fault RtDataQueue := do
  check .assertion (q.threads t).suspended
  pure { q with
    threads := wake (setError q.threads t .etimeout) t
    suspendedPopList := q.suspendedPopList.erase t
    suspendedPushList := q.suspendedPushList.erase t }

/-! ## The ring -/

/-- The ring holds the items of a list. -/
structure RingOk (q : RtDataQueue) (stored : List DataItem) : Prop where
  get_lt : q.getIndex.toNat < q.size.toNat
  put_eq : q.putIndex.toNat = (q.getIndex.toNat + stored.length) % q.size.toNat
  capacity : stored.length ≤ q.size.toNat
  reach : 2 ^ 15 < q.size.toNat → q.getIndex.toNat + stored.length < 2 ^ 15
  empty : q.isEmpty = true ↔ stored = []
  full : q.isFull = true ↔ stored.length = q.size.toNat
  queue : Ring.contents q.size.toNat q.getIndex.toNat stored.length q.queue = stored

section Ring

variable {q q' : RtDataQueue} {d : List DataItem} {item : DataItem}

theorem RingOk.congr (h : RingOk q d) (hsize : q'.size = q.size) (hget : q'.getIndex = q.getIndex)
    (hput : q'.putIndex = q.putIndex) (hempty : q'.isEmpty = q.isEmpty)
    (hfull : q'.isFull = q.isFull) (hqueue : q'.queue = q.queue) : RingOk q' d := by
  refine ⟨?_, ?_, ?_, ?_, ?_, ?_, ?_⟩
  · rw [hget, hsize]
    exact h.get_lt
  · rw [hput, hget, hsize]
    exact h.put_eq
  · rw [hsize]
    exact h.capacity
  · rw [hget, hsize]
    exact h.reach
  · rw [hempty]
    exact h.empty
  · rw [hfull, hsize]
    exact h.full
  · rw [hget, hsize, hqueue]
    exact h.queue

theorem RingOk.put_lt (h : RingOk q d) : q.putIndex.toNat < q.size.toNat := by
  rw [h.put_eq]
  exact Nat.mod_lt _ (by have := h.get_lt; omega)

private theorem setWidth_toNat (x : BitVec 15) : (x.setWidth 16).toNat = x.toNat := by
  rw [BitVec.toNat_setWidth]
  exact Nat.mod_eq_of_lt (by omega)

/-- An index goes around at the end of the ring, if its field reaches that far. -/
theorem nextIndex_toNat {index : BitVec 15} (h : index.toNat < q.size.toNat)
    (hfits : q.size.toNat ≤ 2 ^ 15 ∨ index.toNat + 1 < 2 ^ 15) :
    (nextIndex q index).toNat = (index.toNat + 1) % q.size.toNat := by
  have hlt := index.isLt
  have hadd : (index + 1).toNat = (index.toNat + 1) % 2 ^ 15 := by
    rw [BitVec.toNat_add]
    rfl
  rw [nextIndex]
  by_cases hend : index.toNat + 1 = q.size.toNat
  · rw [hend, Nat.mod_self]
    by_cases hsize : q.size.toNat = 2 ^ 15
    · have hzero : (index + 1).toNat = 0 := by omega
      split
      · rfl
      · exact hzero
    · have hnext : (index + 1).setWidth 16 = q.size := by
        refine BitVec.eq_of_toNat_eq ?_
        rw [setWidth_toNat]
        omega
      rw [if_pos hnext]
      rfl
  · have hnext : (index + 1).setWidth 16 ≠ q.size := by
      intro heq
      have hnat := congrArg BitVec.toNat heq
      rw [setWidth_toNat] at hnat
      omega
    rw [if_neg hnext, Nat.mod_eq_of_lt (by omega)]
    omega

/-- `rt_data_queue_len` counts the items. -/
theorem RingOk.len (h : RingOk q d) : (rtDataQueueLen q).toNat = d.length := by
  have hget := h.get_lt
  have hcapacity := h.capacity
  have hput := h.put_eq
  rw [Ring.wrap_mod hget hcapacity] at hput
  have hputw := setWidth_toNat q.putIndex
  have hgetw := setWidth_toNat q.getIndex
  have hput_lt := q.putIndex.isLt
  have hget_lt := q.getIndex.isLt
  rw [rtDataQueueLen]
  by_cases hempty : q.isEmpty = true
  · rw [if_pos hempty, h.empty.mp hempty]
    rfl
  · have hpos : 0 < d.length := List.length_pos_of_ne_nil fun hd => hempty (h.empty.mpr hd)
    rw [if_neg hempty]
    split
    · rename_i hlt
      rw [BitVec.lt_def, hputw, hgetw] at hlt
      split at hput
      · bv_omega
      · omega
    · rename_i hnlt
      rw [BitVec.lt_def, hputw, hgetw] at hnlt
      split at hput
      · omega
      · rw [BitVec.toNat_sub, BitVec.toNat_add, hputw, hgetw]
        have hsize := q.size.isLt
        omega

/-- An item behind the last one. -/
def appended (q : RtDataQueue) (item : DataItem) : RtDataQueue :=
  let putIndex := nextIndex q q.putIndex
  { q with
    queue := Function.update q.queue q.putIndex.toNat item
    putIndex := putIndex
    isEmpty := false
    isFull := if putIndex = q.getIndex then true else q.isFull }

theorem putItem_eq (h : q.putIndex.toNat < q.size.toNat) :
    putItem q item = .ok (resumePop (appended q item)) := by
  rw [putItem, decide_eq_true h]
  rfl

/-- Two positions of a ring are one only after a turn. -/
theorem turn_iff {n i k : Nat} (hi : i < n) (hpos : 0 < k) (hk : k ≤ n) :
    (i + k) % n = i ↔ k = n := by
  rw [Ring.wrap_mod hi hk]
  split <;> omega

theorem appended_ring (h : RingOk q d) (hroom : d.length < q.size.toNat)
    (hfits : q.size.toNat ≤ 2 ^ 15 ∨ q.putIndex.toNat + 1 < 2 ^ 15) :
    RingOk (appended q item) (d ++ [item]) := by
  have hget := h.get_lt
  have hput : (nextIndex q q.putIndex).toNat =
      (q.getIndex.toNat + (d.length + 1)) % q.size.toNat := by
    rw [nextIndex_toNat h.put_lt hfits, h.put_eq, Nat.mod_add_mod, Nat.add_assoc]
  have hlen : (d ++ [item]).length = d.length + 1 := by simp
  refine ⟨hget, ?_, ?_, fun hsize => ?_, ?_, ?_, ?_⟩
  · rw [hlen]
    exact hput
  · rw [hlen]
    exact hroom
  · have hsize' : 2 ^ 15 < q.size.toNat := hsize
    have hreach := h.reach hsize'
    have hput_eq := h.put_eq
    rw [Nat.mod_eq_of_lt (hreach.trans hsize')] at hput_eq
    show q.getIndex.toNat + (d ++ [item]).length < 2 ^ 15
    omega
  · exact ⟨fun hfalse => (by cases hfalse), fun hnil => (by simp at hnil)⟩
  · have hsame : nextIndex q q.putIndex = q.getIndex ↔ d.length + 1 = q.size.toNat := by
      rw [← turn_iff hget (Nat.succ_pos _) hroom, ← hput, BitVec.toNat_inj]
    have hnot : ¬q.isFull = true := fun hfull => absurd (h.full.mp hfull) (by omega)
    rw [hlen]
    show (if nextIndex q q.putIndex = q.getIndex then true else q.isFull) = true ↔
      d.length + 1 = q.size.toNat
    rw [← hsame]
    simp [hnot]
  · show Ring.contents q.size.toNat q.getIndex.toNat (d ++ [item]).length
      (Function.update q.queue q.putIndex.toNat item) = d ++ [item]
    rw [hlen, h.put_eq, Ring.contents_append hroom, h.queue]

/-- The index went around at the end of its field, and not of the ring: the queue looks full, or
its length is wrong. -/
theorem appended_wrong (h : RingOk q d) (hsize : 2 ^ 15 < q.size.toNat)
    (hput : q.putIndex.toNat + 1 = 2 ^ 15)
    (hfull : (appended q item).isFull = true ↔ d.length + 1 = q.size.toNat) :
    (rtDataQueueLen (appended q item)).toNat ≠ d.length + 1 := by
  have hreach := h.reach hsize
  have hput_eq := h.put_eq
  rw [Nat.mod_eq_of_lt (hreach.trans hsize)] at hput_eq
  have hzero : q.putIndex + 1 = 0 := by bv_omega
  have hne : (q.putIndex + 1).setWidth 16 ≠ q.size := by
    rw [hzero]
    bv_omega
  have hnext : nextIndex q q.putIndex = 0 := by
    rw [nextIndex, if_neg hne, hzero]
  have hget : ¬(0 : BitVec 15) = q.getIndex := by
    intro hget
    have hsame : (appended q item).isFull = true := by
      show (if nextIndex q q.putIndex = q.getIndex then true else q.isFull) = true
      rw [hnext, if_pos hget]
    have hlen := hfull.mp hsame
    omega
  have hlen : rtDataQueueLen (appended q item) = q.size - q.getIndex.setWidth 16 := by
    show (if false = true then 0
      else if q.getIndex.setWidth 16 < (nextIndex q q.putIndex).setWidth 16
        then (nextIndex q q.putIndex).setWidth 16 - q.getIndex.setWidth 16
        else q.size + (nextIndex q q.putIndex).setWidth 16 - q.getIndex.setWidth 16) = _
    rw [hnext, if_neg (by simp), if_neg (by simp)]
    simp
  have hgetw := setWidth_toNat q.getIndex
  have hlt := q.getIndex.isLt
  rw [hlen]
  bv_omega

/-- The first item is gone. -/
def removed (q : RtDataQueue) : RtDataQueue :=
  let getIndex := nextIndex q q.getIndex
  { q with
    getIndex := getIndex
    isFull := false
    isEmpty := if q.putIndex = getIndex then true else q.isEmpty }

/-- Threads that wait for room are resumed at the low-water mark. -/
def resumeLow (q : RtDataQueue) : RtDataQueue :=
  if rtDataQueueLen q ≤ q.lwm then resumePush q else q

theorem getItem_eq (h : RingOk q (item :: d)) :
    getItem q = .ok (resumeLow (removed q), item) := by
  have hqueue := h.queue
  rw [List.length_cons, Ring.contents_succ h.get_lt] at hqueue
  rw [getItem, decide_eq_true h.get_lt, (List.cons.inj hqueue).1]
  rfl

theorem removed_ring (h : RingOk q (item :: d)) : RingOk (removed q) d := by
  have hget := h.get_lt
  have hcapacity := h.capacity
  rw [List.length_cons] at hcapacity
  have hfits : q.size.toNat ≤ 2 ^ 15 ∨ q.getIndex.toNat + 1 < 2 ^ 15 := by
    by_cases hsize : 2 ^ 15 < q.size.toNat
    · have hreach := h.reach hsize
      rw [List.length_cons] at hreach
      omega
    · omega
  have hnext := nextIndex_toNat hget hfits
  have hnext_lt : (nextIndex q q.getIndex).toNat < q.size.toNat := by
    rw [hnext]
    exact Nat.mod_lt _ (by omega)
  have hput : q.putIndex.toNat =
      ((nextIndex q q.getIndex).toNat + d.length) % q.size.toNat := by
    rw [h.put_eq, hnext, Nat.mod_add_mod, List.length_cons, Nat.add_assoc, Nat.add_comm 1]
  refine ⟨hnext_lt, hput, by show d.length ≤ q.size.toNat; omega, fun hsize => ?_, ?_, ?_, ?_⟩
  · have hreach := h.reach hsize
    have hsize' : 2 ^ 15 < q.size.toNat := hsize
    rw [List.length_cons] at hreach
    show (nextIndex q q.getIndex).toNat + d.length < 2 ^ 15
    rw [hnext, Nat.mod_eq_of_lt (by omega)]
    omega
  · have hsame : q.putIndex = nextIndex q q.getIndex ↔ d = [] := by
      rw [← BitVec.toNat_inj, hput, ← List.length_eq_zero_iff]
      rcases Nat.eq_zero_or_pos d.length with hzero | hpos
      · simp [hzero, Nat.mod_eq_of_lt hnext_lt]
      · rw [turn_iff hnext_lt hpos (by omega)]
        omega
    have hnot : ¬q.isEmpty = true := fun hempty => List.cons_ne_nil item d (h.empty.mp hempty)
    show (if q.putIndex = nextIndex q q.getIndex then true else q.isEmpty) = true ↔ d = []
    rw [← hsame]
    simp [hnot]
  · refine ⟨fun hfalse => (by cases hfalse), fun hlen => ?_⟩
    have hlen' : d.length = q.size.toNat := hlen
    omega
  · have hqueue := h.queue
    rw [List.length_cons, Ring.contents_succ hget] at hqueue
    show Ring.contents q.size.toNat (nextIndex q q.getIndex).toNat d.length q.queue = d
    rw [hnext]
    exact (List.cons.inj hqueue).2

theorem reset_ring (h : RingOk q d) : RingOk (rtDataQueueReset q) [] := by
  have hget := h.get_lt
  have hpos : 0 < q.size.toNat := by omega
  refine ⟨hpos, ?_, Nat.zero_le _, fun _ => ?_, ⟨fun _ => rfl, fun _ => rfl⟩, ?_, rfl⟩
  · exact (Nat.zero_mod _).symm
  · show 0 + 0 < 2 ^ 15
    omega
  · refine ⟨fun hfalse => (by cases hfalse), fun hlen => ?_⟩
    have hlen' : 0 = q.size.toNat := hlen
    omega

theorem peekItem_eq (h : RingOk q (item :: d)) : peekItem q = .ok item := by
  have hqueue := h.queue
  rw [List.length_cons, Ring.contents_succ h.get_lt] at hqueue
  rw [peekItem, decide_eq_true h.get_lt, (List.cons.inj hqueue).1]
  rfl

end Ring

end RtHypervisor.Ports.DataQueue
