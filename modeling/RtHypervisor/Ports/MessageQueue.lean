import Mathlib.Tactic
import RtHypervisor.Ports.Ipc
import RtHypervisor.Ports.SmallMem
import RtHypervisor.Verified.LinkedWords

/-!
# Message queues

The pool of a message queue is cut into buffers.  In front of the data of each stands the word
that links it, to the next free buffer or the next message.  A send takes a buffer off the free
list with the interrupts disabled, copies the message into it with the interrupts enabled, and
links it with the interrupts disabled again; a receive goes the other way.  In between the
buffer is in no list, and calls of other threads and of interrupt handlers may run.

`Store` is the part of `rt_messagequeue` that holds the messages, with the memory; what a
thread has reached inside a call is its `Phase`.  `msg_size` and `max_msgs` are fields of 16
bits, which `rt_mq_init` sets from sizes of 64 bits.
-/

namespace RtHypervisor.Ports.MessageQueue

open RtHypervisor.Verified.Run
open RtHypervisor.Verified.ByteMem
open RtHypervisor.Ports.Ipc
open RtHypervisor.Ports.SmallMem (rtAlign)

/-- `rt_size_t`, or a pointer. -/
abbrev Word := BitVec 64

abbrev Byte := BitVec 8

/-- `RT_MQ_ENTRY_MAX`. -/
def mqEntryMax : BitVec 16 := 0xffff

/-- `RT_IPC_CMD_RESET`. -/
def ipcCmdReset : Int := 1

/-- `sizeof(struct rt_mq_message)`. -/
def sizeofMessage : Nat := 8

/-- The buffers of `struct rt_messagequeue`, with the memory. -/
structure Store where
  mem : Mem
  msgPool : Nat
  msgSize : BitVec 16
  maxMsgs : BitVec 16
  entry : BitVec 16
  msgQueueHead : Nat
  msgQueueTail : Nat
  msgQueueFree : Nat

/-- `struct rt_messagequeue`, with the threads and the tick. -/
structure Mq where
  threads : Threads
  tick : BitVec 32
  flag : Flag
  store : Store
  suspendThread : List ThreadId
  suspendSenderThread : List ThreadId

/-! ## Buffers -/

section Store

variable (s : Store) (msg : Nat)

/-- `msg->next`. -/
def next : Nat := (load64 s.mem msg).toNat

/-- `msg->next = p`. -/
def setNext (p : Nat) : Store := { s with mem := store64 s.mem msg (BitVec.ofNat 64 p) }

/-- A byte of the data of `msg`. -/
def dataAt (i : Nat) : Byte := s.mem (msg + sizeofMessage + i)

def setData (i : Nat) (b : Byte) : Store :=
  { s with mem := Function.update s.mem (msg + sizeofMessage + i) b }

/-- A send takes the first free buffer. -/
def takeFree : Store × Nat := ({ s with msgQueueFree := next s s.msgQueueFree }, s.msgQueueFree)

/-- The message counts, if the counter can take it. -/
def countEntry : Store × Err :=
  if s.entry < mqEntryMax then ({ s with entry := s.entry + 1 }, .eok) else (s, .efull)

/-- `rt_mq_send_wait` links its message. -/
def linkTail : Store × Err :=
  let s := if s.msgQueueTail ≠ 0 then setNext s s.msgQueueTail msg else s
  let s := { s with msgQueueTail := msg }
  countEntry (if s.msgQueueHead = 0 then { s with msgQueueHead := msg } else s)

/-- `rt_mq_urgent` links its message. -/
def linkHead : Store × Err :=
  let s := setNext s msg s.msgQueueHead
  let s := { s with msgQueueHead := msg }
  countEntry (if s.msgQueueTail = 0 then { s with msgQueueTail := msg } else s)

/-- Unlink the first message. -/
def unlinkHead : Except Fault (Store × Nat) := do
  let msg := s.msgQueueHead
  check .nullPointer (msg ≠ 0)
  let s := { s with msgQueueHead := next s msg }
  pure (if s.msgQueueTail = msg then { s with msgQueueTail := 0 } else s, msg)

/-- A receive takes the first message. -/
def takeHead : Except Fault (Store × Nat) := do
  let (s, msg) ← unlinkHead s
  pure (if 0 < s.entry then { s with entry := s.entry - 1 } else s, msg)

/-- Put a buffer back. -/
def putFree : Store := { setNext s msg s.msgQueueFree with msgQueueFree := msg }

/-- The loop of `rt_mq_control`. -/
def releaseAll (s : Store) : Nat → Except Fault Store
  | 0 => .error .fuel
  | fuel + 1 =>
      if s.msgQueueHead ≠ 0 then do
        let (s, msg) ← unlinkHead s
        releaseAll (putFree s msg) fuel
      else pure s

end Store

/-- The address of buffer number `temp`. -/
def bufferAt (msgPool msgSize temp : Nat) : Nat :=
  (msgPool + temp * (msgSize + sizeofMessage)) % 2 ^ 64

/-- The loop of `rt_mq_init` over the buffers up to `count`. -/
def linkBuffers (s : Store) : Nat → Store
  | 0 => s
  | temp + 1 => putFree (linkBuffers s temp) (bufferAt s.msgPool s.msgSize.toNat temp)

/-- `rt_mq_init`, among threads in any state. -/
def rtMqInit (threads : Threads) (tick : BitVec 32) (mem : Mem) (msgPool msgSize poolSize : Word)
    (flag : Flag) : Mq :=
  let msgSize := BitVec.ofNat 16 (rtAlign msgSize.toNat)
  let maxMsgs := BitVec.ofNat 16 (poolSize.toNat / (msgSize.toNat + sizeofMessage))
  let store : Store :=
    { mem := mem
      msgPool := msgPool.toNat
      msgSize := msgSize
      maxMsgs := maxMsgs
      entry := 0
      msgQueueHead := 0
      msgQueueTail := 0
      msgQueueFree := 0 }
  { threads := threads
    tick := tick
    flag := flag
    store := linkBuffers store maxMsgs.toNat
    suspendThread := []
    suspendSenderThread := [] }

/-! ## Calls -/

/-- Where a call is: it waits for room, or for a message; it copies `bytes` into its buffer and
has copied the first `done`; or it copies `size` bytes out of its buffer and has `got` some. -/
inductive Phase
  | sending (bytes : List Byte) (timeout tickDelta : BitVec 32)
  | receiving (size : Nat) (timeout tickDelta : BitVec 32)
  | filling (msg : Nat) (bytes : List Byte) (done : Nat) (urgent : Bool)
  | draining (msg : Nat) (size : Nat) (got : List Byte)
deriving DecidableEq, Repr

/-- A call has returned, or goes on. -/
inductive Outcome
  | returned (e : Err)
  | inside (p : Phase)
deriving DecidableEq, Repr

section Calls

variable (s : Mq) (t : ThreadId)

/-- The tick at which a wait begins, if the waiting time is limited. -/
def startTick (timeout tickDelta : BitVec 32) : BitVec 32 :=
  if (0 : BitVec 32).slt timeout then s.tick else tickDelta

/-- What is left of the waiting time, and `tick_delta`. -/
def remaining (timeout tickDelta : BitVec 32) : BitVec 32 × BitVec 32 :=
  if (0 : BitVec 32).slt timeout then
    let tickDelta := s.tick - tickDelta
    let timeout := timeout - tickDelta
    (if timeout.slt 0 then 0 else timeout, tickDelta)
  else (timeout, tickDelta)

/-- The loop of `rt_mq_send_wait`, and the step behind it. -/
def sendLoop (bytes : List Byte) (timeout tickDelta : BitVec 32) : Except Fault (Mq × Outcome) :=
  if s.store.msgQueueFree = 0 then do
    let s := { s with threads := setError s.threads t .eok }
    if timeout = 0 then pure (s, .returned .efull)
    else do
      let (threads, list) := ipcListSuspend s.threads s.suspendSenderThread t s.flag
      let threads ← startTimer threads t timeout
      pure ({ s with threads := threads, suspendSenderThread := list },
        .inside (.sending bytes timeout (startTick s timeout tickDelta)))
  else
    let (store, msg) := takeFree s.store
    -- the write to `next` comes after the interrupts are enabled, when nobody else has the buffer
    pure ({ s with store := setNext store msg 0 }, .inside (.filling msg bytes 0 false))

/-- `rt_mq_send_wait`; `t` is the current thread. -/
def rtMqSendWait (bytes : List Byte) (timeout : BitVec 32) : Except Fault (Mq × Outcome) := do
  check .assertion (bytes.length ≠ 0)
  if s.store.msgSize.toNat < bytes.length then pure (s, .returned .error)
  else if s.store.msgQueueFree = 0 ∧ timeout = 0 then pure (s, .returned .efull)
  else sendLoop s t bytes timeout 0

/-- `rt_mq_urgent`, up to the copy. -/
def rtMqUrgent (bytes : List Byte) : Except Fault (Mq × Outcome) := do
  check .assertion (bytes.length ≠ 0)
  if s.store.msgSize.toNat < bytes.length then pure (s, .returned .error)
  else if s.store.msgQueueFree = 0 then pure (s, .returned .efull)
  else
    let (store, msg) := takeFree s.store
    pure ({ s with store := store }, .inside (.filling msg bytes 0 true))

/-- The loop of `rt_mq_recv`, and the step behind it. -/
def recvLoop (size : Nat) (timeout tickDelta : BitVec 32) : Except Fault (Mq × Outcome) :=
  if s.store.entry = 0 then do
    let s := { s with threads := setError s.threads t .eok }
    if timeout = 0 then
      pure ({ s with threads := setError s.threads t .etimeout }, .returned .etimeout)
    else do
      let (threads, list) := ipcListSuspend s.threads s.suspendThread t s.flag
      let threads ← startTimer threads t timeout
      pure ({ s with threads := threads, suspendThread := list },
        .inside (.receiving size timeout (startTick s timeout tickDelta)))
  else do
    let (store, msg) ← takeHead s.store
    pure ({ s with store := store }, .inside (.draining msg size []))

/-- `rt_mq_recv`; `t` is the current thread. -/
def rtMqRecv (size : Nat) (timeout : BitVec 32) : Except Fault (Mq × Outcome) := do
  check .assertion (size ≠ 0)
  if s.store.entry = 0 ∧ timeout = 0 then pure (s, .returned .etimeout)
  else recvLoop s t size timeout 0

/-- A call that waited goes on when the thread runs again. -/
def woken : Phase → Except Fault (Mq × Outcome)
  | .sending bytes timeout tickDelta =>
      if (s.threads t).error ≠ .eok then pure (s, .returned (s.threads t).error)
      else
        let (timeout, tickDelta) := remaining s timeout tickDelta
        sendLoop s t bytes timeout tickDelta
  | .receiving size timeout tickDelta =>
      if (s.threads t).error ≠ .eok then pure (s, .returned (s.threads t).error)
      else
        let (timeout, tickDelta) := remaining s timeout tickDelta
        recvLoop s t size timeout tickDelta
  | p => pure (s, .inside p)

/-- Resume the first thread that waits for a message. -/
def resumeReceiver : Mq :=
  if s.suspendThread ≠ [] then
    let (threads, list) := ipcListResume s.threads s.suspendThread
    { s with threads := threads, suspendThread := list }
  else s

/-- Resume the first thread that waits for room. -/
def resumeSender : Mq :=
  if s.suspendSenderThread ≠ [] then
    let (threads, list) := ipcListResume s.threads s.suspendSenderThread
    { s with threads := threads, suspendSenderThread := list }
  else s

/-- How many bytes a receive copies. -/
def copySize (size : Nat) : Nat :=
  if s.store.msgSize.toNat < size then s.store.msgSize.toNat else size

/-- One byte is copied. -/
def copy : Phase → Mq × Phase
  | .filling msg bytes done urgent =>
      match bytes[done]? with
      | some b =>
          ({ s with store := setData s.store msg done b }, .filling msg bytes (done + 1) urgent)
      | none => (s, .filling msg bytes done urgent)
  | .draining msg size got =>
      if got.length < copySize s size then
        (s, .draining msg size (got ++ [dataAt s.store msg got.length]))
      else (s, .draining msg size got)
  | p => (s, p)

/-- The end of a send, and of a receive. -/
def finish : Phase → Mq × Err
  | .filling msg _ _ urgent =>
      let (store, e) := if urgent then linkHead s.store msg else linkTail s.store msg
      let s := { s with store := store }
      if e = .eok then (resumeReceiver s, .eok) else (s, e)
  | .draining msg _ _ => (resumeSender { s with store := putFree s.store msg }, .eok)
  | _ => (s, .error)

/-- `rt_mq_control`. -/
def rtMqControl (cmd : Int) : Except Fault (Mq × Err) :=
  if cmd = ipcCmdReset then do
    let threads ← ipcListResumeAll s.threads s.suspendThread
    let threads ← ipcListResumeAll threads s.suspendSenderThread
    let store ← releaseAll s.store (s.store.maxMsgs.toNat + 1)
    pure ({ s with
      threads := threads
      suspendThread := []
      suspendSenderThread := []
      store := { store with entry := 0 } }, .eok)
  else pure (s, .error)

/-- The thread timer of a waiting thread runs out, in the list it is in. -/
def mqTimeout : Except Fault Mq := do
  check .assertion (s.threads t).suspended
  pure { s with
    threads := wake (setError s.threads t .etimeout) t
    suspendThread := s.suspendThread.erase t
    suspendSenderThread := s.suspendSenderThread.erase t }

end Calls

/-! ## Runs -/

/-- Who makes a call: a thread, or an interrupt handler while a thread is current. -/
inductive Caller
  | thread (t : ThreadId)
  | handler (n : Nat) (current : ThreadId)
deriving DecidableEq, Repr

/-- `rt_thread_self`. -/
def Caller.self : Caller → ThreadId
  | .thread t => t
  | .handler _ t => t

/-- A message that was received: what was sent, the size asked for, and what was copied. -/
structure Delivery where
  sent : List Byte
  size : Nat
  got : List Byte
deriving DecidableEq, Repr

/-- `deque` holds the messages that are linked, `owed` what the message of a receive in flight
was linked with, and `delivered` the messages that were received. -/
structure MqSys where
  mq : Mq
  phase : Caller → Option Phase
  deque : List (List Byte)
  owed : Caller → List Byte
  delivered : List Delivery

inductive Event
  | send (c : Caller) (bytes : List Byte) (timeout : BitVec 32)
  | urgent (c : Caller) (bytes : List Byte)
  | recv (c : Caller) (size : Nat) (timeout : BitVec 32)
  | woken (t : ThreadId)
  | copy (c : Caller)
  | finish (c : Caller)
  | timeout (t : ThreadId)
  | control (cmd : Int)
  | tick
  | priority (t : ThreadId) (p : Nat)
  | other (t : ThreadId) (x : Thread)

/-- The call waits in a list. -/
def Phase.side : Phase → Option Side
  | .sending .. => some .send
  | .receiving .. => some .recv
  | _ => none

/-- The call has copied all it has to. -/
def Copied (s : Mq) : Phase → Prop
  | .filling _ bytes done _ => done = bytes.length
  | .draining _ size got => got.length = copySize s size
  | _ => False

/-- The caller runs, and may wait if it is a thread. -/
def MayWait (s : MqSys) (c : Caller) (timeout : BitVec 32) : Prop :=
  match c with
  | .thread t => (s.mq.threads t).suspended = false
  | .handler .. => timeout = 0

/-- A caller makes one call at a time, and a thread goes on while it is not suspended.  The timer
of a thread runs out while it is active, and what a thread does elsewhere, it does outside
these calls. -/
def Enabled (s : MqSys) : Event → Prop
  | .send c _ timeout => s.phase c = none ∧ MayWait s c timeout
  | .urgent c _ => s.phase c = none
  | .recv c _ timeout => s.phase c = none ∧ MayWait s c timeout
  | .woken t => (∃ p, s.phase (.thread t) = some p ∧ p.side ≠ none) ∧
      (s.mq.threads t).suspended = false
  | .copy c => ∃ p, s.phase c = some p
  | .finish c => ∃ p, s.phase c = some p ∧ Copied s.mq p
  | .timeout t => (∃ p, s.phase (.thread t) = some p ∧ p.side ≠ none) ∧
      (s.mq.threads t).timer = true
  | .other t _ => s.phase (.thread t) = none
  | _ => True

instance (s : MqSys) : (c : Caller) → (timeout : BitVec 32) → Decidable (MayWait s c timeout)
  | .thread _, _ => inferInstanceAs (Decidable (_ = _))
  | .handler .., _ => inferInstanceAs (Decidable (_ = _))

instance (s : Mq) : (p : Phase) → Decidable (Copied s p)
  | .sending .. => inferInstanceAs (Decidable False)
  | .receiving .. => inferInstanceAs (Decidable False)
  | .filling .. => inferInstanceAs (Decidable (_ = _))
  | .draining .. => inferInstanceAs (Decidable (_ = _))

instance (s : MqSys) : (e : Event) → Decidable (Enabled s e)
  | .send .. => inferInstanceAs (Decidable (_ ∧ _))
  | .urgent .. => inferInstanceAs (Decidable (_ = _))
  | .recv .. => inferInstanceAs (Decidable (_ ∧ _))
  | .woken t => inferInstanceAs (Decidable ((∃ p ∈ s.phase (.thread t), _) ∧ _))
  | .copy c => decidable_of_iff ((s.phase c).isSome = true) Option.isSome_iff_exists
  | .finish c => inferInstanceAs (Decidable (∃ p ∈ s.phase c, _))
  | .timeout t => inferInstanceAs (Decidable ((∃ p ∈ s.phase (.thread t), _) ∧ _))
  | .control _ => inferInstanceAs (Decidable True)
  | .tick => inferInstanceAs (Decidable True)
  | .priority .. => inferInstanceAs (Decidable True)
  | .other .. => inferInstanceAs (Decidable (_ = _))

/-- A call has gone on to where it returns, waits or copies; a receive that has its message
takes it off the deque. -/
def proceed (s : MqSys) (c : Caller) (mq : Mq) : Outcome → MqSys
  | .returned _ => { s with mq := mq, phase := Function.update s.phase c none }
  | .inside (.draining msg size got) =>
      { s with
        mq := mq
        phase := Function.update s.phase c (some (.draining msg size got))
        owed := Function.update s.owed c (s.deque.headD [])
        deque := s.deque.tail }
  | .inside p => { s with mq := mq, phase := Function.update s.phase c (some p) }

/-- A message is linked or delivered. -/
def complete (s : MqSys) (c : Caller) (mq : Mq) (e : Err) : Phase → MqSys
  | .filling _ bytes _ urgent =>
      { s with
        mq := mq
        phase := Function.update s.phase c none
        deque :=
          if e = .eok then if urgent then bytes :: s.deque else s.deque ++ [bytes] else s.deque }
  | .draining _ size got =>
      { s with
        mq := mq
        phase := Function.update s.phase c none
        delivered := ⟨s.owed c, size, got⟩ :: s.delivered }
  | _ => s

def step (s : MqSys) : Event → Except Fault MqSys
  | .send c bytes timeout => do
      let (mq, o) ← rtMqSendWait s.mq c.self bytes timeout
      pure (proceed s c mq o)
  | .urgent c bytes => do
      let (mq, o) ← rtMqUrgent s.mq bytes
      pure (proceed s c mq o)
  | .recv c size timeout => do
      let (mq, o) ← rtMqRecv s.mq c.self size timeout
      pure (proceed s c mq o)
  | .woken t =>
      match s.phase (.thread t) with
      | some p => do
          let (mq, o) ← woken s.mq t p
          pure (proceed s (.thread t) mq o)
      | none => pure s
  | .copy c =>
      match s.phase c with
      | some p =>
          let (mq, p) := copy s.mq p
          pure { s with mq := mq, phase := Function.update s.phase c (some p) }
      | none => pure s
  | .finish c =>
      match s.phase c with
      | some p =>
          let (mq, e) := finish s.mq p
          pure (complete s c mq e p)
      | none => pure s
  | .timeout t => do
      let mq ← mqTimeout s.mq t
      pure { s with mq := mq }
  | .control cmd => do
      let (mq, e) ← rtMqControl s.mq cmd
      pure { s with mq := mq, deque := if e = .eok then [] else s.deque }
  | .tick => pure { s with mq := { s.mq with tick := s.mq.tick + 1 } }
  | .priority t p =>
      pure { s with
        mq := { s.mq with
          threads := modify s.mq.threads t fun x => { x with currentPriority := p } } }
  | .other t x => pure { s with mq := { s.mq with threads := Function.update s.mq.threads t x } }

/-- A new message queue. -/
def boot (mq : Mq) : MqSys := ⟨mq, fun _ => none, [], fun _ => [], []⟩

end RtHypervisor.Ports.MessageQueue
