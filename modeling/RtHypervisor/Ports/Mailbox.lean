import Mathlib.Tactic
import RtHypervisor.Ports.Ipc
import RtHypervisor.Verified.Ring

/-!
# Mailboxes

A mailbox keeps its mails in a ring of `size` words.  A thread that finds it full, or empty,
waits in one of two lists and looks again when it is resumed, with what is left of its waiting
time: another thread may have been faster.  The local variables of such a thread are its
`Wait`.

`size` is a field of 16 bits and is set from an argument of the width of `rt_size_t`.
-/

namespace RtHypervisor.Ports.Mailbox

open RtHypervisor.Verified.Run
open RtHypervisor.Verified
open RtHypervisor.Ports.Ipc

/-- `rt_ubase_t`. -/
abbrev Word := BitVec 64

/-- `RT_MB_ENTRY_MAX`. -/
def mbEntryMax : BitVec 16 := 0xffff

/-- `RT_IPC_CMD_RESET`. -/
def ipcCmdReset : Int := 1

/-- `struct rt_mailbox`, with the threads and the tick. -/
structure Mb where
  threads : Threads
  tick : BitVec 32
  flag : Flag
  msgPool : Nat → Word
  size : BitVec 16
  entry : BitVec 16
  inOffset : BitVec 16
  outOffset : BitVec 16
  suspendThread : List ThreadId
  suspendSenderThread : List ThreadId

/-- The local variables of a thread that waits: what it sends, the time it has left, and the
tick at which it began to wait. -/
structure Wait where
  value : Word
  timeout : BitVec 32
  tickDelta : BitVec 32
deriving DecidableEq, Repr

/-- A call has returned, with a value if it has received one, or waits. -/
inductive Outcome
  | returned (e : Err) (value : Option Word)
  | blocked (w : Wait)
deriving DecidableEq, Repr

/-- Wait in a list, from the current tick on if the waiting time is limited. -/
def block (s : Mb) (list : List ThreadId) (t : ThreadId) (w : Wait) :
    Except Fault (Threads × List ThreadId × Wait) := do
  let (threads, list) := ipcListSuspend s.threads list t s.flag
  let threads ← startTimer threads t w.timeout
  pure (threads, list,
    { w with tickDelta := if (0 : BitVec 32).slt w.timeout then s.tick else w.tickDelta })

/-- What is left of the waiting time. -/
def Wait.resumed (w : Wait) (tick : BitVec 32) : Wait :=
  if (0 : BitVec 32).slt w.timeout then
    let tickDelta := tick - w.tickDelta
    let timeout := w.timeout - tickDelta
    { w with timeout := if timeout.slt 0 then 0 else timeout, tickDelta := tickDelta }
  else w

/-- The offset behind `offset`. -/
def nextOffset (s : Mb) (offset : BitVec 16) : BitVec 16 :=
  if s.size ≤ offset + 1 then 0 else offset + 1

/-- Resume the first thread that waits for a mail. -/
def resumeReceiver (s : Mb) : Mb :=
  if s.suspendThread ≠ [] then
    let (threads, list) := ipcListResume s.threads s.suspendThread
    { s with threads := threads, suspendThread := list }
  else s

/-- Resume the first thread that waits for room. -/
def resumeSender (s : Mb) : Mb :=
  if s.suspendSenderThread ≠ [] then
    let (threads, list) := ipcListResume s.threads s.suspendSenderThread
    { s with threads := threads, suspendSenderThread := list }
  else s

/-- The end of `rt_mb_send_wait`, once there is room. -/
def putMail (s : Mb) (value : Word) : Mb × Err :=
  let s := { s with
    msgPool := Function.update s.msgPool s.inOffset.toNat value
    inOffset := nextOffset s s.inOffset }
  if s.entry < mbEntryMax then (resumeReceiver { s with entry := s.entry + 1 }, .eok)
  else (s, .efull)

/-- The loop of `rt_mb_send_wait`, up to where the thread waits. -/
def sendLoop (s : Mb) (t : ThreadId) (w : Wait) : Except Fault (Mb × Outcome) :=
  if s.entry = s.size then do
    let s := { s with threads := setError s.threads t .eok }
    if w.timeout = 0 then pure (s, .returned .efull none)
    else
      let (threads, list, w) ← block s s.suspendSenderThread t w
      pure ({ s with threads := threads, suspendSenderThread := list }, .blocked w)
  else
    let (s, e) := putMail s w.value
    pure (s, .returned e none)

/-- `rt_mb_send_wait`. -/
def rtMbSendWait (s : Mb) (t : ThreadId) (value : Word) (timeout : BitVec 32) :
    Except Fault (Mb × Outcome) :=
  if s.entry = s.size ∧ timeout = 0 then pure (s, .returned .efull none)
  else sendLoop s t ⟨value, timeout, 0⟩

/-- `rt_mb_send_wait` once the thread runs again. -/
def mbSendWoken (s : Mb) (t : ThreadId) (w : Wait) : Except Fault (Mb × Outcome) :=
  if (s.threads t).error ≠ .eok then pure (s, .returned (s.threads t).error none)
  else sendLoop s t (w.resumed s.tick)

/-- `rt_mb_urgent`. -/
def rtMbUrgent (s : Mb) (value : Word) : Mb × Err :=
  if s.entry = s.size then (s, .efull)
  else
    let outOffset := if 0 < s.outOffset then s.outOffset - 1 else s.size - 1
    (resumeReceiver { s with
      outOffset := outOffset
      msgPool := Function.update s.msgPool outOffset.toNat value
      entry := s.entry + 1 }, .eok)

/-- The end of `rt_mb_recv`, once there is a mail. -/
def getMail (s : Mb) : Mb × Word :=
  let value := s.msgPool s.outOffset.toNat
  let s := { s with outOffset := nextOffset s s.outOffset }
  let s := { s with entry := if 0 < s.entry then s.entry - 1 else s.entry }
  (resumeSender s, value)

/-- The loop of `rt_mb_recv`, up to where the thread waits. -/
def recvLoop (s : Mb) (t : ThreadId) (w : Wait) : Except Fault (Mb × Outcome) :=
  if s.entry = 0 then do
    let s := { s with threads := setError s.threads t .eok }
    if w.timeout = 0 then
      pure ({ s with threads := setError s.threads t .etimeout }, .returned .etimeout none)
    else
      let (threads, list, w) ← block s s.suspendThread t w
      pure ({ s with threads := threads, suspendThread := list }, .blocked w)
  else
    let (s, value) := getMail s
    pure (s, .returned .eok (some value))

/-- `rt_mb_recv`. -/
def rtMbRecv (s : Mb) (t : ThreadId) (timeout : BitVec 32) : Except Fault (Mb × Outcome) :=
  if s.entry = 0 ∧ timeout = 0 then pure (s, .returned .etimeout none)
  else recvLoop s t ⟨0, timeout, 0⟩

/-- `rt_mb_recv` once the thread runs again. -/
def mbRecvWoken (s : Mb) (t : ThreadId) (w : Wait) : Except Fault (Mb × Outcome) :=
  if (s.threads t).error ≠ .eok then pure (s, .returned (s.threads t).error none)
  else recvLoop s t (w.resumed s.tick)

/-- `rt_mb_control`. -/
def rtMbControl (s : Mb) (cmd : Int) : Except Fault (Mb × Err) :=
  if cmd = ipcCmdReset then do
    let threads ← ipcListResumeAll s.threads s.suspendThread
    let threads ← ipcListResumeAll threads s.suspendSenderThread
    pure ({ s with
      threads := threads
      suspendThread := []
      suspendSenderThread := []
      entry := 0
      inOffset := 0
      outOffset := 0 }, .eok)
  else pure (s, .error)

/-- The thread timer of a waiting thread runs out, in the list it is in. -/
def mbTimeout (s : Mb) (t : ThreadId) : Except Fault Mb := do
  check .assertion (s.threads t).suspended
  pure { s with
    threads := wake (setError s.threads t .etimeout) t
    suspendThread := s.suspendThread.erase t
    suspendSenderThread := s.suspendSenderThread.erase t }

/-- `rt_mb_init`, among threads in any state and with anything in the pool. -/
def rtMbInit (threads : Threads) (tick : BitVec 32) (msgpool : Nat → Word) (size : Word)
    (flag : Flag) : Mb where
  threads := threads
  tick := tick
  flag := flag
  msgPool := msgpool
  size := size.setWidth 16
  entry := 0
  inOffset := 0
  outOffset := 0
  suspendThread := []
  suspendSenderThread := []

end RtHypervisor.Ports.Mailbox
