import Mathlib.Tactic
import RtHypervisor.Ports.Ipc

/-!
# Mutexes

A mutex has an owner, which may take it again, and hands itself over to the first waiting
thread when its owner releases it for the last time.  A thread that waits raises the priority
of the owner to its own; `original_priority` is what the owner is set back to.

The threads may also wait for other IPC objects, and sleep.  `Queue` names the lists of all
objects; those of mutexes are in order of priority.
-/

namespace RtHypervisor.Ports.Mutex

open RtHypervisor.Verified.Run
open RtHypervisor.Ports.Ipc

abbrev MutexId := Nat

/-- `RT_MUTEX_VALUE_MAX`. -/
def mutexValueMax : BitVec 16 := 0xffff

/-- `RT_MUTEX_HOLD_MAX`. -/
def mutexHoldMax : BitVec 8 := 0xff

/-- `struct rt_mutex`, without its list. -/
structure RtMutex where
  value : BitVec 16
  originalPriority : Nat
  hold : BitVec 8
  owner : Option ThreadId
deriving DecidableEq, Repr

/-- `rt_mutex_init`. -/
def rtMutexInit : RtMutex := { value := 1, owner := none, originalPriority := 0xff, hold := 0 }

/-- The lists of the IPC objects. -/
inductive Queue
  | mutex (m : MutexId)
  | object (o : Nat)
deriving DecidableEq, Repr

/-- The threads, the mutexes and the lists.  `flag` is that of the other objects. -/
structure Kernel where
  threads : Threads
  mutex : MutexId → RtMutex
  flag : Nat → Flag
  queue : Queue → List ThreadId

section Functions

variable (k : Kernel) (t : ThreadId) (m : MutexId) (q : Queue) (timeout : BitVec 32)

/-- The flag of a list.  That of a mutex is always `RT_IPC_FLAG_PRIO`. -/
def flagOf : Queue → Flag
  | .mutex _ => .prio
  | .object o => k.flag o

def setMutex (f : RtMutex → RtMutex) : Kernel :=
  { k with mutex := Function.update k.mutex m (f (k.mutex m)) }

/-- `rt_thread_control` with `RT_THREAD_CTRL_CHANGE_PRIORITY`. -/
def changePriority (p : Nat) : Kernel :=
  { k with threads := modify k.threads t fun x => { x with currentPriority := p } }

/-- Wait in a list: `_ipc_list_suspend`, and the thread timer. -/
def block : Except Fault Kernel := do
  let (threads, list) := ipcListSuspend k.threads (k.queue q) t (flagOf k q)
  let threads ← startTimer threads t timeout
  pure { k with threads := threads, queue := Function.update k.queue q list }

/-- `_ipc_list_resume`. -/
def resumeFirst : Kernel :=
  let (threads, list) := ipcListResume k.threads (k.queue q)
  { k with threads := threads, queue := Function.update k.queue q list }

/-- `rt_mutex_take` by thread `t`: what it returns, or nothing when the thread waits.  Once
such a thread runs again it only returns its error. -/
def rtMutexTake : Except Fault (Kernel × Option Err) := do
  let k := { k with threads := setError k.threads t .eok }
  let mutex := k.mutex m
  if mutex.owner = some t then
    if mutex.hold < mutexHoldMax then
      pure (setMutex k m fun x => { x with hold := x.hold + 1 }, some .eok)
    else pure (k, some .efull)
  else if 0 < mutex.value then
    let k := setMutex k m fun x =>
      { x with
        value := x.value - 1
        owner := some t
        originalPriority := (k.threads t).currentPriority }
    if mutex.hold < mutexHoldMax then
      pure (setMutex k m fun x => { x with hold := x.hold + 1 }, some .eok)
    else pure (k, some .efull)
  else if timeout = 0 then
    pure ({ k with threads := setError k.threads t .etimeout }, some .etimeout)
  else do
    let owner ← deref mutex.owner
    let p := (k.threads t).currentPriority
    let k := if p < (k.threads owner).currentPriority then changePriority k owner p else k
    let k ← block k t (.mutex m) timeout
    pure (k, none)

/-- `rt_mutex_release` by thread `t`. -/
def rtMutexRelease : Kernel × Err :=
  if (k.mutex m).owner ≠ some t then
    ({ k with threads := setError k.threads t .error }, .error)
  else
    let k := setMutex k m fun x => { x with hold := x.hold - 1 }
    if (k.mutex m).hold = 0 then
      let p := (k.mutex m).originalPriority
      let k := if p ≠ (k.threads t).currentPriority then changePriority k t p else k
      match k.queue (.mutex m) with
      | u :: _ =>
          let k := setMutex k m fun x =>
            { x with owner := some u, originalPriority := (k.threads u).currentPriority }
          if (k.mutex m).hold < mutexHoldMax then
            let k := setMutex k m fun x => { x with hold := x.hold + 1 }
            (resumeFirst k (.mutex m), .eok)
          else (k, .efull)
      | [] =>
          if (k.mutex m).value < mutexValueMax then
            (setMutex k m fun x =>
              { x with value := x.value + 1, owner := none, originalPriority := 0xff }, .eok)
          else (k, .efull)
    else (k, .eok)

/-- What the other IPC functions do where they wait. -/
def objectWait (o : Nat) : Except Fault Kernel :=
  block { k with threads := setError k.threads t .eok } t (.object o) timeout

/-- `rt_thread_resume` for a thread of a list. -/
def objectWake (o : Nat) : Kernel :=
  let (threads, list) := rtThreadResume k.threads (k.queue (.object o)) t
  { k with threads := threads, queue := Function.update k.queue (.object o) list }

/-- `_ipc_list_resume_all`. -/
def objectReset (o : Nat) : Except Fault Kernel := do
  let threads ← ipcListResumeAll k.threads (k.queue (.object o))
  pure { k with threads := threads, queue := Function.update k.queue (.object o) [] }

/-- `rt_thread_sleep`, and `rt_thread_suspend` if there is no waiting time. -/
def sleep : Except Fault Kernel := do
  let threads ← startTimer (rtThreadSuspend k.threads t) t timeout
  pure { k with threads := threads }

/-- `_thread_timeout`, which unlinks the thread from the list it is in. -/
def expire : Except Fault Kernel := do
  check .assertion (k.threads t).suspended
  pure
    { k with
      threads := wake (setError k.threads t .etimeout) t
      queue := fun q => (k.queue q).erase t }

end Functions

/-! ## Runs -/

/-- What a thread does: it runs, or is ready to; it sleeps; or it waits in a list. -/
inductive Place
  | running
  | asleep
  | waiting (q : Queue)
deriving DecidableEq, Repr

/-- `count` is the number of times a thread has taken a mutex and not released it; a thread to
which the mutex is handed over takes it then.  `arrival` numbers the threads in the order in
which they began to wait. -/
structure MutexSys where
  kernel : Kernel
  place : ThreadId → Place
  count : MutexId → ThreadId → Nat
  arrival : ThreadId → Nat
  clock : Nat

inductive Event
  | take (t : ThreadId) (m : MutexId) (timeout : BitVec 32)
  | release (t : ThreadId) (m : MutexId)
  | wait (t : ThreadId) (o : Nat) (timeout : BitVec 32)
  | resume (o : Nat)
  | wake (o : Nat) (u : ThreadId)
  | reset (o : Nat)
  | sleep (t : ThreadId) (timeout : BitVec 32)
  | awake (u : ThreadId)
  | timeout (t : ThreadId)
  | woken (t : ThreadId)
deriving DecidableEq, Repr

/-- A thread calls while it runs and goes on while it is not suspended; its timer runs out
while it is active. -/
def Enabled (s : MutexSys) : Event → Prop
  | .take t _ _ => s.place t = .running ∧ (s.kernel.threads t).suspended = false
  | .release t _ => s.place t = .running ∧ (s.kernel.threads t).suspended = false
  | .wait t _ _ => s.place t = .running ∧ (s.kernel.threads t).suspended = false
  | .sleep t _ => s.place t = .running ∧ (s.kernel.threads t).suspended = false
  | .awake u => s.place u = .asleep
  | .timeout t => s.place t ≠ .running ∧ (s.kernel.threads t).timer = true
  | .woken t => s.place t ≠ .running ∧ (s.kernel.threads t).suspended = false
  | .wake o u => s.place u = .waiting (.object o)
  | _ => True

instance (s : MutexSys) : (e : Event) → Decidable (Enabled s e)
  | .take .. => inferInstanceAs (Decidable (_ ∧ _))
  | .release .. => inferInstanceAs (Decidable (_ ∧ _))
  | .wait .. => inferInstanceAs (Decidable (_ ∧ _))
  | .sleep .. => inferInstanceAs (Decidable (_ ∧ _))
  | .awake _ => inferInstanceAs (Decidable (_ = _))
  | .timeout _ => inferInstanceAs (Decidable (_ ∧ _))
  | .woken _ => inferInstanceAs (Decidable (_ ∧ _))
  | .wake .. => inferInstanceAs (Decidable (_ = _))
  | .resume _ => inferInstanceAs (Decidable True)
  | .reset _ => inferInstanceAs (Decidable True)

/-- The thread begins to wait. -/
def arrive (s : MutexSys) (t : ThreadId) (p : Place) (k : Kernel) : MutexSys :=
  { s with
    kernel := k
    place := Function.update s.place t p
    arrival := Function.update s.arrival t s.clock
    clock := s.clock + 1 }

def setCount (count : MutexId → ThreadId → Nat) (m : MutexId) (t : ThreadId) (n : Nat) :
    MutexId → ThreadId → Nat :=
  Function.update count m (Function.update (count m) t n)

/-- The count of a release by the owner, which may hand the mutex over. -/
def countRelease (s : MutexSys) (t : ThreadId) (m : MutexId) : MutexId → ThreadId → Nat :=
  let count := setCount s.count m t (s.count m t - 1)
  if s.count m t = 1 then
    match s.kernel.queue (.mutex m) with
    | u :: _ => setCount count m u (count m u + 1)
    | [] => count
  else count

def step (s : MutexSys) : Event → Except Fault MutexSys
  | .take t m timeout => do
      let (k, r) ← rtMutexTake s.kernel t m timeout
      match r with
      | some e =>
          let count := if e = .eok then setCount s.count m t (s.count m t + 1) else s.count
          pure { s with kernel := k, count := count }
      | none => pure (arrive s t (.waiting (.mutex m)) k)
  | .release t m =>
      let (k, e) := rtMutexRelease s.kernel t m
      let count := if e = .eok then countRelease s t m else s.count
      pure { s with kernel := k, count := count }
  | .wait t o timeout => do
      let k ← objectWait s.kernel t timeout o
      pure (arrive s t (.waiting (.object o)) k)
  | .resume o => pure { s with kernel := resumeFirst s.kernel (.object o) }
  | .wake o u => pure { s with kernel := objectWake s.kernel u o }
  | .reset o => do
      let k ← objectReset s.kernel o
      pure { s with kernel := k }
  | .sleep t timeout => do
      let k ← sleep s.kernel t timeout
      pure (arrive s t .asleep k)
  | .awake u =>
      pure { s with
        kernel := { s.kernel with threads := (rtThreadResume s.kernel.threads [] u).1 } }
  | .timeout t => do
      let k ← expire s.kernel t
      pure { s with kernel := k }
  | .woken t => pure { s with place := Function.update s.place t .running }

/-- New mutexes, among threads that run. -/
def boot (threads : Threads) (flag : Nat → Flag) : MutexSys where
  kernel :=
    { threads := threads
      mutex := fun _ => rtMutexInit
      flag := flag
      queue := fun _ => [] }
  place := fun _ => .running
  count := fun _ _ => 0
  arrival := fun _ => 0
  clock := 0

end RtHypervisor.Ports.Mutex
