import Mathlib.Tactic
import RtHypervisor.Verified.Run
import RtHypervisor.Verified.SkipList

/-!
# Timers

`timer.c` keeps the active timers in two skip lists, one for the timers checked in the
tick interrupt and one for those of the timer thread.  Ticks are 32-bit and wrap; a timer
is expired when the tick is less than half the range past its `timeout_tick`, and the lists
are ordered by the same comparison.

A timer is named by a number, and a list of timers is the list of their numbers; the nodes
`row[i]` a timer is linked with are in at most one list.  The number of rows is that of the
lists the system is booted with.  The temporary list on the stack of a check is part of the
state while the check runs.  A timeout function is the list of calls it makes, which may
depend on the state and on how many were called before.

`order` and `Record` are not in the source: they say when a timer was started, and how long
the periods of the timers started were and by how much linked timers were late.
-/

namespace RtHypervisor.Ports.Timer

open RtHypervisor.Verified.Run
open RtHypervisor.Verified.SkipList

abbrev Tick := BitVec 32
abbrev TimerId := Nat

/-- `RT_TICK_MAX / 2`. -/
def tickHalf : Tick := 0x7fffffff

def skipListMask : BitVec 32 := 3

/-- The two lists. -/
inductive Kind
  | hard
  | soft
deriving DecidableEq, Repr

/-- What `rt_object_get_type` and `rt_object_is_systemobject` tell of an object: none, or a
timer that is static or was allocated. -/
inductive ObjClass
  | none
  | static
  | dynamic
deriving DecidableEq, Repr

/-- `struct rt_timer`. -/
structure RtTimer where
  obj : ObjClass
  activated : Bool
  periodic : Bool
  kind : Kind
  initTick : Tick
  timeoutTick : Tick
  order : Nat
deriving DecidableEq, Repr

/-- The number of starts so far, the longest period started, the longest time a linked timer
was overdue at a start or a tick, and the longest sum of the two. -/
structure Record where
  starts : Nat
  period : Nat
  overdue : Nat
  span : Nat
deriving DecidableEq, Repr

/-- Take note of a period and of the time the latest timer is overdue. -/
def Record.note (r : Record) (period overdue : Nat) : Record :=
  { r with
    period := max r.period period
    overdue := max r.overdue overdue
    span := max r.span (period + overdue) }

/-- The state of `timer.c`.  `threadSuspended` is the state of the timer thread. -/
structure TimerSys where
  tick : Tick
  timers : TimerId → RtTimer
  lists : Kind → Rows TimerId
  temp : Kind → List TimerId
  randomNr : BitVec 32
  softBusy : Bool
  threadSuspended : Bool
  record : Record

section State

variable (s : TimerSys) (t : TimerId) (k : Kind)

def setTimer (f : RtTimer → RtTimer) : TimerSys :=
  { s with timers := Function.update s.timers t (f (s.timers t)) }

/-- The timers linked in a list, in its order. -/
def linked : List TimerId := (s.lists k).bottom

/-- `current_tick - t->timeout_tick < RT_TICK_MAX / 2`. -/
def expired : Bool := s.tick - (s.timers t).timeoutTick < tickHalf

/-- How late a timer is, where it is late by at most half the range. -/
def overdue : Nat :=
  if s.tick - (s.timers t).timeoutTick ≤ tickHalf then (s.tick - (s.timers t).timeoutTick).toNat
  else 0

/-- How late the latest timer of a list is. -/
def latest : Nat := ((linked s k).map (overdue s)).foldr max 0

/-! ## The functions of `timer.c` -/

/-- `_timer_remove`. -/
def timerRemove : TimerSys :=
  { s with
    lists := fun k => remove (s.lists k) t
    temp := fun k => (s.temp k).erase t }

def deactivate : TimerSys := setTimer s t fun x => { x with activated := false }

/-- `_timer_init`.  The rows of a timer that is not linked are not in a list. -/
def timerInit (obj : ObjClass) (time : Tick) (periodic : Bool) : TimerSys :=
  setTimer s t fun x =>
    { x with
      obj := obj
      activated := false
      periodic := periodic
      kind := k
      initTick := time
      timeoutTick := 0 }

/-- `rt_timer_init`, and `rt_timer_create` with the object it has allocated. -/
def rtTimerInit (obj : ObjClass) (time : Tick) (periodic : Bool) : Except Fault TimerSys := do
  check .assertion (time < tickHalf)
  pure (timerInit s t k obj time periodic)

def dropObject (obj : ObjClass) : Except Fault TimerSys := do
  check .assertion ((s.timers t).obj = obj)
  pure (setTimer (timerRemove s t) t fun x => { x with activated := false, obj := .none })

/-- `rt_timer_detach`. -/
def rtTimerDetach : Except Fault TimerSys := dropObject s t .static

/-- `rt_timer_delete`. -/
def rtTimerDelete : Except Fault TimerSys := dropObject s t .dynamic

end State

/-- Whether a timer stays in front of one with timeout `timeout` in the search of
`rt_timer_start`. -/
def passes (s : TimerSys) (timeout : Tick) (t : TimerId) : Bool :=
  let d := (s.timers t).timeoutTick - timeout
  d = 0 ∨ ¬d < tickHalf

/-- The number of rows above the bottom one that a started timer is linked into, of `n`. -/
def height : BitVec 32 → Nat → Nat
  | _, 0 => 0
  | tst, n + 1 =>
      if tst &&& skipListMask = 0 then height (tst >>> ((skipListMask.toNat + 1) >>> 1)) n + 1
      else 0

/-- `rt_timer_start`.  The call of `rt_schedule` that may follow is left to the scheduler. -/
def rtTimerStart (s : TimerSys) (t : TimerId) : Except Fault TimerSys := do
  check .assertion ((s.timers t).obj ≠ .none)
  let s := deactivate (timerRemove s t) t
  let timer := s.timers t
  let timeout := s.tick + timer.initTick
  let randomNr := s.randomNr + 1
  let l := s.lists timer.kind
  let l' := insertRows (passes s timeout) t (height randomNr l.upper.length) l.upper l.bottom none
  let resume := timer.kind = .soft ∧ ¬s.softBusy ∧ s.threadSuspended
  pure
    { s with
      timers := Function.update s.timers t
        { timer with timeoutTick := timeout, activated := true, order := s.record.starts }
      lists := Function.update s.lists timer.kind l'
      randomNr := randomNr
      threadSuspended := if resume then false else s.threadSuspended
      record :=
        { s.record.note timer.initTick.toNat (latest s timer.kind) with
          starts := s.record.starts + 1 } }

/-- `rt_timer_stop`, which leaves a timer alone that is not active. -/
def rtTimerStop (s : TimerSys) (t : TimerId) : Except Fault TimerSys := do
  check .assertion ((s.timers t).obj ≠ .none)
  if (s.timers t).activated then pure (deactivate (timerRemove s t) t) else pure s

/-- The commands of `rt_timer_control`. -/
inductive Ctrl
  | getTime
  | setTime (time : Tick)
  | setOneshot
  | setPeriodic
  | getState
  | getRemainTime
deriving DecidableEq, Repr

/-- `rt_timer_control`, with what it stores through its argument.  `getState` runs on into
`getRemainTime`. -/
def rtTimerControl (s : TimerSys) (t : TimerId) (cmd : Ctrl) :
    Except Fault (TimerSys × Option Tick) := do
  check .assertion ((s.timers t).obj ≠ .none)
  match cmd with
  | .getTime => pure (s, some (s.timers t).initTick)
  | .setTime time => do
      check .assertion (time < tickHalf)
      pure (setTimer s t fun x => { x with initTick := time }, none)
  | .setOneshot => pure (setTimer s t fun x => { x with periodic := false }, none)
  | .setPeriodic => pure (setTimer s t fun x => { x with periodic := true }, none)
  | .getState => pure (s, some (s.timers t).timeoutTick)
  | .getRemainTime => pure (s, some (s.timers t).timeoutTick)

/-- The tick of `rt_tick_increase`. -/
def tickIncrease (s : TimerSys) : TimerSys :=
  let s := { s with tick := s.tick + 1 }
  { s with record := s.record.note 0 (max (latest s .hard) (latest s .soft)) }

/-! ## Checks -/

/-- The calls of a timeout function. -/
inductive Call
  | start (t : TimerId)
  | stop (t : TimerId)
  | detach (t : TimerId)
  | delete (t : TimerId)
deriving DecidableEq, Repr

def exec (s : TimerSys) : Call → Except Fault TimerSys
  | .start t => rtTimerStart s t
  | .stop t => rtTimerStop s t
  | .detach t => rtTimerDetach s t
  | .delete t => rtTimerDelete s t

section Check

variable {χ : Type}

/-- A check takes its timer out of the lists and puts it on the temporary list. -/
def takeOut (s : TimerSys) (k : Kind) (t : TimerId) : TimerSys :=
  let s := timerRemove s t
  let s := if (s.timers t).periodic then s else deactivate s t
  { s with
    temp := Function.update s.temp k (t :: s.temp k)
    softBusy := if k = .soft then true else s.softBusy }

/-- What a check does once the timeout function has returned.  A timer that is no longer
on the temporary list was stopped or started again. -/
def putBack (s : TimerSys) (k : Kind) (t : TimerId) : Except Fault TimerSys :=
  let s := { s with softBusy := if k = .soft then false else s.softBusy }
  if s.temp k = [] then pure s
  else
    let s := { s with temp := Function.update s.temp k ((s.temp k).erase t) }
    if (s.timers t).periodic ∧ (s.timers t).activated then rtTimerStart (deactivate s t) t
    else pure s

/-- The loop of `rt_timer_check` and `rt_soft_timer_check`, with the timers whose functions
were called and the calls these made.  `i` counts the functions called before. -/
def checkLoop (run1 : TimerSys → χ → Except Fault TimerSys) (calls : Nat → TimerSys → List χ)
    (k : Kind) : Nat → Nat → TimerSys → Except Fault (TimerSys × List (TimerId × List χ))
  | 0, _, _ => .error .fuel
  | fuel + 1, i, s =>
      match linked s k with
      | [] => pure (s, [])
      | t :: _ =>
          if expired s t then do
            let s := takeOut s k t
            let cs := calls i s
            let s ← run run1 s cs
            let s ← putBack s k t
            let (s, fired) ← checkLoop run1 calls k fuel (i + 1) s
            pure (s, (t, cs) :: fired)
          else pure (s, [])

end Check

/-- `rt_timer_check`, which runs with the interrupts disabled. -/
def rtTimerCheck (calls : Nat → TimerSys → List Call) (fuel : Nat) (s : TimerSys) :
    Except Fault (TimerSys × List (TimerId × List Call)) :=
  checkLoop exec calls .hard fuel 0 { s with temp := Function.update s.temp .hard [] }

/-- What can happen while a timeout function of the timer thread runs: its own calls, and
the tick interrupt with its check. -/
inductive SoftCall
  | call (c : Call)
  | tick
  | check (fuel : Nat) (calls : Nat → TimerSys → List Call)

def softExec (s : TimerSys) : SoftCall → Except Fault TimerSys
  | .call c => exec s c
  | .tick => pure (tickIncrease s)
  | .check fuel calls => do
      let (s, _) ← rtTimerCheck calls fuel s
      pure s

/-- `rt_soft_timer_check`. -/
def rtSoftTimerCheck (calls : Nat → TimerSys → List SoftCall) (fuel : Nat) (s : TimerSys) :
    Except Fault (TimerSys × List (TimerId × List SoftCall)) :=
  checkLoop softExec calls .soft fuel 0 { s with temp := Function.update s.temp .soft [] }

/-- `rt_system_timer_init` and `rt_system_timer_thread_init`: no timers, and empty lists of
`levels + 1` rows. -/
def boot (levels : Nat) (tick : Tick) (randomNr : BitVec 32) : TimerSys where
  tick := tick
  timers := fun _ => ⟨.none, false, false, .hard, 0, 0, 0⟩
  lists := fun _ => empty TimerId levels
  temp := fun _ => []
  randomNr := randomNr
  softBusy := false
  threadSuspended := false
  record := ⟨0, 0, 0, 0⟩

end RtHypervisor.Ports.Timer
