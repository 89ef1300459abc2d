import Mathlib.Tactic
import RtHypervisor.Ports.Ipc

/-!
# Events

A thread waits for all or for some bits of an event set, and may have those it receives
cleared.  `rt_event_recv` looks at the set itself when the bits are there at once; otherwise
`rt_event_send` walks the list of waiting threads and records in `event_set` of a thread what
it receives.

`serve` says what a send is to do: the requests are met in order, each against the bits the
earlier ones have left.  The two paths take the bits from the set differently, and
`rtEventRecv_eq` and `sendWalk_eq` say that both do what `serve` does.
-/

namespace RtHypervisor.Ports.EventFlags

open RtHypervisor.Verified.Run
open RtHypervisor.Ports.Ipc

abbrev Bits := BitVec 32

/-- `RT_EVENT_FLAG_AND`. -/
def eventFlagAnd : BitVec 8 := 1

/-- `RT_EVENT_FLAG_OR`. -/
def eventFlagOr : BitVec 8 := 2

/-- `RT_EVENT_FLAG_CLEAR`. -/
def eventFlagClear : BitVec 8 := 4

/-- `RT_IPC_CMD_RESET`. -/
def ipcCmdReset : Int := 1

def has (option flag : BitVec 8) : Bool := option &&& flag ≠ 0

/-- `struct rt_event`, with the threads. -/
structure EventObj where
  threads : Threads
  set : Bits
  flag : Flag
  suspendThread : List ThreadId

/-- A waiting thread whose condition is satisfied: its bits are cleared, and it is resumed. -/
def resumeWaiter (s : EventObj) (t : ThreadId) : EventObj :=
  let x := s.threads t
  let set := if has x.eventInfo eventFlagClear then s.set &&& ~~~x.eventSet else s.set
  let (threads, list) := rtThreadResume s.threads s.suspendThread t
  { s with threads := threads, set := set, suspendThread := list }

/-- The walk of `rt_event_send` over the list of waiting threads. -/
def sendWalk (s : EventObj) : List ThreadId → EventObj × Err
  | [] => (s, .eok)
  | t :: rest =>
      let x := s.threads t
      if has x.eventInfo eventFlagAnd then
        if x.eventSet &&& s.set = x.eventSet then sendWalk (resumeWaiter s t) rest
        else sendWalk s rest
      else if has x.eventInfo eventFlagOr then
        if x.eventSet &&& s.set ≠ 0 then
          let threads := modify s.threads t fun x => { x with eventSet := x.eventSet &&& s.set }
          sendWalk (resumeWaiter { s with threads := threads } t) rest
        else sendWalk s rest
      else (s, .einval)

/-- `rt_event_send`. -/
def rtEventSend (s : EventObj) (set : Bits) : EventObj × Err :=
  if set = 0 then (s, .error)
  else
    let s := { s with set := s.set ||| set }
    sendWalk s s.suspendThread

/-- The test of `rt_event_recv`. -/
def recvStatus (s : EventObj) (set : Bits) (option : BitVec 8) : Except Fault Bool :=
  if has option eventFlagAnd then pure (s.set &&& set = set)
  else if has option eventFlagOr then pure (s.set &&& set ≠ 0)
  else .error .assertion

/-- `rt_event_recv` by thread `t`: what it returns and stores, or nothing when the thread
waits. -/
def rtEventRecv (s : EventObj) (t : ThreadId) (set : Bits) (option : BitVec 8)
    (timeout : BitVec 32) : Except Fault (EventObj × Option (Err × Option Bits)) :=
  if set = 0 then pure (s, some (.error, none))
  else do
    let s := { s with threads := setError s.threads t .eok }
    let status ← recvStatus s set option
    if status then
      let recved := s.set &&& set
      let threads := modify s.threads t fun x =>
        { x with eventSet := s.set &&& set, eventInfo := option }
      let set := if has option eventFlagClear then s.set &&& ~~~set else s.set
      pure ({ s with threads := threads, set := set }, some ((threads t).error, some recved))
    else if timeout = 0 then
      pure ({ s with threads := setError s.threads t .etimeout }, some (.etimeout, none))
    else
      let threads := modify s.threads t fun x => { x with eventSet := set, eventInfo := option }
      let (threads, list) := ipcListSuspend threads s.suspendThread t s.flag
      let threads ← startTimer threads t timeout
      pure ({ s with threads := threads, suspendThread := list }, none)

/-- What `rt_event_recv` returns and stores once the thread runs again. -/
def rtEventRecvWoken (s : EventObj) (t : ThreadId) : Err × Option Bits :=
  if (s.threads t).error ≠ .eok then ((s.threads t).error, none)
  else ((s.threads t).error, some (s.threads t).eventSet)

/-- `rt_event_control`. -/
def rtEventControl (s : EventObj) (cmd : Int) : Except Fault (EventObj × Err) :=
  if cmd = ipcCmdReset then do
    let threads ← ipcListResumeAll s.threads s.suspendThread
    pure ({ s with threads := threads, suspendThread := [], set := 0 }, .eok)
  else pure (s, .error)

/-- The thread timer of a waiting thread runs out. -/
def eventTimeout (s : EventObj) (t : ThreadId) : Except Fault EventObj := do
  let (threads, list) ← threadTimeout s.threads s.suspendThread t
  pure { s with threads := threads, suspendThread := list }

/-! ## What is received -/

/-- What a thread waits for. -/
structure Request where
  thread : ThreadId
  set : Bits
  option : BitVec 8
deriving DecidableEq, Repr

/-- All of the bits for `RT_EVENT_FLAG_AND`, some for `RT_EVENT_FLAG_OR`. -/
def Request.Satisfied (q : Request) (bits : Bits) : Prop :=
  if has q.option eventFlagAnd then q.set &&& bits = q.set
  else has q.option eventFlagOr ∧ q.set &&& bits ≠ 0

instance (q : Request) (bits : Bits) : Decidable (q.Satisfied bits) := by
  unfold Request.Satisfied
  infer_instance

/-- The bits that are received. -/
def Request.received (q : Request) (bits : Bits) : Bits := q.set &&& bits

/-- The bits that are left. -/
def Request.left (q : Request) (bits : Bits) : Bits :=
  if has q.option eventFlagClear then bits &&& ~~~q.received bits else bits

/-- Meet the requests in order: the bits left at the end, and what each thread that was served
receives. -/
def serve (bits : Bits) : List Request → Bits × List (ThreadId × Bits)
  | [] => (bits, [])
  | q :: qs =>
      if q.Satisfied bits then
        ((serve (q.left bits) qs).1, (q.thread, q.received bits) :: (serve (q.left bits) qs).2)
      else serve bits qs

section Serve

variable {q : Request} {bits bits' : Bits}

/-- Bits that are gone satisfy nobody. -/
theorem Request.Satisfied.mono (h : q.Satisfied bits') (hsub : bits' &&& bits = bits') :
    q.Satisfied bits := by
  rw [Satisfied] at h ⊢
  by_cases hand : has q.option eventFlagAnd = true
  · rw [if_pos hand] at h ⊢
    calc q.set &&& bits = q.set &&& bits' &&& bits := by rw [h]
      _ = q.set &&& bits' := by rw [BitVec.and_assoc, hsub]
      _ = q.set := h
  · rw [if_neg hand] at h ⊢
    refine ⟨h.1, fun hzero => h.2 ?_⟩
    calc q.set &&& bits' = q.set &&& (bits &&& bits') := by rw [BitVec.and_comm bits, hsub]
      _ = q.set &&& bits &&& bits' := (BitVec.and_assoc ..).symm
      _ = 0 := by
        rw [hzero]
        exact BitVec.zero_and

theorem Request.left_sub : q.left bits &&& bits = q.left bits := by
  rw [left]
  split
  · rw [BitVec.and_assoc, BitVec.and_comm _ bits, ← BitVec.and_assoc, BitVec.and_self]
  · exact BitVec.and_self

private theorem serve_sub (qs : List Request) : (serve bits qs).1 &&& bits = (serve bits qs).1 := by
  induction qs generalizing bits with
  | nil => exact BitVec.and_self
  | cons q qs ih =>
      rw [serve]
      split
      · have hleft := @ih (q.left bits)
        show (serve (q.left bits) qs).1 &&& bits = (serve (q.left bits) qs).1
        rw [← hleft, BitVec.and_assoc, q.left_sub]
      · exact ih

private theorem mem_serve {qs : List Request} {t : ThreadId} {r : Bits}
    (h : (t, r) ∈ (serve bits qs).2) :
    t ∈ qs.map Request.thread := by
  induction qs generalizing bits with
  | nil => cases h
  | cons q qs ih =>
      rw [List.map_cons, List.mem_cons]
      rw [serve] at h
      split at h
      · rcases List.mem_cons.mp h with heq | h
        · exact Or.inl (congrArg Prod.fst heq)
        · exact Or.inr (ih h)
      · exact Or.inr (ih h)

/-- A thread that was not served is not satisfied by what is left. -/
theorem serve_unsatisfied {qs : List Request} (hnodup : (qs.map Request.thread).Nodup)
    (hq : q ∈ qs) (hunserved : ∀ r, (q.thread, r) ∉ (serve bits qs).2) :
    ¬q.Satisfied (serve bits qs).1 := by
  induction qs generalizing bits with
  | nil => cases hq
  | cons q' qs ih =>
      rw [List.map_cons, List.nodup_cons] at hnodup
      rw [serve] at hunserved ⊢
      by_cases hsat : q'.Satisfied bits
      · rw [if_pos hsat] at hunserved ⊢
        rcases List.mem_cons.mp hq with rfl | hq
        · exact absurd (List.mem_cons_self ..) (hunserved _)
        · exact ih hnodup.2 hq fun r hr => hunserved r (List.mem_cons_of_mem _ hr)
      · rw [if_neg hsat] at hunserved ⊢
        rcases List.mem_cons.mp hq with rfl | hq
        · exact fun h => hsat (h.mono (serve_sub qs))
        · exact ih hnodup.2 hq hunserved

end Serve

/-! ## The two paths -/

/-- The request of a thread that waits. -/
def requestOf (ts : Threads) (t : ThreadId) : Request := ⟨t, (ts t).eventSet, (ts t).eventInfo⟩

/-- A thread that `rt_event_send` can find in the list. -/
def Waits (x : Thread) : Prop :=
  x.suspended = true ∧ (has x.eventInfo eventFlagAnd = true ∨ has x.eventInfo eventFlagOr = true)

/-- What a thread is left with that receives `bits`. -/
def receive (bits : Bits) (x : Thread) : Thread :=
  { x with eventSet := bits, suspended := false, timer := false }

/-- The request of a thread is met. -/
def meet (s : EventObj) (t : ThreadId) : EventObj :=
  { s with
    threads := modify s.threads t (receive ((requestOf s.threads t).received s.set))
    set := (requestOf s.threads t).left s.set
    suspendThread := s.suspendThread.erase t }

section Paths

variable {s : EventObj} {t : ThreadId} {rest : List ThreadId}

private theorem sendWalk_cons (hwait : Waits (s.threads t)) :
    sendWalk s (t :: rest) =
      if (requestOf s.threads t).Satisfied s.set then sendWalk (meet s t) rest
      else sendWalk s rest := by
  rw [sendWalk]
  simp only [Request.Satisfied, requestOf]
  by_cases hand : has (s.threads t).eventInfo eventFlagAnd = true
  · rw [if_pos hand]
    simp only [hand, if_true]
    by_cases hall : (s.threads t).eventSet &&& s.set = (s.threads t).eventSet
    · rw [if_pos hall, if_pos hall]
      congr 1
      simp only [resumeWaiter, meet, rtThreadResume, hwait.1, if_true, wake, Request.left,
        Request.received, requestOf, hall]
      rfl
    · rw [if_neg hall, if_neg hall]
  · have hor := hwait.2.resolve_left hand
    rw [if_neg hand, if_pos hor]
    simp only [hand, hor, true_and]
    by_cases hsome : (s.threads t).eventSet &&& s.set ≠ 0
    · rw [if_pos hsome]
      simp only [hsome, ne_eq, not_false_eq_true]
      congr 1
      simp only [resumeWaiter, meet, rtThreadResume, hwait.1, if_true, wake, Request.left,
        Request.received, requestOf, modify_self, modify_modify]
      rfl
    · rw [if_neg hsome]
      simp only [hsome, Bool.false_eq_true, if_false]

private theorem requestOf_meet (ht : t ∉ rest) :
    rest.map (requestOf (meet s t).threads) = rest.map (requestOf s.threads) := by
  refine List.map_congr_left fun u hu => ?_
  have hne : u ≠ t := fun h => ht (h ▸ hu)
  simp only [requestOf, meet, modify_of_ne hne]

/-- The walk serves the requests of the threads it meets. -/
theorem sendWalk_eq (hnodup : rest.Nodup) (hwait : ∀ t ∈ rest, Waits (s.threads t)) :
    (sendWalk s rest).2 = .eok ∧
      (sendWalk s rest).1.set = (serve s.set (rest.map (requestOf s.threads))).1 ∧
      (∀ u b, (u, b) ∈ (serve s.set (rest.map (requestOf s.threads))).2 →
        (sendWalk s rest).1.threads u = receive b (s.threads u)) ∧
      ∀ u, (∀ b, (u, b) ∉ (serve s.set (rest.map (requestOf s.threads))).2) →
        (sendWalk s rest).1.threads u = s.threads u := by
  induction rest generalizing s with
  | nil =>
      refine ⟨rfl, rfl, fun u b h => ?_, fun _ _ => rfl⟩
      cases h
  | cons t rest ih =>
      obtain ⟨ht, hrest⟩ := List.nodup_cons.mp hnodup
      rw [sendWalk_cons (hwait t (List.mem_cons_self ..)), List.map_cons, serve]
      by_cases hsat : (requestOf s.threads t).Satisfied s.set
      · rw [if_pos hsat, if_pos hsat]
        have hwait' : ∀ u ∈ rest, Waits ((meet s t).threads u) := by
          intro u hu
          have hne : u ≠ t := fun h => ht (h ▸ hu)
          simp only [meet, modify_of_ne hne]
          exact hwait u (List.mem_cons_of_mem t hu)
        obtain ⟨herr, hset, hin, hout⟩ := ih hrest hwait'
        rw [requestOf_meet ht] at hset hin hout
        have hunserved : ∀ b, (t, b) ∉
            (serve (meet s t).set (rest.map (requestOf s.threads))).2 := by
          intro b hb
          have hmem := mem_serve hb
          rw [List.map_map] at hmem
          obtain ⟨u, hu, heq⟩ := List.mem_map.mp hmem
          exact ht (heq ▸ hu)
        refine ⟨herr, hset, ?_, ?_⟩
        · intro u b hub
          rcases List.mem_cons.mp hub with heq | hub
          · have hu : u = t := congrArg Prod.fst heq
            have hb : b = (requestOf s.threads t).received s.set := congrArg Prod.snd heq
            rw [hu, hb, hout t hunserved]
            exact modify_self
          · have hne : u ≠ t := fun h => hunserved b (h ▸ hub)
            rw [hin u b hub]
            simp only [meet, modify_of_ne hne]
        · intro u hu
          have hne : u ≠ t := by
            rintro rfl
            exact hu _ (List.mem_cons_self ..)
          rw [hout u fun b hb => hu b (List.mem_cons_of_mem _ hb)]
          simp only [meet, modify_of_ne hne]
      · rw [if_neg hsat, if_neg hsat]
        exact ih hrest fun u hu => hwait u (List.mem_cons_of_mem t hu)

/-- The threads that are resumed leave the list. -/
theorem sendWalk_parked {P : ThreadId → Prop} (hnodup : rest.Nodup)
    (hwait : ∀ t ∈ rest, Waits (s.threads t)) (h : Parked s.threads s.suspendThread P) :
    Parked (sendWalk s rest).1.threads (sendWalk s rest).1.suspendThread P := by
  induction rest generalizing s with
  | nil => exact h
  | cons t rest ih =>
      obtain ⟨ht, hrest⟩ := List.nodup_cons.mp hnodup
      rw [sendWalk_cons (hwait t (List.mem_cons_self ..))]
      split
      · refine ih hrest (fun u hu => ?_) ?_
        · have hne : u ≠ t := fun h => ht (h ▸ hu)
          simp only [meet, modify_of_ne hne]
          exact hwait u (List.mem_cons_of_mem t hu)
        · exact h.erase (fun _ hu => modify_of_ne hu) (by simp [meet, receive])
      · exact ih hrest (fun u hu => hwait u (List.mem_cons_of_mem t hu)) h

private theorem recvStatus_eq {set : Bits} {option : BitVec 8}
    (hflag : has option eventFlagAnd = true ∨ has option eventFlagOr = true) :
    recvStatus s set option = .ok (decide ((Request.mk t set option).Satisfied s.set)) := by
  rw [recvStatus]
  by_cases hand : has option eventFlagAnd = true
  · rw [if_pos hand]
    simp only [Request.Satisfied, hand, if_true, BitVec.and_comm set]
    rfl
  · have hor := hflag.resolve_left hand
    rw [if_neg hand, if_pos hor]
    simp only [Request.Satisfied, hand, hor, true_and, if_false, Bool.false_eq_true,
      BitVec.and_comm set]
    rfl

private theorem recvStatus_error {set : Bits} {option : BitVec 8}
    (hflag : ¬(has option eventFlagAnd = true ∨ has option eventFlagOr = true)) :
    recvStatus s set option = .error .assertion := by
  rw [not_or] at hflag
  rw [recvStatus, if_neg hflag.1, if_neg hflag.2]

/-- A request that is met at once is met as `serve` meets it. -/
theorem rtEventRecv_eq {set : Bits} {option : BitVec 8} {timeout : BitVec 32} (hset : set ≠ 0)
    (hsat : (Request.mk t set option).Satisfied s.set) :
    rtEventRecv s t set option timeout =
      .ok ({ s with
        threads := modify s.threads t fun x =>
          { x with error := .eok, eventSet := (Request.mk t set option).received s.set
                   eventInfo := option }
        set := (Request.mk t set option).left s.set },
        some (.eok, some ((Request.mk t set option).received s.set))) := by
  have hflag : has option eventFlagAnd = true ∨ has option eventFlagOr = true := by
    rw [Request.Satisfied] at hsat
    by_cases hand : has option eventFlagAnd = true
    · exact Or.inl hand
    · rw [if_neg hand] at hsat
      exact Or.inr hsat.1
  have hstatus : recvStatus s set option = .ok true := by
    rw [@recvStatus_eq s t _ _ hflag, decide_eq_true hsat]
  -- the bits asked for and the bits received leave the same bits
  have hleft : (if has option eventFlagClear then s.set &&& ~~~set else s.set) =
      (Request.mk t set option).left s.set := by
    rw [Request.left, Request.received]
    split
    · ext i hi
      simp only [BitVec.getElem_and, BitVec.getElem_not]
      cases s.set[i] <;> simp
    · rfl
  rw [rtEventRecv, if_neg hset]
  show (recvStatus s set option >>= _) = _
  rw [hstatus, ok_bind, if_pos rfl, ← hleft]
  simp only [setError, modify_modify, modify_self, Request.received, BitVec.and_comm set]
  rfl

end Paths

/-! ## Runs -/

/-- A receive that has returned, and what it was to receive, if anything. -/
structure Return where
  thread : ThreadId
  result : Err × Option Bits
  due : Option Bits
deriving DecidableEq, Repr

/-- A receive succeeds with what it was to receive, and fails if that is nothing. -/
def Return.Right (r : Return) : Prop :=
  match r.due with
  | some bits => r.result = (.eok, some bits)
  | none => r.result.1 ≠ .eok

/-- What the receives in progress asked for, what they are to receive once their condition
was satisfied, and the receives that have returned. -/
structure Ledger where
  request : ThreadId → Request
  due : ThreadId → Option Bits
  returns : List Return

/-- `receiving` says which threads are inside `rt_event_recv`, behind its call of
`rt_schedule`. -/
structure EventSys where
  event : EventObj
  receiving : ThreadId → Bool
  ledger : Ledger

inductive Event
  | recv (t : ThreadId) (set : Bits) (option : BitVec 8) (timeout : BitVec 32)
  | woken (t : ThreadId)
  | send (set : Bits)
  | timeout (t : ThreadId)
  | control (cmd : Int)
  | priority (t : ThreadId) (p : Nat)
  | other (t : ThreadId) (x : Thread)

/-- A thread calls, or goes on, while it is not suspended; its timer runs out while it is
active; and what it does elsewhere, it does outside `rt_event_recv`. -/
def Enabled (s : EventSys) : Event → Prop
  | .recv t _ _ _ => s.receiving t = false ∧ (s.event.threads t).suspended = false
  | .woken t => s.receiving t = true ∧ (s.event.threads t).suspended = false
  | .timeout t => s.receiving t = true ∧ (s.event.threads t).timer = true
  | .other t _ => s.receiving t = false
  | _ => True

/-- The requests of the threads in the list. -/
def requests (s : EventSys) : List Request := s.event.suspendThread.map s.ledger.request

/-- What a request is to receive of `bits` if it cannot wait. -/
def Request.due (q : Request) (bits : Bits) : Option Bits :=
  if q.set ≠ 0 ∧ q.Satisfied bits then some (q.received bits) else none

/-- What the threads served by a send are to receive. -/
def Ledger.serve (l : Ledger) (served : List (ThreadId × Bits)) : Ledger :=
  { l with due := fun t => (served.lookup t).or (l.due t) }

def step (s : EventSys) : Event → Except Fault EventSys
  | .recv t set option timeout => do
      let q := Request.mk t set option
      let (event, r) ← rtEventRecv s.event t set option timeout
      match r with
      | some result =>
          pure
            { s with
              event := event
              ledger := { s.ledger with
                returns := ⟨t, result, q.due s.event.set⟩ :: s.ledger.returns } }
      | none =>
          pure
            { event := event
              receiving := Function.update s.receiving t true
              ledger := { s.ledger with
                request := Function.update s.ledger.request t q
                due := Function.update s.ledger.due t none } }
  | .woken t =>
      pure
        { s with
          receiving := Function.update s.receiving t false
          ledger := { s.ledger with
            returns := ⟨t, rtEventRecvWoken s.event t, s.ledger.due t⟩ :: s.ledger.returns } }
  | .send set =>
      pure
        { s with
          event := (rtEventSend s.event set).1
          ledger :=
            if set = 0 then s.ledger
            else s.ledger.serve (EventFlags.serve (s.event.set ||| set) (requests s)).2 }
  | .timeout t => do
      let event ← eventTimeout s.event t
      pure { s with event := event }
  | .control cmd => do
      let (event, _) ← rtEventControl s.event cmd
      pure { s with event := event }
  | .priority t p =>
      pure
        { s with
          event := { s.event with
            threads := modify s.event.threads t fun x => { x with currentPriority := p } } }
  | .other t x =>
      pure { s with event := { s.event with threads := Function.update s.event.threads t x } }

/-- `rt_event_init`, among threads in any state. -/
def init (threads : Threads) (flag : Flag) : EventSys where
  event := ⟨threads, 0, flag, []⟩
  receiving := fun _ => false
  ledger := ⟨fun t => ⟨t, 0, 0⟩, fun _ => none, []⟩

/-- Nobody is stranded, and every receive got what it was to get. -/
structure Served (s : EventSys) : Prop where
  stranded : ∀ t ∈ s.event.suspendThread, ¬(s.ledger.request t).Satisfied s.event.set
  returns : ∀ r ∈ s.ledger.returns, r.Right

/-- A thread that waits has its request recorded and not met, and no error; one that was woken
has what it is to receive, or an error. -/
def ThreadOk (x : Thread) (receiving : Bool) (q : Request) (due : Option Bits) : Prop :=
  receiving = true →
    if x.suspended then
      x.error = .eok ∧ due = none ∧ x.eventSet = q.set ∧ x.eventInfo = q.option ∧
        (has x.eventInfo eventFlagAnd = true ∨ has x.eventInfo eventFlagOr = true)
    else x.timer = false ∧ due = if x.error = .eok then some x.eventSet else none

structure Inv (s : EventSys) : Prop where
  served : Served s
  parked : Parked s.event.threads s.event.suspendThread fun t => s.receiving t = true
  threads : ∀ t, ThreadOk (s.event.threads t) (s.receiving t) (s.ledger.request t) (s.ledger.due t)
  named : ∀ t, (s.ledger.request t).thread = t

section Steps

variable {s : EventSys} {t : ThreadId}

theorem Served.cons {event : EventObj} {receiving : ThreadId → Bool} {r : Return} (h : Served s)
    (hstranded : ∀ t ∈ event.suspendThread, ¬(s.ledger.request t).Satisfied event.set)
    (hr : r.Right) :
    Served ⟨event, receiving, { s.ledger with returns := r :: s.ledger.returns }⟩ := by
  refine ⟨hstranded, ?_⟩
  intro r' hr'
  rcases List.mem_cons.mp hr' with rfl | hr'
  · exact hr
  · exact h.returns r' hr'

theorem Inv.waiting (hs : Inv s) (ht : t ∈ s.event.suspendThread) :
    (s.event.threads t).error = .eok ∧ s.ledger.due t = none ∧
      requestOf s.event.threads t = s.ledger.request t ∧ Waits (s.event.threads t) := by
  obtain ⟨hrecv, hsusp⟩ := (hs.parked.mem_iff t).mp ht
  have hthread := hs.threads t hrecv
  rw [hsusp] at hthread
  obtain ⟨herr, hdue, hset, hinfo, hflag⟩ := hthread
  refine ⟨herr, hdue, ?_, hsusp, hflag⟩
  rw [requestOf, hset, hinfo]
  have hname := hs.named t
  cases hq : s.ledger.request t with
  | mk thread set option =>
      rw [hq] at hname
      rw [← hname]

theorem send_inv (hs : Inv s) (set : Bits) : Meets (· = .assertion) Inv (step s (.send set)) := by
  rw [step, rtEventSend]
  by_cases hset : set = 0
  · rw [if_pos hset, if_pos hset]
    exact ⟨⟨hs.served.stranded, hs.served.returns⟩, hs.parked, hs.threads, hs.named⟩
  rw [if_neg hset, if_neg hset]
  have hrequests : s.event.suspendThread.map (requestOf s.event.threads) = requests s :=
    List.map_congr_left fun t ht => (hs.waiting ht).2.2.1
  have hnames : (requests s).map Request.thread = s.event.suspendThread := by
    rw [requests, List.map_map]
    exact (List.map_congr_left fun t _ => hs.named t).trans (List.map_id _)
  have hwait : ∀ t ∈ s.event.suspendThread, Waits (s.event.threads t) :=
    fun t ht => (hs.waiting ht).2.2.2
  obtain ⟨-, hbits, hin, hout⟩ :=
    @sendWalk_eq { s.event with set := s.event.set ||| set } _ hs.parked.nodup hwait
  have hparked := @sendWalk_parked { s.event with set := s.event.set ||| set } _ _
    hs.parked.nodup hwait hs.parked
  simp only [hrequests] at hbits hin hout
  refine ⟨⟨?_, hs.served.returns⟩, hparked, ?_, hs.named⟩
  · -- a thread that is still in the list was not served
    intro t ht
    have hsusp := ((hparked.mem_iff t).mp ht).2
    have hunserved : ∀ b, (t, b) ∉ (serve (s.event.set ||| set) (requests s)).2 := by
      intro b hb
      rw [hin t b hb] at hsusp
      cases hsusp
    have hmem : t ∈ s.event.suspendThread := by
      rw [hout t hunserved] at hsusp
      exact (hs.parked.mem_iff t).mpr ⟨((hparked.mem_iff t).mp ht).1, hsusp⟩
    show ¬(s.ledger.request t).Satisfied _
    rw [hbits]
    refine serve_unsatisfied ?_ (List.mem_map_of_mem hmem) ?_
    · rw [hnames]
      exact hs.parked.nodup
    · rw [hs.named t]
      exact hunserved
  · intro t
    show ThreadOk _ (s.receiving t) (s.ledger.request t)
      (((serve (s.event.set ||| set) (requests s)).2.lookup t).or (s.ledger.due t))
    cases hlookup : (serve (s.event.set ||| set) (requests s)).2.lookup t with
    | none =>
        have hunserved : ∀ b, (t, b) ∉ (serve (s.event.set ||| set) (requests s)).2 := by
          intro b hb
          have hne := List.lookup_eq_none_iff.mp hlookup (t, b) hb
          simp at hne
        rw [Option.none_or, hout t hunserved]
        exact hs.threads t
    | some b =>
        obtain ⟨front, rest, heq, -⟩ := List.lookup_eq_some_iff.mp hlookup
        have hb : (t, b) ∈ (serve (s.event.set ||| set) (requests s)).2 := by
          rw [heq]
          simp
        have hmem : t ∈ s.event.suspendThread := hnames ▸ mem_serve hb
        rw [hin t b hb]
        intro _
        have herr : (s.event.threads t).error = .eok := (hs.waiting hmem).1
        simp [receive, herr]

theorem recv_inv (hs : Inv s) (hidle : s.receiving t = false)
    (hrun : (s.event.threads t).suspended = false) (set : Bits) (option : BitVec 8)
    (timeout : BitVec 32) : Meets (· = .assertion) Inv (step s (.recv t set option timeout)) := by
  have hnot : ¬s.receiving t = true := by simp [hidle]
  -- what the thread that calls does to itself
  have hout : ∀ ts : Threads, (∀ u, u ≠ t → ts u = s.event.threads u) → ∀ u,
      ThreadOk (ts u) (s.receiving u) (s.ledger.request u) (s.ledger.due u) := by
    intro ts hne
    refine forall_of_ne t hs.threads (fun u hu h => ?_) fun hrecv => absurd hrecv hnot
    rwa [hne u hu]
  rw [step]
  by_cases hset : set = 0
  · -- nothing is asked for
    rw [rtEventRecv, if_pos hset]
    refine ⟨hs.served.cons hs.served.stranded ?_, hs.parked, hs.threads, hs.named⟩
    simp [Return.Right, Request.due, hset]
  by_cases hsat : (Request.mk t set option).Satisfied s.event.set
  · -- the bits are there
    rw [rtEventRecv_eq hset hsat]
    refine ⟨hs.served.cons (fun u hu hsat' => ?_) ?_,
      hs.parked.change (fun _ hu => by simp only [modify_of_ne hu]) fun hrecv => absurd hrecv hnot,
      hout _ fun _ hu => by simp only [modify_of_ne hu], hs.named⟩
    · exact hs.served.stranded u hu (hsat'.mono Request.left_sub)
    · have hdue : (Request.mk t set option).due s.event.set =
          some ((Request.mk t set option).received s.event.set) := if_pos ⟨hset, hsat⟩
      rw [Return.Right, hdue]
  rw [rtEventRecv, if_neg hset]
  simp only [bind_assoc]
  by_cases hflag : has option eventFlagAnd = true ∨ has option eventFlagOr = true
  · rw [@recvStatus_eq _ t _ _ hflag]
    simp only [hsat, decide_false, ok_bind, Bool.false_eq_true, if_false]
    by_cases hzero : timeout = 0
    · -- they are not, and the thread does not wait
      rw [if_pos hzero]
      simp only [setError, modify_modify]
      refine ⟨hs.served.cons hs.served.stranded ?_,
        hs.parked.change (fun _ hu => by simp only [modify_of_ne hu])
          fun hrecv => absurd hrecv hnot,
        hout _ fun _ hu => by simp only [modify_of_ne hu], hs.named⟩
      simp [Return.Right, Request.due, hsat]
    · -- the thread waits
      rw [if_neg hzero]
      simp only [setError, modify_modify, bind_assoc]
      have hrun' : (modify s.event.threads t (fun x =>
          { x with error := .eok, eventSet := set, eventInfo := option }) t).suspended = false := by
        rw [modify_self]
        exact hrun
      refine (block_meets hrun').bind ?_
      rintro threads ⟨b, rfl⟩
      rw [modify_modify]
      have hrecv : ∀ u,
          Function.update s.receiving t true u = true ↔ u = t ∨ s.receiving u = true := by
        intro u
        by_cases hu : u = t
        · simp [hu]
        · simp [hu]
      refine ⟨⟨?_, hs.served.returns⟩,
        hs.parked.insert hrun (fun _ hu => by simp only [modify_of_ne hu])
          (by simp only [modify_self]) hrecv, ?_, ?_⟩
      · intro u hu
        show ¬(Function.update s.ledger.request t (Request.mk t set option) u).Satisfied s.event.set
        by_cases hut : u = t
        · rw [hut, Function.update_self]
          exact hsat
        · rw [Function.update_of_ne hut]
          exact hs.served.stranded u ((mem_listInsert.mp hu).resolve_left hut)
      · refine forall_of_ne t hs.threads (fun u hu h => ?_) ?_
        · simpa only [modify_of_ne hu, Function.update_of_ne hu] using h
        · intro _
          simpa using hflag
      · refine forall_of_ne t hs.named (fun u hu h => ?_) ?_
        · simpa only [Function.update_of_ne hu] using h
        · simp
  · rw [recvStatus_error hflag]
    rfl

theorem woken_inv (hs : Inv s) (hrecv : s.receiving t = true)
    (hrun : (s.event.threads t).suspended = false) :
    Meets (· = .assertion) Inv (step s (.woken t)) := by
  have hthread := hs.threads t hrecv
  rw [hrun] at hthread
  have hdue : s.ledger.due t =
      if (s.event.threads t).error = .eok then some (s.event.threads t).eventSet else none :=
    hthread.2
  refine ⟨hs.served.cons hs.served.stranded ?_, ?_, ?_, hs.named⟩
  · rw [Return.Right, hdue, rtEventRecvWoken]
    by_cases herr : (s.event.threads t).error = .eok
    · simp [herr]
    · simp [herr]
  · refine hs.parked.congr fun u => ?_
    by_cases hu : u = t
    · simp [hu, hrun]
    · simp [hu]
  · refine forall_of_ne t hs.threads (fun u hu h => ?_) ?_
    · simpa only [Function.update_of_ne hu] using h
    · simp [ThreadOk]

theorem timeout_inv (hs : Inv s) (hrecv : s.receiving t = true)
    (htimer : (s.event.threads t).timer = true) :
    Meets (· = .assertion) Inv (step s (.timeout t)) := by
  have hthread := hs.threads t hrecv
  cases hsusp : (s.event.threads t).suspended with
  | false =>
      rw [hsusp] at hthread
      have hoff : (s.event.threads t).timer = false := hthread.1
      rw [htimer] at hoff
      cases hoff
  | true =>
      rw [hsusp] at hthread
      have hdue : s.ledger.due t = none := hthread.2.1
      rw [step, eventTimeout, threadTimeout, hsusp, setError, wake, modify_modify]
      refine ⟨⟨fun u hu => hs.served.stranded u (List.mem_of_mem_erase hu), hs.served.returns⟩,
        hs.parked.erase (fun _ hu => by simp only [modify_of_ne hu])
          (by simp only [modify_self]), ?_, hs.named⟩
      refine forall_of_ne t hs.threads (fun u hu h => ?_) ?_
      · simpa only [modify_of_ne hu] using h
      · simp [ThreadOk, hdue]

theorem control_inv (hs : Inv s) (cmd : Int) :
    Meets (· = .assertion) Inv (step s (.control cmd)) := by
  rw [step, rtEventControl]
  by_cases hcmd : cmd = ipcCmdReset
  · rw [if_pos hcmd]
    obtain ⟨threads, hall, hparked, hin, hout⟩ := hs.parked.resumeAll
    rw [hall]
    refine ⟨⟨fun u hu => ?_, hs.served.returns⟩, hparked, fun t => ?_, hs.named⟩
    · cases hu
    · show ThreadOk (threads t) (s.receiving t) (s.ledger.request t) (s.ledger.due t)
      by_cases hmem : t ∈ s.event.suspendThread
      · have hdue : s.ledger.due t = none := (hs.waiting hmem).2.1
        rw [hin t hmem]
        simp [ThreadOk, hdue]
      · rw [hout t hmem]
        exact hs.threads t
  · rw [if_neg hcmd]
    exact ⟨⟨hs.served.stranded, hs.served.returns⟩, hs.parked, hs.threads, hs.named⟩

theorem step_inv (s : EventSys) (e : Event) (hs : Inv s) (he : Enabled s e) :
    Meets (· = .assertion) Inv (step s e) := by
  cases e with
  | recv t set option timeout => exact recv_inv hs he.1 he.2 set option timeout
  | woken t => exact woken_inv hs he.1 he.2
  | send set => exact send_inv hs set
  | timeout t => exact timeout_inv hs he.1 he.2
  | control cmd => exact control_inv hs cmd
  | priority t p =>
      refine ⟨⟨hs.served.stranded, hs.served.returns⟩,
        hs.parked.change (t := t) (fun _ hu => by simp only [modify_of_ne hu]) fun _ => by
          simp only [modify_self], ?_, hs.named⟩
      refine forall_of_ne t hs.threads (fun u hu h => ?_) ?_
      · simpa only [modify_of_ne hu] using h
      · have hthread := hs.threads t
        show ThreadOk (modify s.event.threads t _ t) _ _ _
        rw [modify_self]
        exact hthread
  | other t x =>
      have hidle : s.receiving t = false := he
      refine ⟨⟨hs.served.stranded, hs.served.returns⟩, ?_, ?_, hs.named⟩
      · refine hs.parked.congr fun u => ?_
        by_cases hu : u = t
        · simp [hu, hidle]
        · simp [hu]
      · refine forall_of_ne t hs.threads (fun u hu h => ?_) ?_
        · simpa only [Function.update_of_ne hu] using h
        · intro hrecv
          rw [hidle] at hrecv
          cases hrecv

end Steps

theorem init_inv (threads : Threads) (flag : Flag) : Inv (init threads flag) := by
  refine ⟨⟨?_, ?_⟩, Parked.nil (fun _ h => by cases h), ?_, fun _ => rfl⟩
  · intro t ht
    cases ht
  · intro r hr
    cases hr
  · intro t hrecv
    cases hrecv

/-- What a send does to the threads that wait: it serves their requests in the order of the
list. -/
structure Sends (s : EventSys) (set : Bits) : Prop where
  returned : (rtEventSend s.event set).2 = .eok
  left : (rtEventSend s.event set).1.set = (serve (s.event.set ||| set) (requests s)).1
  received : ∀ t bits, (t, bits) ∈ (serve (s.event.set ||| set) (requests s)).2 →
    ((rtEventSend s.event set).1.threads t).suspended = false ∧
      ((rtEventSend s.event set).1.threads t).error = .eok ∧
      ((rtEventSend s.event set).1.threads t).eventSet = bits
  waiting : ∀ t, (∀ bits, (t, bits) ∉ (serve (s.event.set ||| set) (requests s)).2) →
    (rtEventSend s.event set).1.threads t = s.event.threads t

/-- What a receive does that is satisfied at once: it serves its own request. -/
def Receives (s : EventSys) (q : Request) : Prop :=
  ∀ timeout, ∃ event bits,
    rtEventRecv s.event q.thread q.set q.option timeout = .ok (event, some (.eok, some bits)) ∧
      (event.set, [(q.thread, bits)]) = serve s.event.set [q]

theorem Inv.sends {s : EventSys} (hs : Inv s) {set : Bits} (hset : set ≠ 0) : Sends s set := by
  have hrequests : s.event.suspendThread.map (requestOf s.event.threads) = requests s :=
    List.map_congr_left fun t ht => (hs.waiting ht).2.2.1
  obtain ⟨hret, hleft, hin, hout⟩ :=
    @sendWalk_eq { s.event with set := s.event.set ||| set } _ hs.parked.nodup
      fun t ht => (hs.waiting ht).2.2.2
  simp only [hrequests] at hleft hin hout
  have hsend : rtEventSend s.event set =
      sendWalk { s.event with set := s.event.set ||| set } s.event.suspendThread := by
    rw [rtEventSend, if_neg hset]
  refine ⟨?_, ?_, ?_, ?_⟩
  · rw [hsend]
    exact hret
  · rw [hsend]
    exact hleft
  · intro t bits hbits
    have hmem : t ∈ s.event.suspendThread := by
      have hmem := mem_serve hbits
      rw [requests, List.map_map] at hmem
      obtain ⟨u, hu, heq⟩ := List.mem_map.mp hmem
      have hname : u = t := by rw [← heq, Function.comp_apply, hs.named u]
      rwa [← hname]
    rw [hsend, hin t bits hbits]
    exact ⟨rfl, (hs.waiting hmem).1, rfl⟩
  · intro t ht
    rw [hsend]
    exact hout t ht

private theorem receives (s : EventSys) {q : Request} (hset : q.set ≠ 0)
    (hsat : q.Satisfied s.event.set) :
    Receives s q := by
  intro timeout
  refine ⟨_, _, rtEventRecv_eq hset hsat, ?_⟩
  rw [serve, if_pos hsat]
  rfl

/-- **Every run.**  No thread is stranded and every receive got what it was to get; a send and
a receive that is satisfied at once serve the same requests alike.  A run stops only at an
option without a flag or at a waiting time that the timer does not take. -/
theorem event_served (threads : Threads) (flag : Flag) (es : List Event)
    (hes : Guarded step Enabled (init threads flag) es) :
    Meets (· = .assertion)
      (fun s => Served s ∧ (∀ set, set ≠ 0 → Sends s set) ∧
        ∀ q : Request, q.set ≠ 0 → q.Satisfied s.event.set → Receives s q)
      (run step (init threads flag) es) :=
  (run_meets step_inv (init_inv threads flag) hes).mono fun s hs =>
    ⟨hs.served, fun _ hset => hs.sends hset, fun _ hset hsat => receives s hset hsat⟩

/-- Two threads wait for a bit; the first one has it cleared. -/
theorem event_served_cleared : ∃ s, run step (init (fun _ => ⟨false, 10, .eok, false, 0, 0⟩) .fifo)
    [.recv 1 1 6 5, .recv 2 1 2 5, .send 1, .woken 1] = .ok s ∧ Served s := by
  have hes : Guarded step Enabled (init (fun _ => ⟨false, 10, .eok, false, 0, 0⟩) .fifo)
      [.recv 1 1 6 5, .recv 2 1 2 5, .send 1, .woken 1] := by
    refine ⟨⟨rfl, rfl⟩, fun s₁ h₁ => ⟨?_, fun s₂ h₂ => ⟨trivial, fun s₃ h₃ => ⟨?_, fun _ _ =>
      trivial⟩⟩⟩⟩
    · rw [← Except.ok.inj h₁]
      exact ⟨rfl, rfl⟩
    · rw [← Except.ok.inj h₁] at h₂
      rw [← Except.ok.inj h₂] at h₃
      rw [← Except.ok.inj h₃]
      exact ⟨rfl, rfl⟩
  have hreturns : (run step (init (fun _ => ⟨false, 10, .eok, false, 0, 0⟩) .fifo)
      [.recv 1 1 6 5, .recv 2 1 2 5, .send 1, .woken 1]).map
      (fun s => (s.ledger.returns, s.event.suspendThread)) =
      .ok ([⟨1, (.eok, some 1), some 1⟩], [2]) := by decide
  obtain ⟨s, hrun, -⟩ := exists_of_map_eq_ok hreturns
  exact ⟨s, hrun, ((event_served _ _ _ hes).of_ok hrun).1⟩

end RtHypervisor.Ports.EventFlags
