import RtHypervisor.Ports.DataQueue

/-!
# Data queues as bounded queues

Any number of threads push, pop, peek and reset; the items are logged when they are pushed and
when they are popped.  A reset enables the interrupts before it resumes the threads that wait,
and between looking at a list and resuming its first thread; a peek looks at the queue before it
disables them.

`dataqueue_fifo` says which runs deliver every item once and in order, and strand no thread.
-/

namespace RtHypervisor.Ports.DataQueue

open RtHypervisor.Verified.Run
open RtHypervisor.Verified
open RtHypervisor.Ports.Ipc

/-- Where a thread is in the calls of a data queue: waiting in a push or a pop, in a peek that
has found an item, or in a reset: in front of `rt_enter_critical`, of looking at a list, or of
resuming its first thread. -/
inductive Phase
  | idle
  | pushing (item : DataItem) (timeout : BitVec 32)
  | popping (timeout : BitVec 32)
  | peeking
  | resetting
  | checking (side : Side)
  | waking (side : Side)
deriving DecidableEq, Repr

/-- The list a thread waits in. -/
def Phase.side : Phase → Option Side
  | .pushing .. => some .send
  | .popping _ => some .recv
  | _ => none

def Phase.timeout : Phase → BitVec 32
  | .pushing _ timeout | .popping timeout => timeout
  | _ => 0

def Phase.inReset : Phase → Bool
  | .resetting | .checking _ | .waking _ => true
  | _ => false

/-- `lock` is the thread that has locked the scheduler.  `accepted` are the items pushed that no
reset has discarded, `delivered` those popped; a peek is logged with the first item at its
time. -/
structure System where
  queue : RtDataQueue
  phase : ThreadId → Phase
  lock : Option ThreadId
  accepted : List DataItem
  delivered : List DataItem
  peeks : List (DataItem × Option DataItem)

def stored (s : System) : List DataItem := s.accepted.drop s.delivered.length

inductive Event
  | push (t : ThreadId) (item : DataItem) (timeout : BitVec 32)
  | pop (t : ThreadId) (timeout : BitVec 32)
  | woken (t : ThreadId)
  | timeout (t : ThreadId)
  | peek (t : ThreadId)
  | peekRead (t : ThreadId)
  | reset (t : ThreadId)
  | enter (t : ThreadId)
  | check (t : ThreadId)
  | wake (t : ThreadId)
  | other (t : ThreadId) (x : Thread)
deriving DecidableEq, Repr

/-- `RT_TICK_MAX / 2`, which `rt_timer_start` does not take. -/
def rtTickHalf : BitVec 32 := 0x7fffffff

/-- The thread is not suspended, and the scheduler not locked by another. -/
def MayRun (s : System) (t : ThreadId) : Prop :=
  (s.queue.threads t).suspended = false ∧ ∀ u ∈ s.lock, u = t

instance (s : System) (t : ThreadId) : Decidable (MayRun s t) :=
  inferInstanceAs (Decidable (_ ∧ _))

/-- The timer of a thread runs out while it is active, and what a thread does elsewhere, it does
outside the calls of the data queue. -/
def Enabled (s : System) : Event → Prop
  | .push t _ timeout => MayRun s t ∧ s.phase t = .idle ∧ timeout ≠ rtTickHalf
  | .pop t timeout => MayRun s t ∧ s.phase t = .idle ∧ timeout ≠ rtTickHalf
  | .woken t => MayRun s t ∧ (s.phase t).side ≠ none
  | .timeout t => (s.phase t).side ≠ none ∧ (s.queue.threads t).timer = true
  | .peek t | .reset t => MayRun s t ∧ s.phase t = .idle
  | .peekRead t => MayRun s t ∧ s.phase t = .peeking
  | .enter t => MayRun s t ∧ s.phase t = .resetting
  | .check t => MayRun s t ∧ (s.phase t matches .checking _) = true
  | .wake t => MayRun s t ∧ (s.phase t matches .waking _) = true
  | .other t _ => s.phase t = .idle

instance (s : System) : ∀ e, Decidable (Enabled s e)
  | .push .. | .pop .. => inferInstanceAs (Decidable (_ ∧ _ ∧ _))
  | .woken _ | .timeout _ | .peek _ | .reset _ | .peekRead _ | .enter _ | .check _ | .wake _ =>
      inferInstanceAs (Decidable (_ ∧ _))
  | .other .. => inferInstanceAs (Decidable (_ = _))

def System.setPhase (s : System) (t : ThreadId) (p : Phase) : System :=
  { s with phase := Function.update s.phase t p }

/-- A push has gone on to where it returns or waits. -/
def afterPush (s : System) (t : ThreadId) (item : DataItem) (timeout : BitVec 32)
    (q : RtDataQueue) : Outcome → System
  | .returned e _ =>
      { s with queue := q, accepted := if e = .eok then s.accepted ++ [item] else s.accepted }
  | .blocked => { s.setPhase t (.pushing item timeout) with queue := q }

/-- A pop has gone on to where it returns or waits. -/
def afterPop (s : System) (t : ThreadId) (timeout : BitVec 32) (q : RtDataQueue) :
    Outcome → System
  | .returned _ item => { s with queue := q, delivered := s.delivered ++ item.toList }
  | .blocked => { s.setPhase t (.popping timeout) with queue := q }

def step (s : System) : Event → Except Fault System
  | .push t item timeout => do
      let (q, o) ← rtDataQueuePush s.queue t item timeout
      pure (afterPush s t item timeout q o)
  | .pop t timeout => do
      let (q, o) ← rtDataQueuePop s.queue t timeout
      pure (afterPop s t timeout q o)
  | .woken t =>
      match s.phase t with
      | .pushing item timeout => do
          let (q, o) ← pushWoken s.queue t item timeout
          pure (afterPush (s.setPhase t .idle) t item timeout q o)
      | .popping timeout => do
          let (q, o) ← popWoken s.queue t timeout
          pure (afterPop (s.setPhase t .idle) t timeout q o)
      | _ => pure s
  | .timeout t => do
      let q ← queueTimeout s.queue t
      pure { s with queue := q }
  | .peek t => pure (if s.queue.isEmpty then s else s.setPhase t .peeking)
  | .peekRead t => do
      let item ← peekItem s.queue
      pure { s.setPhase t .idle with peeks := (item, (stored s).head?) :: s.peeks }
  | .reset t =>
      pure { s.setPhase t .resetting with
        queue := rtDataQueueReset s.queue
        accepted := s.delivered }
  | .enter t => pure { s.setPhase t (.checking .recv) with lock := some t }
  | .check t =>
      match s.phase t with
      | .checking side =>
          if s.queue.list side ≠ [] then pure (s.setPhase t (.waking side))
          else
            match side with
            | .recv => pure (s.setPhase t (.checking .send))
            | .send => pure { s.setPhase t .idle with lock := none }
      | _ => pure s
  | .wake t =>
      match s.phase t with
      | .waking side => do
          let q ← resetWake s.queue side
          pure { s.setPhase t (.checking side) with queue := q }
      | _ => pure s
  | .other t x =>
      pure { s with queue := { s.queue with threads := Function.update s.queue.threads t x } }

/-- A new data queue, among threads in any state. -/
def boot (threads : Threads) (queue : Nat → DataItem) (size lwm : BitVec 16) : System where
  queue := rtDataQueueInit threads queue size lwm
  phase := fun _ => .idle
  lock := none
  accepted := []
  delivered := []
  peeks := []

/-- No thread that was resumed is still to run, and none is going to be by a reset. -/
def Quiet (s : System) : Prop :=
  ∀ t, ((s.phase t).side ≠ none → (s.queue.threads t).suspended = true) ∧
    (s.phase t).inReset = false

/-- A thread is suspended in a push or a pop. -/
def Suspended (s : System) (side : Side) : Prop :=
  ∃ t, (s.phase t).side = some side ∧ (s.queue.threads t).suspended = true

/-- A data queue is a bounded queue that delivers every item once and in order, and strands no
thread. -/
structure Fifo (s : System) : Prop where
  order : s.delivered <+: s.accepted
  empty : s.queue.isEmpty = true ↔ stored s = []
  full : s.queue.isFull = true ↔ (stored s).length = s.queue.size.toNat
  len : (rtDataQueueLen s.queue).toNat = (stored s).length
  peeks : ∀ r ∈ s.peeks, r.2 = some r.1
  pop : Quiet s → Suspended s .recv → stored s = []
  push : Quiet s → Suspended s .send →
    (stored s).length = s.queue.size.toNat ∨ s.queue.lwm.toNat < (stored s).length

/-- The put index does not go around before the end of the ring. -/
def Fits (q : RtDataQueue) : Prop := q.size.toNat ≤ 2 ^ 15 ∨ q.putIndex.toNat + 1 < 2 ^ 15

instance (q : RtDataQueue) : Decidable (Fits q) := inferInstanceAs (Decidable (_ ∨ _))

/-- A push goes around at the end of the ring, a peek reads the item it has seen, and a reset
resumes a thread it has seen. -/
def Sound (s : System) : Event → Prop
  | .push .. => Fits s.queue
  | .woken t =>
      (s.phase t).side = some .send → (s.queue.threads t).error = .eok → Fits s.queue
  | .peekRead _ => s.queue.isEmpty = false
  | .wake t => ∀ side, s.phase t = .waking side → s.queue.list side ≠ []
  | _ => True

instance (s : System) : ∀ e, Decidable (Sound s e)
  | .push .. => inferInstanceAs (Decidable (Fits _))
  | .woken _ => inferInstanceAs (Decidable (_ → _))
  | .peekRead _ => inferInstanceAs (Decidable (_ = _))
  | .wake t =>
      match h : s.phase t with
      | .waking side => decidable_of_iff (s.queue.list side ≠ []) (by simp [Sound, h])
      | .idle | .pushing .. | .popping _ | .peeking | .resetting | .checking _ =>
          isTrue (by simp [Sound, h])
  | .pop .. | .timeout _ | .peek _ | .reset _ | .enter _ | .check _ | .other .. =>
      inferInstanceAs (Decidable True)

/-! ## The threads -/

/-- The threads that wait are where `phase` says, and have no error while they are suspended. -/
structure ThreadsOk (q : RtDataQueue) (phase : ThreadId → Phase) : Prop where
  lists : TwoLists q.threads q.suspendedPopList q.suspendedPushList fun t => (phase t).side
  errors : ∀ t, (phase t).side ≠ none → (q.threads t).suspended = true →
    (q.threads t).error = .eok

/-- Threads that were resumed without an error, and have not yet run. -/
structure Resumed (ts : Threads) (phase : ThreadId → Phase) (side : Side) (l : List ThreadId) :
    Prop where
  nodup : l.Nodup
  mem : ∀ t ∈ l, (phase t).side = some side ∧ (ts t).suspended = false ∧ (ts t).error = .eok

section Threads

variable {q : RtDataQueue} {ts ts' : Threads} {phase : ThreadId → Phase} {side : Side}
  {l list : List ThreadId} {t : ThreadId} {p : Phase}

/-- A thread changes that was not resumed. -/
theorem Resumed.change (h : Resumed ts phase side l) (ht : t ∉ l)
    (hne : ∀ u, u ≠ t → ts' u = ts u) : Resumed ts' phase side l := by
  refine ⟨h.nodup, fun u hu => ?_⟩
  rw [hne u fun heq => ht (heq ▸ hu)]
  exact h.mem u hu

theorem Resumed.not_mem (h : Resumed ts phase side l) (hsusp : (ts t).suspended = true) :
    t ∉ l := by
  intro hmem
  rw [(h.mem t hmem).2.1] at hsusp
  cases hsusp

theorem Resumed.not_mem_side (h : Resumed ts phase side l) (hside : (phase t).side ≠ some side) :
    t ∉ l := fun hmem => hside (h.mem t hmem).1

/-- Another thread is resumed. -/
theorem Resumed.cons (h : Resumed ts phase side l) (hside : (phase t).side = some side)
    (hsusp : (ts t).suspended = true) (herr : (ts t).error = .eok) :
    Resumed (wake ts t) phase side (t :: l) := by
  refine ⟨List.nodup_cons.mpr ⟨h.not_mem hsusp, h.nodup⟩, fun u hu => ?_⟩
  rcases List.mem_cons.mp hu with rfl | hu
  · rw [wake_self]
    exact ⟨hside, rfl, herr⟩
  · have hut : u ≠ t := fun heq => h.not_mem hsusp (heq ▸ hu)
    rw [wake_of_ne hut]
    exact h.mem u hu

/-- A thread goes on to another part of the code. -/
theorem Resumed.erase (h : Resumed ts phase side l) :
    Resumed ts (Function.update phase t p) side (l.erase t) := by
  refine ⟨h.nodup.erase t, fun u hu => ?_⟩
  obtain ⟨hut, hmem⟩ := h.nodup.mem_erase_iff.mp hu
  rw [Function.update_of_ne hut]
  exact h.mem u hmem

theorem Resumed.setPhase (h : Resumed ts phase side l) (ht : t ∉ l) :
    Resumed ts (Function.update phase t p) side l := by
  have herase : Resumed ts (Function.update phase t p) side (l.erase t) := h.erase
  rwa [List.erase_of_not_mem ht] at herase

/-- A thread that is suspended is in the list of its side. -/
theorem ThreadsOk.mem (h : ThreadsOk q phase) (hside : (phase t).side = some side)
    (hsusp : (q.threads t).suspended = true) : t ∈ q.list side :=
  ((h.lists.queues side).mem_iff t).mpr ⟨hside, hsusp⟩

/-- A thread that does not wait changes. -/
theorem ThreadsOk.change (h : ThreadsOk q phase) (hside : (phase t).side = none)
    (hne : ∀ u, u ≠ t → ts' u = q.threads u) : ThreadsOk { q with threads := ts' } phase := by
  refine ⟨h.lists.change hside hne, ?_⟩
  refine forall_of_ne t h.errors (fun u hu hold => ?_) fun hp => absurd hside hp
  simp only [hne u hu]
  exact hold

/-- A running thread goes on to a part of the code where it does not wait. -/
theorem ThreadsOk.setPhase (h : ThreadsOk q phase) (hrun : (q.threads t).suspended = false)
    (hp : p.side = none) : ThreadsOk q (Function.update phase t p) := by
  refine ⟨h.lists.leave hrun (fun u hu => ?_) ?_, fun u hu => ?_⟩
  · rw [Function.update_of_ne hu]
  · rw [Function.update_self]
    exact hp
  · by_cases hut : u = t
    · subst hut
      rw [Function.update_self] at hu
      exact absurd hp hu
    · rw [Function.update_of_ne hut] at hu
      exact h.errors u hu

/-- The thread that begins to wait has no error. -/
theorem waits_errors (h : ThreadsOk q phase) (hne : ∀ u, u ≠ t → ts' u = q.threads u)
    (herr : (ts' t).error = .eok) :
    ∀ u, (Function.update phase t p u).side ≠ none → (ts' u).suspended = true →
      (ts' u).error = .eok := by
  refine forall_of_ne t h.errors (fun u hu hold => ?_) fun _ _ => herr
  rwa [Function.update_of_ne hu, hne u hu]

theorem ThreadsOk.waitPush (h : ThreadsOk q phase) (hside : (phase t).side = none)
    (hrun : (q.threads t).suspended = false) (hne : ∀ u, u ≠ t → ts' u = q.threads u)
    (hsusp : (ts' t).suspended = true) (herr : (ts' t).error = .eok) (hp : p.side = some .send)
    {us : Threads} :
    ThreadsOk { q with
      threads := ts', suspendedPushList := listInsert us q.suspendedPushList t .fifo }
      (Function.update phase t p) := by
  have hlists : TwoLists ts' q.suspendedPopList (listInsert us q.suspendedPushList t .fifo)
      fun u => (Function.update phase t p u).side := by
    refine h.lists.waitSend hside hrun hne hsusp (fun u hu => ?_) ?_
    · rw [Function.update_of_ne hu]
    · rw [Function.update_self]
      exact hp
  exact ⟨hlists, waits_errors h hne herr⟩

theorem ThreadsOk.waitPop (h : ThreadsOk q phase) (hside : (phase t).side = none)
    (hrun : (q.threads t).suspended = false) (hne : ∀ u, u ≠ t → ts' u = q.threads u)
    (hsusp : (ts' t).suspended = true) (herr : (ts' t).error = .eok) (hp : p.side = some .recv)
    {us : Threads} :
    ThreadsOk { q with
      threads := ts', suspendedPopList := listInsert us q.suspendedPopList t .fifo }
      (Function.update phase t p) := by
  have hlists : TwoLists ts' (listInsert us q.suspendedPopList t .fifo) q.suspendedPushList
      fun u => (Function.update phase t p u).side := by
    refine h.lists.waitRecv hside hrun hne hsusp (fun u hu => ?_) ?_
    · rw [Function.update_of_ne hu]
    · rw [Function.update_self]
      exact hp
  exact ⟨hlists, waits_errors h hne herr⟩

/-- The first thread that waits for an item is resumed, if there is one. -/
theorem resumePop_cases (h : ThreadsOk q phase) :
    (q.suspendedPopList = [] ∧ resumePop q = q) ∨
      ∃ t list, q.suspendedPopList = t :: list ∧ (phase t).side = some .recv ∧
        (q.threads t).suspended = true ∧
        resumePop q = { q with threads := wake q.threads t, suspendedPopList := list } := by
  cases hlist : q.suspendedPopList with
  | nil =>
      refine Or.inl ⟨rfl, ?_⟩
      rw [resumePop, if_neg (not_not.mpr hlist)]
  | cons t list =>
      have hparked := h.lists.queues .recv
      simp only [lists, hlist] at hparked
      obtain ⟨hside, hsusp⟩ := (hparked.mem_iff t).mp (List.mem_cons_self ..)
      refine Or.inr ⟨t, list, rfl, hside, hsusp, ?_⟩
      rw [resumePop, hlist, if_pos (by simp), hparked.resume_eq]

/-- The first thread that waits for room is resumed, if there is one. -/
theorem resumePush_cases (h : ThreadsOk q phase) :
    (q.suspendedPushList = [] ∧ resumePush q = q) ∨
      ∃ t list, q.suspendedPushList = t :: list ∧ (phase t).side = some .send ∧
        (q.threads t).suspended = true ∧
        resumePush q = { q with threads := wake q.threads t, suspendedPushList := list } := by
  cases hlist : q.suspendedPushList with
  | nil =>
      refine Or.inl ⟨rfl, ?_⟩
      rw [resumePush, if_neg (not_not.mpr hlist)]
  | cons t list =>
      have hparked := h.lists.queues .send
      simp only [lists, hlist] at hparked
      obtain ⟨hside, hsusp⟩ := (hparked.mem_iff t).mp (List.mem_cons_self ..)
      refine Or.inr ⟨t, list, rfl, hside, hsusp, ?_⟩
      rw [resumePush, hlist, if_pos (by simp), hparked.resume_eq]

/-- Resuming a thread leaves no error behind. -/
theorem wake_errors (h : ∀ u, (phase u).side ≠ none → (ts u).suspended = true →
      (ts u).error = .eok) :
    ∀ u, (phase u).side ≠ none → (wake ts t u).suspended = true → (wake ts t u).error = .eok := by
  refine forall_of_ne t h (fun u hu hold => ?_) fun _ hsusp => ?_
  · rwa [wake_of_ne hu]
  · rw [wake_self] at hsusp
    cases hsusp

private theorem resumePop_threads (h : ThreadsOk q phase) : ThreadsOk (resumePop q) phase := by
  rcases resumePop_cases h with ⟨-, heq⟩ | ⟨t, list, hlist, -, -, heq⟩
  · rw [heq]
    exact h
  · rw [heq]
    have hlists := h.lists
    rw [hlist] at hlists
    exact ⟨hlists.resumeReceiver, wake_errors h.errors⟩

private theorem resumePush_threads (h : ThreadsOk q phase) : ThreadsOk (resumePush q) phase := by
  rcases resumePush_cases h with ⟨-, heq⟩ | ⟨t, list, hlist, -, -, heq⟩
  · rw [heq]
    exact h
  · rw [heq]
    have hlists := h.lists
    rw [hlist] at hlists
    exact ⟨hlists.resumeSender, wake_errors h.errors⟩

/-- One more thread is resumed while others wait. -/
theorem resumePop_resumed (h : ThreadsOk q phase) (hr : Resumed q.threads phase .recv l) :
    ∃ l', Resumed (resumePop q).threads phase .recv l' ∧
      ((resumePop q).suspendedPopList ≠ [] →
        q.suspendedPopList ≠ [] ∧ l'.length = l.length + 1) := by
  rcases resumePop_cases h with ⟨hnil, heq⟩ | ⟨t, list, hlist, hside, hsusp, heq⟩
  · rw [heq]
    exact ⟨l, hr, fun hne => absurd hnil hne⟩
  · rw [heq]
    refine ⟨t :: l, hr.cons hside hsusp (h.errors t (by rw [hside]; simp) hsusp), fun _ => ?_⟩
    rw [hlist]
    exact ⟨List.cons_ne_nil t list, List.length_cons ..⟩

private theorem resumePush_resumed (h : ThreadsOk q phase) (hr : Resumed q.threads phase .send l) :
    ∃ l', Resumed (resumePush q).threads phase .send l' ∧
      ((resumePush q).suspendedPushList ≠ [] →
        q.suspendedPushList ≠ [] ∧ l'.length = l.length + 1) := by
  rcases resumePush_cases h with ⟨hnil, heq⟩ | ⟨t, list, hlist, hside, hsusp, heq⟩
  · rw [heq]
    exact ⟨l, hr, fun hne => absurd hnil hne⟩
  · rw [heq]
    refine ⟨t :: l, hr.cons hside hsusp (h.errors t (by rw [hside]; simp) hsusp), fun _ => ?_⟩
    rw [hlist]
    exact ⟨List.cons_ne_nil t list, List.length_cons ..⟩

/-- The threads resumed before stay so. -/
theorem resumePop_keeps (h : ThreadsOk q phase) (hr : Resumed q.threads phase side l) :
    Resumed (resumePop q).threads phase side l := by
  rcases resumePop_cases h with ⟨-, heq⟩ | ⟨t, list, -, -, hsusp, heq⟩
  · rw [heq]
    exact hr
  · rw [heq]
    exact hr.change (hr.not_mem hsusp) fun _ hu => wake_of_ne hu

private theorem resumePush_keeps (h : ThreadsOk q phase) (hr : Resumed q.threads phase side l) :
    Resumed (resumePush q).threads phase side l := by
  rcases resumePush_cases h with ⟨-, heq⟩ | ⟨t, list, -, -, hsusp, heq⟩
  · rw [heq]
    exact hr
  · rw [heq]
    exact hr.change (hr.not_mem hsusp) fun _ hu => wake_of_ne hu

/-- Resuming threads leaves the ring alone. -/
theorem resumePop_ring {d : List DataItem} (h : RingOk q d) : RingOk (resumePop q) d := by
  rw [resumePop]
  split
  · exact h.congr rfl rfl rfl rfl rfl rfl
  · exact h

private theorem resumePush_ring {d : List DataItem} (h : RingOk q d) : RingOk (resumePush q) d := by
  rw [resumePush]
  split
  · exact h.congr rfl rfl rfl rfl rfl rfl
  · exact h

/-- What resuming a thread leaves alone besides. -/
theorem resumePop_frame : (resumePop q).size = q.size ∧ (resumePop q).lwm = q.lwm ∧
    (resumePop q).suspendedPushList = q.suspendedPushList := by
  rw [resumePop]
  split <;> exact ⟨rfl, rfl, rfl⟩

private theorem resumePush_frame : (resumePush q).size = q.size ∧ (resumePush q).lwm = q.lwm ∧
    (resumePush q).suspendedPopList = q.suspendedPopList := by
  rw [resumePush]
  split <;> exact ⟨rfl, rfl, rfl⟩

/-- A running thread begins to wait. -/
theorem block_eq {timeout : BitVec 32} (htimeout : timeout ≠ rtTickHalf)
    (hrun : (q.threads t).suspended = false) :
    ∃ us ts', block q list t timeout = .ok (ts', listInsert us list t .fifo) ∧
      (∀ u, u ≠ t → ts' u = q.threads u) ∧ (ts' t).suspended = true ∧ (ts' t).error = .eok := by
  have hset : (setError q.threads t .eok t).suspended = false := by
    rw [setError_self]
    exact hrun
  have hsusp := rtThreadSuspend_of_running hset
  obtain ⟨b, hstart⟩ := @startTimer_ok (rtThreadSuspend (setError q.threads t .eok) t) t timeout
    htimeout
  refine ⟨rtThreadSuspend (setError q.threads t .eok) t,
    Ipc.modify (rtThreadSuspend (setError q.threads t .eok) t) t
      fun x => { x with timer := x.timer || b }, ?_, fun u hu => ?_, ?_, ?_⟩
  · rw [block]
    simp only [ipcListSuspend, hstart]
    rfl
  · rw [modify_of_ne hu, hsusp, modify_of_ne hu, setError_of_ne _ hu]
  · rw [modify_self, hsusp, modify_self]
  · rw [modify_self, hsusp, modify_self, setError_self]

end Threads

/-! ## The invariant -/

/-- While threads wait for an item, a resumed thread has yet to pop each item there is, up to
`owed`. -/
def Pops (owed n : Nat) (q : RtDataQueue) (phase : ThreadId → Phase) : Prop :=
  ∃ l, Resumed q.threads phase .recv l ∧ (q.suspendedPopList ≠ [] → n ≤ l.length + owed)

/-- While threads wait for room, there are more items than the low-water mark, with those that
resumed threads have yet to push, up to `owed`. -/
def Pushes (owed n : Nat) (q : RtDataQueue) (phase : ThreadId → Phase) : Prop :=
  ∃ l, Resumed q.threads phase .send l ∧
    (q.suspendedPushList ≠ [] →
      min q.lwm.toNat (q.size.toNat - 1) < n + l.length + owed)

/-- A pop, or a push, is on its way that the threads do not show. -/
structure Inv (owedPop owedPush : Nat) (s : System) : Prop where
  ring : RingOk s.queue (stored s)
  order : s.delivered <+: s.accepted
  peeks : ∀ r ∈ s.peeks, r.2 = some r.1
  threads : ThreadsOk s.queue s.phase
  timeouts : ∀ t, (s.phase t).timeout ≠ rtTickHalf
  pops : Pops owedPop (stored s).length s.queue s.phase
  pushes : (∃ t, (s.phase t).inReset = true) ∨
    Pushes owedPush (stored s).length s.queue s.phase

section Inv

variable {s s' : System} {q : RtDataQueue} {phase : ThreadId → Phase} {t : ThreadId} {p : Phase}
  {a b n : Nat} {d : List DataItem} {item : DataItem} {timeout : BitVec 32}

private theorem stored_of_append (h : s.accepted = s.delivered ++ d) : stored s = d := by
  rw [stored, h, List.drop_left]

theorem Inv.accepted (hi : Inv a b s) : s.accepted = s.delivered ++ stored s := by
  obtain ⟨d, hd⟩ := hi.order
  rw [stored_of_append hd.symm, hd]

/-- Nothing more is said than before. -/
theorem Inv.mono (hi : Inv 0 0 s) : Inv a b s := by
  obtain ⟨l, hl, hpop⟩ := hi.pops
  refine ⟨hi.ring, hi.order, hi.peeks, hi.threads, hi.timeouts,
    ⟨l, hl, fun hne => by have := hpop hne; omega⟩, hi.pushes.imp_right ?_⟩
  rintro ⟨l, hl, hpush⟩
  exact ⟨l, hl, fun hne => by have := hpush hne; omega⟩

private theorem inReset_update (h : ∃ u, (phase u).inReset = true)
    (ht : (phase t).inReset = false) :
    ∃ u, (Function.update phase t p u).inReset = true := by
  obtain ⟨u, hu⟩ := h
  refine ⟨u, ?_⟩
  rw [Function.update_of_ne]
  · exact hu
  · rintro rfl
    rw [ht] at hu
    cases hu

private theorem timeouts_update (h : ∀ u, (phase u).timeout ≠ rtTickHalf)
    (hp : p.timeout ≠ rtTickHalf) :
    ∀ u, (Function.update phase t p u).timeout ≠ rtTickHalf := by
  refine forall_of_ne t h (fun u hu hold => ?_) ?_
  · rwa [Function.update_of_ne hu]
  · rwa [Function.update_self]

/-- A bounded queue strands no thread. -/
theorem Inv.fifo (hi : Inv 0 0 s) : Fifo s := by
  refine ⟨hi.order, hi.ring.empty, hi.ring.full, hi.ring.len, hi.peeks, fun hquiet hsusp => ?_,
    fun hquiet hsusp => ?_⟩
  · obtain ⟨t, hside, hsusp⟩ := hsusp
    obtain ⟨l, hl, hpop⟩ := hi.pops
    have hmem : t ∈ s.queue.suspendedPopList := hi.threads.mem hside hsusp
    have hnil : l = [] := by
      refine List.eq_nil_iff_forall_not_mem.mpr fun u hu => ?_
      obtain ⟨huside, hususp, -⟩ := hl.mem u hu
      rw [(hquiet u).1 (by rw [huside]; simp)] at hususp
      cases hususp
    have hlen := hpop (List.ne_nil_of_mem hmem)
    rw [hnil] at hlen
    exact List.length_eq_zero_iff.mp (Nat.le_zero.mp hlen)
  · obtain ⟨t, hside, hsusp⟩ := hsusp
    rcases hi.pushes with ⟨u, hu⟩ | ⟨l, hl, hpush⟩
    · rw [(hquiet u).2] at hu
      cases hu
    · have hmem : t ∈ s.queue.suspendedPushList := hi.threads.mem hside hsusp
      have hnil : l = [] := by
        refine List.eq_nil_iff_forall_not_mem.mpr fun u hu => ?_
        obtain ⟨huside, hususp, -⟩ := hl.mem u hu
        rw [(hquiet u).1 (by rw [huside]; simp)] at hususp
        cases hususp
      have hlen := hpush (List.ne_nil_of_mem hmem)
      have hcapacity := hi.ring.capacity
      rw [hnil, List.length_nil] at hlen
      omega

end Inv

/-! ## Steps -/

section Steps

variable {s s' : System} {q : RtDataQueue} {phase : ThreadId → Phase} {t : ThreadId} {p : Phase}
  {a b n : Nat} {d : List DataItem} {item : DataItem} {timeout : BitVec 32}

/-- A thread that waits nowhere goes on to another part of the code. -/
theorem Inv.setPhase (hi : Inv a b s) (hrun : (s.queue.threads t).suspended = false)
    (ht : (s.phase t).side = none) (hreset : (s.phase t).inReset = true → p.inReset = true)
    (hside : p.side = none) (htimeout : p.timeout ≠ rtTickHalf) : Inv a b (s.setPhase t p) := by
  obtain ⟨l, hl, hpop⟩ := hi.pops
  refine ⟨hi.ring, hi.order, hi.peeks, hi.threads.setPhase hrun hside,
    timeouts_update hi.timeouts htimeout,
    ⟨l, hl.setPhase (hl.not_mem_side (by rw [ht]; simp)), hpop⟩, ?_⟩
  rcases hi.pushes with hresets | ⟨l, hl, hpush⟩
  · refine Or.inl ?_
    cases hin : (s.phase t).inReset with
    | false => exact inReset_update hresets hin
    | true => exact ⟨t, by simp only [System.setPhase, Function.update_self]; exact hreset hin⟩
  · exact Or.inr ⟨l, hl.setPhase (hl.not_mem_side (by rw [ht]; simp)), hpush⟩

/-- A resumed thread that has an error does not count. -/
theorem Inv.leave (hi : Inv 0 0 s) (hrun : (s.queue.threads t).suspended = false)
    (hside : (s.phase t).side ≠ none) (herr : (s.queue.threads t).error ≠ .eok) :
    Inv 0 0 (s.setPhase t .idle) := by
  have hnot : (s.phase t).inReset = false := by
    cases hp : s.phase t <;> simp_all [Phase.side, Phase.inReset]
  obtain ⟨l, hl, hpop⟩ := hi.pops
  refine ⟨hi.ring, hi.order, hi.peeks, hi.threads.setPhase hrun rfl,
    timeouts_update hi.timeouts (by decide),
    ⟨l, hl.setPhase fun hmem => herr (hl.mem t hmem).2.2, hpop⟩, ?_⟩
  rcases hi.pushes with hresets | ⟨l, hl, hpush⟩
  · exact Or.inl (inReset_update hresets hnot)
  · exact Or.inr ⟨l, hl.setPhase fun hmem => herr (hl.mem t hmem).2.2, hpush⟩

/-- A thread that has waited in a push goes on: its push is owed. -/
theorem Inv.leavePush (hi : Inv 0 0 s) (hrun : (s.queue.threads t).suspended = false)
    (hside : (s.phase t).side = some .send) : Inv 0 1 (s.setPhase t .idle) := by
  obtain ⟨l, hl, hpop⟩ := hi.pops
  have hnot : (s.phase t).inReset = false := by
    cases hp : s.phase t <;> simp_all [Phase.side, Phase.inReset]
  refine ⟨hi.ring, hi.order, hi.peeks, hi.threads.setPhase hrun rfl,
    timeouts_update hi.timeouts (by decide),
    ⟨l, hl.setPhase (hl.not_mem_side (by rw [hside]; simp)), hpop⟩, ?_⟩
  rcases hi.pushes with hresets | ⟨l, hl, hpush⟩
  · exact Or.inl (inReset_update hresets hnot)
  · refine Or.inr ⟨l.erase t, hl.erase, fun hne => ?_⟩
    have hlen : l.length - 1 ≤ (l.erase t).length := List.le_length_erase
    have hmark := hpush hne
    show min s.queue.lwm.toNat (s.queue.size.toNat - 1) <
      (stored s).length + (l.erase t).length + 1
    omega

/-- A thread that has waited in a pop goes on: its pop is owed. -/
theorem Inv.leavePop (hi : Inv 0 0 s) (hrun : (s.queue.threads t).suspended = false)
    (hside : (s.phase t).side = some .recv) : Inv 1 0 (s.setPhase t .idle) := by
  obtain ⟨l, hl, hpop⟩ := hi.pops
  have hnot : (s.phase t).inReset = false := by
    cases hp : s.phase t <;> simp_all [Phase.side, Phase.inReset]
  refine ⟨hi.ring, hi.order, hi.peeks, hi.threads.setPhase hrun rfl,
    timeouts_update hi.timeouts (by decide), ⟨l.erase t, hl.erase, fun hne => ?_⟩, ?_⟩
  · have hlen : l.length - 1 ≤ (l.erase t).length := List.le_length_erase
    have hall := hpop hne
    show (stored s).length ≤ (l.erase t).length + 1
    omega
  · rcases hi.pushes with hresets | ⟨l, hl, hpush⟩
    · exact Or.inl (inReset_update hresets hnot)
    · exact Or.inr ⟨l, hl.setPhase (hl.not_mem_side (by rw [hside]; simp)), hpush⟩

/-- An item is pushed. -/
theorem put_inv (hi : Inv 0 1 s) (hroom : (stored s).length < s.queue.size.toNat)
    (hfits : Fits s.queue) (item : DataItem) :
    Inv 0 0 { s with
      queue := resumePop (appended s.queue item), accepted := s.accepted ++ [item] } := by
  have haccepted : s.accepted ++ [item] = s.delivered ++ (stored s ++ [item]) := by
    rw [hi.accepted, ← List.append_assoc, ← hi.accepted]
  have hthreads : ThreadsOk (appended s.queue item) s.phase := ⟨hi.threads.lists, hi.threads.errors⟩
  have hring : RingOk (appended s.queue item) (stored s ++ [item]) :=
    appended_ring hi.ring hroom hfits
  have hstored : stored { s with
      queue := resumePop (appended s.queue item), accepted := s.accepted ++ [item] } =
        stored s ++ [item] := stored_of_append haccepted
  obtain ⟨hsize, hlwm, hlist⟩ := resumePop_frame (q := appended s.queue item)
  obtain ⟨l, hl, hpop⟩ := hi.pops
  obtain ⟨l', hl', hone⟩ := resumePop_resumed hthreads hl
  refine ⟨?_, ⟨_, haccepted.symm⟩, hi.peeks, resumePop_threads hthreads, hi.timeouts,
    ⟨l', hl', fun hne => ?_⟩, hi.pushes.imp_right ?_⟩
  · rw [hstored]
    exact resumePop_ring hring
  · obtain ⟨hsome, hlen⟩ := hone hne
    have hall := hpop hsome
    rw [hstored, List.length_append, List.length_singleton]
    omega
  · rintro ⟨l, hl, hpush⟩
    refine ⟨l, resumePop_keeps hthreads hl, fun hne => ?_⟩
    have hmark := hpush (by rwa [hlist] at hne)
    rw [hsize, hlwm, hstored, List.length_append, List.length_singleton]
    show min s.queue.lwm.toNat (s.queue.size.toNat - 1) < _
    omega

/-- An item is popped. -/
theorem get_inv (hi : Inv 1 0 s) (hstored : stored s = item :: d) :
    Inv 0 0 { s with
      queue := resumeLow (removed s.queue), delivered := s.delivered ++ [item] } := by
  have haccepted : s.accepted = s.delivered ++ [item] ++ d := by
    rw [hi.accepted, hstored, List.append_assoc]
    rfl
  have hthreads : ThreadsOk (removed s.queue) s.phase := ⟨hi.threads.lists, hi.threads.errors⟩
  have hring : RingOk (removed s.queue) d := removed_ring (hstored ▸ hi.ring)
  have hlen := hring.len
  have hstored' : ∀ q', stored { s with queue := q', delivered := s.delivered ++ [item] } = d :=
    fun _ => stored_of_append haccepted
  have hsize : (stored s).length = d.length + 1 := by rw [hstored, List.length_cons]
  obtain ⟨l, hl, hpop⟩ := hi.pops
  rw [resumeLow]
  by_cases hlow : rtDataQueueLen (removed s.queue) ≤ (removed s.queue).lwm
  · rw [if_pos hlow]
    obtain ⟨hsame, hlwm, hlist⟩ := resumePush_frame (q := removed s.queue)
    refine ⟨?_, ⟨d, haccepted.symm⟩, hi.peeks, resumePush_threads hthreads, hi.timeouts,
      ⟨l, resumePush_keeps hthreads hl, fun hne => ?_⟩, hi.pushes.imp_right ?_⟩
    · rw [hstored']
      exact resumePush_ring hring
    · have hall := hpop (by rwa [hlist] at hne)
      rw [hstored']
      omega
    · rintro ⟨l, hl, hpush⟩
      obtain ⟨l', hl', hone⟩ := resumePush_resumed hthreads hl
      refine ⟨l', hl', fun hne => ?_⟩
      obtain ⟨hsome, hmore⟩ := hone hne
      have hmark := hpush hsome
      rw [hsame, hlwm, hstored']
      show min s.queue.lwm.toNat (s.queue.size.toNat - 1) < _
      omega
  · rw [if_neg hlow]
    refine ⟨?_, ⟨d, haccepted.symm⟩, hi.peeks, hthreads, hi.timeouts,
      ⟨l, hl, fun hne => ?_⟩, hi.pushes.imp_right ?_⟩
    · rw [hstored']
      exact hring
    · have hall := hpop hne
      rw [hstored']
      omega
    · rintro ⟨l, hl, hpush⟩
      refine ⟨l, hl, fun _ => ?_⟩
      -- nobody is resumed, as more items than the low-water mark are left
      have hmany : s.queue.lwm.toNat < d.length := by
        rw [← hlen]
        exact Nat.lt_of_not_le fun hle => hlow hle
      rw [hstored']
      show min s.queue.lwm.toNat (s.queue.size.toNat - 1) < _
      omega

/-- A thread begins to wait for room in a full queue. -/
theorem blockPush_inv (hi : Inv 0 b s) (hidle : s.phase t = .idle)
    (hrun : (s.queue.threads t).suspended = false)
    (hfull : (stored s).length = s.queue.size.toNat) (htimeout : timeout ≠ rtTickHalf)
    {us ts' : Threads} (hne : ∀ u, u ≠ t → ts' u = s.queue.threads u)
    (hsusp : (ts' t).suspended = true) (herr : (ts' t).error = .eok) :
    Inv 0 0 { s.setPhase t (.pushing item timeout) with
      queue := { s.queue with
        threads := ts'
        suspendedPushList := listInsert us s.queue.suspendedPushList t .fifo } } := by
  have hside : (s.phase t).side = none := by
    rw [hidle]
    rfl
  obtain ⟨l, hl, hpop⟩ := hi.pops
  have hnot : t ∉ l := hl.not_mem_side (by rw [hside]; simp)
  refine ⟨hi.ring.congr rfl rfl rfl rfl rfl rfl, hi.order, hi.peeks,
    hi.threads.waitPush hside hrun hne hsusp herr rfl, timeouts_update hi.timeouts htimeout,
    ⟨l, (hl.change hnot hne).setPhase hnot, hpop⟩, ?_⟩
  · rcases hi.pushes with hresets | ⟨l, hl, -⟩
    · exact Or.inl (inReset_update hresets (by rw [hidle]; rfl))
    · have hnot : t ∉ l := hl.not_mem_side (by rw [hside]; simp)
      refine Or.inr ⟨l, (hl.change hnot hne).setPhase hnot, fun _ => ?_⟩
      have hget := hi.ring.get_lt
      show min s.queue.lwm.toNat (s.queue.size.toNat - 1) < (stored s).length + l.length + 0
      omega

/-- A thread begins to wait for an item in an empty queue. -/
theorem blockPop_inv (hi : Inv a 0 s) (hidle : s.phase t = .idle)
    (hrun : (s.queue.threads t).suspended = false) (hempty : stored s = [])
    (htimeout : timeout ≠ rtTickHalf)
    {us ts' : Threads} (hne : ∀ u, u ≠ t → ts' u = s.queue.threads u)
    (hsusp : (ts' t).suspended = true) (herr : (ts' t).error = .eok) :
    Inv 0 0 { s.setPhase t (.popping timeout) with
      queue := { s.queue with
        threads := ts'
        suspendedPopList := listInsert us s.queue.suspendedPopList t .fifo } } := by
  have hside : (s.phase t).side = none := by
    rw [hidle]
    rfl
  obtain ⟨l, hl, -⟩ := hi.pops
  have hnot : t ∉ l := hl.not_mem_side (by rw [hside]; simp)
  refine ⟨hi.ring.congr rfl rfl rfl rfl rfl rfl, hi.order, hi.peeks,
    hi.threads.waitPop hside hrun hne hsusp herr rfl, timeouts_update hi.timeouts htimeout,
    ⟨l, (hl.change hnot hne).setPhase hnot, fun _ => ?_⟩, ?_⟩
  · show (stored s).length ≤ l.length + 0
    rw [hempty]
    exact Nat.zero_le _
  · rcases hi.pushes with hresets | ⟨l, hl, hpush⟩
    · exact Or.inl (inReset_update hresets (by rw [hidle]; rfl))
    · have hnot : t ∉ l := hl.not_mem_side (by rw [hside]; simp)
      exact Or.inr ⟨l, (hl.change hnot hne).setPhase hnot, hpush⟩

/-- Nothing is owed while the queue is full. -/
theorem Inv.atFull (hi : Inv 0 b s) (hfull : (stored s).length = s.queue.size.toNat) :
    Inv 0 0 s := by
  refine ⟨hi.ring, hi.order, hi.peeks, hi.threads, hi.timeouts, hi.pops, hi.pushes.imp_right ?_⟩
  rintro ⟨l, hl, -⟩
  have hget := hi.ring.get_lt
  exact ⟨l, hl, fun _ => by omega⟩

/-- Nothing is owed while the queue is empty. -/
theorem Inv.atEmpty (hi : Inv a 0 s) (hempty : stored s = []) : Inv 0 0 s := by
  obtain ⟨l, hl, -⟩ := hi.pops
  refine ⟨hi.ring, hi.order, hi.peeks, hi.threads, hi.timeouts, ⟨l, hl, fun _ => ?_⟩, hi.pushes⟩
  rw [hempty]
  exact Nat.zero_le _

/-- A push goes on to where it returns or waits. -/
theorem push_inv (hi : Inv 0 1 s) (hidle : s.phase t = .idle)
    (hrun : (s.queue.threads t).suspended = false) (htimeout : timeout ≠ rtTickHalf)
    (hfits : Fits s.queue) (item : DataItem) :
    ∃ q o, rtDataQueuePush s.queue t item timeout = .ok (q, o) ∧
      Inv 0 0 (afterPush s t item timeout q o) := by
  rw [rtDataQueuePush]
  by_cases hfull : s.queue.isFull = true
  · rw [if_pos hfull]
    have hlen := hi.ring.full.mp hfull
    by_cases hzero : timeout = 0
    · rw [if_pos hzero]
      exact ⟨_, _, rfl, hi.atFull hlen⟩
    · rw [if_neg hzero]
      obtain ⟨us, ts', hblock, hne, hsusp, herr⟩ := @block_eq s.queue s.queue.suspendedPushList
        t timeout htimeout hrun
      rw [hblock]
      exact ⟨_, _, rfl, blockPush_inv hi hidle hrun hlen htimeout hne hsusp herr⟩
  · rw [if_neg hfull, putItem_eq hi.ring.put_lt]
    have hroom : (stored s).length < s.queue.size.toNat :=
      lt_of_le_of_ne hi.ring.capacity fun hlen => hfull (hi.ring.full.mpr hlen)
    exact ⟨_, _, rfl, put_inv hi hroom hfits item⟩

/-- A pop goes on to where it returns or waits. -/
theorem pop_inv (hi : Inv 1 0 s) (hidle : s.phase t = .idle)
    (hrun : (s.queue.threads t).suspended = false) (htimeout : timeout ≠ rtTickHalf) :
    ∃ q o, rtDataQueuePop s.queue t timeout = .ok (q, o) ∧
      Inv 0 0 (afterPop s t timeout q o) := by
  rw [rtDataQueuePop]
  by_cases hempty : s.queue.isEmpty = true
  · rw [if_pos hempty]
    have hnil := hi.ring.empty.mp hempty
    by_cases hzero : timeout = 0
    · rw [if_pos hzero]
      refine ⟨_, _, rfl, ?_⟩
      have hsame : afterPop s t timeout s.queue (.returned .etimeout none) = s := by
        simp [afterPop]
      rw [hsame]
      exact hi.atEmpty hnil
    · rw [if_neg hzero]
      obtain ⟨us, ts', hblock, hne, hsusp, herr⟩ := @block_eq s.queue s.queue.suspendedPopList
        t timeout htimeout hrun
      rw [hblock]
      exact ⟨_, _, rfl, blockPop_inv hi hidle hrun hnil htimeout hne hsusp herr⟩
  · rw [if_neg hempty]
    cases hstored : stored s with
    | nil => exact absurd (hi.ring.empty.mpr hstored) hempty
    | cons item d =>
        rw [getItem_eq (hstored ▸ hi.ring)]
        exact ⟨_, _, rfl, get_inv hi hstored⟩

theorem woken_inv (hi : Inv 0 0 s) (hrun : (s.queue.threads t).suspended = false)
    (hside : (s.phase t).side ≠ none) (hsound : Sound s (.woken t)) :
    ∃ s', step s (.woken t) = .ok s' ∧ Inv 0 0 s' := by
  have hidle : (s.setPhase t .idle).phase t = .idle := Function.update_self ..
  rw [step]
  cases hphase : s.phase t with
  | pushing item timeout =>
      have hsend : (s.phase t).side = some .send := by rw [hphase]; rfl
      have htimeout : timeout ≠ rtTickHalf := by
        have h := hi.timeouts t
        rwa [hphase] at h
      simp only [pushWoken]
      by_cases herr : (s.queue.threads t).error = .eok
      · rw [if_neg (not_not.mpr herr)]
        obtain ⟨q, o, hq, hinv⟩ := push_inv (hi.leavePush hrun hsend) hidle hrun htimeout
          (hsound hsend herr) item
        have hq' : rtDataQueuePush s.queue t item timeout = .ok (q, o) := hq
        rw [hq']
        exact ⟨_, rfl, hinv⟩
      · rw [if_pos herr]
        refine ⟨_, rfl, ?_⟩
        simp only [afterPush, if_neg herr]
        exact hi.leave hrun hside herr
  | popping timeout =>
      have hrecv : (s.phase t).side = some .recv := by rw [hphase]; rfl
      have htimeout : timeout ≠ rtTickHalf := by
        have h := hi.timeouts t
        rwa [hphase] at h
      simp only [popWoken]
      by_cases herr : (s.queue.threads t).error = .eok
      · rw [if_neg (not_not.mpr herr)]
        obtain ⟨q, o, hq, hinv⟩ := pop_inv (hi.leavePop hrun hrecv) hidle hrun htimeout
        have hq' : rtDataQueuePop s.queue t timeout = .ok (q, o) := hq
        rw [hq']
        exact ⟨_, rfl, hinv⟩
      · rw [if_pos herr]
        refine ⟨_, rfl, ?_⟩
        simp only [afterPop, Option.toList_none, List.append_nil]
        exact hi.leave hrun hside herr
  | idle => exact absurd (by rw [hphase]; rfl) hside
  | peeking => exact absurd (by rw [hphase]; rfl) hside
  | resetting => exact absurd (by rw [hphase]; rfl) hside
  | checking side => exact absurd (by rw [hphase]; rfl) hside
  | waking side => exact absurd (by rw [hphase]; rfl) hside

/-- A suspended thread is resumed with an error, and leaves its list. -/
theorem Inv.drop (hi : Inv 0 0 s) (hsusp : (s.queue.threads t).suspended = true)
    {q' : RtDataQueue} (hring : RingOk q' (stored s)) (hthreads : ThreadsOk q' s.phase)
    (hsize : q'.size = s.queue.size) (hlwm : q'.lwm = s.queue.lwm)
    (hne : ∀ u, u ≠ t → q'.threads u = s.queue.threads u)
    (hpopList : q'.suspendedPopList ≠ [] → s.queue.suspendedPopList ≠ [])
    (hpushList : q'.suspendedPushList ≠ [] → s.queue.suspendedPushList ≠ []) :
    Inv 0 0 { s with queue := q' } := by
  obtain ⟨l, hl, hpop⟩ := hi.pops
  refine ⟨hring, hi.order, hi.peeks, hthreads, hi.timeouts,
    ⟨l, hl.change (hl.not_mem hsusp) hne, fun h => hpop (hpopList h)⟩, hi.pushes.imp_right ?_⟩
  rintro ⟨l, hl, hpush⟩
  refine ⟨l, hl.change (hl.not_mem hsusp) hne, fun h => ?_⟩
  have hmark := hpush (hpushList h)
  show min q'.lwm.toNat (q'.size.toNat - 1) < _
  rw [hlwm, hsize]
  exact hmark

private theorem erase_ne_nil {l : List ThreadId} (h : l.erase t ≠ []) : l ≠ [] := by
  rintro rfl
  exact h rfl

theorem timeout_inv (hi : Inv 0 0 s) (hside : (s.phase t).side ≠ none)
    (htimer : (s.queue.threads t).timer = true) :
    ∃ s', step s (.timeout t) = .ok s' ∧ Inv 0 0 s' := by
  cases hsusp : (s.queue.threads t).suspended with
  | false =>
      rw [hi.threads.lists.timers t hside hsusp] at htimer
      cases htimer
  | true =>
      have hne : ∀ u, u ≠ t → Ipc.wake (setError s.queue.threads t .etimeout) t u =
          s.queue.threads u := fun u hu => by rw [wake_of_ne hu, setError_of_ne _ hu]
      have hstep : step s (.timeout t) = .ok { s with queue := { s.queue with
          threads := Ipc.wake (setError s.queue.threads t .etimeout) t
          suspendedPopList := s.queue.suspendedPopList.erase t
          suspendedPushList := s.queue.suspendedPushList.erase t } } := by
        rw [step, queueTimeout, hsusp]
        rfl
      refine ⟨_, hstep, hi.drop hsusp (hi.ring.congr rfl rfl rfl rfl rfl rfl) ⟨?_, ?_⟩ rfl rfl hne
        erase_ne_nil erase_ne_nil⟩
      · refine hi.threads.lists.erase hne ?_ ?_
        · simp only [wake_self]
        · simp only [wake_self]
      · refine forall_of_ne t hi.threads.errors (fun u hu hold => ?_) fun _ hwoken => ?_
        · simp only [hne u hu]
          exact hold
        · simp only [wake_self] at hwoken
          cases hwoken

/-- The first thread of a list is resumed with an error. -/
theorem resetWake_inv (hi : Inv 0 0 s) {side : Side} (hlist : s.queue.list side ≠ []) :
    ∃ q, resetWake s.queue side = .ok q ∧ Inv 0 0 { s with queue := q } := by
  obtain ⟨h, list, hcons⟩ := List.exists_cons_of_ne_nil hlist
  have hparked := hi.threads.lists.queues side
  have hcons' : lists s.queue.suspendedPopList s.queue.suspendedPushList side = h :: list := hcons
  rw [hcons'] at hparked
  obtain ⟨-, hsusp⟩ := (hparked.mem_iff h).mp (List.mem_cons_self ..)
  have hset : (setError s.queue.threads h .error h).suspended = true := by
    rw [setError_self]
    exact hsusp
  have hresume : rtThreadResume (setError s.queue.threads h .error) (h :: list) h =
      (Ipc.wake (setError s.queue.threads h .error) h, list) := by
    rw [rtThreadResume, if_pos hset, List.erase_cons_head]
  have hne : ∀ u, u ≠ h → Ipc.wake (setError s.queue.threads h .error) h u =
      s.queue.threads u := fun u hu => by rw [wake_of_ne hu, setError_of_ne _ hu]
  have hsame : ∀ u, (setError s.queue.threads h .error u).suspended =
      (s.queue.threads u).suspended ∧
      (setError s.queue.threads h .error u).timer = (s.queue.threads u).timer := by
    refine forall_of_ne h (fun _ => trivial) (fun u hu _ => ?_) ?_
    · rw [setError_of_ne _ hu]
      exact ⟨rfl, rfl⟩
    · rw [setError_self]
      exact ⟨rfl, rfl⟩
  have hlists := hi.threads.lists.congr hsame
  have herrors : ∀ u, (s.phase u).side ≠ none →
      (Ipc.wake (setError s.queue.threads h .error) h u).suspended = true →
      (Ipc.wake (setError s.queue.threads h .error) h u).error = .eok := by
    refine forall_of_ne h hi.threads.errors (fun u hu hold => ?_) fun _ hwoken => ?_
    · rwa [hne u hu]
    · rw [wake_self] at hwoken
      cases hwoken
  cases side with
  | recv =>
      have hpop : s.queue.suspendedPopList = h :: list := hcons
      rw [hpop] at hlists
      refine ⟨{ s.queue with
        threads := Ipc.wake (setError s.queue.threads h .error) h, suspendedPopList := list },
        ?_, hi.drop hsusp (hi.ring.congr rfl rfl rfl rfl rfl rfl)
        ⟨hlists.resumeReceiver, herrors⟩ rfl rfl hne (fun _ => ?_) fun hpush => hpush⟩
      · simp only [resetWake, hpop, hresume]
        rfl
      · rw [hpop]
        exact List.cons_ne_nil h list
  | send =>
      have hpush : s.queue.suspendedPushList = h :: list := hcons
      rw [hpush] at hlists
      refine ⟨{ s.queue with
        threads := Ipc.wake (setError s.queue.threads h .error) h, suspendedPushList := list },
        ?_, hi.drop hsusp (hi.ring.congr rfl rfl rfl rfl rfl rfl)
        ⟨hlists.resumeSender, herrors⟩ rfl rfl hne (fun hpop => hpop) fun _ => ?_⟩
      · simp only [resetWake, hpush, hresume]
        rfl
      · rw [hpush]
        exact List.cons_ne_nil h list

private theorem wake_inv (hi : Inv 0 0 s) (hrun : (s.queue.threads t).suspended = false)
    {side : Side} (hphase : s.phase t = .waking side) (hlist : s.queue.list side ≠ []) :
    ∃ s', step s (.wake t) = .ok s' ∧ Inv 0 0 s' := by
  have hnone : (s.phase t).side = none := by
    rw [hphase]
    rfl
  have hnext : Inv 0 0 (s.setPhase t (.checking side)) :=
    hi.setPhase hrun hnone (fun _ => rfl) rfl (by show (0 : BitVec 32) ≠ rtTickHalf; decide)
  obtain ⟨q, hq, hinv⟩ := resetWake_inv hnext hlist
  have hq' : resetWake s.queue side = .ok q := hq
  refine ⟨_, ?_, hinv⟩
  simp only [step, hphase, hq']
  rfl

private theorem check_inv (hi : Inv 0 0 s) (hrun : (s.queue.threads t).suspended = false)
    {side : Side} (hphase : s.phase t = .checking side) :
    ∃ s', step s (.check t) = .ok s' ∧ Inv 0 0 s' := by
  have hnone : (s.phase t).side = none := by
    rw [hphase]
    rfl
  rw [step, hphase]
  by_cases hlist : s.queue.list side ≠ []
  · simp only [if_pos hlist]
    exact ⟨_, rfl, hi.setPhase hrun hnone (fun _ => rfl) rfl
      (by show (0 : BitVec 32) ≠ rtTickHalf; decide)⟩
  · simp only [if_neg hlist]
    cases side with
    | recv =>
        exact ⟨_, rfl, hi.setPhase hrun hnone (fun _ => rfl) rfl
          (by show (0 : BitVec 32) ≠ rtTickHalf; decide)⟩
    | send =>
        -- the reset is over, and no thread waits for room
        have hnil : s.queue.suspendedPushList = [] := not_not.mp hlist
        obtain ⟨l, hl, hpop⟩ := hi.pops
        refine ⟨_, rfl, hi.ring, hi.order, hi.peeks, hi.threads.setPhase hrun rfl,
          timeouts_update hi.timeouts (by decide),
          ⟨l, hl.setPhase (hl.not_mem_side (by rw [hnone]; simp)), hpop⟩,
          Or.inr ⟨[], ⟨List.nodup_nil, fun u hu => absurd hu List.not_mem_nil⟩, fun hne => ?_⟩⟩
        exact absurd hnil hne

private theorem peekRead_inv (hi : Inv 0 0 s) (hrun : (s.queue.threads t).suspended = false)
    (hphase : s.phase t = .peeking) (hsome : s.queue.isEmpty = false) :
    ∃ s', step s (.peekRead t) = .ok s' ∧ Inv 0 0 s' := by
  cases hstored : stored s with
  | nil =>
      rw [hi.ring.empty.mpr hstored] at hsome
      cases hsome
  | cons item d =>
      have hnone : (s.phase t).side = none := by
        rw [hphase]
        rfl
      have hleave : Inv 0 0 (s.setPhase t .idle) :=
        hi.setPhase hrun hnone (fun h => by rw [hphase] at h; cases h) rfl (by decide)
      have hstep : step s (.peekRead t) = .ok { s.setPhase t .idle with
          peeks := (item, (stored s).head?) :: s.peeks } := by
        rw [step, peekItem_eq (hstored ▸ hi.ring)]
        rfl
      refine ⟨_, hstep, hleave.ring, hleave.order, fun r hr => ?_,
        hleave.threads, hleave.timeouts, hleave.pops, hleave.pushes⟩
      rcases List.mem_cons.mp hr with rfl | hr
      · simp only [hstored, List.head?_cons]
      · exact hi.peeks r hr

private theorem reset_inv (hi : Inv 0 0 s) (hrun : (s.queue.threads t).suspended = false)
    (hidle : s.phase t = .idle) : ∃ s', step s (.reset t) = .ok s' ∧ Inv 0 0 s' := by
  have hnone : (s.phase t).side = none := by
    rw [hidle]
    rfl
  obtain ⟨l, hl, -⟩ := hi.pops
  have hstored : ∀ q' p',
      stored { s.setPhase t p' with queue := q', accepted := s.delivered } = [] :=
    fun _ _ => List.drop_length
  have hthreads := hi.threads.setPhase (p := .resetting) hrun rfl
  refine ⟨_, rfl, ?_, List.prefix_refl _, hi.peeks, ⟨hthreads.lists, hthreads.errors⟩,
    timeouts_update hi.timeouts (by decide),
    ⟨l, hl.setPhase (hl.not_mem_side (by rw [hnone]; simp)), fun _ => ?_⟩, Or.inl ⟨t, ?_⟩⟩
  · rw [hstored]
    exact reset_ring hi.ring
  · rw [hstored]
    exact Nat.zero_le _
  · simp only [System.setPhase, Function.update_self, Phase.inReset]

private theorem other_inv (hi : Inv 0 0 s) (hidle : s.phase t = .idle) (x : Thread) :
    Inv 0 0 { s with
      queue := { s.queue with threads := Function.update s.queue.threads t x } } := by
  have hnone : (s.phase t).side = none := by
    rw [hidle]
    rfl
  have hne : ∀ u, u ≠ t → Function.update s.queue.threads t x u = s.queue.threads u :=
    fun u hu => Function.update_of_ne hu ..
  obtain ⟨l, hl, hpop⟩ := hi.pops
  refine ⟨hi.ring.congr rfl rfl rfl rfl rfl rfl, hi.order, hi.peeks, hi.threads.change hnone hne,
    hi.timeouts, ⟨l, hl.change (hl.not_mem_side (by rw [hnone]; simp)) hne, hpop⟩,
    hi.pushes.imp_right ?_⟩
  rintro ⟨l, hl, hpush⟩
  exact ⟨l, hl.change (hl.not_mem_side (by rw [hnone]; simp)) hne, hpush⟩

/-- A sound step returns and keeps the invariant. -/
theorem step_good (s : System) (e : Event) (hi : Inv 0 0 s) (he : Enabled s e)
    (hsound : Sound s e) : ∃ s', step s e = .ok s' ∧ Inv 0 0 s' := by
  cases e with
  | push t item timeout =>
      obtain ⟨q, o, hq, hinv⟩ := push_inv hi.mono he.2.1 he.1.1 he.2.2 hsound item
      exact ⟨_, by rw [step, hq]; rfl, hinv⟩
  | pop t timeout =>
      obtain ⟨q, o, hq, hinv⟩ := pop_inv hi.mono he.2.1 he.1.1 he.2.2
      exact ⟨_, by rw [step, hq]; rfl, hinv⟩
  | woken t => exact woken_inv hi he.1.1 he.2 hsound
  | timeout t => exact timeout_inv hi he.1 he.2
  | peek t =>
      rw [step]
      split
      · exact ⟨s, rfl, hi⟩
      · exact ⟨_, rfl, hi.setPhase he.1.1 (by rw [he.2]; rfl)
          (fun h => by rw [he.2] at h; cases h) rfl (by show (0 : BitVec 32) ≠ rtTickHalf; decide)⟩
  | peekRead t => exact peekRead_inv hi he.1.1 he.2 hsound
  | reset t => exact reset_inv hi he.1.1 he.2
  | enter t =>
      have hnext : Inv 0 0 (s.setPhase t (.checking .recv)) :=
        hi.setPhase he.1.1 (by rw [he.2]; rfl) (fun _ => rfl) rfl
          (by show (0 : BitVec 32) ≠ rtTickHalf; decide)
      exact ⟨_, rfl, hnext.ring, hnext.order, hnext.peeks, hnext.threads, hnext.timeouts,
        hnext.pops, hnext.pushes⟩
  | check t =>
      obtain ⟨hrun, hphase⟩ := he
      cases hp : s.phase t with
      | checking side => exact check_inv hi hrun.1 hp
      | _ => simp [hp] at hphase
  | wake t =>
      obtain ⟨hrun, hphase⟩ := he
      cases hp : s.phase t with
      | waking side => exact wake_inv hi hrun.1 hp (hsound side hp)
      | _ => simp [hp] at hphase
  | other t x => exact ⟨_, rfl, other_inv hi he x⟩

end Steps

/-! ## What a step needs -/

section Needs

variable {s s' : System} {q : RtDataQueue} {t : ThreadId} {d : List DataItem} {item : DataItem}
  {timeout : BitVec 32} {o : Outcome}

/-- What is read of a queue does not depend on who waits. -/
theorem resumePop_len : rtDataQueueLen (resumePop q) = rtDataQueueLen q ∧
    (resumePop q).isFull = q.isFull := by
  rw [resumePop]
  split <;> exact ⟨rfl, rfl⟩

/-- A push goes around at the end of the ring if the queue is a bounded queue afterwards. -/
theorem push_needs (hring : RingOk s.queue (stored s)) (horder : s.delivered <+: s.accepted)
    (h : rtDataQueuePush s.queue t item timeout = .ok (q, o))
    (hfifo : Fifo (afterPush s t item timeout q o)) : Fits s.queue := by
  by_contra hfits
  rw [Fits, not_or, not_le, not_lt] at hfits
  obtain ⟨hsize, hend⟩ := hfits
  have hput : s.queue.putIndex.toNat + 1 = 2 ^ 15 := by
    have hlt := s.queue.putIndex.isLt
    omega
  have hreach := hring.reach hsize
  have hnot : ¬s.queue.isFull = true := by
    intro hfull
    have hlen := hring.full.mp hfull
    omega
  rw [rtDataQueuePush, if_neg hnot, putItem_eq hring.put_lt] at h
  cases h
  obtain ⟨d, hd⟩ := horder
  have hstored : stored (afterPush s t item timeout (resumePop (appended s.queue item))
      (.returned .eok none)) = stored s ++ [item] := by
    rw [stored_of_append hd.symm]
    refine stored_of_append ?_
    simp only [afterPush, if_true, ← hd, List.append_assoc]
  have hfull := hfifo.full
  have hlen := hfifo.len
  rw [hstored, List.length_append, List.length_singleton] at hfull hlen
  obtain ⟨hsame, hflag⟩ := resumePop_len (q := appended s.queue item)
  obtain ⟨hsize', -, -⟩ := resumePop_frame (q := appended s.queue item)
  simp only [afterPush, hflag, hsize', hsame] at hfull hlen
  exact appended_wrong hring hsize hput hfull hlen

/-- A step that returns and leaves a bounded queue is sound. -/
theorem step_needs (s : System) (e : Event) (s' : System) (hi : Inv 0 0 s)
    (h : step s e = .ok s') (hfifo : Fifo s') : Sound s e := by
  cases e with
  | push t item timeout =>
      obtain ⟨⟨q, o⟩, hq, h⟩ := bind_eq_ok.mp h
      cases h
      exact push_needs hi.ring hi.order hq hfifo
  | woken t =>
      intro hside herr
      cases hphase : s.phase t with
      | pushing item timeout =>
          simp only [step, hphase] at h
          obtain ⟨⟨q, o⟩, hq, h⟩ := bind_eq_ok.mp h
          cases h
          rw [pushWoken, if_neg (not_not.mpr herr)] at hq
          have hring : RingOk (s.setPhase t .idle).queue (stored (s.setPhase t .idle)) := hi.ring
          exact push_needs (s := s.setPhase t .idle) hring hi.order hq hfifo
      | _ => simp [hphase, Phase.side] at hside
  | peekRead t =>
      obtain ⟨item, -, h⟩ := bind_eq_ok.mp h
      cases h
      have hpeek := hfifo.peeks _ (List.mem_cons_self ..)
      refine Bool.eq_false_iff.mpr fun hempty => ?_
      rw [hi.ring.empty.mp hempty] at hpeek
      cases hpeek
  | wake t =>
      intro side hphase hnil
      simp only [step, hphase] at h
      obtain ⟨q, hq, -⟩ := bind_eq_ok.mp h
      cases side with
      | recv =>
          have hnil' : s.queue.suspendedPopList = [] := hnil
          simp only [resetWake, hnil'] at hq
          cases hq
      | send =>
          have hnil' : s.queue.suspendedPushList = [] := hnil
          simp only [resetWake, hnil'] at hq
          cases hq
  | pop t timeout => trivial
  | timeout t => trivial
  | peek t => trivial
  | reset t => trivial
  | enter t => trivial
  | check t => trivial
  | other t x => trivial

end Needs

/-! ## Runs from the start -/

theorem boot_inv (threads : Threads) (queue : Nat → DataItem) {size : BitVec 16} (lwm : BitVec 16)
    (hsize : 0 < size) : Inv 0 0 (boot threads queue size lwm) := by
  have hpos : 0 < size.toNat := hsize
  refine ⟨⟨hpos, (Nat.zero_mod _).symm, Nat.zero_le _, fun _ => Nat.two_pow_pos 15,
      ⟨fun _ => rfl, fun _ => rfl⟩, ⟨fun h => (by cases h), fun h => ?_⟩, rfl⟩, List.prefix_refl _,
    fun r hr => absurd hr List.not_mem_nil, ⟨⟨fun i => ?_, fun t h => absurd rfl h⟩,
      fun t h => absurd rfl h⟩, fun _ => by show (0 : BitVec 32) ≠ rtTickHalf; decide,
    ⟨[], ⟨List.nodup_nil, fun t h => absurd h List.not_mem_nil⟩, fun h => absurd rfl h⟩,
    Or.inr ⟨[], ⟨List.nodup_nil, fun t h => absurd h List.not_mem_nil⟩, fun h => absurd rfl h⟩⟩
  · have hzero : 0 = size.toNat := h
    omega
  · cases i with
    | recv => exact Parked.nil fun _ h => (by cases h)
    | send => exact Parked.nil fun _ h => (by cases h)

/-- A data queue is a bounded queue that strands no thread in exactly the runs in which no push
goes around in front of the end of the ring, no peek reads an item that is gone, and no reset
resumes a thread that is gone. -/
theorem dataqueue_fifo (threads : Threads) (queue : Nat → DataItem) (size lwm : BitVec 16)
    (hsize : 0 < size) (es : List Event)
    (hg : Guarded step Enabled (boot threads queue size lwm) es) :
    ((∃ s, run step (boot threads queue size lwm) es = .ok s) ∧
      Always step Fifo (boot threads queue size lwm) es) ↔
      Guarded step Sound (boot threads queue size lwm) es := by
  have hboot : Inv 0 0 (boot threads queue size lwm) := boot_inv threads queue lwm hsize
  have hgood : ∀ s e, Inv 0 0 s → Fifo s → Enabled s e → Sound s e →
      ∃ s', step s e = .ok s' ∧ Fifo s' ∧ Inv 0 0 s' := by
    intro s e hi _ he hsound
    obtain ⟨s', hstep, hi'⟩ := step_good s e hi he hsound
    exact ⟨s', hstep, hi'.fifo, hi'⟩
  have hneed : ∀ s e s', Inv 0 0 s → Fifo s → Enabled s e → step s e = .ok s' → Fifo s' →
      Sound s e := fun s e s' hi _ _ hstep hfifo => step_needs s e s' hi hstep hfifo
  exact returns_iff_guarded hgood hneed hboot hboot.fifo hg

def idle : Threads := fun _ => ⟨false, 10, .eok, false, 0, 0⟩

def cells : Nat → DataItem := fun _ => ⟨0, 0⟩

/-- Two threads wait for room in a queue of one item, and one for an item; a reset resumes
them. -/
def orderly : List Event :=
  [.push 1 ⟨8, 1⟩ 0, .push 2 ⟨16, 2⟩ 5, .push 3 ⟨24, 3⟩ 7, .peek 4, .peekRead 4, .pop 4 0,
    .woken 2, .timeout 3, .pop 4 0, .pop 4 (-1), .reset 5, .enter 5, .check 5, .wake 5, .check 5,
    .check 5, .woken 4, .woken 3]

theorem dataqueue_fifo_one :
    (∃ s, run step (boot idle cells 1 0) orderly = .ok s) ∧
      Always step Fifo (boot idle cells 1 0) orderly :=
  (dataqueue_fifo idle cells 1 0 (by decide) orderly (by decide)).mpr (by decide)

/-- A large queue that thread 1 has pushed `k` items into, and nothing else has happened. -/
structure Filled (s : System) (k : Nat) : Prop where
  size : s.queue.size = 40000
  getIndex : s.queue.getIndex = 0
  putIndex : s.queue.putIndex.toNat = k
  isFull : s.queue.isFull = false
  pops : s.queue.suspendedPopList = []
  mayRun : MayRun s 1
  phase : s.phase 1 = .idle
  accepted : s.accepted.length = k
  delivered : s.delivered = []

/-- One more push. -/
theorem Filled.push {s : System} {k : Nat} (h : Filled s k) (hk : k < 2 ^ 15) :
    step s (.push 1 ⟨0, 0⟩ 0) = .ok { s with
      queue := appended s.queue ⟨0, 0⟩, accepted := s.accepted ++ [⟨0, 0⟩] } := by
  have hput : s.queue.putIndex.toNat < s.queue.size.toNat := by
    rw [h.putIndex, h.size]
    exact hk.trans (by decide)
  have hpops : (appended s.queue ⟨0, 0⟩).suspendedPopList = [] := h.pops
  rw [step, rtDataQueuePush, h.isFull, if_neg (by simp), putItem_eq hput, resumePop,
    if_neg (not_not.mpr hpops)]
  rfl

theorem Filled.next {s : System} {k : Nat} (h : Filled s k) (hk : k + 1 < 2 ^ 15) :
    Filled { s with
      queue := appended s.queue ⟨0, 0⟩, accepted := s.accepted ++ [⟨0, 0⟩] } (k + 1) := by
  have hsize : s.queue.size.toNat = 40000 := by
    rw [h.size]
    rfl
  have hput := h.putIndex
  have hnext : (nextIndex s.queue s.queue.putIndex).toNat = k + 1 := by
    rw [nextIndex_toNat (by omega) (Or.inr (by omega)), h.putIndex, hsize,
      Nat.mod_eq_of_lt (by omega)]
  have hne : nextIndex s.queue s.queue.putIndex ≠ s.queue.getIndex := by
    intro heq
    rw [heq, h.getIndex] at hnext
    cases hnext
  refine ⟨h.size, h.getIndex, hnext, ?_, h.pops, h.mayRun, h.phase, ?_, h.delivered⟩
  · show (if nextIndex s.queue s.queue.putIndex = s.queue.getIndex then true
      else s.queue.isFull) = false
    rw [if_neg hne, h.isFull]
  · rw [List.length_append, List.length_singleton, h.accepted]

theorem Filled.fill {s : System} {k n : Nat} (h : Filled s k) (hn : k + n < 2 ^ 15) :
    Guarded step Enabled s (List.replicate (n + 1) (.push 1 ⟨0, 0⟩ 0)) ∧
      ∃ s', run step s (List.replicate n (.push 1 ⟨0, 0⟩ 0)) = .ok s' ∧ Filled s' (k + n) := by
  have henabled : Enabled s (.push 1 ⟨0, 0⟩ 0) := ⟨h.mayRun, h.phase, by decide⟩
  induction n generalizing s k with
  | zero => exact ⟨⟨henabled, fun _ _ => trivial⟩, s, rfl, h⟩
  | succ n ih =>
      have hpush := h.push (by omega)
      have hnext := h.next (by omega)
      obtain ⟨hguarded, s', hrun, hfilled⟩ :=
        ih (k := k + 1) hnext (by omega) ⟨hnext.mayRun, hnext.phase, by decide⟩
      refine ⟨⟨henabled, fun s₂ h₂ => ?_⟩, s', ?_, ?_⟩
      · cases h₂.symm.trans hpush
        exact hguarded
      · rw [List.replicate_succ, run_cons_ok hpush]
        exact hrun
      · rwa [Nat.add_right_comm] at hfilled

/-- A queue for 40000 items is full with 32768. -/
theorem full_early :
    ∃ s, Guarded step Enabled (boot idle cells 40000 0)
        (List.replicate 32768 (.push 1 ⟨0, 0⟩ 0)) ∧
      run step (boot idle cells 40000 0) (List.replicate 32768 (.push 1 ⟨0, 0⟩ 0)) = .ok s ∧
      s.queue.isFull = true ∧ (stored s).length = 32768 ∧ s.queue.size.toNat = 40000 := by
  have hboot : Filled (boot idle cells 40000 0) 0 :=
    ⟨rfl, rfl, rfl, rfl, rfl, ⟨rfl, fun _ h => (by cases h)⟩, rfl, rfl, rfl⟩
  obtain ⟨hguarded, s, hrun, hs⟩ := hboot.fill (n := 32767) (by decide)
  have hput : s.queue.putIndex + 1 = 0 := by
    have hlast := hs.putIndex
    bv_omega
  have hsize : (0 : BitVec 15).setWidth 16 ≠ s.queue.size := by
    rw [hs.size]
    decide
  have hnext : nextIndex s.queue s.queue.putIndex = s.queue.getIndex := by
    rw [nextIndex, hput, if_neg hsize, hs.getIndex]
  have hlast := hs.push (by decide)
  have hfull : run step (boot idle cells 40000 0) (List.replicate 32768 (.push 1 ⟨0, 0⟩ 0)) =
      .ok { s with
        queue := appended s.queue ⟨0, 0⟩, accepted := s.accepted ++ [⟨0, 0⟩] } := by
    rw [List.replicate_succ', run_append_ok hrun, run_cons_ok hlast]
    rfl
  refine ⟨_, hguarded, hfull, ?_, ?_, ?_⟩
  · show (if nextIndex s.queue s.queue.putIndex = s.queue.getIndex then true
      else s.queue.isFull) = true
    rw [if_pos hnext]
  · rw [stored, hs.delivered, List.length_nil, List.drop_zero, List.length_append, hs.accepted]
    rfl
  · show s.queue.size.toNat = 40000
    rw [hs.size]
    rfl

end RtHypervisor.Ports.DataQueue
