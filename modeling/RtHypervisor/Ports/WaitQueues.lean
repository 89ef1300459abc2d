import Mathlib.Tactic
import RtHypervisor.Ports.Ipc

/-!
# Wait queues

A thread that waits is in the list of the queue by a node of its own, which a wake-up removes.
A thread whose timer runs out is no longer suspended, but its node stays until it runs again,
and a wake-up that takes such a node resumes nobody.  A wake-up also sets the flag of the queue,
on which a later wait returns at once; every thread that runs again clears it.

`wakeups_kept` says when no wake-up is lost either way.
-/

namespace RtHypervisor.Ports.WaitQueues

open RtHypervisor.Verified.Run
open RtHypervisor.Ports.Ipc

/-- `RT_TICK_PER_SECOND`. -/
def rtTickPerSecond : Nat := 100

/-- `rt_tick_from_millisecond`. -/
def rtTickFromMillisecond (ms : BitVec 32) : BitVec 32 :=
  if ms.slt 0 then -1
  else BitVec.ofNat 32 (rtTickPerSecond * (ms.toNat / 1000) +
    (rtTickPerSecond * (ms.toNat % 1000) + 999) / 1000)

/-- `struct rt_wqueue`, with the threads.  `flag` is whether it is `RT_WQ_FLAG_WAKEUP`; a node
is named by the thread that polls it. -/
structure Wqueue where
  threads : Threads
  flag : Bool
  waitingList : List ThreadId

/-- `rt_wqueue_wait` by thread `t`: what it returns, or nothing when the thread waits. -/
def rtWqueueWait (q : Wqueue) (t : ThreadId) (condition msec : BitVec 32) :
    Except Fault (Wqueue × Option Err) :=
  let tick := rtTickFromMillisecond msec
  if condition ≠ 0 ∨ tick = 0 then pure (q, some .eok)
  else
    let threads := setError q.threads t .eok
    if q.flag then pure ({ q with threads := threads, flag := false }, some .eok)
    else do
      let threads ← startTimer (rtThreadSuspend threads t) t tick
      pure ({ q with threads := threads, waitingList := q.waitingList ++ [t] }, none)

/-- What `rt_wqueue_wait` does once the thread runs again, while the interrupts are disabled. -/
def rtWqueueWaitWoken (q : Wqueue) : Wqueue := { q with flag := false }

/-- `rt_wqueue_remove`. -/
def rtWqueueRemove (q : Wqueue) (t : ThreadId) : Wqueue :=
  { q with waitingList := q.waitingList.erase t }

/-- `rt_wqueue_wakeup`; `__wqueue_default_wake` accepts every node. -/
def rtWqueueWakeup (q : Wqueue) : Wqueue :=
  match q.waitingList with
  | [] => { q with flag := true }
  | t :: _ =>
      rtWqueueRemove { q with threads := (rtThreadResume q.threads [] t).1, flag := true } t

/-- The thread timer of a waiting thread runs out. -/
def wqueueTimeout (q : Wqueue) (t : ThreadId) : Except Fault Wqueue := do
  let (threads, _) ← threadTimeout q.threads [] t
  pure { q with threads := threads }

/-! ## Runs -/

/-- Where a thread is in `rt_wqueue_wait`: behind its call of `rt_schedule`, or in front of the
removal of its node. -/
inductive Phase
  | waiting
  | leaving
deriving DecidableEq, Repr

/-- A wait that has returned after its thread was suspended, and whether a wake-up resumed it. -/
structure Return where
  thread : ThreadId
  err : Err
  resumed : Bool
deriving DecidableEq, Repr

/-- `missed` counts the wake-ups that resumed no thread although one was suspended, and `owed`
says that there was a wake-up while none was, and no wait since. -/
structure Ledger where
  missed : Nat
  owed : Bool
  resumed : ThreadId → Bool
  returns : List Return

structure System where
  queue : Wqueue
  phase : ThreadId → Option Phase
  ledger : Ledger

inductive Event
  | wait (t : ThreadId) (condition msec : BitVec 32)
  | woken (t : ThreadId)
  | leave (t : ThreadId)
  | wakeup
  | timeout (t : ThreadId)
  | other (t : ThreadId) (x : Thread)

/-- A thread calls, or goes on, while it is not suspended; its timer runs out while it is
active; and what it does elsewhere, it does outside `rt_wqueue_wait`. -/
def Enabled (s : System) : Event → Prop
  | .wait t _ _ => s.phase t = none ∧ (s.queue.threads t).suspended = false
  | .woken t => s.phase t = some .waiting ∧ (s.queue.threads t).suspended = false
  | .leave t => s.phase t = some .leaving
  | .timeout t => s.phase t = some .waiting ∧ (s.queue.threads t).timer = true
  | .other t _ => s.phase t = none
  | .wakeup => True

instance (s : System) : ∀ e, Decidable (Enabled s e)
  | .wait .. | .woken _ | .timeout _ => inferInstanceAs (Decidable (_ ∧ _))
  | .leave _ | .other .. => inferInstanceAs (Decidable (_ = _))
  | .wakeup => inferInstanceAs (Decidable True)

/-- The nodes of the queue whose threads are suspended. -/
def suspendedNodes (q : Wqueue) : List ThreadId :=
  q.waitingList.filter fun t => (q.threads t).suspended

/-- The thread a wake-up resumes. -/
def wakeupResumes (q : Wqueue) : Option ThreadId :=
  q.waitingList.head?.filter fun t => (q.threads t).suspended

def Ledger.wakeup (l : Ledger) (q : Wqueue) : Ledger :=
  match wakeupResumes q with
  | some t => { l with resumed := Function.update l.resumed t true }
  | none =>
      if suspendedNodes q = [] then { l with owed := true }
      else { l with missed := l.missed + 1 }

def step (s : System) : Event → Except Fault System
  | .wait t condition msec => do
      let (q, r) ← rtWqueueWait s.queue t condition msec
      let ledger := { s.ledger with owed := false }
      match r with
      | some _ => pure { s with queue := q, ledger := ledger }
      | none =>
          pure
            { queue := q
              phase := Function.update s.phase t (some .waiting)
              ledger := { ledger with resumed := Function.update ledger.resumed t false } }
  | .woken t =>
      pure
        { s with
          queue := rtWqueueWaitWoken s.queue
          phase := Function.update s.phase t (some .leaving) }
  | .leave t =>
      pure
        { queue := rtWqueueRemove s.queue t
          phase := Function.update s.phase t none
          ledger := { s.ledger with
            returns := ⟨t, (s.queue.threads t).error, s.ledger.resumed t⟩ :: s.ledger.returns } }
  | .wakeup =>
      pure { s with queue := rtWqueueWakeup s.queue, ledger := s.ledger.wakeup s.queue }
  | .timeout t => do
      let q ← wqueueTimeout s.queue t
      pure { s with queue := q }
  | .other t x =>
      pure
        { s with queue := { s.queue with threads := Function.update s.queue.threads t x } }

/-- `rt_wqueue_init`, among threads in any state. -/
def boot (threads : Threads) : System where
  queue := ⟨threads, false, []⟩
  phase := fun _ => none
  ledger := ⟨0, false, fun _ => false, []⟩

/-- No wake-up was lost.  One that was made while a thread was suspended in `rt_wqueue_wait`
resumed such a thread, which then returns 0; one that was made while none was is still in the
flag when the next wait comes. -/
structure Kept (s : System) : Prop where
  nodes : ∀ t, s.phase t = some .waiting → (s.queue.threads t).suspended = true →
    t ∈ suspendedNodes s.queue
  resumes : s.ledger.missed = 0
  flag : s.ledger.owed = true → s.queue.flag = true
  returns : ∀ r ∈ s.ledger.returns, r.resumed = true → r.err = .eok

/-- The flag is what the next wait looks at: it returns 0 at once, and nobody is suspended. -/
theorem Kept.wait_returns {s : System} (h : Kept s) (howed : s.ledger.owed = true) (t : ThreadId)
    (condition msec : BitVec 32) : ∃ q, rtWqueueWait s.queue t condition msec = .ok (q, some .eok) ∧
      ∀ u, (q.threads u).suspended = (s.queue.threads u).suspended := by
  have hflag := h.flag howed
  by_cases hskip : condition ≠ 0 ∨ rtTickFromMillisecond msec = 0
  · exact ⟨s.queue, by simp only [rtWqueueWait, if_pos hskip]; rfl, fun _ => rfl⟩
  · refine ⟨{ s.queue with threads := setError s.queue.threads t .eok, flag := false }, ?_,
      fun u => ?_⟩
    · simp only [rtWqueueWait, if_neg hskip, hflag, if_true]
      rfl
    · show (setError s.queue.threads t .eok u).suspended = _
      by_cases hut : u = t
      · rw [hut, setError_self]
      · rw [setError_of_ne _ hut]

/-- A wake-up does not come upon a node in front of the list whose thread is not suspended while
another is; and no thread runs again that would clear a wake-up the next wait is to find. -/
def InTurn (s : System) : Event → Prop
  | .wakeup => suspendedNodes s.queue ≠ [] → wakeupResumes s.queue ≠ none
  | .woken _ => s.ledger.owed = false
  | _ => True

instance (s : System) : ∀ e, Decidable (InTurn s e)
  | .wakeup => inferInstanceAs (Decidable (_ → _))
  | .woken _ => inferInstanceAs (Decidable (_ = _))
  | .wait .. | .leave _ | .timeout _ | .other .. => inferInstanceAs (Decidable True)

/-- A suspended thread has no error yet, and one that was resumed keeps it that way. -/
structure ThreadOk (x : Thread) (phase : Option Phase) (resumed : Bool) : Prop where
  waits : phase = some .waiting → x.suspended = true → x.error = .eok
  resumed : phase ≠ none → resumed = true →
    x.suspended = false ∧ x.timer = false ∧ x.error = .eok
  runs : phase = some .leaving → x.suspended = false

structure Inv (s : System) : Prop where
  nodup : s.queue.waitingList.Nodup
  inside : ∀ t ∈ s.queue.waitingList, s.phase t ≠ none
  listed : ∀ t, s.phase t = some .waiting → (s.queue.threads t).suspended = true →
    t ∈ s.queue.waitingList
  threads : ∀ t, ThreadOk (s.queue.threads t) (s.phase t) (s.ledger.resumed t)
  returns : ∀ r ∈ s.ledger.returns, r.resumed = true → r.err = .eok

section Steps

variable {s s' : System} {t : ThreadId} {q : Wqueue} {e : Event}

private theorem mem_suspendedNodes :
    t ∈ suspendedNodes q ↔ t ∈ q.waitingList ∧ (q.threads t).suspended = true :=
  List.mem_filter

theorem Inv.kept_iff (h : Inv s) :
    Kept s ↔ s.ledger.missed = 0 ∧ (s.ledger.owed = true → s.queue.flag = true) := by
  constructor
  · intro hk
    exact ⟨hk.resumes, hk.flag⟩
  · rintro ⟨hmissed, hflag⟩
    refine ⟨fun t hphase hsusp => ?_, hmissed, hflag, h.returns⟩
    exact mem_suspendedNodes.mpr ⟨h.listed t hphase hsusp, hsusp⟩

/-- What a wake-up does to the thread whose node it takes. -/
theorem wakeup_cases {list : List ThreadId} (hlist : q.waitingList = t :: list) :
    ((q.threads t).suspended = false ∧ wakeupResumes q = none ∧
        (rtWqueueWakeup q).threads = q.threads) ∨
      ((q.threads t).suspended = true ∧ wakeupResumes q = some t ∧
        (rtWqueueWakeup q).threads = wake q.threads t) := by
  rw [wakeupResumes, rtWqueueWakeup, hlist, List.head?_cons]
  cases hsusp : (q.threads t).suspended with
  | false =>
      refine Or.inl ⟨rfl, ?_, ?_⟩
      · rw [Option.filter_some, hsusp]
        rfl
      · simp only [rtWqueueRemove, rtThreadResume, hsusp, Bool.false_eq_true, if_false]
  | true =>
      refine Or.inr ⟨rfl, ?_, ?_⟩
      · rw [Option.filter_some, hsusp]
        rfl
      · simp only [rtWqueueRemove, rtThreadResume, hsusp, if_true]

private theorem wakeup_list (q : Wqueue) : (rtWqueueWakeup q).waitingList = q.waitingList.tail := by
  rw [rtWqueueWakeup]
  cases hlist : q.waitingList with
  | nil => rfl
  | cons t list => simp only [rtWqueueRemove, List.erase_cons_head, List.tail_cons]

private theorem wakeup_flag (q : Wqueue) : (rtWqueueWakeup q).flag = true := by
  rw [rtWqueueWakeup]
  cases q.waitingList <;> rfl

private theorem ledger_wakeup_returns (l : Ledger) : (l.wakeup q).returns = l.returns := by
  rw [Ledger.wakeup]
  cases wakeupResumes q with
  | some t => rfl
  | none =>
      simp only
      split <;> rfl

private theorem ledger_wakeup_none (l : Ledger) (h : wakeupResumes q = none) :
    (l.wakeup q).resumed = l.resumed := by
  rw [Ledger.wakeup, h]
  simp only
  split <;> rfl

private theorem ledger_wakeup_some (l : Ledger) (h : wakeupResumes q = some t) :
    (l.wakeup q).resumed = Function.update l.resumed t true := by
  rw [Ledger.wakeup, h]

/-- A step changes one thread, and its place in the list. -/
theorem Inv.advance {p : Option Phase} (h : Inv s) (hnodup : s'.queue.waitingList.Nodup)
    (hlist : ∀ u, u ≠ t → (u ∈ s'.queue.waitingList ↔ u ∈ s.queue.waitingList))
    (hthreads : ∀ u, u ≠ t → s'.queue.threads u = s.queue.threads u)
    (hphase : ∀ u, u ≠ t → s'.phase u = s.phase u)
    (hresumed : ∀ u, u ≠ t → s'.ledger.resumed u = s.ledger.resumed u)
    (hp : s'.phase t = p) (hinside : t ∈ s'.queue.waitingList → p ≠ none)
    (hlisted : p = some .waiting → (s'.queue.threads t).suspended = true →
      t ∈ s'.queue.waitingList)
    (hself : ThreadOk (s'.queue.threads t) p (s'.ledger.resumed t))
    (hreturns : ∀ r ∈ s'.ledger.returns, r.resumed = true → r.err = .eok) : Inv s' := by
  subst hp
  refine ⟨hnodup, ?_, ?_, ?_, hreturns⟩
  · refine forall_of_ne t h.inside (fun u hu hin hmem => ?_) hinside
    rw [hphase u hu]
    exact hin ((hlist u hu).mp hmem)
  · refine forall_of_ne t h.listed (fun u hu hin hw hsusp => ?_) hlisted
    rw [hphase u hu] at hw
    rw [hthreads u hu] at hsusp
    exact (hlist u hu).mpr (hin hw hsusp)
  · refine forall_of_ne t h.threads (fun u hu hok => ?_) hself
    rw [hthreads u hu, hphase u hu, hresumed u hu]
    exact hok

theorem ThreadOk.outside (x : Thread) (b : Bool) : ThreadOk x none b :=
  ⟨fun h => (by cases h), fun h => absurd rfl h, fun h => (by cases h)⟩

/-- A thread changes that is not in `rt_wqueue_wait`. -/
theorem Inv.outside (h : Inv s) (ht : s.phase t = none)
    (hlist : s'.queue.waitingList = s.queue.waitingList)
    (hthreads : ∀ u, u ≠ t → s'.queue.threads u = s.queue.threads u)
    (hphase : s'.phase = s.phase) (hresumed : s'.ledger.resumed = s.ledger.resumed)
    (hreturns : s'.ledger.returns = s.ledger.returns) : Inv s' := by
  have hnone : s'.phase t = none := by rw [hphase, ht]
  refine h.advance ?_ (fun u _ => ?_) hthreads (fun u _ => ?_) (fun u _ => ?_) hnone
    (fun hmem => ?_)
    (fun hw => (by cases hw)) (ThreadOk.outside ..) ?_
  · rw [hlist]
    exact h.nodup
  · rw [hlist]
  · rw [hphase]
  · rw [hresumed]
  · rw [hlist] at hmem
    exact absurd ht (h.inside t hmem)
  · rw [hreturns]
    exact h.returns

private theorem wait_inv (h : Inv s) {condition msec : BitVec 32}
    (he : Enabled s (.wait t condition msec))
    (hstep : step s (.wait t condition msec) = .ok s') : Inv s' := by
  obtain ⟨hphase, hrun⟩ := he
  obtain ⟨⟨q, r⟩, hwait, hrest⟩ := bind_eq_ok.mp hstep
  have hnode : t ∉ s.queue.waitingList := fun hmem => h.inside t hmem hphase
  rw [rtWqueueWait] at hwait
  split at hwait
  · cases hwait
    cases hrest
    exact h.outside hphase rfl (fun _ _ => rfl) rfl rfl rfl
  · split at hwait
    · cases hwait
      cases hrest
      exact h.outside hphase rfl (fun u hu => setError_of_ne _ hu) rfl rfl rfl
    · obtain ⟨threads, htimer, hwait⟩ := bind_eq_ok.mp hwait
      cases hwait
      cases hrest
      have hrun' : (setError s.queue.threads t .eok t).suspended = false := by
        rw [setError_self]
        exact hrun
      have hblock := @block_meets _ t [] .fifo (rtTickFromMillisecond msec) hrun'
      obtain ⟨b, rfl⟩ := hblock.of_ok htimer
      have hothers : ∀ u, u ≠ t →
          modify (setError s.queue.threads t .eok) t
            (fun x => { x with suspended := true, timer := b }) u = s.queue.threads u :=
        fun u hu => by rw [modify_of_ne hu, setError_of_ne _ hu]
      refine h.advance (t := t) ?_ (fun u hu => ?_) hothers
        (fun u hu => Function.update_of_ne hu ..) (fun u hu => Function.update_of_ne hu ..)
        (Function.update_self ..) (fun _ => Option.some_ne_none _) (fun _ _ => ?_) ?_ h.returns
      · exact @nodup_listInsert s.queue.threads _ _ .fifo hnode h.nodup
      · rw [List.mem_append, List.mem_singleton, or_iff_left hu]
      · exact List.mem_append_right _ (List.mem_singleton.mpr rfl)
      · simp only [Function.update_self, modify_self, setError_self]
        exact ⟨fun _ _ => rfl, fun _ hr => (by cases hr), fun hl => (by cases hl)⟩

theorem woken_inv (h : Inv s) (he : Enabled s (.woken t)) (hstep : step s (.woken t) = .ok s') :
    Inv s' := by
  obtain ⟨hphase, hrun⟩ := he
  have hok := h.threads t
  cases hstep
  refine h.advance (t := t) h.nodup (fun _ _ => Iff.rfl) (fun _ _ => rfl)
    (fun u hu => Function.update_of_ne hu ..) (fun _ _ => rfl) (Function.update_self ..)
    (fun _ => Option.some_ne_none _) (fun hw => (by cases hw)) ?_ h.returns
  refine ⟨fun hw => (by cases hw), fun _ hr => ?_, fun _ => hrun⟩
  exact hok.resumed (by rw [hphase]; exact Option.some_ne_none _) hr

theorem leave_inv (h : Inv s) (he : s.phase t = some .leaving)
    (hstep : step s (.leave t) = .ok s') : Inv s' := by
  have hok := h.threads t
  cases hstep
  refine h.advance (t := t) (h.nodup.erase t) (fun u hu => ?_) (fun _ _ => rfl)
    (fun u hu => Function.update_of_ne hu ..) (fun _ _ => rfl) (Function.update_self ..)
    (fun hmem => absurd hmem h.nodup.not_mem_erase) (fun hw => (by cases hw))
    (ThreadOk.outside ..) (fun r hr => ?_)
  · exact List.mem_erase_of_ne hu
  · rcases List.mem_cons.mp hr with rfl | hr
    · intro hresumed
      exact (hok.resumed (by rw [he]; exact Option.some_ne_none _) hresumed).2.2
    · exact h.returns r hr

private theorem wakeup_inv (h : Inv s) (hstep : step s .wakeup = .ok s') : Inv s' := by
  cases hstep
  have htail := wakeup_list s.queue
  have hreturns : ∀ r ∈ (s.ledger.wakeup s.queue).returns, r.resumed = true → r.err = .eok := by
    rw [ledger_wakeup_returns]
    exact h.returns
  cases hlist : s.queue.waitingList with
  | nil =>
      have hnone : wakeupResumes s.queue = none := by rw [wakeupResumes, hlist]; rfl
      have hthreads : (rtWqueueWakeup s.queue).threads = s.queue.threads := by
        rw [rtWqueueWakeup, hlist]
      rw [hlist, List.tail_nil, ← hlist] at htail
      refine ⟨?_, ?_, ?_, ?_, hreturns⟩
      · rw [htail]
        exact h.nodup
      · rw [htail]
        exact h.inside
      · rw [htail, hthreads]
        exact h.listed
      · rw [hthreads, ledger_wakeup_none _ hnone]
        exact h.threads
  | cons t list =>
      have hok := h.threads t
      have hnodup : (t :: list).Nodup := hlist ▸ h.nodup
      have hnode : t ∉ list := (List.nodup_cons.mp hnodup).1
      have hinside : s.phase t ≠ none := h.inside t (hlist ▸ List.mem_cons_self ..)
      rw [hlist, List.tail_cons] at htail
      refine h.advance (t := t) ?_ (fun u hu => ?_) (fun u hu => ?_) (fun _ _ => rfl)
        (fun u hu => ?_) rfl (fun _ => hinside) ?_ ?_ hreturns
      · rw [htail]
        exact (List.nodup_cons.mp hnodup).2
      · rw [htail, hlist, List.mem_cons, or_iff_right hu]
      all_goals rcases wakeup_cases hlist with ⟨hsusp, hres, hthreads⟩ | ⟨hsusp, hres, hthreads⟩
      · rw [hthreads]
      · rw [hthreads, wake_of_ne hu]
      · rw [ledger_wakeup_none _ hres]
      · rw [ledger_wakeup_some _ hres, Function.update_of_ne hu]
      · intro _ hs
        rw [hthreads, hsusp] at hs
        cases hs
      · intro _ hs
        rw [hthreads, wake_self] at hs
        cases hs
      · rw [hthreads, ledger_wakeup_none _ hres]
        exact hok
      · rw [hthreads, ledger_wakeup_some _ hres, wake_self, Function.update_self]
        have herror : (s.queue.threads t).error = .eok := by
          cases hphase : s.phase t with
          | none => exact absurd hphase hinside
          | some p =>
              cases p with
              | waiting => exact hok.waits hphase hsusp
              | leaving =>
                  rw [hok.runs hphase] at hsusp
                  cases hsusp
        exact ⟨fun _ hs => (by cases hs), fun _ _ => ⟨rfl, rfl, herror⟩, fun _ => rfl⟩

theorem timeout_inv (h : Inv s) (he : Enabled s (.timeout t))
    (hstep : step s (.timeout t) = .ok s') : Inv s' := by
  obtain ⟨hphase, htimer⟩ := he
  have hok := h.threads t
  obtain ⟨q, hq, hrest⟩ := bind_eq_ok.mp hstep
  obtain ⟨⟨threads, list⟩, ht, hq⟩ := bind_eq_ok.mp hq
  obtain ⟨-, -, ht⟩ := bind_eq_ok.mp ht
  cases ht
  cases hq
  cases hrest
  refine h.advance (t := t) h.nodup (fun _ _ => Iff.rfl)
    (fun u hu => (wake_of_ne hu).trans (setError_of_ne _ hu)) (fun _ _ => rfl) (fun _ _ => rfl)
    hphase (fun _ => Option.some_ne_none _) (fun _ hsusp => ?_) ?_ h.returns
  · simp only [wake_self] at hsusp
    cases hsusp
  · simp only [wake_self, setError_self]
    refine ⟨fun _ hsusp => (by cases hsusp), fun _ hr => ?_, fun hl => (by cases hl)⟩
    have hoff := (hok.resumed (by rw [hphase]; exact Option.some_ne_none _) hr).2.1
    rw [htimer] at hoff
    cases hoff

theorem step_inv (h : Inv s) (he : Enabled s e) (hstep : step s e = .ok s') : Inv s' := by
  cases e with
  | wait t condition msec => exact wait_inv h he hstep
  | woken t => exact woken_inv h he hstep
  | leave t => exact leave_inv h he hstep
  | wakeup => exact wakeup_inv h hstep
  | timeout t => exact timeout_inv h he hstep
  | other t x =>
      cases hstep
      exact h.outside he rfl (fun u hu => Function.update_of_ne hu ..) rfl rfl rfl

/-- A wait that the flag does not release leaves it alone. -/
theorem wait_ledger {condition msec : BitVec 32}
    (hstep : step s (.wait t condition msec) = .ok s') :
    s'.ledger.missed = s.ledger.missed ∧ s'.ledger.owed = false := by
  obtain ⟨⟨q, r⟩, -, hrest⟩ := bind_eq_ok.mp hstep
  cases r with
  | none =>
      cases hrest
      exact ⟨rfl, rfl⟩
  | some e =>
      cases hrest
      exact ⟨rfl, rfl⟩

/-- A step keeps the wake-ups if and only if it is in turn. -/
theorem kept_step_iff (h : Inv s) (he : Enabled s e) (hstep : step s e = .ok s') (hk : Kept s) :
    Kept s' ↔ InTurn s e := by
  obtain ⟨hmissed, hflag⟩ := h.kept_iff.mp hk
  rw [(step_inv h he hstep).kept_iff]
  cases e with
  | wait t condition msec =>
      obtain ⟨hmissed', howed⟩ := wait_ledger hstep
      rw [hmissed', howed]
      exact iff_of_true ⟨hmissed, fun hf => (by cases hf)⟩ trivial
  | woken t =>
      cases hstep
      constructor
      · rintro ⟨-, hclear⟩
        exact Bool.eq_false_iff.mpr fun howed => by cases hclear howed
      · intro howed
        exact ⟨hmissed, fun hf => by rw [howed] at hf; cases hf⟩
  | leave t =>
      cases hstep
      exact iff_of_true ⟨hmissed, hflag⟩ trivial
  | wakeup =>
      cases hstep
      have hset : (rtWqueueWakeup s.queue).flag = true := wakeup_flag s.queue
      simp only [hset, implies_true, and_true, InTurn, Ledger.wakeup]
      cases hres : wakeupResumes s.queue with
      | some t => exact iff_of_true hmissed fun _ => Option.some_ne_none t
      | none =>
          simp only
          by_cases hnone : suspendedNodes s.queue = []
          · rw [if_pos hnone]
            exact iff_of_true hmissed fun hne => absurd hnone hne
          · rw [if_neg hnone]
            exact iff_of_false (Nat.succ_ne_zero _) fun hturn => hturn hnone rfl
  | timeout t =>
      obtain ⟨q, hq, hrest⟩ := bind_eq_ok.mp hstep
      obtain ⟨⟨threads, list⟩, -, hq⟩ := bind_eq_ok.mp hq
      cases hq
      cases hrest
      exact iff_of_true ⟨hmissed, hflag⟩ trivial
  | other t x =>
      cases hstep
      exact iff_of_true ⟨hmissed, hflag⟩ trivial

end Steps

theorem boot_inv (threads : Threads) : Inv (boot threads) :=
  ⟨List.nodup_nil, fun _ h => absurd h List.not_mem_nil, fun _ h => (by cases h),
    fun _ => ThreadOk.outside .., fun _ h => absurd h List.not_mem_nil⟩

private theorem boot_kept (threads : Threads) : Kept (boot threads) :=
  (boot_inv threads).kept_iff.mpr ⟨rfl, fun h => (by cases h)⟩

/-- No wake-up is lost in exactly the runs whose steps are in turn. -/
theorem wakeups_kept (threads : Threads) (es : List Event) (s : System)
    (hg : Guarded step Enabled (boot threads) es) (hrun : run step (boot threads) es = .ok s) :
    Always step Kept (boot threads) es ↔ Guarded step InTurn (boot threads) es :=
  always_iff_guarded (fun _ _ _ hs he hstep => step_inv hs he hstep)
    (fun _ _ _ hs he hstep hk => kept_step_iff hs he hstep hk) (boot_inv threads)
    (boot_kept threads) hg hrun

/-- Threads that run. -/
def running : Threads := fun _ => ⟨false, 10, .eok, false, 0, 0⟩

/-- One waiter is resumed, another times out, and a wait finds the flag. -/
theorem wakeups_kept_three :
    Always step Kept (boot running)
      [.wait 0 0 50, .wait 1 0 20, .wakeup, .woken 0, .leave 0, .timeout 1, .woken 1, .leave 1,
        .wakeup, .wait 2 0 50] := by
  have hlist : (run step (boot running)
      [.wait 0 0 50, .wait 1 0 20, .wakeup, .woken 0, .leave 0, .timeout 1, .woken 1, .leave 1,
        .wakeup, .wait 2 0 50]).map (fun s => s.queue.waitingList) = .ok [] := by
    decide
  obtain ⟨s, hrun, -⟩ := exists_of_map_eq_ok hlist
  exact (wakeups_kept running _ s (by decide) hrun).mpr (by decide)

/-- The wake-up comes upon the node of a waiter that has timed out, and the other stays
suspended. -/
theorem wakeup_missed :
    ∃ s, Guarded step Enabled (boot running) [.wait 0 0 20, .wait 1 0 50, .timeout 0] ∧
      run step (boot running) [.wait 0 0 20, .wait 1 0 50, .timeout 0] = .ok s ∧
      suspendedNodes s.queue = [1] ∧ suspendedNodes (rtWqueueWakeup s.queue) = [1] := by
  have hguarded : Guarded step Enabled (boot running)
      [.wait 0 0 20, .wait 1 0 50, .timeout 0] := by
    decide
  have hnodes : (run step (boot running) [.wait 0 0 20, .wait 1 0 50, .timeout 0]).map
      (fun s => (suspendedNodes s.queue, suspendedNodes (rtWqueueWakeup s.queue))) =
        .ok ([1], [1]) := by
    decide
  obtain ⟨s, hrun, hs⟩ := exists_of_map_eq_ok hnodes
  exact ⟨s, hguarded, hrun, congrArg Prod.fst hs, congrArg Prod.snd hs⟩

end RtHypervisor.Ports.WaitQueues
