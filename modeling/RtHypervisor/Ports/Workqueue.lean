import Mathlib.Tactic
import RtHypervisor.Verified.Run

/-!
# Work queues

An item is described by one list node, two flags, a back pointer and a timer.  It is due when it
is in `work_list`, and delayed while it is in `delayed_list` and its timer runs.  What runs with
the interrupts disabled is one step; a delayed submission starts the timer after that, and the
timer calls its handler, which looks at the back pointer first, in a thread of its own.

`workqueue_consistent` says which runs keep the flags, the lists and the timers of all items
together, and lose no item.
-/

namespace RtHypervisor.Ports.Workqueue

open RtHypervisor.Verified.Run

abbrev WorkId := Nat

/-- The values of `rt_err_t` that `workqueue.c` uses. -/
inductive Err
  | eok
  | ebusy
  | error
deriving DecidableEq, Repr

/-- `struct rt_work`.  `pending` and `submitting` are `RT_WORK_STATE_PENDING` and
`RT_WORK_STATE_SUBMITTING`, `workqueue` is whether the back pointer is set, and `timer` whether
the timer is active, if it is an object at all. -/
structure Work where
  pending : Bool
  submitting : Bool
  workqueue : Bool
  timer : Option Bool
deriving DecidableEq, Repr

/-- `struct rt_workqueue`, with the items.  `suspended` is the state of `work_thread` where it
waits for work. -/
structure RtWorkqueue where
  workList : List WorkId
  delayedList : List WorkId
  workCurrent : Option WorkId
  suspended : Bool
  work : WorkId → Work

def setWork (q : RtWorkqueue) (w : WorkId) (x : Work) : RtWorkqueue :=
  { q with work := Function.update q.work w x }

/-- `rt_list_remove(&(work->list))`. -/
def listRemove (q : RtWorkqueue) (w : WorkId) : RtWorkqueue :=
  { q with workList := q.workList.erase w, delayedList := q.delayedList.erase w }

/-- Resume the work thread if it waits for work. -/
def resumeWorkThread (q : RtWorkqueue) : RtWorkqueue :=
  if q.workCurrent = none ∧ q.suspended then { q with suspended := false } else q

/-- `RT_TICK_MAX / 2`. -/
def rtTickHalf : BitVec 32 := 0x7fffffff

/-- `_workqueue_submit_work`, up to its call of `rt_timer_start`. -/
def workqueueSubmitWork (q : RtWorkqueue) (w : WorkId) (ticks : BitVec 32) :
    Except Fault (RtWorkqueue × Err) := do
  let q := listRemove q w
  let work := { q.work w with pending := false }
  if ticks = 0 then
    if q.workCurrent ≠ some w then
      let q := { setWork q w { work with pending := true, workqueue := true } with
        workList := q.workList ++ [w] }
      pure (resumeWorkThread q, .eok)
    else pure (resumeWorkThread (setWork q w work), .ebusy)
  else if ticks < rtTickHalf then do
    -- the timer is stopped and set, or initialised
    check .assertion (work.timer.isSome = work.submitting)
    let q := setWork q w { work with submitting := true, workqueue := true, timer := some false }
    pure ({ q with delayedList := q.delayedList ++ [w] }, .eok)
  else pure (setWork q w work, .error)

/-- `rt_timer_start(&(work->timer))`. -/
def timerStart (q : RtWorkqueue) (w : WorkId) : Except Fault RtWorkqueue := do
  check .assertion (q.work w).timer.isSome
  pure (setWork q w { q.work w with timer := some true })

/-- `_workqueue_cancel_work`. -/
def workqueueCancelWork (q : RtWorkqueue) (w : WorkId) : Except Fault (RtWorkqueue × Err) := do
  let q := listRemove q w
  let work := { q.work w with pending := false }
  let err := if q.workCurrent ≠ some w then .eok else .ebusy
  if work.submitting then do
    check .assertion work.timer.isSome
    pure (setWork q w { work with submitting := false, timer := none, workqueue := false }, err)
  else pure (setWork q w { work with workqueue := false }, err)

/-- `_delayed_work_timeout_handler`, in front of the interrupts being disabled. -/
def timeoutHandlerLoad (q : RtWorkqueue) (w : WorkId) : Except Fault Unit :=
  check .assertion (q.work w).workqueue

/-- The rest of `_delayed_work_timeout_handler`. -/
def timeoutHandler (q : RtWorkqueue) (w : WorkId) : Except Fault RtWorkqueue := do
  check .assertion (q.work w).timer.isSome
  let q := listRemove q w
  let work := { q.work w with timer := none, submitting := false }
  if q.workCurrent ≠ some w then
    let q := { setWork q w { work with pending := true } with workList := q.workList ++ [w] }
    pure (resumeWorkThread q)
  else pure (resumeWorkThread (setWork q w work))

/-- `rt_workqueue_urgent_work`. -/
def rtWorkqueueUrgentWork (q : RtWorkqueue) (w : WorkId) : RtWorkqueue × Err :=
  let q := listRemove q w
  (resumeWorkThread { q with workList := w :: q.workList }, .eok)

/-- The top of the loop of `_workqueue_thread_entry`: the item whose function is called, or
nothing when the thread suspends itself. -/
def workqueueThreadTop (q : RtWorkqueue) : RtWorkqueue × Option WorkId :=
  match q.workList with
  | [] => ({ q with suspended := true }, none)
  | w :: _ =>
      let q := listRemove q w
      (setWork { q with workCurrent := some w } w
        { q.work w with pending := false, workqueue := false }, some w)

/-! ## Runs -/

/-- Where the work thread is: at the top of its loop, in the function of an item, or behind it,
in front of `_workqueue_work_completion`. -/
inductive Worker
  | top
  | running (w : WorkId)
  | completing (w : WorkId)
deriving DecidableEq, Repr

/-- `starting` counts the submissions of an item that have not yet started its timer; `handler`
is the item whose handler runs, and whether it has read the back pointer.  `accepted` says of
which items a submission succeeded and was not cancelled, and the function not started since. -/
structure System where
  queue : RtWorkqueue
  worker : Worker
  starting : WorkId → Nat
  handler : Option (WorkId × Bool)
  accepted : WorkId → Bool

inductive Event
  | dowork (w : WorkId)
  | submit (w : WorkId) (ticks : BitVec 32)
  | start (w : WorkId)
  | urgent (w : WorkId)
  | cancel (w : WorkId)
  | expire (w : WorkId)
  | handlerLoad
  | handlerRun
  | threadTop
  | finish
  | complete
deriving DecidableEq, Repr

/-- The timer thread runs one handler at a time, and every thread does its steps in turn. -/
def Enabled (s : System) : Event → Prop
  | .submit _ ticks => ticks < rtTickHalf
  | .start w => 0 < s.starting w
  | .expire w => (s.queue.work w).timer = some true ∧ s.handler = none
  | .handlerLoad => s.handler.any (fun h => !h.2) = true
  | .handlerRun => s.handler.any (fun h => h.2) = true
  | .threadTop => s.worker = .top ∧ s.queue.suspended = false
  | .finish => (s.worker matches .running _) = true
  | .complete => (s.worker matches .completing _) = true
  | .dowork _ | .urgent _ | .cancel _ => True

instance (s : System) : ∀ e, Decidable (Enabled s e)
  | .submit .. | .start _ => inferInstanceAs (Decidable (_ < _))
  | .expire _ | .threadTop => inferInstanceAs (Decidable (_ ∧ _))
  | .handlerLoad | .handlerRun | .finish | .complete => inferInstanceAs (Decidable (_ = _))
  | .dowork _ | .urgent _ | .cancel _ => inferInstanceAs (Decidable True)

/-- A submission that succeeds is accepted. -/
def System.accept (s : System) (w : WorkId) (err : Err) : WorkId → Bool :=
  if err = .eok then Function.update s.accepted w true else s.accepted

/-- `rt_workqueue_dowork` and `rt_workqueue_submit_work`. -/
def System.submit (s : System) (w : WorkId) (ticks : BitVec 32) : Except Fault System := do
  let (q, err) ← workqueueSubmitWork s.queue w ticks
  pure
    { s with
      queue := q
      starting := if ticks = 0 then s.starting
        else Function.update s.starting w (s.starting w + 1)
      accepted := s.accept w err }

def step (s : System) : Event → Except Fault System
  | .dowork w => s.submit w 0
  | .submit w ticks => s.submit w ticks
  | .start w => do
      let q ← timerStart s.queue w
      pure { s with queue := q, starting := Function.update s.starting w (s.starting w - 1) }
  | .urgent w =>
      let (q, err) := rtWorkqueueUrgentWork s.queue w
      pure { s with queue := q, accepted := s.accept w err }
  | .cancel w => do
      let (q, _) ← workqueueCancelWork s.queue w
      pure { s with queue := q, accepted := Function.update s.accepted w false }
  | .expire w =>
      pure
        { s with
          queue := setWork s.queue w { s.queue.work w with timer := some false }
          handler := some (w, false) }
  | .handlerLoad =>
      match s.handler with
      | none => pure s
      | some (w, _) => do
          timeoutHandlerLoad s.queue w
          pure { s with handler := some (w, true) }
  | .handlerRun =>
      match s.handler with
      | none => pure s
      | some (w, _) => do
          let q ← timeoutHandler s.queue w
          pure { s with queue := q, handler := none }
  | .threadTop =>
      let (q, current) := workqueueThreadTop s.queue
      match current with
      | none => pure { s with queue := q }
      | some w =>
          pure
            { s with
              queue := q
              worker := .running w
              accepted := Function.update s.accepted w false }
  | .finish =>
      match s.worker with
      | .running w =>
          pure { s with queue := { s.queue with workCurrent := none }, worker := .completing w }
      | _ => pure s
  | .complete => pure { s with worker := .top }

/-- `rt_workqueue_create` and `rt_work_init` of every item. -/
def boot : System where
  queue := ⟨[], [], none, false, fun _ => ⟨false, false, false, none⟩⟩
  worker := .top
  starting := fun _ => 0
  handler := none
  accepted := fun _ => false

/-- The timer of an item is active, or a call is about to start it, or its handler runs. -/
def Live (s : System) (w : WorkId) : Prop :=
  (s.queue.work w).timer = some true ∨ 0 < s.starting w ∨ s.handler.map Prod.fst = some w

/-- The flags of an item say where it is, and it is not lost. -/
structure ItemOk (s : System) (w : WorkId) : Prop where
  pending : (s.queue.work w).pending = true ↔ w ∈ s.queue.workList
  submitting : (s.queue.work w).submitting = true ↔ w ∈ s.queue.delayedList ∧ Live s w
  accepted : s.accepted w = true → w ∈ s.queue.workList ∨ w ∈ s.queue.delayedList

/-- Every item is in at most one of the lists, where its flags say. -/
structure Consistent (s : System) : Prop where
  once : (s.queue.workList ++ s.queue.delayedList).Nodup
  item : ∀ w, ItemOk s w

/-- A delayed item is not submitted without delay, only a pending one is made urgent, a delayed
one is not cancelled between the submission and the start of its timer, nor once the timer has
run out, and its own function is not running when it becomes due. -/
def InOrder (s : System) : Event → Prop
  | .dowork w => (s.queue.work w).submitting = false
  | .submit w ticks => ticks = 0 → (s.queue.work w).submitting = false
  | .start w => (s.queue.work w).submitting = true
  | .urgent w => (s.queue.work w).pending = true
  | .handlerLoad => ∀ h ∈ s.handler, (s.queue.work h.1).workqueue = true
  | .handlerRun => ∀ h ∈ s.handler,
      (s.queue.work h.1).submitting = true ∧ s.queue.workCurrent ≠ some h.1
  | _ => True

instance (s : System) : ∀ e, Decidable (InOrder s e)
  | .dowork _ | .start _ | .urgent _ => inferInstanceAs (Decidable (_ = _))
  | .submit .. => inferInstanceAs (Decidable (_ → _))
  | .handlerLoad => inferInstanceAs (Decidable (∀ h ∈ s.handler, _ = _))
  | .handlerRun => inferInstanceAs (Decidable (∀ h ∈ s.handler, _ ∧ _))
  | .cancel _ | .expire _ | .threadTop | .finish | .complete => inferInstanceAs (Decidable True)

/-! ## The items -/

/-- What holds of an item besides. -/
structure ItemInv (s : System) (w : WorkId) : Prop where
  delayed : w ∈ s.queue.delayedList → (s.queue.work w).submitting = true
  timer : (s.queue.work w).timer.isSome = (s.queue.work w).submitting
  accepted : (s.queue.work w).submitting = true → s.accepted w = true
  current : s.queue.workCurrent = some w → w ∉ s.queue.workList

def Inv (s : System) : Prop := ∀ w, ItemInv s w

section Queue

variable {q : RtWorkqueue} {w u : WorkId}

@[simp] theorem resume_workList : (resumeWorkThread q).workList = q.workList := by
  rw [resumeWorkThread]
  split <;> rfl

@[simp] theorem resume_delayedList : (resumeWorkThread q).delayedList = q.delayedList := by
  rw [resumeWorkThread]
  split <;> rfl

@[simp] theorem resume_workCurrent : (resumeWorkThread q).workCurrent = q.workCurrent := by
  rw [resumeWorkThread]
  split <;> rfl

@[simp] theorem resume_work : (resumeWorkThread q).work = q.work := by
  rw [resumeWorkThread]
  split <;> rfl

/-- Where the node of an item is put. -/
inductive Place
  | nowhere
  | due
  | first
  | delayed
deriving DecidableEq

def Place.workList (w : WorkId) (l : List WorkId) : Place → List WorkId
  | .due => l ++ [w]
  | .first => w :: l
  | .nowhere | .delayed => l

def Place.delayedList (w : WorkId) (l : List WorkId) : Place → List WorkId
  | .delayed => l ++ [w]
  | .nowhere | .due | .first => l

/-- The item `w` was removed from its list and put into another, and became `x`. -/
structure Moved (q q' : RtWorkqueue) (w : WorkId) (x : Work) (p : Place) : Prop where
  work : q'.work = Function.update q.work w x
  workList : q'.workList = p.workList w (q.workList.erase w)
  delayedList : q'.delayedList = p.delayedList w (q.delayedList.erase w)

section Moved

variable {q' : RtWorkqueue} {x : Work} {p : Place}

theorem Moved.resume (h : Moved q q' w x p) : Moved q (resumeWorkThread q') w x p := by
  refine ⟨?_, ?_, ?_⟩
  · rw [resume_work, h.work]
  · rw [resume_workList, h.workList]
  · rw [resume_delayedList, h.delayedList]

theorem Moved.mem_workList (h : Moved q q' w x p) (hn : (q.workList ++ q.delayedList).Nodup) :
    w ∈ q'.workList ↔ p = .due ∨ p = .first := by
  have hnot : w ∉ q.workList.erase w := (List.nodup_append.mp hn).1.not_mem_erase
  rw [h.workList]
  cases p <;> simp [Place.workList, hnot]

theorem Moved.mem_delayedList (h : Moved q q' w x p)
    (hn : (q.workList ++ q.delayedList).Nodup) : w ∈ q'.delayedList ↔ p = .delayed := by
  have hnot : w ∉ q.delayedList.erase w := (List.nodup_append.mp hn).2.1.not_mem_erase
  rw [h.delayedList]
  cases p <;> simp [Place.delayedList, hnot]

theorem Moved.workList_of_ne (h : Moved q q' w x p) (hu : u ≠ w) :
    u ∈ q'.workList ↔ u ∈ q.workList := by
  rw [h.workList]
  cases p <;> simp [Place.workList, List.mem_erase_of_ne hu, hu]

theorem Moved.delayedList_of_ne (h : Moved q q' w x p) (hu : u ≠ w) :
    u ∈ q'.delayedList ↔ u ∈ q.delayedList := by
  rw [h.delayedList]
  cases p <;> simp [Place.delayedList, List.mem_erase_of_ne hu, hu]

theorem Moved.nodup (h : Moved q q' w x p) (hn : (q.workList ++ q.delayedList).Nodup) :
    (q'.workList ++ q'.delayedList).Nodup := by
  have hsub : (q.workList.erase w ++ q.delayedList.erase w).Nodup :=
    hn.sublist (List.erase_sublist.append List.erase_sublist)
  have happ := List.nodup_append.mp hn
  have hnot : w ∉ q.workList.erase w ++ q.delayedList.erase w := by
    rw [List.mem_append, not_or]
    exact ⟨happ.1.not_mem_erase, happ.2.1.not_mem_erase⟩
  have hcons : (w :: (q.workList.erase w ++ q.delayedList.erase w)).Nodup :=
    List.nodup_cons.mpr ⟨hnot, hsub⟩
  rw [h.workList, h.delayedList]
  cases p with
  | nowhere => exact hsub
  | first => exact hcons
  | due =>
      refine (List.Perm.nodup_iff ?_).mp hcons
      rw [Place.workList, List.append_assoc]
      exact List.perm_middle.symm
  | delayed =>
      refine (List.Perm.nodup_iff ?_).mp hcons
      rw [Place.workList, Place.delayedList, ← List.append_assoc]
      exact (List.perm_append_singleton ..).symm

end Moved

/-! What each function does with the node. -/

private theorem dowork_moved (h : q.workCurrent ≠ some w) :
    ∃ q', workqueueSubmitWork q w 0 = .ok (q', .eok) ∧ q'.workCurrent = q.workCurrent ∧
      Moved q q' w { q.work w with pending := true, workqueue := true } .due := by
  refine ⟨resumeWorkThread { setWork (listRemove q w) w
      { q.work w with pending := true, workqueue := true } with
        workList := (listRemove q w).workList ++ [w] }, ?_, resume_workCurrent,
    Moved.resume ⟨rfl, rfl, rfl⟩⟩
  rw [workqueueSubmitWork]
  simp only [if_true, listRemove, ne_eq, h, not_false_eq_true]
  rfl

private theorem dowork_busy (h : q.workCurrent = some w) :
    ∃ q', workqueueSubmitWork q w 0 = .ok (q', .ebusy) ∧ q'.workCurrent = q.workCurrent ∧
      Moved q q' w { q.work w with pending := false } .nowhere := by
  refine ⟨resumeWorkThread (setWork (listRemove q w) w { q.work w with pending := false }), ?_,
    resume_workCurrent, Moved.resume ⟨rfl, rfl, rfl⟩⟩
  rw [workqueueSubmitWork]
  simp only [if_true, listRemove, ne_eq, h, not_true_eq_false, if_false]
  rfl

private theorem submit_moved {ticks : BitVec 32} (hne : ticks ≠ 0) (hlt : ticks < rtTickHalf)
    (htimer : (q.work w).timer.isSome = (q.work w).submitting) :
    ∃ q', workqueueSubmitWork q w ticks = .ok (q', .eok) ∧ q'.workCurrent = q.workCurrent ∧
      Moved q q' w ⟨false, true, true, some false⟩ .delayed := by
  refine ⟨{ setWork (listRemove q w) w ⟨false, true, true, some false⟩ with
    delayedList := (listRemove q w).delayedList ++ [w] }, ?_, rfl, ⟨rfl, rfl, rfl⟩⟩
  rw [workqueueSubmitWork]
  simp only [if_neg hne, if_pos hlt, listRemove, htimer, decide_true, check_true]
  rfl

private theorem urgent_moved :
    ∃ q', rtWorkqueueUrgentWork q w = (q', .eok) ∧ q'.workCurrent = q.workCurrent ∧
      Moved q q' w (q.work w) .first :=
  ⟨_, rfl, resume_workCurrent, Moved.resume ⟨(Function.update_eq_self ..).symm, rfl, rfl⟩⟩

private theorem cancel_moved (htimer : (q.work w).timer.isSome = (q.work w).submitting) :
    ∃ q' err, workqueueCancelWork q w = .ok (q', err) ∧ q'.workCurrent = q.workCurrent ∧
      Moved q q' w ⟨false, false, false, none⟩ .nowhere := by
  cases hsub : (q.work w).submitting with
  | true =>
      refine ⟨setWork (listRemove q w) w ⟨false, false, false, none⟩,
        if q.workCurrent ≠ some w then .eok else .ebusy, ?_, rfl, ⟨rfl, rfl, rfl⟩⟩
      rw [hsub] at htimer
      rw [workqueueCancelWork]
      simp only [listRemove, hsub, if_true, htimer, check_true]
      rfl
  | false =>
      have hnone : (q.work w).timer = none := by
        rw [hsub, Option.isSome_eq_false_iff, Option.isNone_iff_eq_none] at htimer
        exact htimer
      refine ⟨setWork (listRemove q w) w ⟨false, false, false, none⟩,
        if q.workCurrent ≠ some w then .eok else .ebusy, ?_, rfl, ⟨rfl, rfl, rfl⟩⟩
      rw [workqueueCancelWork]
      simp only [listRemove, hsub, Bool.false_eq_true, if_false, hnone]
      rfl

private theorem handler_moved (htimer : (q.work w).timer.isSome = true)
    (h : q.workCurrent ≠ some w) :
    ∃ q', timeoutHandler q w = .ok q' ∧ q'.workCurrent = q.workCurrent ∧
      Moved q q' w ⟨true, false, (q.work w).workqueue, none⟩ .due := by
  refine ⟨resumeWorkThread { setWork (listRemove q w) w
      ⟨true, false, (q.work w).workqueue, none⟩ with
        workList := (listRemove q w).workList ++ [w] }, ?_, resume_workCurrent,
    Moved.resume ⟨rfl, rfl, rfl⟩⟩
  rw [timeoutHandler]
  simp only [htimer, check_true, listRemove, ne_eq, h, not_false_eq_true, if_true]
  rfl

/-- The function of the item runs when its handler does, which drops it. -/
theorem handler_dropped (htimer : (q.work w).timer.isSome = true) (h : q.workCurrent = some w) :
    ∃ q', timeoutHandler q w = .ok q' ∧ q'.workList = q.workList.erase w ∧
      q'.delayedList = q.delayedList.erase w := by
  refine ⟨resumeWorkThread (setWork (listRemove q w) w
      { q.work w with timer := none, submitting := false }), ?_, resume_workList,
    resume_delayedList⟩
  rw [timeoutHandler]
  simp only [htimer, check_true, listRemove, ne_eq, h, not_true_eq_false, if_false]
  rfl

private theorem threadTop_moved {l : List WorkId} (hlist : q.workList = w :: l) :
    ∃ q', workqueueThreadTop q = (q', some w) ∧ q'.workCurrent = some w ∧
      Moved q q' w { q.work w with pending := false, workqueue := false } .nowhere := by
  refine ⟨_, by rw [workqueueThreadTop, hlist], rfl, ?_⟩
  exact ⟨rfl, rfl, rfl⟩

end Queue

/-- A step that concerns the item `w` leaves the others alone. -/
structure Others (w : WorkId) (s s' : System) : Prop where
  workList : ∀ u, u ≠ w → (u ∈ s'.queue.workList ↔ u ∈ s.queue.workList)
  delayedList : ∀ u, u ≠ w → (u ∈ s'.queue.delayedList ↔ u ∈ s.queue.delayedList)
  work : ∀ u, u ≠ w → s'.queue.work u = s.queue.work u
  starting : ∀ u, u ≠ w → s'.starting u = s.starting u
  handler : ∀ u, u ≠ w → (s'.handler.map Prod.fst = some u ↔ s.handler.map Prod.fst = some u)
  accepted : ∀ u, u ≠ w → s'.accepted u = s.accepted u
  current : ∀ u, u ≠ w → s'.queue.workCurrent = some u → s.queue.workCurrent = some u

section Steps

variable {s s' : System} {w u : WorkId}

/-- What one step needs to show. -/
theorem Others.good (ho : Others w s s') (hc : Consistent s) (hi : Inv s)
    (hnodup : (s'.queue.workList ++ s'.queue.delayedList).Nodup) (hitem : ItemOk s' w)
    (hinv : ItemInv s' w) : Consistent s' ∧ Inv s' := by
  refine ⟨⟨hnodup, fun u => ?_⟩, fun u => ?_⟩
  · by_cases hu : u = w
    · exact hu ▸ hitem
    · have h := hc.item u
      have hlive : Live s' u ↔ Live s u := by
        rw [Live, Live, ho.work u hu, ho.starting u hu, ho.handler u hu]
      refine ⟨?_, ?_, ?_⟩
      · rw [ho.work u hu, ho.workList u hu]
        exact h.pending
      · rw [ho.work u hu, ho.delayedList u hu, hlive]
        exact h.submitting
      · rw [ho.accepted u hu, ho.workList u hu, ho.delayedList u hu]
        exact h.accepted
  · by_cases hu : u = w
    · exact hu ▸ hinv
    · have h := hi u
      refine ⟨?_, ?_, ?_, fun hcur => ?_⟩
      · rw [ho.work u hu, ho.delayedList u hu]
        exact h.delayed
      · rw [ho.work u hu]
        exact h.timer
      · rw [ho.work u hu, ho.accepted u hu]
        exact h.accepted
      · rw [ho.workList u hu]
        exact h.current (ho.current u hu hcur)

/-- An item that is not delayed has no timer and is not in the delayed list. -/
theorem not_delayed (hi : Inv s) (h : (s.queue.work w).submitting = false) :
    w ∉ s.queue.delayedList ∧ (s.queue.work w).timer = none := by
  refine ⟨fun hmem => ?_, ?_⟩
  · have hsub := (hi w).delayed hmem
    rw [h] at hsub
    cases hsub
  · have htimer := (hi w).timer
    rw [h, Option.isSome_eq_false_iff, Option.isNone_iff_eq_none] at htimer
    exact htimer

/-- An item was moved, and its flags say where it is. -/
theorem Moved.good {x : Work} {p : Place} (hm : Moved s.queue s'.queue w x p)
    (hc : Consistent s) (hi : Inv s) (hstarting : ∀ u, u ≠ w → s'.starting u = s.starting u)
    (hhandler : ∀ u, u ≠ w →
      (s'.handler.map Prod.fst = some u ↔ s.handler.map Prod.fst = some u))
    (haccepted : ∀ u, u ≠ w → s'.accepted u = s.accepted u)
    (hcurrent : ∀ u, u ≠ w → s'.queue.workCurrent = some u → s.queue.workCurrent = some u)
    (hpending : x.pending = true ↔ p = .due ∨ p = .first)
    (hsubmitting : x.submitting = true ↔ p = .delayed) (hlive : p = .delayed → Live s' w)
    (htimer : x.timer.isSome = x.submitting)
    (hkept : s'.accepted w = true ↔ p ≠ .nowhere)
    (hrun : s'.queue.workCurrent = some w → ¬(p = .due ∨ p = .first)) :
    Consistent s' ∧ Inv s' := by
  have hself : s'.queue.work w = x := by rw [hm.work, Function.update_self]
  have ho : Others w s s' :=
    ⟨fun u hu => hm.workList_of_ne hu, fun u hu => hm.delayedList_of_ne hu,
      fun u hu => by rw [hm.work, Function.update_of_ne hu], hstarting, hhandler, haccepted,
      hcurrent⟩
  refine ho.good hc hi (hm.nodup hc.once) ⟨?_, ?_, fun ha => ?_⟩ ⟨fun hd => ?_, ?_, fun hs => ?_,
    fun hcur => ?_⟩
  · rw [hself, hm.mem_workList hc.once]
    exact hpending
  · rw [hself, hm.mem_delayedList hc.once, hsubmitting]
    exact ⟨fun h => ⟨h, hlive h⟩, fun h => h.1⟩
  · rw [hm.mem_workList hc.once, hm.mem_delayedList hc.once]
    have hp := hkept.mp ha
    cases p <;> simp_all
  · rw [hself, hsubmitting]
    exact (hm.mem_delayedList hc.once).mp hd
  · rw [hself]
    exact htimer
  · rw [hself, hsubmitting] at hs
    rw [hkept, hs]
    decide
  · rw [hm.mem_workList hc.once]
    exact hrun hcur

/-- `rt_workqueue_dowork`. -/
theorem dowork_good (hc : Consistent s) (hi : Inv s)
    (hcond : (s.queue.work w).submitting = false) :
    ∃ s', s.submit w 0 = .ok s' ∧ Consistent s' ∧ Inv s' := by
  obtain ⟨hdelayed, htimer⟩ := not_delayed hi hcond
  by_cases hcur : s.queue.workCurrent = some w
  · have hwork : w ∉ s.queue.workList := (hi w).current hcur
    have haccepted : s.accepted w = false := by
      rw [Bool.eq_false_iff]
      intro ha
      rcases (hc.item w).accepted ha with h | h
      · exact hwork h
      · exact hdelayed h
    obtain ⟨q', hq, hsame, hm⟩ := dowork_busy hcur
    refine ⟨{ s with queue := q' }, ?_, hm.good hc hi (fun _ _ => rfl) (fun _ _ => Iff.rfl)
      (fun _ _ => rfl) (fun _ _ h => hsame ▸ h) ?_ ?_ (fun h => (by cases h)) ?_ ?_ fun _ => ?_⟩
    · rw [System.submit, hq]
      rfl
    · simp
    · simp [hcond]
    · simp [hcond, htimer]
    · simp [haccepted]
    · decide
  · obtain ⟨q', hq, hsame, hm⟩ := dowork_moved hcur
    refine ⟨{ s with queue := q', accepted := Function.update s.accepted w true }, ?_,
      hm.good hc hi (fun _ _ => rfl) (fun _ _ => Iff.rfl)
      (fun u hu => Function.update_of_ne hu ..) (fun _ _ h => hsame ▸ h) ?_ ?_
      (fun h => (by cases h)) ?_ ?_ fun h => ?_⟩
    · rw [System.submit, hq]
      rfl
    · simp
    · simp [hcond]
    · simp [hcond, htimer]
    · simp
    · rw [hsame] at h
      exact absurd h hcur

/-- `rt_workqueue_submit_work` with a delay, in front of the start of the timer. -/
theorem submit_good {ticks : BitVec 32} (hc : Consistent s) (hi : Inv s) (hne : ticks ≠ 0)
    (hlt : ticks < rtTickHalf) :
    ∃ s', s.submit w ticks = .ok s' ∧ Consistent s' ∧ Inv s' := by
  obtain ⟨q', hq, hsame, hm⟩ := submit_moved hne hlt (hi w).timer
  refine ⟨{ s with
    queue := q'
    starting := Function.update s.starting w (s.starting w + 1)
    accepted := Function.update s.accepted w true }, ?_,
    hm.good hc hi (fun u hu => Function.update_of_ne hu ..) (fun _ _ => Iff.rfl)
      (fun u hu => Function.update_of_ne hu ..) (fun _ _ h => hsame ▸ h) ?_ ?_
      (fun _ => Or.inr (Or.inl ?_)) rfl ?_ fun _ => ?_⟩
  · rw [System.submit, hq]
    simp only [ok_bind, if_neg hne, System.accept, if_true]
    rfl
  · decide
  · decide
  · simp
  · simp
  · decide

/-- `rt_workqueue_urgent_work`. -/
theorem urgent_good (hc : Consistent s) (hi : Inv s) (hcond : (s.queue.work w).pending = true) :
    ∃ s', step s (.urgent w) = .ok s' ∧ Consistent s' ∧ Inv s' := by
  have hwork : w ∈ s.queue.workList := (hc.item w).pending.mp hcond
  have hdelayed : w ∉ s.queue.delayedList := fun h =>
    (List.nodup_append.mp hc.once).2.2 w hwork w h rfl
  have hsub : (s.queue.work w).submitting = false := by
    rw [Bool.eq_false_iff]
    exact fun h => hdelayed ((hc.item w).submitting.mp h).1
  obtain ⟨q', hq, hsame, hm⟩ := urgent_moved (q := s.queue) (w := w)
  refine ⟨{ s with queue := q', accepted := Function.update s.accepted w true }, ?_,
    hm.good hc hi (fun _ _ => rfl) (fun _ _ => Iff.rfl)
      (fun u hu => Function.update_of_ne hu ..) (fun _ _ h => hsame ▸ h) ?_ ?_
      (fun h => (by cases h)) (hi w).timer ?_ fun h => ?_⟩
  · simp only [step, hq]
    rfl
  · simp [hcond]
  · simp [hsub]
  · simp
  · rw [hsame] at h
    exact absurd hwork ((hi w).current h)

/-- `rt_workqueue_cancel_work`. -/
theorem cancel_good (hc : Consistent s) (hi : Inv s) :
    ∃ s', step s (.cancel w) = .ok s' ∧ Consistent s' ∧ Inv s' := by
  obtain ⟨q', err, hq, hsame, hm⟩ := cancel_moved (hi w).timer
  refine ⟨{ s with queue := q', accepted := Function.update s.accepted w false }, ?_,
    hm.good hc hi (fun _ _ => rfl) (fun _ _ => Iff.rfl)
      (fun u hu => Function.update_of_ne hu ..) (fun _ _ h => hsame ▸ h) ?_ ?_
      (fun h => (by cases h)) rfl ?_ fun _ => ?_⟩
  · simp only [step, hq]
    rfl
  · decide
  · decide
  · simp
  · decide

/-- The handler of the timer puts the item into the work list. -/
theorem handlerRun_good {b : Bool} (hc : Consistent s) (hi : Inv s)
    (hh : s.handler = some (w, b)) (hsub : (s.queue.work w).submitting = true)
    (hcur : s.queue.workCurrent ≠ some w) :
    ∃ s', step s .handlerRun = .ok s' ∧ Consistent s' ∧ Inv s' := by
  have htimer : (s.queue.work w).timer.isSome = true := (hi w).timer.trans hsub
  obtain ⟨q', hq, hsame, hm⟩ := handler_moved htimer hcur
  refine ⟨{ s with queue := q', handler := none }, ?_,
    hm.good hc hi (fun _ _ => rfl) (fun u hu => ?_) (fun _ _ => rfl) (fun _ _ h => hsame ▸ h) ?_ ?_
      (fun h => (by cases h)) rfl ?_ fun h => ?_⟩
  · simp only [step, hh, hq]
    rfl
  · rw [hh]
    simp [Ne.symm hu]
  · simp
  · simp
  · simp [(hi w).accepted hsub]
  · rw [hsame] at h
    exact absurd h hcur

/-- The work thread takes the first item, or waits. -/
theorem threadTop_good (hc : Consistent s) (hi : Inv s) :
    ∃ s', step s .threadTop = .ok s' ∧ Consistent s' ∧ Inv s' := by
  cases hlist : s.queue.workList with
  | nil =>
      refine ⟨{ s with queue := { s.queue with suspended := true } }, ?_, ⟨hc.once, fun u => ?_⟩,
        fun u => ?_⟩
      · simp only [step, workqueueThreadTop, hlist]
        rfl
      · exact ⟨(hc.item u).pending, (hc.item u).submitting, (hc.item u).accepted⟩
      · exact ⟨(hi u).delayed, (hi u).timer, (hi u).accepted, (hi u).current⟩
  | cons w l =>
      have hwork : w ∈ s.queue.workList := hlist ▸ List.mem_cons_self ..
      have hdelayed : w ∉ s.queue.delayedList := fun h =>
        (List.nodup_append.mp hc.once).2.2 w hwork w h rfl
      have hsub : (s.queue.work w).submitting = false := by
        rw [Bool.eq_false_iff]
        exact fun h => hdelayed ((hc.item w).submitting.mp h).1
      obtain ⟨q', hq, hcur, hm⟩ := threadTop_moved hlist
      refine ⟨{ s with
        queue := q'
        worker := .running w
        accepted := Function.update s.accepted w false }, ?_,
        hm.good hc hi (fun _ _ => rfl) (fun _ _ => Iff.rfl)
          (fun u hu => Function.update_of_ne hu ..) (fun u hu h => ?_) ?_ ?_
          (fun h => (by cases h)) ?_ ?_ fun _ => ?_⟩
      · simp only [step, hq]
        rfl
      · rw [hcur] at h
        exact absurd (Option.some.inj h).symm hu
      · simp
      · simp [hsub]
      · exact (hi w).timer
      · simp
      · decide

/-- The timer of an item is changed, and an item that was live still is. -/
theorem timer_good {x : Work} (hc : Consistent s) (hi : Inv s)
    (hx : x = { s.queue.work w with timer := x.timer })
    (htimer : x.timer.isSome = (s.queue.work w).timer.isSome)
    (hqueue : s'.queue = setWork s.queue w x)
    (hstarting : ∀ u, u ≠ w → s'.starting u = s.starting u)
    (hhandler : ∀ u, u ≠ w →
      (s'.handler.map Prod.fst = some u ↔ s.handler.map Prod.fst = some u))
    (haccepted : s'.accepted = s.accepted) (hlive : Live s' w)
    (hsub : w ∈ s.queue.delayedList → Live s w) : Consistent s' ∧ Inv s' := by
  have hself : s'.queue.work w = x := by
    rw [hqueue]
    exact Function.update_self ..
  have hpending : x.pending = (s.queue.work w).pending := by rw [hx]
  have hsubmitting : x.submitting = (s.queue.work w).submitting := by rw [hx]
  have ho : Others w s s' := by
    refine ⟨fun _ _ => ?_, fun _ _ => ?_, fun u hu => ?_, hstarting, hhandler, fun _ _ => ?_,
      fun _ _ h => ?_⟩
    · rw [hqueue]
      rfl
    · rw [hqueue]
      rfl
    · rw [hqueue]
      exact Function.update_of_ne hu ..
    · rw [haccepted]
    · rw [hqueue] at h
      exact h
  have hwork : s'.queue.workList = s.queue.workList := by rw [hqueue]; rfl
  have hdelayed : s'.queue.delayedList = s.queue.delayedList := by rw [hqueue]; rfl
  have hcurrent : s'.queue.workCurrent = s.queue.workCurrent := by rw [hqueue]; rfl
  refine ho.good hc hi ?_ ⟨?_, ?_, ?_⟩ ⟨?_, ?_, ?_, ?_⟩
  · rw [hwork, hdelayed]
    exact hc.once
  · rw [hself, hpending, hwork]
    exact (hc.item w).pending
  · rw [hself, hsubmitting, hdelayed, (hc.item w).submitting]
    exact ⟨fun h => ⟨h.1, hlive⟩, fun h => ⟨h.1, hsub h.1⟩⟩
  · rw [haccepted, hwork, hdelayed]
    exact (hc.item w).accepted
  · rw [hself, hsubmitting, hdelayed]
    exact (hi w).delayed
  · rw [hself, hsubmitting, htimer]
    exact (hi w).timer
  · rw [hself, hsubmitting, haccepted]
    exact (hi w).accepted
  · rw [hcurrent, hwork]
    exact (hi w).current

/-- A delayed item is live. -/
theorem live_of_delayed (hc : Consistent s) (hi : Inv s) (h : w ∈ s.queue.delayedList) :
    Live s w :=
  ((hc.item w).submitting.mp ((hi w).delayed h)).2

/-- A delayed submission starts the timer. -/
theorem start_good (hc : Consistent s) (hi : Inv s)
    (hcond : (s.queue.work w).submitting = true) :
    ∃ s', step s (.start w) = .ok s' ∧ Consistent s' ∧ Inv s' := by
  have htimer : (s.queue.work w).timer.isSome = true := (hi w).timer.trans hcond
  refine ⟨{ s with
    queue := setWork s.queue w { s.queue.work w with timer := some true }
    starting := Function.update s.starting w (s.starting w - 1) }, ?_,
    timer_good hc hi rfl ?_ rfl (fun u hu => Function.update_of_ne hu ..)
      (fun _ _ => Iff.rfl) rfl (Or.inl ?_) (live_of_delayed hc hi)⟩
  · simp only [step, timerStart, htimer, check_true]
    rfl
  · rw [htimer]
    rfl
  · simp only [setWork, Function.update_self]

/-- The timer of an item runs out. -/
theorem expire_good (hc : Consistent s) (hi : Inv s)
    (htimer : (s.queue.work w).timer = some true) (hnone : s.handler = none) :
    ∃ s', step s (.expire w) = .ok s' ∧ Consistent s' ∧ Inv s' := by
  refine ⟨_, rfl, timer_good hc hi rfl ?_ rfl (fun _ _ => rfl) (fun u hu => ?_) rfl
    (Or.inr (Or.inr rfl)) (live_of_delayed hc hi)⟩
  · rw [htimer]
    rfl
  · rw [hnone]
    simp [Ne.symm hu]

/-- A step that is in order returns and keeps the items together. -/
theorem step_good {e : Event} (hc : Consistent s) (hi : Inv s) (he : Enabled s e)
    (ho : InOrder s e) : ∃ s', step s e = .ok s' ∧ Consistent s' ∧ Inv s' := by
  cases e with
  | dowork w => exact dowork_good hc hi ho
  | submit w ticks =>
      by_cases hzero : ticks = 0
      · subst hzero
        exact dowork_good hc hi (ho rfl)
      · exact submit_good hc hi hzero he
  | start w => exact start_good hc hi ho
  | urgent w => exact urgent_good hc hi ho
  | cancel w => exact cancel_good hc hi
  | expire w => exact expire_good hc hi he.1 he.2
  | handlerLoad =>
      cases hh : s.handler with
      | none => exact ⟨s, by simp only [step, hh]; rfl, hc, hi⟩
      | some h =>
          obtain ⟨w, b⟩ := h
          have hqueue : (s.queue.work w).workqueue = true := ho (w, b) hh
          refine ⟨{ s with handler := some (w, true) }, ?_, ⟨hc.once, fun u => ?_⟩, fun u => ?_⟩
          · simp only [step, hh, timeoutHandlerLoad, hqueue]
            rfl
          · have hlive : Live { s with handler := some (w, true) } u ↔ Live s u := by
              rw [Live, Live, hh]
              rfl
            refine ⟨(hc.item u).pending, ?_, (hc.item u).accepted⟩
            rw [hlive]
            exact (hc.item u).submitting
          · exact ⟨(hi u).delayed, (hi u).timer, (hi u).accepted, (hi u).current⟩
  | handlerRun =>
      cases hh : s.handler with
      | none => exact ⟨s, by simp only [step, hh]; rfl, hc, hi⟩
      | some h =>
          obtain ⟨w, b⟩ := h
          obtain ⟨hsub, hcur⟩ := ho (w, b) hh
          exact handlerRun_good hc hi hh hsub hcur
  | threadTop => exact threadTop_good hc hi
  | finish =>
      cases hw : s.worker with
      | running w =>
          refine ⟨{ s with
            queue := { s.queue with workCurrent := none }
            worker := .completing w }, ?_, ⟨hc.once, fun u => ?_⟩, fun u => ?_⟩
          · simp only [step, hw]
            rfl
          · exact ⟨(hc.item u).pending, (hc.item u).submitting, (hc.item u).accepted⟩
          · exact ⟨(hi u).delayed, (hi u).timer, (hi u).accepted, fun h => (by cases h)⟩
      | top => exact ⟨s, by simp only [step, hw]; rfl, hc, hi⟩
      | completing w => exact ⟨s, by simp only [step, hw]; rfl, hc, hi⟩
  | complete =>
      refine ⟨{ s with worker := .top }, rfl, ⟨hc.once, fun u => ?_⟩, fun u => ?_⟩
      · exact ⟨(hc.item u).pending, (hc.item u).submitting, (hc.item u).accepted⟩
      · exact ⟨(hi u).delayed, (hi u).timer, (hi u).accepted, (hi u).current⟩

/-- After a submission without delay the item must not be delayed. -/
theorem dowork_needs (hc : Consistent s) (h : s.submit w 0 = .ok s')
    (hc' : Consistent s') : (s.queue.work w).submitting = false := by
  rw [Bool.eq_false_iff]
  intro hsub
  obtain ⟨⟨q', err⟩, hq, hrest⟩ := bind_eq_ok.mp h
  cases hrest
  obtain ⟨x, p, hm, hx, hp⟩ : ∃ x p, Moved s.queue q' w x p ∧ x.submitting = true ∧
      p ≠ .delayed := by
    by_cases hcur : s.queue.workCurrent = some w
    · obtain ⟨q₂, hq₂, -, hm⟩ := dowork_busy hcur
      cases hq.symm.trans hq₂
      exact ⟨_, _, hm, hsub, by decide⟩
    · obtain ⟨q₂, hq₂, -, hm⟩ := dowork_moved hcur
      cases hq.symm.trans hq₂
      exact ⟨_, _, hm, hsub, by decide⟩
  have hself : (q'.work w).submitting = true := by
    rw [hm.work, Function.update_self]
    exact hx
  exact hp ((hm.mem_delayedList hc.once).mp ((hc'.item w).submitting.mp hself).1)

/-- A step that returns and keeps the items together is in order. -/
theorem step_needs {e : Event} (hc : Consistent s) (hi : Inv s) (h : step s e = .ok s')
    (hc' : Consistent s') : InOrder s e := by
  cases e with
  | dowork w => exact dowork_needs hc h hc'
  | submit w ticks =>
      intro hzero
      subst hzero
      exact dowork_needs hc h hc'
  | start w =>
      obtain ⟨q, hq, -⟩ := bind_eq_ok.mp h
      obtain ⟨u, hcheck, -⟩ := bind_eq_ok.mp hq
      exact (hi w).timer.symm.trans (check_eq_ok.mp hcheck)
  | urgent w =>
      obtain ⟨q', hq, -, hm⟩ := urgent_moved (q := s.queue) (w := w)
      simp only [step, hq] at h
      cases h
      have hmem : w ∈ q'.workList := (hm.mem_workList hc.once).mpr (Or.inr rfl)
      have hpending := (hc'.item w).pending.mpr hmem
      simp only [hm.work, Function.update_self] at hpending
      exact hpending
  | handlerLoad =>
      rintro ⟨w, b⟩ hh
      simp only [step, Option.mem_def.mp hh] at h
      obtain ⟨u, hcheck, -⟩ := bind_eq_ok.mp h
      exact check_eq_ok.mp hcheck
  | handlerRun =>
      rintro ⟨w, b⟩ hh
      simp only [step, Option.mem_def.mp hh] at h
      obtain ⟨q', hq, hrest⟩ := bind_eq_ok.mp h
      cases hrest
      obtain ⟨u, hcheck, -⟩ := bind_eq_ok.mp hq
      have htimer : (s.queue.work w).timer.isSome = true := check_eq_ok.mp hcheck
      have hsub : (s.queue.work w).submitting = true := (hi w).timer.symm.trans htimer
      refine ⟨hsub, fun hcur => ?_⟩
      obtain ⟨q₂, hq₂, hwork, hdelayed⟩ := handler_dropped htimer hcur
      cases hq.symm.trans hq₂
      have happ := List.nodup_append.mp hc.once
      rcases (hc'.item w).accepted ((hi w).accepted hsub) with hmem | hmem
      · rw [hwork] at hmem
        exact happ.1.not_mem_erase hmem
      · rw [hdelayed] at hmem
        exact happ.2.1.not_mem_erase hmem
  | cancel w => trivial
  | expire w => trivial
  | threadTop => trivial
  | finish => trivial
  | complete => trivial

end Steps

/-! ## The work thread -/

section Current

variable {q q' : RtWorkqueue} {s s' : System} {w : WorkId} {err : Err}

/-- The item a submission puts into a list: one that runs is not submitted without delay. -/
def submitted (q : RtWorkqueue) (w : WorkId) (ticks : BitVec 32) : Option WorkId :=
  if ticks = 0 ∧ q.workCurrent = some w then none else some w

/-- The item a step puts into a list. -/
def puts (s : System) : Event → Option WorkId
  | .dowork w => submitted s.queue w 0
  | .submit w ticks => submitted s.queue w ticks
  | .urgent w => some w
  | .handlerRun => (s.handler.map Prod.fst).filter fun w => s.queue.workCurrent ≠ some w
  | .start _ | .cancel _ | .expire _ | .handlerLoad | .threadTop | .finish | .complete => none

/-- A step leaves the lists alone or moves one item, to a list only `o`. -/
def Places (q q' : RtWorkqueue) (o : Option WorkId) : Prop :=
  (q'.workList = q.workList ∧ q'.delayedList = q.delayedList) ∨
    ∃ w x p, Moved q q' w x p ∧ (p ≠ .nowhere → o = some w)

theorem Places.nodup {o : Option WorkId} (h : Places q q' o)
    (hn : (q.workList ++ q.delayedList).Nodup) : (q'.workList ++ q'.delayedList).Nodup := by
  rcases h with ⟨hwork, hdelayed⟩ | ⟨w, x, p, hm, -⟩
  · rw [hwork, hdelayed]
    exact hn
  · exact hm.nodup hn

/-- No other item comes to a list. -/
theorem Places.absent {o : Option WorkId} (h : Places q q' o)
    (hn : (q.workList ++ q.delayedList).Nodup) (ho : o ≠ some w)
    (hw : w ∉ q.workList ∧ w ∉ q.delayedList) : w ∉ q'.workList ∧ w ∉ q'.delayedList := by
  rcases h with ⟨hwork, hdelayed⟩ | ⟨u, x, p, hm, hp⟩
  · rw [hwork, hdelayed]
    exact hw
  · by_cases hwu : w = u
    · subst hwu
      have hnowhere : p = .nowhere := by
        by_contra hput
        exact ho (hp hput)
      rw [hm.mem_workList hn, hm.mem_delayedList hn, hnowhere]
      decide
    · rw [hm.workList_of_ne hwu, hm.delayedList_of_ne hwu]
      exact hw

/-- What the functions do with the node of an item, in any state. -/
theorem submit_place {ticks : BitVec 32}
    (h : workqueueSubmitWork q w ticks = .ok (q', err)) :
    q'.workCurrent = q.workCurrent ∧
      ∃ x p, Moved q q' w x p ∧ (p ≠ .nowhere → submitted q w ticks = some w) := by
  rw [workqueueSubmitWork] at h
  split at h
  · split at h
    · rename_i hcur
      cases h
      refine ⟨resume_workCurrent, _, .due, Moved.resume ⟨rfl, rfl, rfl⟩, fun _ => ?_⟩
      exact if_neg fun hbusy => hcur hbusy.2
    · cases h
      exact ⟨resume_workCurrent, _, .nowhere, Moved.resume ⟨rfl, rfl, rfl⟩,
        fun hp => absurd rfl hp⟩
  · rename_i hticks
    split at h
    · obtain ⟨u, -, h⟩ := bind_eq_ok.mp h
      cases h
      exact ⟨rfl, _, .delayed, ⟨rfl, rfl, rfl⟩, fun _ => if_neg fun hbusy => hticks hbusy.1⟩
    · cases h
      exact ⟨rfl, _, .nowhere, ⟨rfl, rfl, rfl⟩, fun hp => absurd rfl hp⟩

theorem cancel_place (h : workqueueCancelWork q w = .ok (q', err)) :
    q'.workCurrent = q.workCurrent ∧ ∃ x, Moved q q' w x .nowhere := by
  rw [workqueueCancelWork] at h
  split at h
  · obtain ⟨u, -, h⟩ := bind_eq_ok.mp h
    cases h
    exact ⟨rfl, _, rfl, rfl, rfl⟩
  · cases h
    exact ⟨rfl, _, rfl, rfl, rfl⟩

private theorem handler_place (h : timeoutHandler q w = .ok q') :
    q'.workCurrent = q.workCurrent ∧
      ∃ x p, Moved q q' w x p ∧ (p ≠ .nowhere → q.workCurrent ≠ some w) := by
  obtain ⟨u, -, h⟩ := bind_eq_ok.mp h
  by_cases hcur : q.workCurrent = some w
  · simp only [listRemove, ne_eq, hcur, not_true_eq_false, if_false] at h
    cases h
    exact ⟨resume_workCurrent.trans hcur.symm, _, .nowhere, Moved.resume ⟨rfl, rfl, rfl⟩,
      fun hp => absurd rfl hp⟩
  · simp only [listRemove, ne_eq, hcur, not_false_eq_true, if_true] at h
    cases h
    exact ⟨resume_workCurrent, _, .due, Moved.resume ⟨rfl, rfl, rfl⟩, fun _ => hcur⟩

private theorem systemSubmit_place {ticks : BitVec 32} (h : s.submit w ticks = .ok s') :
    s'.queue.workCurrent = s.queue.workCurrent ∧ s'.worker = s.worker ∧
      Places s.queue s'.queue (submitted s.queue w ticks) := by
  obtain ⟨⟨q', err⟩, hq, h⟩ := bind_eq_ok.mp h
  cases h
  obtain ⟨hcur, x, p, hm, hp⟩ := submit_place hq
  exact ⟨hcur, rfl, Or.inr ⟨w, x, p, hm, hp⟩⟩

/-- The steps of the other threads leave `work_current` and the work thread alone. -/
theorem step_others {e : Event} (h : step s e = .ok s') (htop : e ≠ .threadTop)
    (hfinish : e ≠ .finish) (hcomplete : e ≠ .complete) :
    s'.queue.workCurrent = s.queue.workCurrent ∧ s'.worker = s.worker ∧
      Places s.queue s'.queue (puts s e) := by
  cases e with
  | dowork w => exact systemSubmit_place h
  | submit w ticks => exact systemSubmit_place h
  | start w =>
      obtain ⟨q, hq, h⟩ := bind_eq_ok.mp h
      obtain ⟨u, -, hq⟩ := bind_eq_ok.mp hq
      cases hq
      cases h
      exact ⟨rfl, rfl, Or.inl ⟨rfl, rfl⟩⟩
  | urgent w =>
      obtain ⟨q', hq, hcur, hm⟩ := urgent_moved (q := s.queue) (w := w)
      simp only [step, hq] at h
      cases h
      exact ⟨hcur, rfl, Or.inr ⟨w, _, _, hm, fun _ => rfl⟩⟩
  | cancel w =>
      obtain ⟨⟨q', err⟩, hq, h⟩ := bind_eq_ok.mp h
      cases h
      obtain ⟨hcur, x, hm⟩ := cancel_place hq
      exact ⟨hcur, rfl, Or.inr ⟨w, x, _, hm, fun hp => absurd rfl hp⟩⟩
  | expire w =>
      cases h
      exact ⟨rfl, rfl, Or.inl ⟨rfl, rfl⟩⟩
  | handlerLoad =>
      simp only [step] at h
      split at h
      · cases h
        exact ⟨rfl, rfl, Or.inl ⟨rfl, rfl⟩⟩
      · obtain ⟨u, -, h⟩ := bind_eq_ok.mp h
        cases h
        exact ⟨rfl, rfl, Or.inl ⟨rfl, rfl⟩⟩
  | handlerRun =>
      simp only [step] at h
      split at h
      · cases h
        exact ⟨rfl, rfl, Or.inl ⟨rfl, rfl⟩⟩
      · rename_i w b hh
        obtain ⟨q', hq, h⟩ := bind_eq_ok.mp h
        cases h
        obtain ⟨hcur, x, p, hm, hp⟩ := handler_place hq
        refine ⟨hcur, rfl, Or.inr ⟨w, x, p, hm, fun hput => ?_⟩⟩
        simp [puts, hh, hp hput]
  | threadTop => exact absurd rfl htop
  | finish => exact absurd rfl hfinish
  | complete => exact absurd rfl hcomplete

/-- The work thread takes an item or none. -/
theorem threadTop_place (h : step s .threadTop = .ok s') :
    Places s.queue s'.queue none ∧
      ((s'.queue.workCurrent = s.queue.workCurrent ∧ s'.worker = s.worker) ∨
        ∃ w ∈ s.queue.workList, s'.queue.workCurrent = some w ∧ s'.worker = .running w) := by
  cases hlist : s.queue.workList with
  | nil =>
      simp only [step, workqueueThreadTop, hlist] at h
      cases h
      exact ⟨Or.inl ⟨hlist ▸ rfl, rfl⟩, Or.inl ⟨rfl, rfl⟩⟩
  | cons w l =>
      obtain ⟨q', hq, hcur, hm⟩ := threadTop_moved hlist
      simp only [step, hq] at h
      cases h
      exact ⟨Or.inr ⟨w, _, _, hm, fun hp => absurd rfl hp⟩,
        Or.inr ⟨w, List.mem_cons_self, hcur, rfl⟩⟩

end Current

/-! ## Runs from the start -/

private theorem boot_consistent : Consistent boot :=
  ⟨List.nodup_nil, fun _ => ⟨by simp [boot], by simp [boot], fun h => (by cases h)⟩⟩

theorem boot_inv : Inv boot := fun _ =>
  ⟨fun h => absurd h List.not_mem_nil, rfl, fun h => (by cases h), fun h => (by cases h)⟩

/-- No assertion fails and the items stay together in exactly the runs whose steps are in
order. -/
theorem workqueue_consistent (es : List Event) (hg : Guarded step Enabled boot es) :
    ((∃ s, run step boot es = .ok s) ∧ Always step Consistent boot es) ↔
      Guarded step InOrder boot es := by
  have hgood : ∀ s e, Inv s → Consistent s → Enabled s e → InOrder s e →
      ∃ s', step s e = .ok s' ∧ Consistent s' ∧ Inv s' :=
    fun _ _ hi hc he ho => step_good hc hi he ho
  have hneed : ∀ s e s', Inv s → Consistent s → Enabled s e → step s e = .ok s' →
      Consistent s' → InOrder s e :=
    fun _ _ _ hi hc _ hstep hc' => step_needs hc hi hstep hc'
  exact returns_iff_guarded hgood hneed boot_inv boot_consistent hg

/-- A delayed item, one that is due, and one that is made urgent. -/
def orderly : List Event :=
  [.submit 0 5, .start 0, .dowork 1, .dowork 2, .urgent 2, .threadTop, .expire 0, .handlerLoad,
    .handlerRun, .finish, .complete, .threadTop, .cancel 0]

theorem workqueue_consistent_three :
    (∃ s, run step boot orderly = .ok s) ∧ Always step Consistent boot orderly :=
  (workqueue_consistent orderly (by decide)).mpr (by decide)

/-- An item that is made urgent is in the work list without its flag. -/
theorem urgent_not_pending :
    ∃ s, Guarded step Enabled boot [.urgent 0] ∧ run step boot [.urgent 0] = .ok s ∧
      s.queue.workList = [0] ∧ (s.queue.work 0).pending = false := by
  have hguarded : Guarded step Enabled boot [.urgent 0] := by decide
  have hitem : (run step boot [.urgent 0]).map
      (fun s => (s.queue.workList, (s.queue.work 0).pending)) = .ok ([0], false) := by
    decide
  obtain ⟨s, hrun, hs⟩ := exists_of_map_eq_ok hitem
  exact ⟨s, hguarded, hrun, congrArg Prod.fst hs, congrArg Prod.snd hs⟩

end RtHypervisor.Ports.Workqueue
