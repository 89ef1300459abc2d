import Mathlib.Tactic
import RtHypervisor.Ports.Semaphore
import RtHypervisor.Ports.Workqueue

/-!
# Synchronous cancellation

`rt_workqueue_cancel_work_sync` looks at `work_current` without a lock, and then either waits for
the semaphore that the work thread releases to every waiting thread after an item, or cancels
the item like `rt_workqueue_cancel_work`.  What it saw may be over by then, and what it has waited
for or cancelled may be submitted again before it returns.

`cancel_sync_done` says which runs keep a caller from waiting for nothing, and what is enough for
every call to return when the item is neither running nor queued.
-/

namespace RtHypervisor.Ports.WorkqueueSync

open RtHypervisor.Verified.Run
open RtHypervisor.Ports.Ipc
open RtHypervisor.Ports.Semaphore (Sem rtSemTake rtSemRelease)
open RtHypervisor.Ports.Workqueue (WorkId RtWorkqueue)

/-- `RT_WAITING_FOREVER`. -/
def rtWaitingForever : BitVec 32 := -1

/-- `_workqueue_work_completion`, in at most so many rounds: release the semaphore until it can
be taken. -/
def workCompletion : Nat → Sem → Except Fault Sem
  | 0, _ => throw .fuel
  | n + 1, s => do
      let (s, result) ← rtSemTake s 0 0
      if result = some .etimeout then workCompletion n (rtSemRelease s).1 else pure s

/-! ## Runs -/

/-- Where a thread is in `rt_workqueue_cancel_work_sync`: in front of `rt_sem_take` or of
`_workqueue_cancel_work`, in `rt_sem_take`, or behind either and in front of the return. -/
inductive Call
  | takes (w : WorkId)
  | cancels (w : WorkId)
  | waits (w : WorkId)
  | leaves (w : WorkId)
deriving DecidableEq, Repr

def Call.work : Call → WorkId
  | .takes w | .cancels w | .waits w | .leaves w => w

/-- A call that has returned, and whether its item was running or queued then. -/
structure Return where
  work : WorkId
  running : Bool
  queued : Bool
deriving DecidableEq, Repr

structure System where
  items : Workqueue.System
  sem : Sem
  calls : ThreadId → Option Call
  returns : List Return

inductive Event
  | item (e : Workqueue.Event)
  | sync (t : ThreadId) (w : WorkId)
  | take (t : ThreadId)
  | woken (t : ThreadId)
  | cancel (t : ThreadId)
  | leave (t : ThreadId)
deriving DecidableEq, Repr

def suspended (s : System) (t : ThreadId) : Bool := (s.sem.threads t).suspended

/-- A thread goes on while it is not suspended. -/
def Enabled (s : System) : Event → Prop
  | .item e => Workqueue.Enabled s.items e
  | .sync t _ => s.calls t = none ∧ suspended s t = false
  | .take t => (s.calls t).any (fun c => c matches .takes _) = true
  | .woken t => (s.calls t).any (fun c => c matches .waits _) = true ∧ suspended s t = false
  | .cancel t => (s.calls t).any (fun c => c matches .cancels _) = true
  | .leave t => (s.calls t).any (fun c => c matches .leaves _) = true

instance (s : System) : ∀ e, Decidable (Enabled s e)
  | .item e => inferInstanceAs (Decidable (Workqueue.Enabled s.items e))
  | .sync .. | .woken _ => inferInstanceAs (Decidable (_ ∧ _))
  | .take _ | .cancel _ | .leave _ => inferInstanceAs (Decidable (_ = _))

def System.call (s : System) (t : ThreadId) (c : Option Call) : System :=
  { s with calls := Function.update s.calls t c }

/-- The call of `t` for `w` returns. -/
def System.return (s : System) (t : ThreadId) (w : WorkId) : System :=
  let q := s.items.queue
  { s.call t none with
    returns := ⟨w, q.workCurrent = some w, w ∈ q.workList ∨ w ∈ q.delayedList⟩ :: s.returns }

def step (s : System) : Event → Except Fault System
  | .item e => do
      let items ← Workqueue.step s.items e
      let sem ← if e = .complete then workCompletion (s.sem.suspendThread.length + 2) s.sem
        else pure s.sem
      pure { s with items := items, sem := sem }
  | .sync t w =>
      pure (s.call t (some (if s.items.queue.workCurrent = some w then .takes w else .cancels w)))
  | .take t =>
      match s.calls t with
      | some (.takes w) => do
          let (sem, r) ← rtSemTake s.sem t rtWaitingForever
          let s := { s with sem := sem }
          match r with
          | some _ => pure (s.call t (some (.leaves w)))
          | none => pure (s.call t (some (.waits w)))
      | _ => pure s
  | .woken t =>
      match s.calls t with
      | some (.waits w) => pure (s.call t (some (.leaves w)))
      | _ => pure s
  | .cancel t =>
      match s.calls t with
      | some (.cancels w) => do
          let items ← Workqueue.step s.items (.cancel w)
          pure ({ s with items := items }.call t (some (.leaves w)))
      | _ => pure s
  | .leave t =>
      match s.calls t with
      | some (.leaves w) => pure (s.return t w)
      | _ => pure s

/-- A new work queue, among threads in any state. -/
def boot (threads : Threads) : System :=
  ⟨Workqueue.boot, ⟨threads, 0, .fifo, []⟩, fun _ => none, []⟩

/-- The function of the item runs, or the work thread, which has just cleared `work_current`, is
about to release the semaphore. -/
def Busy (s : System) (w : WorkId) : Prop :=
  s.items.queue.workCurrent = some w ∨ s.items.worker = .completing w

instance (s : System) (w : WorkId) : Decidable (Busy s w) := inferInstanceAs (Decidable (_ ∨ _))

/-- A caller that is suspended waits for the function that runs. -/
def WaitsBusy (s : System) : Prop :=
  ∀ t w, s.calls t = some (.waits w) → suspended s t = true → Busy s w

/-- No caller waits for nothing, and no call has returned while its item was running or queued. -/
structure Done (s : System) : Prop where
  waits : WaitsBusy s
  returns : ∀ r ∈ s.returns, r.running = false ∧ r.queued = false

/-- What a caller is going to wait for is running. -/
def TakesBusy (s : System) : Event → Prop
  | .take t => ∀ c ∈ s.calls t, Busy s c.work
  | .item _ | .sync .. | .woken _ | .cancel _ | .leave _ => True

instance (s : System) : ∀ e, Decidable (TakesBusy s e)
  | .take t => inferInstanceAs (Decidable (∀ c ∈ s.calls t, Busy s c.work))
  | .item _ | .sync .. | .woken _ | .cancel _ | .leave _ => inferInstanceAs (Decidable True)

/-- The item is in neither list. -/
def Unqueued (items : Workqueue.System) (w : WorkId) : Prop :=
  w ∉ items.queue.workList ∧ w ∉ items.queue.delayedList

instance (items : Workqueue.System) (w : WorkId) : Decidable (Unqueued items w) :=
  inferInstanceAs (Decidable (_ ∧ _))

/-- The call waits for the item, or has waited for it or cancelled it. -/
def Call.done (c : Call) (w : WorkId) : Prop := c = .waits w ∨ c = .leaves w

instance (c : Call) (w : WorkId) : Decidable (c.done w) := inferInstanceAs (Decidable (_ ∨ _))

/-- Nothing comes between what a call saw and what it does, nor between that and its return: the
item it is going to wait for is running and in no list, the one it cancels is not running, and
nobody puts an item into a list for which a call waits or has waited, or which it has cancelled. -/
def Undisturbed (s : System) : Event → Prop
  | .item e => ∀ w, Workqueue.puts s.items e = some w → ∀ t, ∀ c ∈ s.calls t, ¬ c.done w
  | .take t => ∀ c ∈ s.calls t, Busy s c.work ∧ Unqueued s.items c.work
  | .cancel t => ∀ c ∈ s.calls t, s.items.queue.workCurrent ≠ some c.work
  | .sync .. | .woken _ | .leave _ => True

/-- Whether a thread is in `rt_sem_take`. -/
def waiting (calls : ThreadId → Option Call) (t : ThreadId) : Prop := ∃ w, calls t = some (.waits w)

/-- The item whose function runs, and no item is in a list twice. -/
structure ItemsInv (items : Workqueue.System) : Prop where
  worker : ∀ w, items.queue.workCurrent = some w ↔ items.worker = .running w
  once : (items.queue.workList ++ items.queue.delayedList).Nodup

/-- The semaphore has no value between two items, and its list the threads that wait. -/
structure Inv (s : System) : Prop where
  value : s.sem.value = 0
  parked : Parked s.sem.threads s.sem.suspendThread (waiting s.calls)
  awake : ∀ t, s.calls t ≠ none → ¬waiting s.calls t → suspended s t = false
  items : ItemsInv s.items

/-- The item of a call that waits, has waited or has cancelled is in no list, and is not running
once the caller goes on. -/
def Settled (s : System) : Prop :=
  ∀ t w, ∀ c ∈ s.calls t, c.done w →
    Unqueued s.items w ∧ (suspended s t = false → s.items.queue.workCurrent ≠ some w)

section Steps

variable {s s' : System} {t : ThreadId} {w : WorkId}

private theorem trytake_zero {sem : Sem} (h : sem.value = 0) :
    rtSemTake sem 0 0 = .ok (sem, some .etimeout) := by
  rw [rtSemTake, h, if_neg (by decide), if_pos rfl]
  rfl

private theorem trytake_one {sem : Sem} :
    rtSemTake { sem with value := 1 } 0 0 = .ok ({ sem with value := 0 }, some .eok) := by
  have hpos : (0 : BitVec 16) < 1 := by decide
  have hone : (1 : BitVec 16) - 1 = 0 := by decide
  simp only [rtSemTake, if_pos hpos, hone]
  rfl

private theorem release_nil {sem : Sem} (h : sem.value = 0) (hlist : sem.suspendThread = []) :
    rtSemRelease sem = ({ sem with value := 1 }, .eok) := by
  rw [rtSemRelease, if_neg (not_not.mpr hlist), h, if_pos (by decide)]
  rfl

/-- The work thread releases every thread that waits, and takes the value back. -/
theorem workCompletion_spec {sem : Sem} {P : ThreadId → Prop} {n : Nat} (hvalue : sem.value = 0)
    (h : Parked sem.threads sem.suspendThread P) (hn : sem.suspendThread.length + 2 ≤ n) :
    ∃ sem', workCompletion n sem = .ok sem' ∧ sem'.value = 0 ∧
      Parked sem'.threads sem'.suspendThread P ∧ sem'.suspendThread = [] ∧
      ∀ u, (sem'.threads u).suspended = true → (sem.threads u).suspended = true := by
  generalize hlist : sem.suspendThread = list at h hn
  induction list generalizing sem n with
  | nil =>
      obtain ⟨m, rfl⟩ : ∃ m, n = m + 2 := ⟨n - 2, by rw [List.length_nil] at hn; omega⟩
      refine ⟨{ sem with value := 0 }, ?_, rfl, ?_, hlist, fun _ hu => hu⟩
      · rw [workCompletion, trytake_zero hvalue]
        simp only [ok_bind, if_true, release_nil hvalue hlist]
        rw [workCompletion, trytake_one]
        rfl
      · rw [hlist]
        exact h
  | cons t list ih =>
      obtain ⟨m, rfl⟩ : ∃ m, n = m + 1 := ⟨n - 1, by rw [List.length_cons] at hn; omega⟩
      have hresume := h.resume_eq
      have hrelease : rtSemRelease sem =
          ({ sem with threads := wake sem.threads t, suspendThread := list }, .eok) := by
        rw [rtSemRelease, hlist, if_pos (List.cons_ne_nil t list), hresume]
      obtain ⟨sem', hloop, hvalue', hparked, hempty, hsame⟩ :=
        @ih { sem with threads := wake sem.threads t, suspendThread := list } m
          hvalue rfl h.resume (by rw [List.length_cons] at hn; omega)
      refine ⟨sem', ?_, hvalue', hparked, hempty, fun u hu => ?_⟩
      · rw [workCompletion, trytake_zero hvalue]
        simp only [ok_bind, if_true, hrelease]
        exact hloop
      · have hwoken := hsame u hu
        by_cases hut : u = t
        · rw [hut]
          exact ((h.mem_iff t).mp (List.mem_cons_self ..)).2
        · simp only [Ipc.wake_of_ne hut] at hwoken
          exact hwoken

/-- A thread that takes the semaphore waits for it. -/
theorem take_blocks {sem : Sem} (hvalue : sem.value = 0)
    (hrun : (sem.threads t).suspended = false) :
    ∃ us ts', rtSemTake sem t rtWaitingForever =
        .ok ({ sem with
          threads := ts', suspendThread := listInsert us sem.suspendThread t sem.flag }, none) ∧
      (∀ u, u ≠ t → ts' u = sem.threads u) ∧ (ts' t).suspended = true := by
  have hset : (setError sem.threads t .eok t).suspended = false := by
    rw [setError_self]
    exact hrun
  have hsusp := rtThreadSuspend_of_running hset
  refine ⟨rtThreadSuspend (setError sem.threads t .eok) t,
    rtThreadSuspend (setError sem.threads t .eok) t, ?_, fun u hu => ?_, ?_⟩
  · rw [rtSemTake, hvalue, if_neg (by decide), if_neg (by decide)]
    simp only [ipcListSuspend, startTimer]
    rw [if_neg (by decide)]
    rfl
  · rw [hsusp, modify_of_ne hu, setError_of_ne _ hu]
  · rw [hsusp, modify_self]

/-! The steps of the work thread, and of the other submitters. -/

private theorem item_step {e : Workqueue.Event} (h : step s (.item e) = .ok s') :
    ∃ items sem, Workqueue.step s.items e = .ok items ∧
      (if e = .complete then workCompletion (s.sem.suspendThread.length + 2) s.sem
        else pure s.sem) = .ok sem ∧ s' = { s with items := items, sem := sem } := by
  obtain ⟨items, hitems, h⟩ := bind_eq_ok.mp h
  by_cases he : e = .complete
  · simp only [if_pos he] at h ⊢
    obtain ⟨sem, hsem, h⟩ := bind_eq_ok.mp h
    cases h
    exact ⟨items, sem, hitems, hsem, rfl⟩
  · simp only [if_neg he] at h ⊢
    cases h
    exact ⟨items, s.sem, hitems, rfl, rfl⟩

/-- A step of the items that leaves the semaphore alone. -/
theorem Inv.setItems {items : Workqueue.System} (hi : Inv s) (h : ItemsInv items) :
    Inv { s with items := items } :=
  ⟨hi.value, hi.parked, hi.awake, h⟩

theorem WaitsBusy.setItems {items : Workqueue.System} (hw : WaitsBusy s)
    (h : ∀ w, Busy s w → Busy { s with items := items } w) : WaitsBusy { s with items := items } :=
  fun u w hu hsusp => h w (hw u w hu hsusp)

private theorem others_items {e : Workqueue.Event} {items : Workqueue.System}
    (hi : ItemsInv s.items)
    (h : Workqueue.step s.items e = .ok items) (htop : e ≠ .threadTop) (hfinish : e ≠ .finish)
    (hcomplete : e ≠ .complete) :
    ItemsInv items ∧ items.queue.workCurrent = s.items.queue.workCurrent ∧
      items.worker = s.items.worker ∧
      ∀ w, Workqueue.puts s.items e ≠ some w → Unqueued s.items w → Unqueued items w := by
  obtain ⟨hcur, hworker, hplaces⟩ := Workqueue.step_others h htop hfinish hcomplete
  refine ⟨⟨fun w => ?_, hplaces.nodup hi.once⟩, hcur, hworker,
    fun w hput hw => hplaces.absent hi.once hput hw⟩
  rw [hcur, hworker]
  exact hi.worker w

private theorem threadTop_keeps (hi : Inv s) (he : s.items.worker = .top)
    (h : step s (.item .threadTop) = .ok s') :
    Inv s' ∧ (WaitsBusy s → WaitsBusy s') ∧ (Settled s → Settled s') := by
  obtain ⟨items, sem, hitems, hsem, rfl⟩ := item_step h
  cases hsem
  obtain ⟨hplaces, hworker⟩ := Workqueue.threadTop_place hitems
  have hidle : ∀ w, ¬Busy s w := by
    rintro w (hcur | hcompleting)
    · cases he.symm.trans ((hi.items.worker w).mp hcur)
    · cases he.symm.trans hcompleting
  refine ⟨hi.setItems ⟨fun w => ?_, hplaces.nodup hi.items.once⟩,
    fun hw => hw.setItems fun w hbusy => absurd hbusy (hidle w), fun hst u w c hc hdone => ?_⟩
  · rcases hworker with ⟨hcur, hworker⟩ | ⟨v, -, hcur, hworker⟩
    · rw [hcur, hworker]
      exact hi.items.worker w
    · rw [hcur, hworker]
      simp
  · obtain ⟨hunq, hnot⟩ := hst u w c hc hdone
    refine ⟨hplaces.absent hi.items.once (fun h => by cases h) hunq, fun hrun => ?_⟩
    rcases hworker with ⟨hcur, -⟩ | ⟨v, hv, hcur, -⟩
    · rw [hcur]
      exact hnot hrun
    · -- what the work thread takes was queued
      rw [hcur]
      rintro ⟨⟩
      exact hunq.1 hv

private theorem finish_keeps {v : WorkId} (hi : Inv s) (he : s.items.worker = .running v)
    (h : step s (.item .finish) = .ok s') :
    Inv s' ∧ (WaitsBusy s → WaitsBusy s') ∧ (Settled s → Settled s') := by
  obtain ⟨items, sem, hitems, hsem, rfl⟩ := item_step h
  cases hsem
  simp only [Workqueue.step, he] at hitems
  cases hitems
  refine ⟨hi.setItems ⟨fun w => ?_, hi.items.once⟩, fun hw => hw.setItems fun w hbusy => ?_,
    fun hst u w c hc hdone => ⟨(hst u w c hc hdone).1, fun _ h => by cases h⟩⟩
  · constructor <;> exact fun h => by cases h
  · rcases hbusy with hcur | hcompleting
    · cases he.symm.trans ((hi.items.worker w).mp hcur)
      exact Or.inr rfl
    · cases he.symm.trans hcompleting

/-- The work thread releases every caller that waits. -/
theorem complete_keeps {v : WorkId} (hi : Inv s) (he : s.items.worker = .completing v)
    (h : step s (.item .complete) = .ok s') :
    Inv s' ∧ WaitsBusy s' ∧ (Settled s → Settled s') := by
  obtain ⟨items, sem, hitems, hsem, rfl⟩ := item_step h
  cases hitems
  rw [if_pos rfl] at hsem
  obtain ⟨sem', hloop, hvalue, hparked, hempty, hsame⟩ :=
    workCompletion_spec hi.value hi.parked le_rfl
  cases hsem.symm.trans hloop
  have hnone : s.items.queue.workCurrent = none := by
    refine Option.eq_none_iff_forall_ne_some.mpr fun w hcur => ?_
    cases he.symm.trans ((hi.items.worker w).mp hcur)
  refine ⟨⟨hvalue, hparked, fun u hu hnot => ?_, fun w => ?_, hi.items.once⟩,
    fun u w hu hsusp => ?_, fun hst u w c hc hdone => ⟨(hst u w c hc hdone).1, fun _ => ?_⟩⟩
  · refine Bool.eq_false_iff.mpr fun hsusp => ?_
    exact Bool.eq_false_iff.mp (hi.awake u hu hnot) (hsame u hsusp)
  · rw [hnone]
    constructor <;> exact fun h => by cases h
  · have hmem : u ∈ sem.suspendThread := (hparked.mem_iff u).mpr ⟨⟨w, hu⟩, hsusp⟩
    rw [hempty] at hmem
    cases hmem
  · rw [hnone]
    exact fun h => by cases h

private theorem item_keeps {e : Workqueue.Event} (hi : Inv s) (he : Workqueue.Enabled s.items e)
    (h : step s (.item e) = .ok s') :
    Inv s' ∧ (WaitsBusy s → WaitsBusy s') ∧
      (Undisturbed s (.item e) → Settled s → Settled s') := by
  by_cases htop : e = .threadTop
  · subst htop
    obtain ⟨hinv, hwaits, hsettled⟩ := threadTop_keeps hi he.1 h
    exact ⟨hinv, hwaits, fun _ => hsettled⟩
  by_cases hfinish : e = .finish
  · subst hfinish
    cases hworker : s.items.worker with
    | running v =>
        obtain ⟨hinv, hwaits, hsettled⟩ := finish_keeps hi hworker h
        exact ⟨hinv, hwaits, fun _ => hsettled⟩
    | top => simp [Workqueue.Enabled, hworker] at he
    | completing v => simp [Workqueue.Enabled, hworker] at he
  by_cases hcomplete : e = .complete
  · subst hcomplete
    cases hworker : s.items.worker with
    | completing v =>
        obtain ⟨hinv, hwaits, hsettled⟩ := complete_keeps hi hworker h
        exact ⟨hinv, fun _ => hwaits, fun _ => hsettled⟩
    | top => simp [Workqueue.Enabled, hworker] at he
    | running v => simp [Workqueue.Enabled, hworker] at he
  obtain ⟨items, sem, hitems, hsem, rfl⟩ := item_step h
  rw [if_neg hcomplete] at hsem
  cases hsem
  obtain ⟨hitems, hcur, hworker, habsent⟩ := others_items hi.items hitems htop hfinish hcomplete
  refine ⟨hi.setItems hitems, fun hw => hw.setItems fun w hbusy => ?_,
    fun hund hst u w c hc hdone => ?_⟩
  · rw [Busy, hcur, hworker]
    exact hbusy
  · obtain ⟨hunq, hnot⟩ := hst u w c hc hdone
    refine ⟨habsent w (fun hput => hund w hput u c hc hdone) hunq, fun hrun => ?_⟩
    rw [hcur]
    exact hnot hrun

/-! The steps of the callers. -/

private theorem waiting_of_ne {calls : ThreadId → Option Call} {c : Option Call} {u : ThreadId}
    (hu : u ≠ t) : waiting (Function.update calls t c) u ↔ waiting calls u := by
  rw [waiting, Function.update_of_ne hu, waiting]

private theorem waiting_self {calls : ThreadId → Option Call} {c : Option Call} :
    waiting (Function.update calls t c) t ↔ ∃ w, c = some (.waits w) := by
  rw [waiting, Function.update_self]

@[simp] theorem call_calls {c : Option Call} :
    (s.call t c).calls = Function.update s.calls t c := rfl

@[simp] theorem call_sem {c : Option Call} : (s.call t c).sem = s.sem := rfl

@[simp] theorem call_items {c : Option Call} : (s.call t c).items = s.items := rfl

/-- A running thread goes on to another part of its call. -/
theorem Inv.call (hi : Inv s) {c : Option Call} (hrun : suspended s t = false) :
    Inv (s.call t c) := by
  refine ⟨hi.value, hi.parked.congr fun u => ?_, fun u hu hnot => ?_, hi.items⟩
  · by_cases hut : u = t
    · subst hut
      have hawake : (s.sem.threads u).suspended = false := hrun
      simp only [call_sem, hawake, Bool.false_eq_true, and_false]
    · rw [call_calls, call_sem, waiting_of_ne hut]
  · by_cases hut : u = t
    · exact hut ▸ hrun
    · rw [call_calls, Function.update_of_ne hut] at hu
      rw [call_calls, waiting_of_ne hut] at hnot
      exact hi.awake u hu hnot

theorem WaitsBusy.call (hw : WaitsBusy s) {c : Option Call} (hc : ∀ w, c ≠ some (.waits w)) :
    WaitsBusy (s.call t c) := by
  intro u v hu hsusp
  by_cases hut : u = t
  · subst hut
    rw [call_calls, Function.update_self] at hu
    exact absurd hu (hc v)
  · rw [call_calls, Function.update_of_ne hut] at hu
    exact hw u v hu hsusp

theorem Settled.call (hst : Settled s) {o : Option Call}
    (ho : ∀ c ∈ o, ∀ v, c.done v → Unqueued s.items v ∧
      (suspended s t = false → s.items.queue.workCurrent ≠ some v)) :
    Settled (s.call t o) := by
  intro u v c hc hdone
  by_cases hut : u = t
  · subst hut
    rw [call_calls, Function.update_self] at hc
    exact ho c hc v hdone
  · rw [call_calls, Function.update_of_ne hut] at hc
    exact hst u v c hc hdone

/-- A thread in its call that does not wait runs. -/
theorem Inv.runs (hi : Inv s) {c : Call} (hcall : s.calls t = some c) (hc : ∀ w, c ≠ .waits w) :
    suspended s t = false := by
  refine hi.awake t (by rw [hcall]; simp) ?_
  rintro ⟨v, hv⟩
  exact hc v (Option.some.inj (hcall.symm.trans hv))

/-- The call has looked at `work_current`. -/
theorem sync_meets (hi : Inv s) (hrun : suspended s t = false)
    (h : step s (.sync t w) = .ok s') :
    Inv s' ∧ (WaitsBusy s → WaitsBusy s') ∧ (Settled s → Settled s') := by
  cases h
  refine ⟨hi.call hrun, fun hw => hw.call fun v hv => ?_,
    fun hst => hst.call fun c hc v hdone => ?_⟩
  · split at hv <;> cases hv
  · split at hc <;> cases Option.some.inj hc <;> rcases hdone with h | h <;> cases h

/-- A caller that takes the semaphore is suspended. -/
theorem take_meets (hi : Inv s) (hcall : s.calls t = some (.takes w))
    (h : step s (.take t) = .ok s') :
    Inv s' ∧ (WaitsBusy s → (WaitsBusy s' ↔ Busy s w)) ∧
      (Unqueued s.items w → Settled s → Settled s') := by
  have hrun : suspended s t = false := hi.runs hcall fun v h => (by cases h)
  obtain ⟨us, ts', htake, hne, hsusp⟩ := take_blocks hi.value hrun
  simp only [step, hcall, htake, ok_bind] at h
  cases h
  refine ⟨⟨hi.value, hi.parked.insert hrun hne hsusp fun u => ?_, fun u hu hnot => ?_, hi.items⟩,
    fun hw => ⟨fun hw' => ?_, fun hbusy u v hu hv => ?_⟩, fun hunq hst u v c hc hdone => ?_⟩
  · by_cases hut : u = t
    · subst hut
      simp [System.call, waiting_self]
    · simp [System.call, waiting_of_ne hut, hut]
  · by_cases hut : u = t
    · subst hut
      exact absurd (waiting_self.mpr ⟨w, rfl⟩) hnot
    · simp only [System.call, Function.update_of_ne hut] at hu
      simp only [System.call, waiting_of_ne hut] at hnot
      simp only [suspended, System.call, hne u hut]
      exact hi.awake u hu hnot
  · exact hw' t w (by simp [System.call]) hsusp
  · by_cases hut : u = t
    · subst hut
      simp only [System.call, Function.update_self] at hu
      cases hu
      exact hbusy
    · simp only [System.call, Function.update_of_ne hut] at hu
      simp only [suspended, System.call, hne u hut] at hv
      exact hw u v hu hv
  · by_cases hut : u = t
    · subst hut
      simp only [System.call, Function.update_self, Option.mem_some_iff] at hc
      subst hc
      rcases hdone with h | h
      · cases h
        exact ⟨hunq, fun hawake => absurd hsusp (Bool.eq_false_iff.mp hawake)⟩
      · cases h
    · simp only [System.call, Function.update_of_ne hut] at hc
      simp only [suspended, System.call, hne u hut]
      exact hst u v c hc hdone

private theorem woken_meets (hi : Inv s) (hcall : s.calls t = some (.waits w))
    (hrun : suspended s t = false) (h : step s (.woken t) = .ok s') :
    Inv s' ∧ (WaitsBusy s → WaitsBusy s') ∧ (Settled s → Settled s') := by
  simp only [step, hcall] at h
  cases h
  refine ⟨hi.call hrun, fun hw => hw.call fun v h => (by cases h),
    fun hst => hst.call fun c hc v hdone => ?_⟩
  cases hc
  rcases hdone with h | h
  · cases h
  · cases h
    exact hst t w (.waits w) hcall (Or.inl rfl)

private theorem cancel_items {items : Workqueue.System} (hi : ItemsInv s.items)
    (h : Workqueue.step s.items (.cancel w) = .ok items) : Unqueued items w := by
  obtain ⟨⟨q', err⟩, hq, hrest⟩ := bind_eq_ok.mp h
  cases hrest
  obtain ⟨-, x, hm⟩ := Workqueue.cancel_place hq
  simp [Unqueued, hm.mem_workList hi.once, hm.mem_delayedList hi.once]

/-- The item is no longer queued, but it may be running. -/
theorem cancel_meets (hi : Inv s) (hcall : s.calls t = some (.cancels w))
    (h : step s (.cancel t) = .ok s') :
    Inv s' ∧ (WaitsBusy s → WaitsBusy s') ∧
      (s.items.queue.workCurrent ≠ some w → Settled s → Settled s') := by
  have hrun : suspended s t = false := hi.runs hcall fun v h => (by cases h)
  simp only [step, hcall] at h
  obtain ⟨items, hitems, h⟩ := bind_eq_ok.mp h
  cases h
  obtain ⟨hinv, hcur, hworker, habsent⟩ := others_items hi.items hitems (fun h => by cases h)
    (fun h => by cases h) fun h => by cases h
  have hwaits : WaitsBusy s → WaitsBusy { s with items := items } := fun hw =>
    hw.setItems fun v hbusy => by
      rw [Busy, hcur, hworker]
      exact hbusy
  refine ⟨(hi.setItems hinv).call hrun,
    fun hw => (hwaits hw).call fun v h => (by cases h), fun hnot hst => ?_⟩
  have hset : Settled { s with items := items } := by
    intro u v c hc hdone
    obtain ⟨hunq, hcurrent⟩ := hst u v c hc hdone
    refine ⟨habsent v (fun h => by cases h) hunq, fun hawake => ?_⟩
    rw [hcur]
    exact hcurrent hawake
  refine hset.call fun c hc v hdone => ?_
  cases hc
  rcases hdone with h | h
  · cases h
  · cases h
    exact ⟨cancel_items hi.items hitems, fun _ => hcur ▸ hnot⟩

private theorem leave_meets (hi : Inv s) (hcall : s.calls t = some (.leaves w))
    (h : step s (.leave t) = .ok s') :
    Inv s' ∧ (WaitsBusy s → WaitsBusy s') ∧ (Settled s → Settled s') := by
  have hrun : suspended s t = false := hi.runs hcall fun v h => (by cases h)
  simp only [step, hcall] at h
  cases h
  have hinv : Inv (s.call t none) := hi.call hrun
  have hwaits : WaitsBusy s → WaitsBusy (s.call t none) := fun hw =>
    hw.call fun v h => (by cases h)
  have hsettled : Settled s → Settled (s.call t none) := fun hst =>
    hst.call fun c hc => (by cases hc)
  exact ⟨⟨hinv.value, hinv.parked, hinv.awake, hinv.items⟩, hwaits, hsettled⟩

/-- What the steps keep, when a caller does not wait for nothing, and when the items of the calls
stay away. -/
theorem step_meets {e : Event} (hi : Inv s) (he : Enabled s e) (h : step s e = .ok s') :
    Inv s' ∧ (WaitsBusy s → (WaitsBusy s' ↔ TakesBusy s e)) ∧
      (Undisturbed s e → Settled s → Settled s') := by
  cases e with
  | item e =>
      obtain ⟨hinv, hwaits, hsettled⟩ := item_keeps hi he h
      exact ⟨hinv, fun hw => iff_of_true (hwaits hw) trivial, hsettled⟩
  | sync t w =>
      obtain ⟨hinv, hwaits, hsettled⟩ := sync_meets hi he.2 h
      exact ⟨hinv, fun hw => iff_of_true (hwaits hw) trivial, fun _ => hsettled⟩
  | take t =>
      obtain ⟨w, hcall⟩ : ∃ w, s.calls t = some (.takes w) := by
        rcases hc : s.calls t with _ | ⟨w | w | w | w⟩ <;> simp_all [Enabled]
      obtain ⟨hinv, hwaits, hsettled⟩ := take_meets hi hcall h
      refine ⟨hinv, fun hw => (hwaits hw).trans ?_, fun hund => hsettled (hund _ hcall).2⟩
      simp [TakesBusy, hcall, Call.work]
  | woken t =>
      obtain ⟨w, hcall⟩ : ∃ w, s.calls t = some (.waits w) := by
        rcases hc : s.calls t with _ | ⟨w | w | w | w⟩ <;> simp_all [Enabled]
      obtain ⟨hinv, hwaits, hsettled⟩ := woken_meets hi hcall he.2 h
      exact ⟨hinv, fun hw => iff_of_true (hwaits hw) trivial, fun _ => hsettled⟩
  | cancel t =>
      obtain ⟨w, hcall⟩ : ∃ w, s.calls t = some (.cancels w) := by
        rcases hc : s.calls t with _ | ⟨w | w | w | w⟩ <;> simp_all [Enabled]
      obtain ⟨hinv, hwaits, hsettled⟩ := cancel_meets hi hcall h
      exact ⟨hinv, fun hw => iff_of_true (hwaits hw) trivial, fun hund => hsettled (hund _ hcall)⟩
  | leave t =>
      obtain ⟨w, hcall⟩ : ∃ w, s.calls t = some (.leaves w) := by
        rcases hc : s.calls t with _ | ⟨w | w | w | w⟩ <;> simp_all [Enabled]
      obtain ⟨hinv, hwaits, hsettled⟩ := leave_meets hi hcall h
      exact ⟨hinv, fun hw => iff_of_true (hwaits hw) trivial, fun _ => hsettled⟩

/-- Only the last step of a call adds to the returns. -/
theorem step_returns {e : Event} (hi : Inv s) (hst : Settled s) (h : step s e = .ok s')
    (hr : ∀ r ∈ s.returns, r.running = false ∧ r.queued = false) :
    ∀ r ∈ s'.returns, r.running = false ∧ r.queued = false := by
  cases e with
  | item e =>
      obtain ⟨items, sem, -, -, rfl⟩ := item_step h
      exact hr
  | sync t w =>
      cases h
      exact hr
  | take t =>
      simp only [step] at h
      split at h
      · obtain ⟨⟨sem, r⟩, -, h⟩ := bind_eq_ok.mp h
        cases r <;> cases h <;> exact hr
      · cases h
        exact hr
  | woken t =>
      simp only [step] at h
      split at h <;> cases h <;> exact hr
  | cancel t =>
      simp only [step] at h
      split at h
      · obtain ⟨items, -, h⟩ := bind_eq_ok.mp h
        cases h
        exact hr
      · cases h
        exact hr
  | leave t =>
      simp only [step] at h
      split at h
      · rename_i w hcall
        cases h
        obtain ⟨hunq, hnot⟩ := hst t w (.leaves w) hcall (Or.inr rfl)
        have hrun : suspended s t = false := hi.runs hcall fun v h => (by cases h)
        intro r hmem
        rcases List.mem_cons.mp hmem with rfl | hmem
        · exact ⟨decide_eq_false (hnot hrun), decide_eq_false (not_or.mpr hunq)⟩
        · exact hr r hmem
      · cases h
        exact hr

end Steps

/-! ## Runs from the start -/

theorem boot_inv (threads : Threads) : Inv (boot threads) :=
  ⟨rfl, Parked.nil fun _ ⟨_, h⟩ => (by cases h), fun _ h => absurd rfl h,
    fun _ => ⟨fun h => (by cases h), fun h => (by cases h)⟩, List.nodup_nil⟩

private theorem boot_waitsBusy (threads : Threads) : WaitsBusy (boot threads) :=
  fun _ _ h => (by cases h)

private theorem boot_settled (threads : Threads) : Settled (boot threads) :=
  fun _ _ _ h => (by cases h)

/-- What the undisturbed calls keep. -/
structure Kept (s : System) : Prop where
  inv : Inv s
  waits : WaitsBusy s
  settled : Settled s
  returns : ∀ r ∈ s.returns, r.running = false ∧ r.queued = false

theorem Undisturbed.takesBusy {s : System} {e : Event} (h : Undisturbed s e) : TakesBusy s e := by
  cases e with
  | take t => exact fun c hc => (h c hc).1
  | item e => trivial
  | sync t w => trivial
  | woken t => trivial
  | cancel t => trivial
  | leave t => trivial

/-- If nothing comes between what a call saw and what it does, nor between that and its return, no
caller waits for nothing, and every call returns when its item is neither running nor queued.  That
no caller waits for nothing needs exactly that what it is going to wait for is still running. -/
theorem cancel_sync_done (threads : Threads) (es : List Event)
    (hg : Guarded step Enabled (boot threads) es) :
    (Guarded step Undisturbed (boot threads) es → Always step Done (boot threads) es) ∧
      ((∃ s, run step (boot threads) es = .ok s) →
        (Always step WaitsBusy (boot threads) es ↔ Guarded step TakesBusy (boot threads) es)) := by
  constructor
  · intro hund
    have hkept : Kept (boot threads) :=
      ⟨boot_inv threads, boot_waitsBusy threads, boot_settled threads,
        fun _ h => absurd h List.not_mem_nil⟩
    have hstep : ∀ s e s', Kept s → (Enabled s e ∧ Undisturbed s e) → step s e = .ok s' →
        Kept s' := by
      rintro s e s' hk ⟨he, hu⟩ h
      obtain ⟨hinv, hwaits, hsettled⟩ := step_meets hk.inv he h
      exact ⟨hinv, (hwaits hk.waits).mpr hu.takesBusy, hsettled hu hk.settled,
        step_returns hk.inv hk.settled h hk.returns⟩
    exact always_of_returns hstep (fun s hk => ⟨hk.waits, hk.returns⟩) hkept (hg.and hund)
  · rintro ⟨s, hs⟩
    exact always_iff_guarded (fun _ _ _ hi he h => (step_meets hi he h).1)
      (fun _ _ _ hi he h hw => (step_meets hi he h).2.1 hw) (boot_inv threads)
      (boot_waitsBusy threads) hg hs

/-! ## Finitely many callers -/

/-- The thread whose call a step is part of. -/
def Event.caller : Event → Option ThreadId
  | .item _ => none
  | .sync t _ | .take t | .woken t | .cancel t | .leave t => some t

/-- `Undisturbed`, where only these threads call. -/
def UndisturbedAmong (callers : List ThreadId) (s : System) : Event → Prop
  | .item e => ∀ w ∈ Workqueue.puts s.items e, ∀ t ∈ callers, ∀ c ∈ s.calls t, ¬c.done w
  | .sync t _ => t ∈ callers
  | .take t => t ∈ callers ∧ ∀ c ∈ s.calls t, Busy s c.work ∧ Unqueued s.items c.work
  | .woken t => t ∈ callers
  | .cancel t => t ∈ callers ∧ ∀ c ∈ s.calls t, s.items.queue.workCurrent ≠ some c.work
  | .leave t => t ∈ callers

instance (callers : List ThreadId) (s : System) : ∀ e, Decidable (UndisturbedAmong callers s e)
  | .item e => inferInstanceAs (Decidable (∀ w ∈ Workqueue.puts s.items e, ∀ t ∈ callers,
      ∀ c ∈ s.calls t, ¬c.done w))
  | .sync t _ | .woken t | .leave t => inferInstanceAs (Decidable (t ∈ callers))
  | .take t => inferInstanceAs (Decidable (t ∈ callers ∧ ∀ c ∈ s.calls t,
      Busy s c.work ∧ Unqueued s.items c.work))
  | .cancel t => inferInstanceAs (Decidable (t ∈ callers ∧ ∀ c ∈ s.calls t,
      s.items.queue.workCurrent ≠ some c.work))

/-- A step leaves the calls of the other threads alone. -/
theorem step_calls {s s' : System} {e : Event} {u : ThreadId} (h : step s e = .ok s')
    (hu : e.caller ≠ some u) : s'.calls u = s.calls u := by
  have hne : ∀ t, e.caller = some t → u ≠ t := by
    rintro t ht rfl
    exact hu ht
  cases e with
  | item e =>
      obtain ⟨items, sem, -, -, rfl⟩ := item_step h
      rfl
  | sync t w =>
      cases h
      exact Function.update_of_ne (hne t rfl) ..
  | take t =>
      simp only [step] at h
      split at h
      · obtain ⟨⟨sem, r⟩, -, h⟩ := bind_eq_ok.mp h
        cases r <;> cases h <;> exact Function.update_of_ne (hne t rfl) ..
      · cases h
        rfl
  | woken t =>
      simp only [step] at h
      split at h
      · cases h
        exact Function.update_of_ne (hne t rfl) ..
      · cases h
        rfl
  | cancel t =>
      simp only [step] at h
      split at h
      · obtain ⟨items, -, h⟩ := bind_eq_ok.mp h
        cases h
        exact Function.update_of_ne (hne t rfl) ..
      · cases h
        rfl
  | leave t =>
      simp only [step] at h
      split at h
      · cases h
        exact Function.update_of_ne (hne t rfl) ..
      · cases h
        rfl

theorem UndisturbedAmong.caller {callers : List ThreadId} {s : System} {e : Event} {t : ThreadId}
    (h : UndisturbedAmong callers s e) (ht : e.caller = some t) : t ∈ callers := by
  cases e with
  | item e => cases ht
  | sync u w => cases ht; exact h
  | take u => cases ht; exact h.1
  | woken u => cases ht; exact h
  | cancel u => cases ht; exact h.1
  | leave u => cases ht; exact h

/-- Where only these threads call, it is enough to look at them. -/
theorem undisturbed_of_among {callers : List ThreadId} {threads : Threads} {es : List Event}
    (h : Guarded step (UndisturbedAmong callers) (boot threads) es) :
    Guarded step Undisturbed (boot threads) es := by
  have hstep : ∀ s e s', (∀ t, t ∉ callers → s.calls t = none) → UndisturbedAmong callers s e →
      step s e = .ok s' → ∀ t, t ∉ callers → s'.calls t = none := by
    intro s e s' hnone hamong hstep t ht
    rw [step_calls hstep fun hcaller => ht (hamong.caller hcaller)]
    exact hnone t ht
  have himp : ∀ s e, (∀ t, t ∉ callers → s.calls t = none) → UndisturbedAmong callers s e →
      Undisturbed s e := by
    intro s e hnone hamong
    cases e with
    | item e =>
        intro w hput t c hc
        by_cases ht : t ∈ callers
        · exact hamong w hput t ht c hc
        · rw [hnone t ht] at hc
          cases hc
    | take t => exact hamong.2
    | cancel t => exact hamong.2
    | sync t w => trivial
    | woken t => trivial
    | leave t => trivial
  exact Guarded.of_inv hstep himp (fun _ _ => rfl) h

def idle : Threads := fun _ => ⟨false, 10, .eok, false, 0, 0⟩

/-- Two callers wait for the item that runs, a third cancels one that is queued, and both items are
submitted again once the calls have returned. -/
def patient : List Event :=
  [.item (.dowork 0), .item (.dowork 1), .item .threadTop, .sync 5 0, .sync 6 1, .take 5,
    .item (.dowork 2), .cancel 6, .sync 7 0, .leave 6, .item (.dowork 1), .take 7, .item .finish,
    .item .complete, .woken 7, .leave 7, .item .threadTop, .woken 5, .leave 5, .item (.dowork 0)]

theorem cancel_sync_done_three :
    Always step Done (boot idle) patient ∧ Always step WaitsBusy (boot idle) patient := by
  have hg : Guarded step Enabled (boot idle) patient := by decide
  have hrun : (run step (boot idle) patient).map (fun _ => ()) = .ok () := by decide
  have hamong : Guarded step (UndisturbedAmong [5, 6, 7]) (boot idle) patient := by
    decide
  refine ⟨(cancel_sync_done idle patient hg).1 (undisturbed_of_among hamong),
    ((cancel_sync_done idle patient hg).2 ?_).mpr ?_⟩
  · exact (exists_of_map_eq_ok hrun).imp fun _ h => h.1
  · decide

/-- The item is done before the caller that saw it running takes the semaphore. -/
def late : List Event :=
  [.item (.dowork 0), .item .threadTop, .sync 5 0, .item .finish, .item .complete, .take 5]

/-- The caller waits for a semaphore that nobody is going to release. -/
theorem waits_for_nothing :
    ∃ s, Guarded step Enabled (boot idle) late ∧ run step (boot idle) late = .ok s ∧
      s.calls 5 = some (.waits 0) ∧ suspended s 5 = true ∧
      s.items.queue.workCurrent = none ∧ s.items.queue.workList = [] := by
  have hguarded : Guarded step Enabled (boot idle) late := by decide
  have hlate : (run step (boot idle) late).map
      (fun s => (s.calls 5, suspended s 5, s.items.queue.workCurrent, s.items.queue.workList)) =
        .ok (some (.waits 0), true, none, []) := by
    decide
  obtain ⟨s, hrun, hs⟩ := exists_of_map_eq_ok hlate
  simp only [Prod.mk.injEq] at hs
  exact ⟨s, hguarded, hrun, hs⟩

/-- The item is submitted again between the cancellation and the return of the call. -/
example : (run step (boot idle) [.item (.dowork 0), .sync 5 0, .cancel 5, .item (.dowork 0),
    .leave 5]).map (fun s => s.returns) = .ok [⟨0, false, true⟩] := by
  decide

end RtHypervisor.Ports.WorkqueueSync
