import Mathlib.Tactic
import RtHypervisor.Verified.Run
import RtHypervisor.Verified.WaitQueue

/-!
# Threads that wait

The part of `ipc.c` and `thread.c` all IPC objects share: a thread suspends itself, is put
in the list of an object, and leaves it when it is resumed or when its timer runs out.
The build is for one core, so that what runs with the interrupts disabled is one step.

Which of the ready threads runs is left open, and with it the ready queues and the calls of
`rt_schedule`: any thread that is not suspended may take the next step.  The timer of a
thread is whether it is active; when it runs out is left open as well.

`Parked` says of a list that the suspended threads of an operation, and no others, are in it.
-/

namespace RtHypervisor.Ports.Ipc

open RtHypervisor.Verified.Run
open RtHypervisor.Verified.WaitQueue

abbrev ThreadId := Nat

/-- The values of `rt_err_t` that the IPC functions use. -/
inductive Err
  | eok
  | error
  | etimeout
  | efull
  | einval
deriving DecidableEq, Repr

/-- `RT_IPC_FLAG_FIFO` and `RT_IPC_FLAG_PRIO`. -/
inductive Flag
  | fifo
  | prio
deriving DecidableEq, Repr

/-- What the IPC functions use of `struct rt_thread`.  `suspended` is the state
`RT_THREAD_SUSPEND`, `timer` the activated flag of `thread_timer`. -/
structure Thread where
  suspended : Bool
  currentPriority : Nat
  error : Err
  timer : Bool
  eventSet : BitVec 32
  eventInfo : BitVec 8
deriving DecidableEq, Repr

abbrev Threads := ThreadId → Thread

def modify (ts : Threads) (t : ThreadId) (f : Thread → Thread) : Threads :=
  Function.update ts t (f (ts t))

def setError (ts : Threads) (t : ThreadId) (e : Err) : Threads :=
  modify ts t fun x => { x with error := e }

/-- `rt_thread_suspend` by the running thread, which stops its timer. -/
def rtThreadSuspend (ts : Threads) (t : ThreadId) : Threads :=
  if (ts t).suspended then ts
  else modify ts t fun x => { x with suspended := true, timer := false }

/-- Whether `t` goes in front of `u` in a list in order of priority. -/
def precedes (ts : Threads) (t u : ThreadId) : Bool :=
  (ts t).currentPriority < (ts u).currentPriority

/-- The place of a thread in the list of an object. -/
def listInsert (ts : Threads) (list : List ThreadId) (t : ThreadId) : Flag → List ThreadId
  | .fifo => list ++ [t]
  | .prio => enqueue (precedes ts t) t list

/-- `_ipc_list_suspend`. -/
def ipcListSuspend (ts : Threads) (list : List ThreadId) (t : ThreadId) (flag : Flag) :
    Threads × List ThreadId :=
  let ts := rtThreadSuspend ts t
  (ts, listInsert ts list t flag)

/-- The thread timer for a waiting time, which is none if it is negative:
`rt_timer_control`, which does not take `RT_TICK_MAX / 2`, and `rt_timer_start`. -/
def startTimer (ts : Threads) (t : ThreadId) (timeout : BitVec 32) : Except Fault Threads :=
  if (0 : BitVec 32).slt timeout then do
    check .assertion (timeout < 0x7fffffff)
    pure (modify ts t fun x => { x with timer := true })
  else pure ts

def wake (ts : Threads) (t : ThreadId) : Threads :=
  modify ts t fun x => { x with suspended := false, timer := false }

/-- `rt_thread_resume`, for a thread that may be in `list`. -/
def rtThreadResume (ts : Threads) (list : List ThreadId) (t : ThreadId) :
    Threads × List ThreadId :=
  if (ts t).suspended then (wake ts t, list.erase t) else (ts, list)

/-- `_ipc_list_resume`, on a list that is not empty. -/
def ipcListResume (ts : Threads) : List ThreadId → Threads × List ThreadId
  | [] => (ts, [])
  | t :: list => rtThreadResume ts (t :: list) t

/-- `_ipc_list_resume_all`, which empties the list.  It would not end at a thread that is not
suspended. -/
def ipcListResumeAll (ts : Threads) : List ThreadId → Except Fault Threads
  | [] => pure ts
  | t :: list => do
      check .fuel (ts t).suspended
      ipcListResumeAll (wake (setError ts t .error) t) list

/-- `_thread_timeout`. -/
def threadTimeout (ts : Threads) (list : List ThreadId) (t : ThreadId) :
    Except Fault (Threads × List ThreadId) := do
  check .assertion (ts t).suspended
  pure (wake (setError ts t .etimeout) t, list.erase t)

/-! ## Reading the threads -/

section Modify

variable {ts : Threads} {t u : ThreadId} {f : Thread → Thread}

@[simp] theorem modify_self : modify ts t f t = f (ts t) := Function.update_self ..

theorem modify_of_ne (h : u ≠ t) : modify ts t f u = ts u := Function.update_of_ne h ..

@[simp] theorem wake_self :
    wake ts t t = { ts t with suspended := false, timer := false } := modify_self

theorem wake_of_ne (h : u ≠ t) : wake ts t u = ts u := modify_of_ne h

@[simp] theorem setError_self (e : Err) : setError ts t e t = { ts t with error := e } :=
  modify_self

theorem setError_of_ne (e : Err) (h : u ≠ t) : setError ts t e u = ts u := modify_of_ne h

theorem modify_modify (f g : Thread → Thread) :
    modify (modify ts t f) t g = modify ts t fun x => g (f x) := by
  rw [modify, modify_self, modify, Function.update_idem, modify]

theorem rtThreadSuspend_of_running (h : (ts t).suspended = false) :
    rtThreadSuspend ts t = modify ts t fun x => { x with suspended := true, timer := false } := by
  rw [rtThreadSuspend, h]
  rfl

theorem startTimer_meets {timeout : BitVec 32} :
    Meets (· = Fault.assertion)
      (fun ts' => ∃ b, ts' = modify ts t fun x => { x with timer := x.timer || b })
      (startTimer ts t timeout) := by
  rw [startTimer]
  refine meets_ite (fun _ => ?_) fun _ => ?_
  · have hcheck : Meets (· = Fault.assertion) (fun _ : Unit => True)
        (check .assertion (timeout < 0x7fffffff)) :=
      meets_check (fun _ => trivial) fun _ => rfl
    refine hcheck.bind fun _ _ => ⟨true, ?_⟩
    simp only [Bool.or_true]
  · refine ⟨false, ?_⟩
    simp only [Bool.or_false, modify, Function.update_eq_self]

/-- A waiting time the timer takes. -/
theorem startTimer_ok {timeout : BitVec 32} (h : timeout ≠ 0x7fffffff) :
    ∃ b, startTimer ts t timeout = .ok (modify ts t fun x => { x with timer := x.timer || b }) := by
  rw [startTimer]
  by_cases hpos : (0 : BitVec 32).slt timeout = true
  · have hlt : timeout < 0x7fffffff := by
      rw [BitVec.slt_iff_toInt_lt, BitVec.toInt_eq_toNat_cond, BitVec.toInt_eq_toNat_cond] at hpos
      bv_omega
    refine ⟨true, ?_⟩
    rw [if_pos hpos]
    simp only [hlt, decide_true, check_true, ok_bind, Bool.or_true]
    rfl
  · refine ⟨false, ?_⟩
    rw [if_neg hpos]
    simp only [Bool.or_false, modify, Function.update_eq_self]
    rfl

/-- A running thread suspends itself and starts its timer. -/
theorem block_meets {list : List ThreadId} {flag : Flag} {timeout : BitVec 32}
    (hrun : (ts t).suspended = false) :
    Meets (· = Fault.assertion)
      (fun ts' => ∃ b, ts' = modify ts t fun x => { x with suspended := true, timer := b })
      (startTimer (ipcListSuspend ts list t flag).1 t timeout) := by
  have hsusp : (ipcListSuspend ts list t flag).1 =
      modify ts t fun x => { x with suspended := true, timer := false } :=
    rtThreadSuspend_of_running hrun
  refine startTimer_meets.mono ?_
  rintro ts' ⟨b, rfl⟩
  refine ⟨b, ?_⟩
  rw [hsusp, modify_modify]
  simp only [Bool.false_or]

/-- A property of every thread that only the step of one can break. -/
theorem forall_of_ne {P P' : ThreadId → Prop} (t : ThreadId) (h : ∀ u, P u)
    (hne : ∀ u, u ≠ t → P u → P' u) (ht : P' t) : ∀ u, P' u := by
  intro u
  by_cases hu : u = t
  · exact hu ▸ ht
  · exact hne u hu (h u)

end Modify

/-! ## The threads in a list -/

theorem mem_listInsert {ts : Threads} {list : List ThreadId} {t u : ThreadId} {flag : Flag} :
    u ∈ listInsert ts list t flag ↔ u = t ∨ u ∈ list := by
  cases flag with
  | fifo =>
      rw [listInsert, List.mem_append, List.mem_singleton, or_comm]
  | prio => exact mem_enqueue

/-- The place of a thread in a list depends on priorities only. -/
theorem listInsert_congr {ts ts' : Threads} {list : List ThreadId} {t : ThreadId} {flag : Flag}
    (h : ∀ u, (ts u).currentPriority = (ts' u).currentPriority) :
    listInsert ts list t flag = listInsert ts' list t flag := by
  have hprecedes : precedes ts t = precedes ts' t := by
    funext u
    rw [precedes, precedes, h t, h u]
  cases flag with
  | fifo => rfl
  | prio => rw [listInsert, listInsert, hprecedes]

theorem nodup_listInsert {ts : Threads} {list : List ThreadId} {t : ThreadId} {flag : Flag}
    (ht : t ∉ list) (h : list.Nodup) : (listInsert ts list t flag).Nodup := by
  cases flag with
  | fifo =>
      have hlast : enqueue (fun _ => false) t list = list ++ [t] := enqueue_of_forall fun _ _ => rfl
      rw [listInsert, ← hlast]
      exact nodup_enqueue ht h
  | prio => exact nodup_enqueue ht h

/-- The threads of `list` are the suspended ones of those `P` holds of, each once. -/
structure Parked (ts : Threads) (list : List ThreadId) (P : ThreadId → Prop) : Prop where
  nodup : list.Nodup
  mem_iff : ∀ t, t ∈ list ↔ P t ∧ (ts t).suspended = true

section Parked

variable {ts ts' : Threads} {list : List ThreadId} {t : ThreadId} {P P' : ThreadId → Prop}

theorem Parked.nil (h : ∀ t, ¬P t) : Parked ts [] P := by
  refine ⟨List.nodup_nil, fun t => ⟨fun ht => ?_, fun ht => ?_⟩⟩
  · cases ht
  · exact absurd ht.1 (h t)

theorem Parked.congr (h : Parked ts list P)
    (heq : ∀ u, P' u ∧ (ts' u).suspended = true ↔ P u ∧ (ts u).suspended = true) :
    Parked ts' list P' :=
  ⟨h.nodup, fun u => (h.mem_iff u).trans (heq u).symm⟩

theorem Parked.not_mem (h : Parked ts list P) (hrun : (ts t).suspended = false) : t ∉ list := by
  intro hmem
  rw [((h.mem_iff t).mp hmem).2] at hrun
  cases hrun

/-- The running thread is put in the list. -/
theorem Parked.insert (h : Parked ts list P) (hrun : (ts t).suspended = false)
    (hne : ∀ u, u ≠ t → ts' u = ts u) (ht : (ts' t).suspended = true)
    (hP : ∀ u, P' u ↔ u = t ∨ P u) {us : Threads} {flag : Flag} :
    Parked ts' (listInsert us list t flag) P' := by
  refine ⟨nodup_listInsert (h.not_mem hrun) h.nodup, fun u => ?_⟩
  rw [mem_listInsert, h.mem_iff, hP]
  by_cases hu : u = t
  · simp [hu, ht]
  · simp [hu, hne u hu]

/-- The running thread is put in front of the list. -/
theorem Parked.push (h : Parked ts list P) (hrun : (ts t).suspended = false)
    (hne : ∀ u, u ≠ t → ts' u = ts u) (ht : (ts' t).suspended = true)
    (hP : ∀ u, P' u ↔ u = t ∨ P u) : Parked ts' (t :: list) P' := by
  have hlast : Parked ts' (listInsert ts list t .fifo) P' := h.insert hrun hne ht hP
  have hperm : (t :: list).Perm (list ++ [t]) := (List.perm_append_singleton t list).symm
  exact ⟨hperm.nodup_iff.mpr hlast.nodup, fun u => hperm.mem_iff.trans (hlast.mem_iff u)⟩

/-- A thread changes that does not wait, or goes on waiting. -/
theorem Parked.change (h : Parked ts list P) (hne : ∀ u, u ≠ t → ts' u = ts u)
    (ht : P t → (ts' t).suspended = (ts t).suspended) : Parked ts' list P := by
  refine h.congr fun u => ?_
  by_cases hu : u = t
  · subst hu
    refine and_congr_right fun hu => ?_
    rw [ht hu]
  · rw [hne u hu]

/-- A thread leaves the list. -/
theorem Parked.erase (h : Parked ts list P) (hne : ∀ u, u ≠ t → ts' u = ts u)
    (ht : (ts' t).suspended = false) : Parked ts' (list.erase t) P := by
  refine ⟨h.nodup.erase t, fun u => ?_⟩
  rw [h.nodup.mem_erase_iff, h.mem_iff]
  by_cases hu : u = t
  · simp [hu, ht]
  · simp [hu, hne u hu]

/-- The first thread of the list is resumed. -/
theorem Parked.resume_eq (h : Parked ts (t :: list) P) :
    ipcListResume ts (t :: list) = (wake ts t, list) := by
  have hsusp : (ts t).suspended = true := ((h.mem_iff t).mp (List.mem_cons_self ..)).2
  rw [ipcListResume, rtThreadResume, hsusp, if_pos rfl, List.erase_cons_head]

theorem Parked.resume (h : Parked ts (t :: list) P) : Parked (wake ts t) list P := by
  have herase : Parked (wake ts t) ((t :: list).erase t) P :=
    h.erase (fun _ hu => wake_of_ne hu) (by rw [wake_self])
  rwa [List.erase_cons_head] at herase

/-- Every thread of the list is resumed with an error. -/
theorem Parked.resumeAll (h : Parked ts list P) :
    ∃ ts', ipcListResumeAll ts list = .ok ts' ∧ Parked ts' [] P ∧
      (∀ u ∈ list, ts' u = { ts u with error := .error, suspended := false, timer := false }) ∧
      ∀ u, u ∉ list → ts' u = ts u := by
  induction list generalizing ts with
  | nil => exact ⟨ts, rfl, h, fun u hu => absurd hu (List.not_mem_nil), fun _ _ => rfl⟩
  | cons t list ih =>
      have hsusp : (ts t).suspended = true := ((h.mem_iff t).mp (List.mem_cons_self ..)).2
      have hnext : Parked (wake (setError ts t .error) t) list P := by
        have hset : Parked (setError ts t .error) (t :: list) P :=
          h.change (fun _ hu => setError_of_ne _ hu) fun _ => by rw [setError_self]
        exact hset.resume
      obtain ⟨ts', hall, hparked, hin, hout⟩ := ih hnext
      refine ⟨ts', ?_, hparked, ?_, ?_⟩
      · rw [ipcListResumeAll, hsusp]
        exact hall
      · intro u hu
        rcases List.mem_cons.mp hu with rfl | hu
        · rw [hout u (List.nodup_cons.mp h.nodup).1, wake_self, setError_self]
        · have hne : u ≠ t := fun heq => (List.nodup_cons.mp h.nodup).1 (heq ▸ hu)
          rw [hin u hu, wake_of_ne hne, setError_of_ne _ hne]
      · intro u hu
        rw [List.mem_cons, not_or] at hu
        rw [hout u hu.2, wake_of_ne hu.1, setError_of_ne _ hu.1]

end Parked

/-! ## Several lists

`side` says in which of the lists a thread waits, if in any. -/

section Queues

variable {ι : Type} {ts ts' us : Threads} {queue : ι → List ThreadId}
  {side side' : ThreadId → Option ι} {t : ThreadId} {i : ι} {flag : Flag} {list : List ThreadId}

/-- The suspended threads that wait in a list are in it, and in no other. -/
def Queues (ts : Threads) (queue : ι → List ThreadId) (side : ThreadId → Option ι) : Prop :=
  ∀ i, Parked ts (queue i) fun t => side t = some i

theorem Queues.congr (h : Queues ts queue side)
    (heq : ∀ u, (ts' u).suspended = (ts u).suspended) : Queues ts' queue side :=
  fun i => (h i).congr fun u => by rw [heq u]

/-- A thread that does not wait changes. -/
theorem Queues.change (h : Queues ts queue side) (hside : side t = none)
    (hne : ∀ u, u ≠ t → ts' u = ts u) : Queues ts' queue side := by
  refine fun i => (h i).change hne fun hp => ?_
  rw [hside] at hp
  cases hp

/-- A thread that runs no longer waits. -/
theorem Queues.leave (h : Queues ts queue side) (hrun : (ts t).suspended = false)
    (hne : ∀ u, u ≠ t → side' u = side u) : Queues ts queue side' := by
  refine fun i => (h i).congr fun u => ?_
  by_cases hu : u = t
  · simp [hu, hrun]
  · rw [hne u hu]

/-- A thread leaves the list it is in. -/
theorem Queues.erase (h : Queues ts queue side) (hne : ∀ u, u ≠ t → ts' u = ts u)
    (ht : (ts' t).suspended = false) : Queues ts' (fun i => (queue i).erase t) side :=
  fun i => (h i).erase hne ht

variable [DecidableEq ι]

/-- A running thread begins to wait. -/
theorem Queues.block (h : Queues ts queue side) (hside : side t = none)
    (hrun : (ts t).suspended = false) (hne : ∀ u, u ≠ t → ts' u = ts u)
    (ht : (ts' t).suspended = true) (hsne : ∀ u, u ≠ t → side' u = side u)
    (hst : side' t = some i) :
    Queues ts' (Function.update queue i (listInsert us (queue i) t flag)) side' := by
  intro j
  by_cases hj : j = i
  · subst hj
    rw [Function.update_self]
    refine (h j).insert hrun hne ht fun u => ?_
    by_cases hu : u = t
    · simp [hu, hst]
    · simp [hu, hsne u hu]
  · rw [Function.update_of_ne hj]
    refine (h.change hside hne j).congr fun u => ?_
    by_cases hu : u = t
    · simp [hu, hside, hst, Ne.symm hj]
    · rw [hsne u hu]

/-- A thread leaves the list it is in; it is in no other. -/
theorem Queues.remove (h : Queues ts queue side) (hside : side t = some i)
    (hne : ∀ u, u ≠ t → ts' u = ts u) (ht : (ts' t).suspended = false) :
    Queues ts' (Function.update queue i ((queue i).erase t)) side := by
  intro j
  have herase : Parked ts' ((queue j).erase t) fun u => side u = some j := h.erase hne ht j
  by_cases hj : j = i
  · subst hj
    rwa [Function.update_self]
  · have hmem : t ∉ queue j := by
      intro hmem
      have hother : side t = some j := (((h j).mem_iff t).mp hmem).1
      rw [hside] at hother
      exact hj (Option.some.inj hother).symm
    rw [List.erase_of_not_mem hmem] at herase
    rwa [Function.update_of_ne hj]

/-- The first thread of a list is resumed. -/
theorem Queues.resume (h : Queues ts queue side) (hqueue : queue i = t :: list) :
    Queues (wake ts t) (Function.update queue i list) side := by
  have hmem : t ∈ queue i := by
    rw [hqueue]
    exact List.mem_cons_self ..
  have hremove : Queues (wake ts t) (Function.update queue i ((queue i).erase t)) side :=
    h.remove (((h i).mem_iff t).mp hmem).1 (fun _ hu => wake_of_ne hu) (by rw [wake_self])
  rwa [hqueue, List.erase_cons_head] at hremove

/-- All threads of a list are resumed with an error. -/
theorem Queues.resumeAll (h : Queues ts queue side) (i : ι) :
    ∃ ts', ipcListResumeAll ts (queue i) = .ok ts' ∧
      Queues ts' (Function.update queue i []) side ∧
      (∀ u ∈ queue i, ts' u = { ts u with error := .error, suspended := false, timer := false }) ∧
      ∀ u, u ∉ queue i → ts' u = ts u := by
  obtain ⟨ts', hall, hparked, hin, hout⟩ := (h i).resumeAll
  refine ⟨ts', hall, fun j => ?_, hin, hout⟩
  by_cases hj : j = i
  · subst hj
    rwa [Function.update_self]
  · rw [Function.update_of_ne hj]
    refine (h j).congr fun u => ?_
    by_cases hu : u ∈ queue i
    · have hside := (((h i).mem_iff u).mp hu).1
      simp [hside, Ne.symm hj]
    · rw [hout u hu]

end Queues

/-! ## Objects with two lists

Mailboxes and message queues have one list for the threads that wait for a message and one for
those that wait for room. -/

inductive Side
  | recv
  | send
deriving DecidableEq, Repr

def lists (recv send : List ThreadId) : Side → List ThreadId
  | .recv => recv
  | .send => send

private theorem update_lists_recv {recv send list : List ThreadId} :
    Function.update (lists recv send) .recv list = lists list send := by
  funext i
  cases i with
  | recv => rfl
  | send => rfl

private theorem update_lists_send {recv send list : List ThreadId} :
    Function.update (lists recv send) .send list = lists recv list := by
  funext i
  cases i with
  | recv => rfl
  | send => rfl

/-- The suspended threads are in the list of the side they wait on, and a thread that has been
resumed has its timer off. -/
structure TwoLists (ts : Threads) (recv send : List ThreadId) (side : ThreadId → Option Side) :
    Prop where
  queues : Queues ts (lists recv send) side
  timers : ∀ t, side t ≠ none → (ts t).suspended = false → (ts t).timer = false

section TwoLists

variable {ts ts' us : Threads} {recv send : List ThreadId} {side side' : ThreadId → Option Side}
  {t : ThreadId} {flag : Flag}

theorem TwoLists.congr (h : TwoLists ts recv send side)
    (heq : ∀ u, (ts' u).suspended = (ts u).suspended ∧ (ts' u).timer = (ts u).timer) :
    TwoLists ts' recv send side := by
  refine ⟨h.queues.congr fun u => (heq u).1, fun u hside hsusp => ?_⟩
  rw [(heq u).1] at hsusp
  rw [(heq u).2]
  exact h.timers u hside hsusp

/-- A thread that waits on neither side changes. -/
theorem TwoLists.change (h : TwoLists ts recv send side) (hside : side t = none)
    (hne : ∀ u, u ≠ t → ts' u = ts u) : TwoLists ts' recv send side := by
  refine ⟨h.queues.change hside hne, ?_⟩
  refine forall_of_ne t h.timers (fun u hu hold => ?_) fun hp => absurd hside hp
  rwa [hne u hu]

/-- A thread that runs no longer waits. -/
theorem TwoLists.leave (h : TwoLists ts recv send side) (hrun : (ts t).suspended = false)
    (hne : ∀ u, u ≠ t → side' u = side u) (ht : side' t = none) :
    TwoLists ts recv send side' := by
  refine ⟨h.queues.leave hrun hne, ?_⟩
  refine forall_of_ne t h.timers (fun u hu hold => ?_) fun hp => absurd ht hp
  rwa [hne u hu]

/-- A running thread begins to wait for room. -/
theorem TwoLists.waitSend (h : TwoLists ts recv send side) (hside : side t = none)
    (hrun : (ts t).suspended = false) (hne : ∀ u, u ≠ t → ts' u = ts u)
    (ht : (ts' t).suspended = true) (hsne : ∀ u, u ≠ t → side' u = side u)
    (hst : side' t = some .send) :
    TwoLists ts' recv (listInsert us send t flag) side' := by
  have hqueues : Queues ts' (Function.update (lists recv send) .send (listInsert us send t flag))
      side' := h.queues.block hside hrun hne ht hsne hst
  rw [update_lists_send] at hqueues
  refine ⟨hqueues, ?_⟩
  refine forall_of_ne t h.timers (fun u hu hold => ?_) fun _ hsusp => ?_
  · rwa [hne u hu, hsne u hu]
  · rw [ht] at hsusp
    cases hsusp

/-- A running thread begins to wait for a message. -/
theorem TwoLists.waitRecv (h : TwoLists ts recv send side) (hside : side t = none)
    (hrun : (ts t).suspended = false) (hne : ∀ u, u ≠ t → ts' u = ts u)
    (ht : (ts' t).suspended = true) (hsne : ∀ u, u ≠ t → side' u = side u)
    (hst : side' t = some .recv) :
    TwoLists ts' (listInsert us recv t flag) send side' := by
  have hqueues : Queues ts' (Function.update (lists recv send) .recv (listInsert us recv t flag))
      side' := h.queues.block hside hrun hne ht hsne hst
  rw [update_lists_recv] at hqueues
  refine ⟨hqueues, ?_⟩
  refine forall_of_ne t h.timers (fun u hu hold => ?_) fun _ hsusp => ?_
  · rwa [hne u hu, hsne u hu]
  · rw [ht] at hsusp
    cases hsusp

/-- A thread leaves the list it is in. -/
theorem TwoLists.erase (h : TwoLists ts recv send side) (hne : ∀ u, u ≠ t → ts' u = ts u)
    (ht : (ts' t).suspended = false) (htimer : (ts' t).timer = false) :
    TwoLists ts' (recv.erase t) (send.erase t) side := by
  refine ⟨fun i => ?_, ?_⟩
  · have hparked := h.queues.erase hne ht i
    cases i with
    | recv => exact hparked
    | send => exact hparked
  · refine forall_of_ne t h.timers (fun u hu hold => ?_) fun _ _ => htimer
    rwa [hne u hu]

private theorem wake_timers
    (h : ∀ u, side u ≠ none → (ts u).suspended = false → (ts u).timer = false) :
    ∀ u, side u ≠ none → (wake ts t u).suspended = false → (wake ts t u).timer = false := by
  refine forall_of_ne t h (fun u hu hold => ?_) fun _ _ => ?_
  · rwa [wake_of_ne hu]
  · rw [wake_self]

/-- The first thread that waits for a message is resumed. -/
theorem TwoLists.resumeReceiver (h : TwoLists ts (t :: recv) send side) :
    TwoLists (wake ts t) recv send side := by
  have hqueues := h.queues.resume (i := .recv) rfl
  rw [update_lists_recv] at hqueues
  exact ⟨hqueues, wake_timers h.timers⟩

/-- The first thread that waits for room is resumed. -/
theorem TwoLists.resumeSender (h : TwoLists ts recv (t :: send) side) :
    TwoLists (wake ts t) recv send side := by
  have hqueues := h.queues.resume (i := .send) rfl
  rw [update_lists_send] at hqueues
  exact ⟨hqueues, wake_timers h.timers⟩

/-- All threads are resumed with an error, those that wait for a message first. -/
theorem TwoLists.resumeAll (h : TwoLists ts recv send side) :
    ∃ ts₁ ts₂, ipcListResumeAll ts recv = .ok ts₁ ∧ ipcListResumeAll ts₁ send = .ok ts₂ ∧
      TwoLists ts₂ [] [] side := by
  obtain ⟨ts₁, hall₁, hqueues₁, hin₁, hout₁⟩ := h.queues.resumeAll .recv
  rw [update_lists_recv] at hqueues₁
  obtain ⟨ts₂, hall₂, hqueues₂, hin₂, hout₂⟩ := hqueues₁.resumeAll .send
  rw [update_lists_send] at hqueues₂
  refine ⟨ts₁, ts₂, hall₁, hall₂, hqueues₂, fun u hside hsusp => ?_⟩
  by_cases hs : u ∈ lists [] send .send
  · rw [hin₂ u hs]
  · by_cases hr : u ∈ lists recv send .recv
    · rw [hout₂ u hs, hin₁ u hr]
    · rw [hout₂ u hs, hout₁ u hr] at hsusp ⊢
      exact h.timers u hside hsusp

end TwoLists

end RtHypervisor.Ports.Ipc
