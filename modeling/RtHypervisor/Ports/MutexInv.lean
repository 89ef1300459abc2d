import Mathlib.Tactic
import RtHypervisor.Ports.Mutex

/-!
# The state of a mutex

A mutex is free, or it has an owner whose recursion count `hold` is (`MutexOk`).  The
invariant also says where the suspended threads are (`Waits`), so that the first thread of a
list can be resumed; it becomes the owner of a mutex before it runs again.

`Took` and `Released` are what `rt_mutex_take` and `rt_mutex_release` do to a mutex in order.
-/

namespace RtHypervisor.Ports.Mutex

open RtHypervisor.Verified.Run
open RtHypervisor.Ports.Ipc

section SetMutex

variable {k : Kernel} {m m' : MutexId} {f g : RtMutex → RtMutex}

@[simp] theorem setMutex_self : (setMutex k m f).mutex m = f (k.mutex m) :=
  Function.update_self ..

@[simp] theorem setMutex_threads : (setMutex k m f).threads = k.threads := rfl

@[simp] theorem setMutex_queue : (setMutex k m f).queue = k.queue := rfl

@[simp] theorem changePriority_mutex {t : ThreadId} {p : Nat} :
    (changePriority k t p).mutex = k.mutex := rfl

@[simp] theorem changePriority_queue {t : ThreadId} {p : Nat} :
    (changePriority k t p).queue = k.queue := rfl

theorem changePriority_self {t : ThreadId} {p : Nat} :
    (changePriority k t p).threads t = { k.threads t with currentPriority := p } :=
  Function.update_self ..

theorem changePriority_of_ne {t u : ThreadId} {p : Nat} (h : u ≠ t) :
    (changePriority k t p).threads u = k.threads u := Function.update_of_ne h ..

private theorem setMutex_setMutex :
    setMutex (setMutex k m f) m g = setMutex k m fun x => g (f x) := by
  simp only [setMutex, Function.update_self, Function.update_idem]

end SetMutex

/-! ## Priority inheritance -/

/-- The priority of `o` is raised to `p` if it is lower. -/
def boost (ts : Threads) (o : ThreadId) (p : Nat) : Threads :=
  if p < (ts o).currentPriority then modify ts o fun x => { x with currentPriority := p } else ts

section Boost

variable {ts : Threads} {o u : ThreadId} {p : Nat}

theorem boost_suspended : (boost ts o p u).suspended = (ts u).suspended := by
  rw [boost]
  split
  · by_cases hu : u = o
    · rw [hu, modify_self]
    · rw [modify_of_ne hu]
  · rfl

theorem boost_timer : (boost ts o p u).timer = (ts u).timer := by
  rw [boost]
  split
  · by_cases hu : u = o
    · rw [hu, modify_self]
    · rw [modify_of_ne hu]
  · rfl

theorem boost_of_ne (h : u ≠ o) : boost ts o p u = ts u := by
  rw [boost]
  split
  · exact modify_of_ne h
  · rfl

theorem boost_priority : (boost ts o p o).currentPriority = min (ts o).currentPriority p := by
  rw [boost]
  split
  · rename_i hlt
    rw [modify_self]
    exact (min_eq_right hlt.le).symm
  · rename_i hle
    exact (min_eq_left (not_lt.mp hle)).symm

end Boost

/-! ## One call -/

/-- A thread that runs waits in a list; `b` is whether its timer is active. -/
def suspended (k : Kernel) (t : ThreadId) (q : Queue) (b : Bool) : Kernel :=
  let threads := modify k.threads t fun x => { x with suspended := true, timer := b }
  { k with
    threads := threads
    queue := Function.update k.queue q (listInsert threads (k.queue q) t (flagOf k q)) }

theorem suspended_self {k : Kernel} {t : ThreadId} {q : Queue} {b : Bool} :
    (suspended k t q b).threads t = { k.threads t with suspended := true, timer := b } :=
  Function.update_self ..

theorem suspended_of_ne {k : Kernel} {t u : ThreadId} {q : Queue} {b : Bool} (h : u ≠ t) :
    (suspended k t q b).threads u = k.threads u := Function.update_of_ne h ..

theorem suspended_queue {k : Kernel} {t : ThreadId} {q : Queue} {b : Bool} :
    (suspended k t q b).queue = Function.update k.queue q
      (listInsert (suspended k t q b).threads (k.queue q) t (flagOf k q)) := rfl

theorem block_suspended {k : Kernel} {t : ThreadId} (hrun : (k.threads t).suspended = false)
    (q : Queue) (timeout : BitVec 32) :
    Meets (· = .assertion) (fun k' => ∃ b, k' = suspended k t q b) (block k t q timeout) := by
  show Meets _ _
    (startTimer (ipcListSuspend k.threads (k.queue q) t (flagOf k q)).1 t timeout >>= _)
  refine (block_meets hrun).bind ?_
  rintro threads ⟨b, rfl⟩
  refine ⟨b, ?_⟩
  have hlist : (ipcListSuspend k.threads (k.queue q) t (flagOf k q)).2 =
      listInsert (modify k.threads t fun x => { x with suspended := true, timer := b })
        (k.queue q) t (flagOf k q) := by
    rw [ipcListSuspend, rtThreadSuspend_of_running hrun]
    refine listInsert_congr fun u => ?_
    by_cases hu : u = t
    · rw [hu, modify_self, modify_self]
    · rw [modify_of_ne hu, modify_of_ne hu]
  rw [suspended, ← hlist]
  rfl

/-- A mutex is free and nobody waits, or it has an owner, who does not wait for it; `count` is
how often each thread has taken it. -/
inductive MutexOk (x : RtMutex) (list : List ThreadId) (count : ThreadId → Nat) : Prop
  | free (howner : x.owner = none) (hvalue : x.value = 1) (hhold : x.hold = 0)
      (hlist : list = []) (hcount : ∀ t, count t = 0)
  | owned (o : ThreadId) (howner : x.owner = some o) (hvalue : x.value = 0) (hhold : 1 ≤ x.hold)
      (hlist : o ∉ list) (hcount : ∀ t, count t = if t = o then x.hold.toNat else 0)

/-- The thread blocks on a mutex that `o` owns. -/
def Blocks (k : Kernel) (t : ThreadId) (m : MutexId) (timeout : BitVec 32) (o : ThreadId) : Prop :=
  (k.mutex m).owner = some o ∧ o ≠ t ∧ timeout ≠ 0

/-- The last release of a mutex by its owner. -/
def Frees (k : Kernel) (t : ThreadId) (m : MutexId) : Prop :=
  (k.mutex m).owner = some t ∧ (k.mutex m).hold = 1

/-- Before it blocks, a thread raises the priority of the owner. -/
def raised (k : Kernel) (t o : ThreadId) : Kernel :=
  { k with threads := boost (setError k.threads t .eok) o (k.threads t).currentPriority }

/-- What `rt_mutex_take` does. -/
inductive Took (k : Kernel) (t : ThreadId) (m : MutexId) (timeout : BitVec 32) :
    Kernel × Option Err → Prop
  | again (howner : (k.mutex m).owner = some t) (hmax : (k.mutex m).hold < mutexHoldMax) :
      Took k t m timeout
        (setMutex { k with threads := setError k.threads t .eok } m fun x =>
          { x with hold := x.hold + 1 }, some .eok)
  | full (howner : (k.mutex m).owner = some t) (hmax : (k.mutex m).hold = mutexHoldMax) :
      Took k t m timeout ({ k with threads := setError k.threads t .eok }, some .efull)
  | first (howner : (k.mutex m).owner = none) :
      Took k t m timeout
        (setMutex { k with threads := setError k.threads t .eok } m fun x =>
          { value := x.value - 1
            owner := some t
            originalPriority := (k.threads t).currentPriority
            hold := x.hold + 1 }, some .eok)
  | refused (o : ThreadId) (howner : (k.mutex m).owner = some o) (hne : o ≠ t)
      (hzero : timeout = 0) :
      Took k t m timeout ({ k with threads := setError k.threads t .etimeout }, some .etimeout)
  | blocked (o : ThreadId) (b : Bool) (h : Blocks k t m timeout o) :
      Took k t m timeout (suspended (raised k t o) t (.mutex m) b, none)

section Take

variable {k : Kernel} {t : ThreadId} {m : MutexId} {q : Queue} {count : ThreadId → Nat}

theorem take_meets (h : MutexOk (k.mutex m) (k.queue (.mutex m)) count)
    (hrun : (k.threads t).suspended = false) (timeout : BitVec 32) :
    Meets (· = .assertion) (Took k t m timeout) (rtMutexTake k t m timeout) := by
  rw [rtMutexTake]
  cases h with
  | free howner hvalue hhold hlist hcount =>
      have hother : ¬(k.mutex m).owner = some t := by
        rw [howner]
        simp
      have hvalue' : 0 < (k.mutex m).value := by
        rw [hvalue]
        decide
      have hhold' : (k.mutex m).hold < mutexHoldMax := by
        rw [hhold]
        decide
      simp only [if_neg hother, if_pos hvalue', if_pos hhold', setMutex_setMutex, setError_self]
      exact Took.first howner
  | owned o howner hvalue hhold hlist hcount =>
      by_cases ho : o = t
      · subst ho
        simp only [if_pos howner]
        refine meets_ite (fun hmax => Took.again howner hmax) fun hmax => Took.full howner ?_
        rw [mutexHoldMax] at hmax ⊢
        bv_omega
      · have hother : ¬(k.mutex m).owner = some t := by
          rw [howner]
          simpa using ho
        have hvalue' : ¬0 < (k.mutex m).value := by
          rw [hvalue]
          decide
        simp only [if_neg hother, if_neg hvalue']
        refine meets_ite (fun hzero => ?_) fun hzero => ?_
        · simp only [setError, modify_modify]
          exact Took.refused o howner ho hzero
        · simp only [howner, deref_some, ok_bind, setError_self]
          have hraised : (if (k.threads t).currentPriority <
                (setError k.threads t .eok o).currentPriority
              then changePriority { k with threads := setError k.threads t .eok } o
                (k.threads t).currentPriority
              else { k with threads := setError k.threads t .eok }) = raised k t o := by
            rw [raised, boost]
            split
            · rfl
            · rfl
          have hrun' : ((raised k t o).threads t).suspended = false := by
            show (boost (setError k.threads t .eok) o _ t).suspended = false
            rw [boost_suspended, setError_self]
            exact hrun
          rw [hraised]
          refine (block_suspended hrun' (.mutex m) timeout).bind ?_
          rintro k' ⟨b, rfl⟩
          exact Took.blocked o b ⟨howner, ho, hzero⟩

end Take

/-- The mutex is handed over to the first waiting thread. -/
def handedOver (k : Kernel) (m : MutexId) (u : ThreadId) (list : List ThreadId) : Kernel :=
  { k with
    threads := wake k.threads u
    queue := Function.update k.queue (.mutex m) list }

/-- What `rt_mutex_release` does. -/
inductive Released (k : Kernel) (t : ThreadId) (m : MutexId) : Kernel × Err → Prop
  | foreign (hne : (k.mutex m).owner ≠ some t) :
      Released k t m ({ k with threads := setError k.threads t .error }, .error)
  | again (howner : (k.mutex m).owner = some t) (hhold : 1 < (k.mutex m).hold) :
      Released k t m (setMutex k m fun x => { x with hold := x.hold - 1 }, .eok)
  | free (h : Frees k t m) (hlist : k.queue (.mutex m) = []) :
      Released k t m
        (setMutex (changePriority k t (k.mutex m).originalPriority) m fun x =>
          { value := x.value + 1, owner := none, originalPriority := 0xff, hold := x.hold - 1 },
          .eok)
  | handover (u : ThreadId) (list : List ThreadId) (h : Frees k t m)
      (hlist : k.queue (.mutex m) = u :: list) :
      Released k t m
        (handedOver (setMutex (changePriority k t (k.mutex m).originalPriority) m fun x =>
          { x with
            owner := some u
            originalPriority := (k.threads u).currentPriority
            hold := x.hold - 1 + 1 }) m u list, .eok)

section Release

variable {k : Kernel} {t : ThreadId} {m : MutexId} {count : ThreadId → Nat}

private theorem resumeFirst_eq (u : ThreadId) (list : List ThreadId)
    (hlist : k.queue (.mutex m) = u :: list) (hsusp : (k.threads u).suspended = true) :
    resumeFirst k (.mutex m) = handedOver k m u list := by
  rw [resumeFirst, hlist, ipcListResume, rtThreadResume, hsusp]
  simp [handedOver]

/-- The priority is set back, whether or not it differs. -/
theorem restore_eq {f : RtMutex → RtMutex} {p : Nat} :
    (if p ≠ ((setMutex k m f).threads t).currentPriority
      then changePriority (setMutex k m f) t p else setMutex k m f) =
      setMutex (changePriority k t p) m f := by
  split
  · rfl
  · rename_i heq
    have hsame : modify k.threads t (fun x => { x with currentPriority := p }) = k.threads := by
      rw [not_not.mp heq]
      exact Function.update_eq_self t k.threads
    rw [changePriority, hsame]

theorem release_spec (h : MutexOk (k.mutex m) (k.queue (.mutex m)) count)
    (hsusp : ∀ u ∈ k.queue (.mutex m), (k.threads u).suspended = true) :
    Released k t m (rtMutexRelease k t m) := by
  rw [rtMutexRelease]
  by_cases howner : (k.mutex m).owner = some t
  · rw [if_neg (not_not.mpr howner)]
    cases h with
    | free hnone hvalue hhold hlist hcount =>
        rw [hnone] at howner
        cases howner
    | owned o hsome hvalue hhold hlist hcount =>
        have ho : o = t := Option.some.inj (hsome.symm.trans howner)
        subst ho
        simp only [setMutex_self]
        by_cases hone : (k.mutex m).hold = 1
        · have hzero : (k.mutex m).hold - 1 = 0 := by
            rw [hone]
            decide
          have hlt : (k.mutex m).hold - 1 < mutexHoldMax := by
            rw [hone]
            decide
          have hvalue' : (k.mutex m).value < mutexValueMax := by
            rw [hvalue]
            decide
          simp only [if_pos hzero, restore_eq, setMutex_queue, changePriority_queue]
          cases hcase : k.queue (.mutex m) with
          | nil =>
              simp only [setMutex_self, setMutex_setMutex, changePriority_mutex, if_pos hvalue']
              exact Released.free ⟨howner, hone⟩ hcase
          | cons u list =>
              have hmem : u ∈ k.queue (.mutex m) := by
                rw [hcase]
                exact List.mem_cons_self ..
              have hne : u ≠ o := fun heq => hlist (heq ▸ hmem)
              have hpriority : ((changePriority k o (k.mutex m).originalPriority).threads u) =
                  k.threads u := changePriority_of_ne hne
              simp only [setMutex_self, setMutex_setMutex, changePriority_mutex, if_pos hlt,
                setMutex_threads, hpriority]
              rw [resumeFirst_eq u list]
              · exact Released.handover u list ⟨howner, hone⟩ hcase
              · exact hcase
              · rw [setMutex_threads, hpriority]
                exact hsusp u hmem
        · have hmore : ¬(k.mutex m).hold - 1 = 0 := by bv_omega
          rw [if_neg hmore]
          exact Released.again howner (by bv_omega)
  · rw [if_pos howner]
    exact Released.foreign howner

end Release

/-! ## The invariant -/

/-- The list a thread waits in. -/
def queueOf : Place → Option Queue
  | .waiting q => some q
  | _ => none

/-- The suspended threads are in the lists they wait in, and a thread that has been resumed has
its timer off. -/
structure Waits (k : Kernel) (place : ThreadId → Place) : Prop where
  queues : Queues k.threads k.queue fun t => queueOf (place t)
  timers : ∀ t, place t ≠ .running → (k.threads t).suspended = false → (k.threads t).timer = false

section Waits

variable {k k' : Kernel} {place place' : ThreadId → Place} {t : ThreadId} {q : Queue}

theorem Waits.congr (h : Waits k place) (hqueue : k'.queue = k.queue)
    (heq : ∀ u, (k'.threads u).suspended = (k.threads u).suspended ∧
      (k'.threads u).timer = (k.threads u).timer) : Waits k' place := by
  refine ⟨?_, fun u hplace hsusp => ?_⟩
  · rw [hqueue]
    exact h.queues.congr fun u => (heq u).1
  · rw [(heq u).1] at hsusp
    rw [(heq u).2]
    exact h.timers u hplace hsusp

theorem Waits.setError (h : Waits k place) (t : ThreadId) (e : Err) :
    Waits { k with threads := setError k.threads t e } place := by
  refine h.congr rfl fun u => ?_
  by_cases hu : u = t
  · subst hu
    show (Ipc.setError k.threads u e u).suspended = _ ∧ (Ipc.setError k.threads u e u).timer = _
    rw [setError_self]
    exact ⟨rfl, rfl⟩
  · show (Ipc.setError k.threads t e u).suspended = _ ∧ (Ipc.setError k.threads t e u).timer = _
    rw [setError_of_ne e hu]
    exact ⟨rfl, rfl⟩

/-- A thread that waits in no list changes. -/
theorem Waits.change (h : Waits k place) (hplace : queueOf (place t) = none)
    (hqueue : k'.queue = k.queue) (hne : ∀ u, u ≠ t → k'.threads u = k.threads u)
    (hpne : ∀ u, u ≠ t → place' u = place u) (hpt : queueOf (place' t) = none)
    (htimer : place' t ≠ .running → (k'.threads t).suspended = false →
      (k'.threads t).timer = false) : Waits k' place' := by
  refine ⟨?_, ?_⟩
  · rw [hqueue]
    refine fun i => (h.queues.change hplace hne i).congr fun u => ?_
    by_cases hu : u = t
    · simp [hu, hplace, hpt]
    · simp only [hpne u hu]
  · refine forall_of_ne t h.timers (fun u hu hold => ?_) htimer
    rwa [hpne u hu, hne u hu]

theorem Waits.suspended (h : Waits k place) (hplace : place t = .running)
    (hrun : (k.threads t).suspended = false) (q : Queue) (b : Bool) :
    Waits (suspended k t q b) (Function.update place t (.waiting q)) := by
  refine ⟨?_, ?_⟩
  · have hside : queueOf (place t) = none := by
      rw [hplace]
      rfl
    have hself : ((Mutex.suspended k t q b).threads t).suspended = true := by rw [suspended_self]
    exact h.queues.block hside hrun (fun u hu => suspended_of_ne hu) hself
      (fun u hu => by simp only [Function.update_of_ne hu])
      (by simp only [Function.update_self, queueOf])
  · refine forall_of_ne t h.timers (fun u hu hold => ?_) fun _ hsusp => ?_
    · rwa [Function.update_of_ne hu, suspended_of_ne hu]
    · rw [suspended_self] at hsusp
      cases hsusp

/-- A thread is resumed and leaves the list it waits in. -/
theorem Waits.remove (h : Waits k place) (hside : queueOf (place t) = some q) :
    Waits
      { k with
        threads := wake k.threads t
        queue := Function.update k.queue q ((k.queue q).erase t) } place := by
  have hself : (wake k.threads t t).suspended = false := by rw [wake_self]
  refine ⟨h.queues.remove hside (fun u hu => wake_of_ne hu) hself, ?_⟩
  refine forall_of_ne t h.timers (fun u hu hold => ?_) fun _ _ => ?_
  · show place u ≠ .running → (wake k.threads t u).suspended = false →
      (wake k.threads t u).timer = false
    rwa [wake_of_ne hu]
  · show (wake k.threads t t).timer = false
    rw [wake_self]

/-- The first thread of a list is resumed. -/
theorem Waits.resume {list : List ThreadId} (h : Waits k place) (hqueue : k.queue q = t :: list) :
    Waits { k with threads := wake k.threads t, queue := Function.update k.queue q list }
      place := by
  have hmem : t ∈ k.queue q := by
    rw [hqueue]
    exact List.mem_cons_self ..
  have hremove := h.remove (((h.queues q).mem_iff t).mp hmem).1
  rwa [hqueue, List.erase_cons_head] at hremove

end Waits

structure Inv (s : MutexSys) : Prop where
  mutexes : ∀ m, MutexOk (s.kernel.mutex m) (s.kernel.queue (.mutex m)) (s.count m)
  waits : Waits s.kernel s.place

section MutexOk

variable {x : RtMutex} {list list' : List ThreadId} {count : ThreadId → Nat} {t u : ThreadId}

theorem MutexOk.of_owner (h : MutexOk x list count) (howner : x.owner = some t) :
    x.value = 0 ∧ 1 ≤ x.hold ∧ t ∉ list ∧ ∀ u, count u = if u = t then x.hold.toNat else 0 := by
  cases h with
  | free hnone =>
      rw [hnone] at howner
      cases howner
  | owned o hsome hvalue hhold hlist hcount =>
      have ho : o = t := Option.some.inj (hsome.symm.trans howner)
      subst ho
      exact ⟨hvalue, hhold, hlist, hcount⟩

theorem MutexOk.of_free (h : MutexOk x list count) (howner : x.owner = none) :
    x.value = 1 ∧ x.hold = 0 ∧ list = [] ∧ ∀ u, count u = 0 := by
  cases h with
  | free hnone hvalue hhold hlist hcount => exact ⟨hvalue, hhold, hlist, hcount⟩
  | owned o hsome =>
      rw [hsome] at howner
      cases howner

theorem MutexOk.hold_eq (h : MutexOk x list count) (howner : x.owner = some t) :
    count t = x.hold.toNat := by
  obtain ⟨-, -, -, hcount⟩ := h.of_owner howner
  rw [hcount, if_pos rfl]

theorem MutexOk.sublist (h : MutexOk x list count) (hsub : list'.Sublist list) :
    MutexOk x list' count := by
  cases h with
  | free howner hvalue hhold hlist hcount =>
      rw [hlist] at hsub
      exact MutexOk.free howner hvalue hhold (List.sublist_nil.mp hsub) hcount
  | owned o howner hvalue hhold hlist hcount =>
      exact MutexOk.owned o howner hvalue hhold (fun hmem => hlist (hsub.subset hmem)) hcount

/-- A thread other than the owner begins to wait. -/
theorem MutexOk.insert (h : MutexOk x list count) (howner : x.owner = some u) (hne : u ≠ t)
    {us : Threads} {flag : Flag} : MutexOk x (listInsert us list t flag) count := by
  obtain ⟨hvalue, hhold, hlist, hcount⟩ := h.of_owner howner
  refine MutexOk.owned u howner hvalue hhold (fun hmem => ?_) hcount
  rcases mem_listInsert.mp hmem with heq | hmem
  · exact hne heq
  · exact hlist hmem

/-- The owner takes the mutex again. -/
theorem MutexOk.again (h : MutexOk x list count) (howner : x.owner = some t)
    (hmax : x.hold < mutexHoldMax) :
    MutexOk { x with hold := x.hold + 1 } list (Function.update count t (count t + 1)) := by
  rw [mutexHoldMax] at hmax
  obtain ⟨hvalue, hhold, hlist, hcount⟩ := h.of_owner howner
  have hadd : (x.hold + 1).toNat = x.hold.toNat + 1 := by bv_omega
  refine MutexOk.owned t howner hvalue (by show 1 ≤ x.hold + 1; bv_omega) hlist fun u => ?_
  by_cases hu : u = t
  · rw [hu, Function.update_self, if_pos rfl, hcount, if_pos rfl]
    exact hadd.symm
  · rw [Function.update_of_ne hu, hcount, if_neg hu, if_neg hu]

/-- A thread takes a free mutex. -/
theorem MutexOk.first (h : MutexOk x list count) (howner : x.owner = none) (p : Nat) :
    MutexOk
      { value := x.value - 1, owner := some t, originalPriority := p, hold := x.hold + 1 } list
      (Function.update count t (count t + 1)) := by
  obtain ⟨hvalue, hhold, hlist, hcount⟩ := h.of_free howner
  refine MutexOk.owned t rfl ?_ ?_ ?_ fun u => ?_
  · show x.value - 1 = 0
    rw [hvalue]
    decide
  · show 1 ≤ x.hold + 1
    rw [hhold]
    decide
  · rw [hlist]
    exact List.not_mem_nil
  · by_cases hu : u = t
    · rw [hu, Function.update_self, if_pos rfl, hcount, hhold]
      rfl
    · rw [Function.update_of_ne hu, hcount, if_neg hu]

/-- The owner releases the mutex, but not for the last time. -/
theorem MutexOk.release (h : MutexOk x list count) (howner : x.owner = some t)
    (hmore : 1 < x.hold) :
    MutexOk { x with hold := x.hold - 1 } list (Function.update count t (count t - 1)) := by
  obtain ⟨hvalue, hhold, hlist, hcount⟩ := h.of_owner howner
  have hsub : (x.hold - 1).toNat = x.hold.toNat - 1 := by bv_omega
  refine MutexOk.owned t howner hvalue (by show 1 ≤ x.hold - 1; bv_omega) hlist fun u => ?_
  by_cases hu : u = t
  · rw [hu, Function.update_self, if_pos rfl, hcount, if_pos rfl]
    exact hsub.symm
  · rw [Function.update_of_ne hu, hcount, if_neg hu, if_neg hu]

/-- The owner releases the mutex for the last time, and nobody waits. -/
theorem MutexOk.freed (h : MutexOk x list count) (howner : x.owner = some t) (hone : x.hold = 1)
    (p : Nat) (hnil : list = []) :
    MutexOk { value := x.value + 1, owner := none, originalPriority := p, hold := x.hold - 1 } list
      (Function.update count t (count t - 1)) := by
  obtain ⟨hvalue, hhold, hlist, hcount⟩ := h.of_owner howner
  refine MutexOk.free rfl ?_ ?_ hnil fun u => ?_
  · show x.value + 1 = 1
    rw [hvalue]
    decide
  · show x.hold - 1 = 0
    rw [hone]
    decide
  · by_cases hu : u = t
    · rw [hu, Function.update_self, hcount, if_pos rfl, hone]
      rfl
    · rw [Function.update_of_ne hu, hcount, if_neg hu]

/-- The owner releases the mutex for the last time, and the first waiting thread gets it. -/
theorem MutexOk.handover (h : MutexOk x (u :: list) count) (howner : x.owner = some t)
    (hone : x.hold = 1) (hu : u ∉ list) (p : Nat) :
    MutexOk { x with owner := some u, originalPriority := p, hold := x.hold - 1 + 1 } list
      (Function.update (Function.update count t (count t - 1)) u
        (Function.update count t (count t - 1) u + 1)) := by
  obtain ⟨hvalue, hhold, hlist, hcount⟩ := h.of_owner howner
  have hne : u ≠ t := fun heq => hlist (heq ▸ List.mem_cons_self ..)
  refine MutexOk.owned u rfl hvalue ?_ hu fun v => ?_
  · show 1 ≤ x.hold - 1 + 1
    rw [hone]
    decide
  · by_cases hv : v = u
    · rw [hv, Function.update_self, Function.update_of_ne hne, hcount, if_neg hne, if_pos rfl,
        hone]
      rfl
    · rw [Function.update_of_ne hv, if_neg hv]
      by_cases hvt : v = t
      · rw [hvt, Function.update_self, hcount, if_pos rfl, hone]
        rfl
      · rw [Function.update_of_ne hvt, hcount, if_neg hvt]

end MutexOk

end RtHypervisor.Ports.Mutex
