import Mathlib.Tactic
import RtHypervisor.Ports.MutexInv

/-!
# Who owns a mutex

`step_spec` says once what each event does: it keeps the invariant, and its effect on owners,
priorities and lists is one of five.  `mutex_owned` collects what this means for ownership.
-/

namespace RtHypervisor.Ports.Mutex

open RtHypervisor.Verified.Run
open RtHypervisor.Ports.Ipc

def prioOf (s : MutexSys) (t : ThreadId) : Nat := (s.kernel.threads t).currentPriority

def ownerOf (s : MutexSys) (m : MutexId) : Option ThreadId := (s.kernel.mutex m).owner

/-- Neither a call that blocks on a mutex nor a last release. -/
def Calm (k : Kernel) : Event → Prop
  | .take t m timeout => ∀ o, ¬Blocks k t m timeout o
  | .release t m => ¬Frees k t m
  | _ => True

/-- No priority changes, and threads only leave lists. -/
structure Quiet (s s' : MutexSys) : Prop where
  priority : ∀ t, prioOf s' t = prioOf s t
  queue : ∀ q, (s'.kernel.queue q).Sublist (s.kernel.queue q)
  flag : s'.kernel.flag = s.kernel.flag
  arrival : ∀ q, ∀ t ∈ s'.kernel.queue q, s'.arrival t = s.arrival t
  clock : s.clock ≤ s'.clock

/-- A thread that ran begins to wait. -/
structure Joins (s s' : MutexSys) (t : ThreadId) (q : Queue) : Prop where
  fresh : ∀ i, t ∉ s.kernel.queue i
  owner : ownerOf s' = ownerOf s
  queue : s'.kernel.queue = Function.update s.kernel.queue q
    (listInsert s'.kernel.threads (s.kernel.queue q) t (flagOf s.kernel q))
  flag : s'.kernel.flag = s.kernel.flag
  arrival : s'.arrival = Function.update s.arrival t s.clock
  clock : s'.clock = s.clock + 1

/-- The owner, which runs, releases a mutex for the last time. -/
structure Restores (s s' : MutexSys) (t : ThreadId) (m : MutexId) : Prop where
  fresh : ∀ i, t ∉ s.kernel.queue i
  priority : ∀ u, prioOf s' u = if u = t then (s.kernel.mutex m).originalPriority else prioOf s u
  owner : ownerOf s' = Function.update (ownerOf s) m (s.kernel.queue (.mutex m)).head?
  queue : s'.kernel.queue =
    Function.update s.kernel.queue (.mutex m) (s.kernel.queue (.mutex m)).tail
  flag : s'.kernel.flag = s.kernel.flag
  arrival : s'.arrival = s.arrival
  clock : s'.clock = s.clock

inductive Effect (s s' : MutexSys) : Event → Prop
  | quiet {e : Event} (hcalm : Calm s.kernel e) (h : Quiet s s') (howner : ownerOf s' = ownerOf s) :
      Effect s s' e
  | takes {t : ThreadId} {m : MutexId} {timeout : BitVec 32}
      (hcalm : Calm s.kernel (.take t m timeout)) (h : Quiet s s') (hfree : ownerOf s m = none)
      (hlist : s.kernel.queue (.mutex m) = [])
      (howner : ownerOf s' = Function.update (ownerOf s) m (some t)) :
      Effect s s' (.take t m timeout)
  | waits {t : ThreadId} {o : Nat} {timeout : BitVec 32} (h : Joins s s' t (.object o))
      (hprio : ∀ u, prioOf s' u = prioOf s u) : Effect s s' (.wait t o timeout)
  | blocks {t : ThreadId} {m : MutexId} {timeout : BitVec 32} {o : ThreadId}
      (hblocks : Blocks s.kernel t m timeout o) (h : Joins s s' t (.mutex m))
      (hprio : ∀ u, prioOf s' u = if u = o then min (prioOf s o) (prioOf s t) else prioOf s u) :
      Effect s s' (.take t m timeout)
  | frees {t : ThreadId} {m : MutexId} (hfrees : Frees s.kernel t m) (h : Restores s s' t m) :
      Effect s s' (.release t m)

section Steps

variable {s s' : MutexSys} {t u : ThreadId} {m : MutexId} {e : Err}

private theorem setError_priority {ts : Threads} :
    (setError ts t e u).currentPriority = (ts u).currentPriority := by
  by_cases hu : u = t
  · rw [hu, setError_self]
  · rw [setError_of_ne e hu]

private theorem wake_priority {ts : Threads} :
    (wake ts t u).currentPriority = (ts u).currentPriority := by
  by_cases hu : u = t
  · rw [hu, wake_self]
  · rw [wake_of_ne hu]

/-- Only threads change, and not in priority. -/
theorem Quiet.of_threads (hprio : ∀ u, prioOf s' u = prioOf s u)
    (hqueue : s'.kernel.queue = s.kernel.queue)
    (hflag : s'.kernel.flag = s.kernel.flag) (harrival : s'.arrival = s.arrival)
    (hclock : s'.clock = s.clock) : Quiet s s' := by
  refine ⟨hprio, fun q => ?_, hflag, fun q u _ => ?_, hclock.ge⟩
  · rw [hqueue]
  · rw [harrival]

/-- One mutex changes. -/
theorem Inv.update {x : RtMutex} {count : ThreadId → Nat} (hs : Inv s)
    (hmutex : s'.kernel.mutex = Function.update s.kernel.mutex m x)
    (hqueue : ∀ m', m' ≠ m → s'.kernel.queue (.mutex m') = s.kernel.queue (.mutex m'))
    (hcount : s'.count = Function.update s.count m count)
    (hm : MutexOk x (s'.kernel.queue (.mutex m)) count) (hwaits : Waits s'.kernel s'.place) :
    Inv s' := by
  refine ⟨?_, hwaits⟩
  rw [hmutex, hcount]
  refine forall_of_ne m hs.mutexes (fun m' hm hold => ?_) ?_
  · rwa [Function.update_of_ne hm, Function.update_of_ne hm, hqueue m' hm]
  · rwa [Function.update_self, Function.update_self]

/-- No mutex changes, and threads of no mutex but leave its list. -/
theorem Inv.of_sublist (hs : Inv s) (hmutex : s'.kernel.mutex = s.kernel.mutex)
    (hqueue : ∀ m, (s'.kernel.queue (.mutex m)).Sublist (s.kernel.queue (.mutex m)))
    (hcount : s'.count = s.count) (hwaits : Waits s'.kernel s'.place) : Inv s' := by
  refine ⟨fun m => ?_, hwaits⟩
  rw [hmutex, hcount]
  exact (hs.mutexes m).sublist (hqueue m)

/-- The running thread is in no list. -/
theorem Inv.fresh (hs : Inv s) (hrun : (s.kernel.threads t).suspended = false) (i : Queue) :
    t ∉ s.kernel.queue i :=
  (hs.waits.queues i).not_mem hrun

private theorem ownerOf_update {x : RtMutex} {o : Option ThreadId}
    (h : s'.kernel.mutex = Function.update s.kernel.mutex m x) (hx : x.owner = o) :
    ownerOf s' = Function.update (ownerOf s) m o := by
  funext m'
  rw [ownerOf, h, ← hx]
  by_cases hm : m' = m
  · rw [hm, Function.update_self, Function.update_self]
  · rw [Function.update_of_ne hm, Function.update_of_ne hm, ownerOf]

private theorem owner_update {x : RtMutex}
    (h : s'.kernel.mutex = Function.update s.kernel.mutex m x)
    (hx : x.owner = (s.kernel.mutex m).owner) : ownerOf s' = ownerOf s := by
  rw [ownerOf_update h hx]
  exact Function.update_eq_self m (ownerOf s)

private theorem raised_waits {place : ThreadId → Place} {k : Kernel} {o : ThreadId}
    (h : Waits k place) :
    Waits (raised k t o) place := by
  refine (h.setError t .eok).congr rfl fun u => ?_
  show (boost _ o _ u).suspended = _ ∧ (boost _ o _ u).timer = _
  rw [boost_suspended, boost_timer]
  exact ⟨rfl, rfl⟩

private theorem raised_priority {k : Kernel} {o : ThreadId} :
    ((raised k t o).threads u).currentPriority =
      if u = o then min (k.threads o).currentPriority (k.threads t).currentPriority
      else (k.threads u).currentPriority := by
  show (boost (setError k.threads t .eok) o _ u).currentPriority = _
  by_cases hu : u = o
  · rw [hu, if_pos rfl, boost_priority, setError_priority]
  · rw [if_neg hu, boost_of_ne hu, setError_priority]

private theorem suspended_priority {k : Kernel} {q : Queue} {b : Bool} :
    ((suspended k t q b).threads u).currentPriority = (k.threads u).currentPriority := by
  by_cases hu : u = t
  · rw [hu, suspended_self]
  · rw [suspended_of_ne hu]

private theorem take_step (hs : Inv s) (hplace : s.place t = .running)
    (hrun : (s.kernel.threads t).suspended = false) (timeout : BitVec 32) :
    Meets (· = .assertion) (fun s' => Inv s' ∧ Effect s s' (.take t m timeout))
      (step s (.take t m timeout)) := by
  have hcalm : ∀ o, (s.kernel.mutex m).owner ≠ some o ∨ o = t ∨ timeout = 0 →
      ¬Blocks s.kernel t m timeout o := by
    rintro o h ⟨howner, hne, hzero⟩
    rcases h with h | h | h
    · exact h howner
    · exact hne h
    · exact hzero h
  refine (take_meets (hs.mutexes m) hrun timeout).bind ?_
  rintro ⟨k', r⟩ htook
  have hwaits := hs.waits.setError t .eok
  cases htook with
  | again howner hmax =>
      refine ⟨hs.update rfl (fun _ _ => rfl) rfl ((hs.mutexes m).again howner hmax)
        (hwaits.congr rfl fun _ => ⟨rfl, rfl⟩), Effect.quiet (fun o => hcalm o ?_)
        (Quiet.of_threads (fun u => setError_priority) rfl rfl rfl rfl) (owner_update rfl rfl)⟩
      rw [howner]
      by_cases ho : o = t
      · exact Or.inr (Or.inl ho)
      · exact Or.inl fun h => ho (Option.some.inj h).symm
  | full howner hmax =>
      refine ⟨hs.of_sublist rfl (fun _ => List.Sublist.refl _) rfl hwaits,
        Effect.quiet (fun o => hcalm o ?_)
          (Quiet.of_threads (fun u => setError_priority) rfl rfl rfl rfl) rfl⟩
      rw [howner]
      by_cases ho : o = t
      · exact Or.inr (Or.inl ho)
      · exact Or.inl fun h => ho (Option.some.inj h).symm
  | first howner =>
      obtain ⟨-, -, hlist, -⟩ := (hs.mutexes m).of_free howner
      refine ⟨hs.update rfl (fun _ _ => rfl) rfl ((hs.mutexes m).first howner _)
        (hwaits.congr rfl fun _ => ⟨rfl, rfl⟩), Effect.takes (fun o => hcalm o (Or.inl ?_))
        (Quiet.of_threads (fun u => setError_priority) rfl rfl rfl rfl) howner hlist
        (ownerOf_update rfl rfl)⟩
      rw [howner]
      simp
  | refused o howner hne hzero =>
      exact ⟨hs.of_sublist rfl (fun _ => List.Sublist.refl _) rfl (hs.waits.setError t .etimeout),
        Effect.quiet (fun o => hcalm o (Or.inr (Or.inr hzero)))
          (Quiet.of_threads (fun u => setError_priority) rfl rfl rfl rfl) rfl⟩
  | blocked o b h =>
      have hrun' : ((raised s.kernel t o).threads t).suspended = false := by
        show (boost (setError s.kernel.threads t .eok) o _ t).suspended = false
        rw [boost_suspended, setError_self]
        exact hrun
      have hqueue : ∀ m', MutexOk (s.kernel.mutex m')
          ((suspended (raised s.kernel t o) t (.mutex m) b).queue (.mutex m')) (s.count m') := by
        refine forall_of_ne m hs.mutexes (fun m' hm hold => ?_) ?_
        · have hne : Queue.mutex m' ≠ .mutex m := fun heq => hm (Queue.mutex.inj heq)
          rwa [suspended_queue, Function.update_of_ne hne]
        · rw [suspended_queue, Function.update_self]
          exact (hs.mutexes m).insert h.1 h.2.1
      refine ⟨⟨hqueue, (raised_waits hs.waits).suspended hplace hrun' (.mutex m) b⟩,
        Effect.blocks h ⟨hs.fresh hrun, rfl, rfl, rfl, rfl, rfl⟩ fun u => ?_⟩
      show ((suspended (raised s.kernel t o) t (.mutex m) b).threads u).currentPriority = _
      rw [suspended_priority, raised_priority]
      rfl

private theorem changePriority_priority {k : Kernel} {p : Nat} :
    ((changePriority k t p).threads u).currentPriority =
      if u = t then p else (k.threads u).currentPriority := by
  by_cases hu : u = t
  · rw [hu, if_pos rfl, changePriority_self]
  · rw [if_neg hu, changePriority_of_ne hu]

private theorem changePriority_waits {place : ThreadId → Place} {k : Kernel} {p : Nat}
    (h : Waits k place) : Waits (changePriority k t p) place := by
  refine h.congr rfl fun u => ?_
  by_cases hu : u = t
  · rw [hu, changePriority_self]
    exact ⟨rfl, rfl⟩
  · rw [changePriority_of_ne hu]
    exact ⟨rfl, rfl⟩

private theorem countRelease_of_ne (h : s.count m t ≠ 1) :
    countRelease s t m = Function.update s.count m
      (Function.update (s.count m) t (s.count m t - 1)) := by
  rw [countRelease, if_neg h]
  rfl

private theorem countRelease_nil (h : s.kernel.queue (.mutex m) = []) :
    countRelease s t m = Function.update s.count m
      (Function.update (s.count m) t (s.count m t - 1)) := by
  rw [countRelease, h]
  split
  · rfl
  · rfl

private theorem countRelease_cons {list : List ThreadId} (h : s.count m t = 1)
    (hlist : s.kernel.queue (.mutex m) = u :: list) :
    countRelease s t m =
      let count := Function.update (s.count m) t (s.count m t - 1)
      Function.update s.count m (Function.update count u (count u + 1)) := by
  rw [countRelease, if_pos h, hlist]
  simp only [setCount, Function.update_self, Function.update_idem]

private theorem release_step (hs : Inv s) (hrun : (s.kernel.threads t).suspended = false) :
    Meets (· = .assertion) (fun s' => Inv s' ∧ Effect s s' (.release t m))
      (step s (.release t m)) := by
  have hsusp : ∀ u ∈ s.kernel.queue (.mutex m), (s.kernel.threads u).suspended = true :=
    fun u hu => (((hs.waits.queues (.mutex m)).mem_iff u).mp hu).2
  have hreleased := release_spec (t := t) (hs.mutexes m) hsusp
  rw [step]
  revert hreleased
  generalize rtMutexRelease s.kernel t m = out
  intro hreleased
  cases hreleased with
  | foreign hne =>
      refine ⟨hs.of_sublist rfl (fun _ => List.Sublist.refl _) rfl (hs.waits.setError t .error),
        Effect.quiet (fun h => hne h.1)
          (Quiet.of_threads (fun u => setError_priority) rfl rfl rfl rfl) rfl⟩
  | again howner hhold =>
      have hcount : s.count m t ≠ 1 := by
        rw [(hs.mutexes m).hold_eq howner]
        bv_omega
      refine ⟨hs.update rfl (fun _ _ => rfl) (countRelease_of_ne hcount)
        ((hs.mutexes m).release howner hhold) (hs.waits.congr rfl fun _ => ⟨rfl, rfl⟩),
        Effect.quiet (fun h => ?_)
          (Quiet.of_threads (fun _ => rfl) rfl rfl rfl rfl) (owner_update rfl rfl)⟩
      have hone := h.2
      bv_omega
  | free h hlist =>
      have hok := (hs.mutexes m).freed h.1 h.2 0xff
      refine ⟨hs.update rfl (fun _ _ => rfl) (countRelease_nil hlist) (hok hlist)
        ((changePriority_waits hs.waits).congr rfl fun _ => ⟨rfl, rfl⟩), Effect.frees h
        ⟨hs.fresh hrun, fun u => changePriority_priority, ?_, ?_, rfl, rfl, rfl⟩⟩
      · rw [hlist]
        exact ownerOf_update rfl rfl
      · rw [hlist]
        exact (Function.update_eq_self_iff.mpr hlist.symm).symm
  | handover u list h hlist =>
      have hnodup := (hs.waits.queues (.mutex m)).nodup
      have hok := hs.mutexes m
      rw [hlist] at hnodup hok
      have hone : s.count m t = 1 := by
        rw [(hs.mutexes m).hold_eq h.1, h.2]
        rfl
      have hwaits := (changePriority_waits (t := t)
        (p := (s.kernel.mutex m).originalPriority) hs.waits).resume (q := .mutex m) hlist
      refine ⟨hs.update rfl (fun m' hm => ?_) (countRelease_cons hone hlist) ?_
        (hwaits.congr rfl fun _ => ⟨rfl, rfl⟩), Effect.frees h
        ⟨hs.fresh hrun, fun v => ?_, ?_, ?_, rfl, rfl, rfl⟩⟩
      · exact Function.update_of_ne (fun heq => hm (Queue.mutex.inj heq)) ..
      · show MutexOk _ (Function.update s.kernel.queue (.mutex m) list (.mutex m)) _
        rw [Function.update_self]
        exact hok.handover h.1 h.2 (List.nodup_cons.mp hnodup).1 _
      · exact wake_priority.trans changePriority_priority
      · rw [hlist]
        exact ownerOf_update rfl rfl
      · rw [hlist]
        rfl

/-- Threads change, but not in priority, and leave lists. -/
theorem Inv.quiet {k' : Kernel} {e : Event} (hs : Inv s) (hcalm : Calm s.kernel e)
    (hprio : ∀ u, (k'.threads u).currentPriority = (s.kernel.threads u).currentPriority)
    (hmutex : k'.mutex = s.kernel.mutex) (hflag : k'.flag = s.kernel.flag)
    (hqueue : ∀ q, (k'.queue q).Sublist (s.kernel.queue q)) (hwaits : Waits k' s.place) :
    Inv { s with kernel := k' } ∧ Effect s { s with kernel := k' } e := by
  refine ⟨hs.of_sublist hmutex (fun m => hqueue _) rfl hwaits, Effect.quiet hcalm
    ⟨hprio, hqueue, hflag, fun _ _ _ => rfl, le_refl _⟩ ?_⟩
  funext m
  show (k'.mutex m).owner = _
  rw [hmutex]
  rfl

theorem update_sublist {queue : Queue → List ThreadId} {q : Queue} {list : List ThreadId}
    (h : list.Sublist (queue q)) (i : Queue) :
    (Function.update queue q list i).Sublist (queue i) := by
  by_cases hi : i = q
  · subst hi
    rwa [Function.update_self]
  · rw [Function.update_of_ne hi]

private theorem resume_step (hs : Inv s) (o : Nat) :
    Meets (· = .assertion) (fun s' => Inv s' ∧ Effect s s' (.resume o)) (step s (.resume o)) := by
  rw [step, resumeFirst]
  cases hlist : s.kernel.queue (.object o) with
  | nil =>
      refine hs.quiet trivial (fun _ => rfl) rfl rfl (update_sublist (List.nil_sublist _)) ?_
      refine hs.waits.congr ?_ fun _ => ⟨rfl, rfl⟩
      exact Function.update_eq_self_iff.mpr hlist.symm
  | cons t list =>
      have hparked := hs.waits.queues (.object o)
      rw [hlist] at hparked
      rw [hparked.resume_eq]
      refine hs.quiet trivial (fun _ => wake_priority) rfl rfl (update_sublist ?_)
        (hs.waits.resume hlist)
      rw [hlist]
      exact List.sublist_cons_self t list

/-- What is written back is what was read. -/
theorem Waits.update_self (h : Waits k place) (q : Queue) {list : List ThreadId}
    (hlist : k.queue q = list) :
    Waits { k with queue := Function.update k.queue q list } place :=
  h.congr (Function.update_eq_self_iff.mpr hlist.symm) fun _ => ⟨rfl, rfl⟩

private theorem wake_step (hs : Inv s) (o : Nat) (hplace : s.place u = .waiting (.object o)) :
    Meets (· = .assertion) (fun s' => Inv s' ∧ Effect s s' (.wake o u)) (step s (.wake o u)) := by
  rw [step, objectWake, rtThreadResume]
  cases hsusp : (s.kernel.threads u).suspended with
  | false =>
      exact hs.quiet trivial (fun _ => rfl) rfl rfl (update_sublist (List.Sublist.refl _))
        (hs.waits.update_self _ rfl)
  | true =>
      have hside : queueOf (s.place u) = some (.object o) := by
        rw [hplace]
        rfl
      exact hs.quiet trivial (fun _ => wake_priority) rfl rfl
        (update_sublist List.erase_sublist) (hs.waits.remove hside)

private theorem reset_step (hs : Inv s) (o : Nat) :
    Meets (· = .assertion) (fun s' => Inv s' ∧ Effect s s' (.reset o)) (step s (.reset o)) := by
  rw [step, objectReset]
  obtain ⟨threads, hall, hqueues, hin, hout⟩ := hs.waits.queues.resumeAll (.object o)
  rw [hall]
  refine hs.quiet trivial (fun u => ?_) rfl rfl (update_sublist (List.nil_sublist _))
    ⟨hqueues, fun u hplace hsusp => ?_⟩
  · show (threads u).currentPriority = _
    by_cases hu : u ∈ s.kernel.queue (.object o)
    · rw [hin u hu]
    · rw [hout u hu]
  · show (threads u).timer = false
    by_cases hu : u ∈ s.kernel.queue (.object o)
    · rw [hin u hu]
    · change (threads u).suspended = false at hsusp
      rw [hout u hu] at hsusp ⊢
      exact hs.waits.timers u hplace hsusp

private theorem wait_step (hs : Inv s) (hplace : s.place t = .running)
    (hrun : (s.kernel.threads t).suspended = false) (o : Nat) (timeout : BitVec 32) :
    Meets (· = .assertion) (fun s' => Inv s' ∧ Effect s s' (.wait t o timeout))
      (step s (.wait t o timeout)) := by
  rw [step, objectWait]
  have hrun' : (setError s.kernel.threads t .eok t).suspended = false := by
    rw [setError_self]
    exact hrun
  refine (block_suspended (k := { s.kernel with threads := setError s.kernel.threads t .eok })
    hrun' (.object o) timeout).bind ?_
  rintro k' ⟨b, rfl⟩
  refine ⟨⟨fun m => ?_, (hs.waits.setError t .eok).suspended hplace hrun' (.object o) b⟩,
    Effect.waits ⟨hs.fresh hrun, rfl, rfl, rfl, rfl, rfl⟩ fun u => ?_⟩
  · exact hs.mutexes m
  · exact suspended_priority.trans setError_priority

private theorem sleep_step (hs : Inv s) (hplace : s.place t = .running)
    (hrun : (s.kernel.threads t).suspended = false) (timeout : BitVec 32) :
    Meets (· = .assertion) (fun s' => Inv s' ∧ Effect s s' (.sleep t timeout))
      (step s (.sleep t timeout)) := by
  rw [step, sleep, rtThreadSuspend_of_running hrun]
  simp only [bind_assoc]
  refine startTimer_meets.bind ?_
  rintro threads ⟨b, rfl⟩
  rw [modify_modify]
  have hside : queueOf (s.place t) = none := by
    rw [hplace]
    rfl
  refine ⟨hs.of_sublist rfl (fun _ => List.Sublist.refl _) rfl
    (hs.waits.change (t := t) hside rfl (fun u hu => Function.update_of_ne hu ..)
      (fun u hu => Function.update_of_ne hu ..) ?_ fun _ hsusp => ?_),
    Effect.quiet trivial ⟨fun u => ?_, fun _ => List.Sublist.refl _, rfl,
      fun q u hu => ?_, Nat.le_succ _⟩ rfl⟩
  · show queueOf (Function.update s.place t .asleep t) = none
    rw [Function.update_self]
    rfl
  · change (modify s.kernel.threads t _ t).suspended = false at hsusp
    rw [modify_self] at hsusp
    cases hsusp
  · show (modify s.kernel.threads t _ u).currentPriority = _
    by_cases hu : u = t
    · rw [hu, modify_self]
      rfl
    · rw [modify_of_ne hu]
      rfl
  · have hne : u ≠ t := fun heq => hs.fresh hrun q (heq ▸ hu)
    exact Function.update_of_ne hne ..

private theorem awake_step (hs : Inv s) (hplace : s.place u = .asleep) :
    Meets (· = .assertion) (fun s' => Inv s' ∧ Effect s s' (.awake u)) (step s (.awake u)) := by
  rw [step, rtThreadResume]
  have hside : queueOf (s.place u) = none := by
    rw [hplace]
    rfl
  cases hsusp : (s.kernel.threads u).suspended with
  | false =>
      exact hs.quiet trivial (fun _ => rfl) rfl rfl (fun _ => List.Sublist.refl _) hs.waits
  | true =>
      refine hs.quiet trivial (fun _ => wake_priority) rfl rfl (fun _ => List.Sublist.refl _)
        (hs.waits.change (t := u) hside rfl (fun v hv => wake_of_ne hv) (fun _ _ => rfl) hside
          fun _ _ => ?_)
      show (wake s.kernel.threads u u).timer = false
      rw [wake_self]

private theorem timeout_step (hs : Inv s) (hplace : s.place t ≠ .running)
    (htimer : (s.kernel.threads t).timer = true) :
    Meets (· = .assertion) (fun s' => Inv s' ∧ Effect s s' (.timeout t)) (step s (.timeout t)) := by
  cases hsusp : (s.kernel.threads t).suspended with
  | false =>
      have hoff := hs.waits.timers t hplace hsusp
      rw [htimer] at hoff
      cases hoff
  | true =>
      rw [step, expire, hsusp, setError, wake, modify_modify]
      refine hs.quiet trivial (fun u => ?_) rfl rfl (fun _ => List.erase_sublist)
        ⟨hs.waits.queues.erase (fun u hu => Function.update_of_ne hu ..) ?_,
          forall_of_ne t hs.waits.timers (fun u hu hold => ?_) fun _ _ => ?_⟩
      · show (modify s.kernel.threads t _ u).currentPriority = _
        by_cases hu : u = t
        · rw [hu, modify_self]
        · rw [modify_of_ne hu]
      · simp only [modify_self]
      · show s.place u ≠ .running → (modify s.kernel.threads t _ u).suspended = false →
          (modify s.kernel.threads t _ u).timer = false
        rwa [modify_of_ne hu]
      · show (modify s.kernel.threads t _ t).timer = false
        rw [modify_self]

private theorem woken_step (hs : Inv s) (hrun : (s.kernel.threads t).suspended = false) :
    Meets (· = .assertion) (fun s' => Inv s' ∧ Effect s s' (.woken t)) (step s (.woken t)) := by
  refine ⟨hs.of_sublist rfl (fun _ => List.Sublist.refl _) rfl ⟨?_, ?_⟩, Effect.quiet trivial
    (Quiet.of_threads (fun _ => rfl) rfl rfl rfl rfl) rfl⟩
  · refine hs.waits.queues.leave hrun fun u hu => ?_
    simp only [Function.update_of_ne hu]
  · refine forall_of_ne t hs.waits.timers (fun u hu hold hplace => ?_) fun hplace => ?_
    · exact hold fun heq => hplace ((Function.update_of_ne hu ..).trans heq)
    · exact absurd (Function.update_self ..) hplace

theorem step_spec (hs : Inv s) {e : Event} (he : Enabled s e) :
    Meets (· = .assertion) (fun s' => Inv s' ∧ Effect s s' e) (step s e) := by
  cases e with
  | take t m timeout => exact take_step hs he.1 he.2 timeout
  | release t m => exact release_step hs he.2
  | wait t o timeout => exact wait_step hs he.1 he.2 o timeout
  | resume o => exact resume_step hs o
  | wake o u => exact wake_step hs o he
  | reset o => exact reset_step hs o
  | sleep t timeout => exact sleep_step hs he.1 he.2 timeout
  | awake u => exact awake_step hs he
  | timeout t => exact timeout_step hs he.1 he.2
  | woken t => exact woken_step hs he.2

end Steps

theorem boot_inv (threads : Threads) (flag : Nat → Flag) : Inv (boot threads flag) := by
  refine ⟨fun m => MutexOk.free rfl rfl rfl rfl fun _ => rfl, fun q => ?_, fun t hplace => ?_⟩
  · exact Parked.nil fun t hside => by cases hside
  · exact absurd rfl hplace

/-! ## Ownership -/

/-- Each mutex is free or owned; it changes hands at the owner's last release only, when the
first waiting thread gets it or nobody; and a release by another thread is an error. -/
structure Owned (s : MutexSys) : Prop where
  mutexes : ∀ m, MutexOk (s.kernel.mutex m) (s.kernel.queue (.mutex m)) (s.count m)
  taken : ∀ e s' m, Enabled s e → step s e = .ok s' → ownerOf s m = none →
    ownerOf s' m = none ∨ ∃ t timeout, e = .take t m timeout ∧ ownerOf s' m = some t
  released : ∀ e s' m o, Enabled s e → step s e = .ok s' → ownerOf s m = some o →
    ownerOf s' m = some o ∨
      e = .release o m ∧ s.count m o = 1 ∧ ownerOf s' m = (s.kernel.queue (.mutex m)).head?
  foreign : ∀ t m, ownerOf s m ≠ some t →
    rtMutexRelease s.kernel t m = ({ s.kernel with threads := setError s.kernel.threads t .error },
      .error)

theorem Inv.owned {s : MutexSys} (hs : Inv s) : Owned s := by
  refine ⟨hs.mutexes, fun e s' m he hstep hfree => ?_, fun e s' m o he hstep howner => ?_,
    fun t m hne => if_pos hne⟩
  · cases ((step_spec hs he).of_ok hstep).2 with
    | quiet hcalm h hsame => exact Or.inl (hsame ▸ hfree)
    | waits h hprio => exact Or.inl (h.owner ▸ hfree)
    | blocks hblocks h hprio => exact Or.inl (h.owner ▸ hfree)
    | @takes t m' timeout hcalm h hfree' hlist hupdate =>
        rw [hupdate]
        by_cases hm : m = m'
        · subst hm
          exact Or.inr ⟨t, timeout, rfl, Function.update_self ..⟩
        · rw [Function.update_of_ne hm]
          exact Or.inl hfree
    | @frees t m' hfrees h =>
        have hm : m ≠ m' := by
          rintro rfl
          rw [ownerOf, hfrees.1] at hfree
          cases hfree
        rw [h.owner, Function.update_of_ne hm]
        exact Or.inl hfree
  · cases ((step_spec hs he).of_ok hstep).2 with
    | quiet hcalm h hsame => exact Or.inl (hsame ▸ howner)
    | waits h hprio => exact Or.inl (h.owner ▸ howner)
    | blocks hblocks h hprio => exact Or.inl (h.owner ▸ howner)
    | @takes t m' timeout hcalm h hfree hlist hupdate =>
        have hm : m ≠ m' := by
          rintro rfl
          rw [hfree] at howner
          cases howner
        rw [hupdate, Function.update_of_ne hm]
        exact Or.inl howner
    | @frees t m' hfrees h =>
        rw [h.owner]
        by_cases hm : m = m'
        · subst hm
          have hto : t = o := Option.some.inj (hfrees.1.symm.trans howner)
          subst hto
          refine Or.inr ⟨rfl, ?_, Function.update_self ..⟩
          rw [(hs.mutexes m).hold_eq hfrees.1, hfrees.2]
          rfl
        · rw [Function.update_of_ne hm]
          exact Or.inl howner

private theorem reachable_inv {threads : Threads} {flag : Nat → Flag} {es : List Event}
    (hes : Guarded step Enabled (boot threads flag) es) :
    Meets (· = .assertion) Inv (run step (boot threads flag) es) :=
  run_meets (fun _ _ hs he => (step_spec hs he).mono fun _ h => h.1) (boot_inv threads flag) hes

/-- **Every run.**  Each mutex is free or owned, and its owner changes as it should; a run stops
only at a waiting time that the timer does not take. -/
theorem mutex_owned (threads : Threads) (flag : Nat → Flag) (es : List Event)
    (hes : Guarded step Enabled (boot threads flag) es) :
    Meets (· = .assertion) Owned (run step (boot threads flag) es) :=
  (reachable_inv hes).mono fun _ hs => hs.owned

/-- Thread 2 waits for the mutex of thread 1 and gets it. -/
theorem mutex_owned_handover : ∃ s,
    run step (boot (fun t => ⟨false, 20 - t, .eok, false, 0, 0⟩) fun _ => .prio)
      [.take 1 0 0, .take 2 0 5, .release 1 0, .woken 2] = .ok s ∧ Owned s := by
  have hes : Guarded step Enabled
      (boot (fun t => ⟨false, 20 - t, .eok, false, 0, 0⟩) fun _ => .prio)
      [.take 1 0 0, .take 2 0 5, .release 1 0, .woken 2] := by decide
  have howner : (run step (boot (fun t => ⟨false, 20 - t, .eok, false, 0, 0⟩) fun _ => .prio)
      [.take 1 0 0, .take 2 0 5, .release 1 0, .woken 2]).map (fun s => ownerOf s 0) =
      .ok (some 2) := by decide
  obtain ⟨s, hrun, -⟩ := exists_of_map_eq_ok howner
  exact ⟨s, hrun, (mutex_owned _ _ _ hes).of_ok hrun⟩

end RtHypervisor.Ports.Mutex
