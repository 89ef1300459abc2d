import Mathlib.Tactic
import RtHypervisor.Ports.MutexSteps

/-!
# Priority inheritance

Three properties of runs with priority inheritance, and for each the steps that break it.

* A thread that owns no mutex has its own priority (`Undone`).  A release sets the priority
  back to what it was when the mutex was taken, which may already be a raised one.
* No thread waits for a mutex whose owner has a lower priority (`Bounded`).  Only the owner of
  the mutex itself is raised, and a release drops what other mutexes still ask for.
* The lists of the IPC objects are in order (`Ordered`).  A thread that is raised while it
  waits keeps its place in the list.

Each is proved to hold all along a run if and only if no step of the run is of that kind.
-/

namespace RtHypervisor.Ports.Mutex

open RtHypervisor.Verified.Run
open RtHypervisor.Verified.WaitQueue
open RtHypervisor.Ports.Ipc

variable {s s' : MutexSys} {e : Event} {base : ThreadId → Nat}

private theorem inv_step (s : MutexSys) (e : Event) (s' : MutexSys) (hs : Inv s) (he : Enabled s e)
    (hstep : step s e = .ok s') : Inv s' :=
  ((step_spec hs he).of_ok hstep).1

/-- The event is a call on mutex `m`. -/
def Touches (m : MutexId) : Event → Prop
  | .take _ m' _ => m' = m
  | .release _ m' => m' = m
  | _ => False

private theorem owner_untouched {m : MutexId} (h : Effect s s' e) (hm : ¬Touches m e) :
    ownerOf s' m = ownerOf s m := by
  cases h with
  | quiet hcalm h howner => rw [howner]
  | takes hcalm h hfree hlist howner => rw [howner, Function.update_of_ne (Ne.symm hm)]
  | waits h hprio => rw [h.owner]
  | blocks hblocks h hprio => rw [h.owner]
  | frees hfrees h => rw [h.owner, Function.update_of_ne (Ne.symm hm)]

/-- A mutex that no call of a run names keeps its owner. -/
theorem run_untouched {m : MutexId} {es : List Event} {s : MutexSys} (hs : Inv s)
    (hes : Guarded step Enabled s es) (hm : ∀ e ∈ es, ¬Touches m e)
    (hrun : run step s es = .ok s') : ownerOf s' m = ownerOf s m := by
  induction es generalizing s with
  | nil =>
      cases hrun
      rfl
  | cons e es ih =>
      obtain ⟨s₁, hstep, hrest⟩ := run_cons_eq_ok hrun
      have hspec := (step_spec hs hes.1).of_ok hstep
      have htail := ih hspec.1 (hes.2 s₁ hstep) (fun f hf => hm f (List.mem_cons_of_mem e hf)) hrest
      rw [htail, owner_untouched hspec.2 (hm e (List.mem_cons_self ..))]

/-! ## Priorities are set back -/

/-- A thread that owns no mutex has the priority it was created with. -/
def Undone (base : ThreadId → Nat) (s : MutexSys) : Prop :=
  ∀ t, (∀ m, ownerOf s m ≠ some t) → prioOf s t = base t

/-- A thread that releases the last mutex it owns took it at its own priority. -/
def Undoes (base : ThreadId → Nat) (s : MutexSys) : Event → Prop
  | .release t m =>
      Frees s.kernel t m → (∀ m', m' ≠ m → ownerOf s m' ≠ some t) →
        (s.kernel.mutex m).originalPriority = base t
  | _ => True

theorem Calm.undoes (h : Calm s.kernel e) : Undoes base s e := by
  cases e with
  | release t m => exact fun hfrees => absurd hfrees h
  | _ => trivial

private theorem undone_step (h : Effect s s' e) (hs : Undone base s) :
    Undone base s' ↔ Undoes base s e := by
  cases h with
  | quiet hcalm h howner =>
      refine iff_of_true (fun t hfree => ?_) hcalm.undoes
      rw [howner] at hfree
      rw [h.priority, hs t hfree]
  | @takes t m timeout hcalm h hfree hlist howner =>
      refine iff_of_true (fun u hnone => ?_) trivial
      rw [h.priority]
      refine hs u fun m' hm' => hnone m' ?_
      have hne : m' ≠ m := by
        rintro rfl
        rw [hfree] at hm'
        cases hm'
      rw [howner, Function.update_of_ne hne]
      exact hm'
  | waits h hprio =>
      refine iff_of_true (fun t hnone => ?_) trivial
      rw [h.owner] at hnone
      rw [hprio, hs t hnone]
  | @blocks t m timeout o hblocks h hprio =>
      -- only an owner is raised
      refine iff_of_true (fun u hnone => ?_) trivial
      rw [h.owner] at hnone
      have hne : u ≠ o := by
        rintro rfl
        exact hnone m hblocks.1
      rw [hprio, if_neg hne, hs u hnone]
  | @frees t m hfrees h =>
      have hhead : ∀ u, (s.kernel.queue (.mutex m)).head? = some u → u ≠ t := by
        rintro u hu rfl
        exact h.fresh (.mutex m) (List.mem_of_head? hu)
      constructor
      · intro hs' hfrees hother
        have hnone : ∀ m', ownerOf s' m' ≠ some t := by
          intro m'
          rw [h.owner]
          by_cases hm : m' = m
          · subst hm
            rw [Function.update_self]
            exact fun hsome => hhead t hsome rfl
          · rw [Function.update_of_ne hm]
            exact hother m' hm
        have hprio := h.priority t
        rw [if_pos rfl] at hprio
        rw [← hprio, hs' t hnone]
      · intro hundoes u hnone
        have hother : ∀ m', m' ≠ m → ownerOf s m' ≠ some u := by
          intro m' hm
          have hsame := hnone m'
          rwa [h.owner, Function.update_of_ne hm] at hsame
        rw [h.priority]
        by_cases hu : u = t
        · subst hu
          rw [if_pos rfl]
          exact hundoes hfrees hother
        · rw [if_neg hu]
          refine hs u fun m' => ?_
          by_cases hm : m' = m
          · subst hm
            rw [ownerOf, hfrees.1]
            exact fun hsome => hu (Option.some.inj hsome).symm
          · exact hother m' hm

/-- **Every run.**  Threads that own no mutex have their own priorities all along a run if and
only if each thread took the mutex it releases last at its own priority. -/
theorem priority_undone (threads : Threads) (flag : Nat → Flag) (es : List Event) (s : MutexSys)
    (hes : Guarded step Enabled (boot threads flag) es)
    (hrun : run step (boot threads flag) es = .ok s) :
    Always step (Undone fun t => (threads t).currentPriority) (boot threads flag) es ↔
      Guarded step (Undoes fun t => (threads t).currentPriority) (boot threads flag) es := by
  have hboot : Undone (fun t => (threads t).currentPriority) (boot threads flag) :=
    fun _ _ => rfl
  exact always_iff_guarded inv_step
    (fun s e s' hs he hstep hP => undone_step ((step_spec hs he).of_ok hstep).2 hP)
    (boot_inv threads flag) hboot hes hrun

/-- One thread of priority 20 and others of 10. -/
def twoPriorities (t : ThreadId) : Thread := ⟨false, if t = 1 then 20 else 10, .eok, false, 0, 0⟩

/-- Thread 1 takes two mutexes, is raised by thread 2 over the second, and releases both, the
second first. -/
def nested : List Event :=
  [.take 1 0 0, .take 1 1 0, .take 2 1 5, .release 1 1, .release 1 0]

/-- Thread 1 is back at its own priority. -/
theorem priority_undone_nested :
    Always step (Undone fun t => (twoPriorities t).currentPriority)
      (boot twoPriorities fun _ => .prio) nested := by
  have hes : Guarded step Enabled (boot twoPriorities fun _ => .prio) nested := by decide
  have hread : (run step (boot twoPriorities fun _ => .prio) nested).map
      (fun s => prioOf s 1) = .ok 20 := by
    decide
  have hthree : (run step (boot twoPriorities fun _ => .prio) (nested.take 3)).map
      (fun s => ownerOf s 0) = .ok (some 1) := by
    decide
  have hfour : (run step (boot twoPriorities fun _ => .prio) (nested.take 4)).map
      (fun s => (s.kernel.mutex 0).originalPriority) = .ok 20 := by
    decide
  obtain ⟨s, hrun, -⟩ := exists_of_map_eq_ok hread
  refine (priority_undone _ _ _ s hes hrun).mpr
    ⟨trivial, fun s₁ h₁ => ⟨trivial, fun s₂ h₂ => ⟨trivial, fun s₃ h₃ => ⟨?_, fun s₄ h₄ =>
      ⟨?_, fun _ _ => trivial⟩⟩⟩⟩⟩
  · -- thread 1 still owns mutex 0
    intro _ hother
    have howner : ownerOf s₃ 0 = some 1 := by
      have hrun₃ : run step (boot twoPriorities fun _ => .prio) (nested.take 3) = .ok s₃ := by
        show run step _ [.take 1 0 0, .take 1 1 0, .take 2 1 5] = _
        rw [run_cons_ok h₁, run_cons_ok h₂, run_cons_ok h₃, run_nil]
      rw [hrun₃] at hthree
      exact Except.ok.inj hthree
    exact absurd howner (hother 0 (by decide))
  · intro _ _
    have hrun₄ : run step (boot twoPriorities fun _ => .prio) (nested.take 4) = .ok s₄ := by
      show run step _ [.take 1 0 0, .take 1 1 0, .take 2 1 5, .release 1 1] = _
      rw [run_cons_ok h₁, run_cons_ok h₂, run_cons_ok h₃, run_cons_ok h₄, run_nil]
    rw [hrun₄] at hfour
    exact Except.ok.inj hfour

/-- Thread 1 takes a second mutex while thread 2 waits for its first, and releases the first
before the second: it keeps the priority of thread 2. -/
theorem priority_not_undone :
    Guarded step Enabled (boot twoPriorities fun _ => .prio)
      [.take 1 0 0, .take 2 0 5, .take 1 1 0, .release 1 0, .release 1 1] ∧
    ∃ s, run step (boot twoPriorities fun _ => .prio)
        [.take 1 0 0, .take 2 0 5, .take 1 1 0, .release 1 0, .release 1 1] = .ok s ∧
      ¬Undone (fun t => (twoPriorities t).currentPriority) s := by
  have hes : Guarded step Enabled (boot twoPriorities fun _ => .prio)
      [.take 1 0 0, .take 2 0 5, .take 1 1 0, .release 1 0, .release 1 1] := by decide
  have hread : (run step (boot twoPriorities fun _ => .prio)
      [.take 1 0 0, .take 2 0 5, .take 1 1 0, .release 1 0, .release 1 1]).map
        (fun s => (prioOf s 1, ownerOf s 0, ownerOf s 1)) = .ok (10, some 2, none) := by
    decide
  obtain ⟨s, hrun, hs⟩ := exists_of_map_eq_ok hread
  obtain ⟨hprio, howner⟩ := Prod.mk.inj hs
  obtain ⟨hfirst, hsecond⟩ := Prod.mk.inj howner
  refine ⟨hes, s, hrun, fun hundone => ?_⟩
  have hnone : ∀ m, ownerOf s m ≠ some 1 := by
    intro m
    by_cases h0 : m = 0
    · rw [h0, hfirst]
      decide
    · by_cases h1 : m = 1
      · rw [h1, hsecond]
        decide
      · rw [run_untouched (boot_inv _ _) hes (by simp [Touches, Ne.symm h0, Ne.symm h1]) hrun]
        exact fun h => by cases h
  have hprio' := hundone 1 hnone
  rw [hprio] at hprio'
  cases hprio'

/-! ## Inversion is bounded -/

/-- No thread that waits for a mutex has a higher priority than its owner. -/
def Bounded (s : MutexSys) : Prop :=
  ∀ m o t, ownerOf s m = some o → t ∈ s.kernel.queue (.mutex m) → prioOf s o ≤ prioOf s t

/-- A thread that blocks does not raise an owner that itself waits for a mutex above the owner
of that mutex.  A last release goes back to a priority that the threads waiting for the other
mutexes of the thread do not exceed, and no thread that waits for this mutex exceeds the
first one. -/
def Bounds (s : MutexSys) : Event → Prop
  | .take t m timeout =>
      ∀ o, Blocks s.kernel t m timeout o → prioOf s t < prioOf s o →
        ∀ m' o', o ∈ s.kernel.queue (.mutex m') → ownerOf s m' = some o' →
          prioOf s o' ≤ prioOf s t
  | .release t m =>
      Frees s.kernel t m →
        (∀ m' u, m' ≠ m → ownerOf s m' = some t → u ∈ s.kernel.queue (.mutex m') →
          (s.kernel.mutex m).originalPriority ≤ prioOf s u) ∧
        ∀ u list, s.kernel.queue (.mutex m) = u :: list → ∀ v ∈ list, prioOf s u ≤ prioOf s v
  | _ => True

theorem Calm.bounds (h : Calm s.kernel e) : Bounds s e := by
  cases e with
  | take t m timeout => exact fun o hblocks => absurd hblocks (h o)
  | release t m => exact fun hfrees => absurd hfrees h
  | _ => trivial

theorem Quiet.bounded (h : Quiet s s') (howner : ∀ m o, ownerOf s' m = some o →
    ownerOf s m = some o ∨ s.kernel.queue (.mutex m) = []) (hs : Bounded s) : Bounded s' := by
  intro m o t hm ht
  have ht' := (h.queue (.mutex m)).subset ht
  rw [h.priority, h.priority]
  rcases howner m o hm with hsame | hnil
  · exact hs m o t hsame ht'
  · rw [hnil] at ht'
    cases ht'

private theorem bounded_blocks {t : ThreadId} {m : MutexId} {timeout : BitVec 32} {o : ThreadId}
    (hinv : Inv s) (hblocks : Blocks s.kernel t m timeout o) (h : Joins s s' t (.mutex m))
    (hprio : ∀ u, prioOf s' u = if u = o then min (prioOf s o) (prioOf s t) else prioOf s u)
    (hs : Bounded s) : Bounded s' ↔ Bounds s (.take t m timeout) := by
  have hmem : ∀ m' u, u ∈ s'.kernel.queue (.mutex m') ↔
      u ∈ s.kernel.queue (.mutex m') ∨ m' = m ∧ u = t := by
    intro m' u
    rw [h.queue]
    by_cases hm : m' = m
    · subst hm
      rw [Function.update_self, mem_listInsert, or_comm]
      simp
    · have hne : Queue.mutex m' ≠ .mutex m := fun heq => hm (Queue.mutex.inj heq)
      rw [Function.update_of_ne hne]
      simp [hm]
  have hle : ∀ u, prioOf s' u ≤ prioOf s u := by
    intro u
    rw [hprio]
    split
    · rename_i hu
      rw [hu]
      exact min_le_left ..
    · exact le_refl _
  have hto : t ≠ o := fun heq => hblocks.2.1 heq.symm
  constructor
  · intro hs' o₂ hblocks₂ hlt m' o' hwaits howner
    have ho : o₂ = o := Option.some.inj (hblocks₂.1.symm.trans hblocks.1)
    subst ho
    have hne : o' ≠ o₂ := by
      rintro rfl
      exact ((hinv.mutexes m').of_owner howner).2.2.1 hwaits
    have hbound := hs' m' o' o₂ (by rw [h.owner]; exact howner) ((hmem m' o₂).mpr (Or.inl hwaits))
    rw [hprio, hprio, if_neg hne, if_pos rfl] at hbound
    omega
  · intro hbounds m' o' u howner hu
    rw [h.owner] at howner
    rcases (hmem m' u).mp hu with hold | ⟨rfl, rfl⟩
    · have hbound := hs m' o' u howner hold
      have hlower := hle o'
      by_cases huo : u = o
      · -- a waiting owner is raised
        subst huo
        have hchain := hbounds u hblocks
        rw [hprio u, if_pos rfl]
        by_cases hlt : prioOf s t < prioOf s u
        · have hnext := hchain hlt m' o' hold howner
          omega
        · omega
      · rw [hprio u, if_neg huo]
        omega
    · -- the new thread
      have ho : o' = o := Option.some.inj (howner.symm.trans hblocks.1)
      subst ho
      rw [hprio, hprio, if_pos rfl, if_neg hto]
      exact min_le_right ..

private theorem bounded_frees {t : ThreadId} {m : MutexId} (hfrees : Frees s.kernel t m)
    (h : Restores s s' t m) (hs : Bounded s) : Bounded s' ↔ Bounds s (.release t m) := by
  have hprio : ∀ q, ∀ u ∈ s.kernel.queue q, prioOf s' u = prioOf s u := by
    intro q u hu
    rw [h.priority, if_neg]
    rintro rfl
    exact h.fresh q hu
  have hqueue : ∀ m', m' ≠ m →
      s'.kernel.queue (.mutex m') = s.kernel.queue (.mutex m') := by
    intro m' hm
    rw [h.queue, Function.update_of_ne fun heq => hm (Queue.mutex.inj heq)]
  have htail : s'.kernel.queue (.mutex m) = (s.kernel.queue (.mutex m)).tail := by
    rw [h.queue, Function.update_self]
  have howner : ∀ m', m' ≠ m → ownerOf s' m' = ownerOf s m' := by
    intro m' hm
    rw [h.owner, Function.update_of_ne hm]
  have hself : prioOf s' t = (s.kernel.mutex m).originalPriority := by
    rw [h.priority, if_pos rfl]
  constructor
  · intro hs' _
    refine ⟨fun m' u hm hown hu => ?_, fun u list hlist v hv => ?_⟩
    · have hbound := hs' m' t u (by rw [howner m' hm]; exact hown) (by rw [hqueue m' hm]; exact hu)
      rwa [hself, hprio _ u hu] at hbound
    · have hmem : ∀ w ∈ u :: list, prioOf s' w = prioOf s w := by
        rw [← hlist]
        exact hprio _
      have hbound := hs' m u v (by rw [h.owner, Function.update_self, hlist]; rfl)
        (by rw [htail, hlist]; exact hv)
      rwa [hmem u (List.mem_cons_self ..), hmem v (List.mem_cons_of_mem u hv)] at hbound
  · intro hbounds m' o u hown hu
    obtain ⟨hothers, hfirst⟩ := hbounds hfrees
    by_cases hm : m' = m
    · subst hm
      rw [h.owner, Function.update_self] at hown
      rw [htail] at hu
      cases hlist : s.kernel.queue (.mutex m') with
      | nil =>
          rw [hlist] at hu
          cases hu
      | cons w list =>
          rw [hlist] at hown hu
          have ho : w = o := Option.some.inj hown
          subst ho
          have hmem : ∀ v ∈ w :: list, prioOf s' v = prioOf s v := by
            rw [← hlist]
            exact hprio _
          rw [hmem w (List.mem_cons_self ..), hmem u (List.mem_cons_of_mem w hu)]
          exact hfirst w list hlist u hu
    · rw [howner m' hm] at hown
      rw [hqueue m' hm] at hu
      rw [hprio _ u hu]
      by_cases ho : o = t
      · subst ho
        rw [hself]
        exact hothers m' u hm hown hu
      · rw [h.priority, if_neg ho]
        exact hs m' o u hown hu

private theorem bounded_step (hinv : Inv s) (h : Effect s s' e) (hs : Bounded s) :
    Bounded s' ↔ Bounds s e := by
  cases h with
  | quiet hcalm h howner =>
      exact iff_of_true (h.bounded (fun m o hm => Or.inl (howner ▸ hm)) hs) hcalm.bounds
  | @takes t m timeout hcalm h hfree hlist howner =>
      refine iff_of_true (h.bounded (fun m' o hm => ?_) hs) hcalm.bounds
      rw [howner] at hm
      by_cases heq : m' = m
      · subst heq
        exact Or.inr hlist
      · rw [Function.update_of_ne heq] at hm
        exact Or.inl hm
  | waits h hprio =>
      refine iff_of_true (fun m o t hm ht => ?_) trivial
      rw [h.owner] at hm
      rw [h.queue, Function.update_of_ne (by simp)] at ht
      rw [hprio, hprio]
      exact hs m o t hm ht
  | blocks hblocks h hprio => exact bounded_blocks hinv hblocks h hprio hs
  | frees hfrees h => exact bounded_frees hfrees h hs

/-- **Every run.**  Owners are at least as high as the threads that wait for them all along a
run if and only if no step raises a waiting owner above the next one or lowers an owner below
a thread that waits. -/
theorem inversion_bounded (threads : Threads) (flag : Nat → Flag) (es : List Event) (s : MutexSys)
    (hes : Guarded step Enabled (boot threads flag) es)
    (hrun : run step (boot threads flag) es = .ok s) :
    Always step Bounded (boot threads flag) es ↔
      Guarded step Bounds (boot threads flag) es := by
  have hboot : Bounded (boot threads flag) := by
    intro m o t hown
    cases hown
  exact always_iff_guarded inv_step
    (fun s e s' hs he hstep hP => bounded_step hs ((step_spec hs he).of_ok hstep).2 hP)
    (boot_inv threads flag) hboot hes hrun

/-- Thread 2 waits for the mutex of thread 1, which is raised to its priority. -/
theorem inversion_bounded_raised :
    Always step Bounded (boot twoPriorities fun _ => .prio) [.take 1 0 0, .take 2 0 5] ∧
      (run step (boot twoPriorities fun _ => .prio) [.take 1 0 0, .take 2 0 5]).map
        (fun s => (prioOf s 1, s.kernel.queue (.mutex 0))) = .ok (10, [2]) := by
  have hes : Guarded step Enabled (boot twoPriorities fun _ => .prio)
      [.take 1 0 0, .take 2 0 5] := by
    decide
  have hread : (run step (boot twoPriorities fun _ => .prio) [.take 1 0 0, .take 2 0 5]).map
      (fun s => (prioOf s 1, s.kernel.queue (.mutex 0))) = .ok (10, [2]) := by
    decide
  obtain ⟨s, hrun, -⟩ := exists_of_map_eq_ok hread
  refine ⟨(inversion_bounded _ _ _ s hes hrun).mpr ⟨?_, fun s₁ h₁ => ⟨?_, fun _ _ => trivial⟩⟩,
    hread⟩
  · rintro o ⟨hnone, -⟩
    cases hnone
  · -- nobody waits for a mutex yet
    cases h₁
    intro o _ _ m' o' hmem
    cases hmem

/-- Thread 1 owns two mutexes, thread 2 waits for the second, and thread 1 releases the first. -/
theorem inversion_not_bounded :
    Guarded step Enabled (boot twoPriorities fun _ => .prio)
      [.take 1 0 0, .take 1 1 0, .take 2 1 5, .release 1 0] ∧
    ∃ s, run step (boot twoPriorities fun _ => .prio)
        [.take 1 0 0, .take 1 1 0, .take 2 1 5, .release 1 0] = .ok s ∧ ¬Bounded s := by
  have hread : (run step (boot twoPriorities fun _ => .prio)
      [.take 1 0 0, .take 1 1 0, .take 2 1 5, .release 1 0]).map
        (fun s => (prioOf s 1, prioOf s 2, ownerOf s 1, s.kernel.queue (.mutex 1))) =
      .ok (20, 10, some 1, [2]) := by decide
  obtain ⟨s, hrun, hs⟩ := exists_of_map_eq_ok hread
  refine ⟨by decide, s, hrun, fun hbounded => ?_⟩
  simp only [Prod.mk.injEq] at hs
  obtain ⟨hone, htwo, howner, hlist⟩ := hs
  have hle := hbounded 1 1 2 howner (by rw [hlist]; exact List.mem_cons_self ..)
  omega

/-! ## Lists are in order -/

/-- `t` is served before `u`: it has the higher priority, or the same and has waited longer. -/
def Before (s : MutexSys) (t u : ThreadId) : Prop :=
  prioOf s t < prioOf s u ∨ prioOf s t = prioOf s u ∧ s.arrival t < s.arrival u

private theorem not_before_of_before {t u : ThreadId} (h : Before s t u) : ¬Before s u t := by
  rw [Before] at h ⊢
  omega

private theorem not_before_self {t : ThreadId} : ¬Before s t t := fun h => not_before_of_before h h

/-- The order of a list. -/
def Precedes (s : MutexSys) (t u : ThreadId) : Flag → Prop
  | .prio => Before s t u
  | .fifo => s.arrival t < s.arrival u

def Ordered (s : MutexSys) : Prop :=
  ∀ q, (s.kernel.queue q).Pairwise fun t u => Precedes s t u (flagOf s.kernel q)

/-- A thread that blocks does not raise an owner that waits in a list in order of priority over
a thread that is in front of it. -/
def Orders (s : MutexSys) : Event → Prop
  | .take t m timeout =>
      ∀ o, Blocks s.kernel t m timeout o → prioOf s t < prioOf s o →
        ∀ q, flagOf s.kernel q = .prio → o ∈ s.kernel.queue q →
          ∀ u ∈ s.kernel.queue q, Before s u o →
            prioOf s u < prioOf s t ∨ prioOf s u = prioOf s t ∧ s.arrival u < s.arrival o
  | _ => True

theorem Calm.orders (h : Calm s.kernel e) : Orders s e := by
  cases e with
  | take t m timeout => exact fun o hblocks => absurd hblocks (h o)
  | _ => trivial

/-- Every thread that waits began to wait before now. -/
def Arrived (s : MutexSys) : Prop := ∀ q, ∀ t ∈ s.kernel.queue q, s.arrival t < s.clock

theorem Joins.arrived {t : ThreadId} {q : Queue} (h : Joins s s' t q) (hs : Arrived s) :
    Arrived s' := by
  intro i u hu
  rw [h.arrival, h.clock]
  by_cases hut : u = t
  · rw [hut, Function.update_self]
    exact Nat.lt_succ_self _
  · rw [Function.update_of_ne hut]
    have hold : u ∈ s.kernel.queue i := by
      rw [h.queue] at hu
      by_cases hi : i = q
      · subst hi
        rw [Function.update_self] at hu
        exact (mem_listInsert.mp hu).resolve_left hut
      · rwa [Function.update_of_ne hi] at hu
    have hlt := hs i u hold
    omega

theorem Quiet.arrived (h : Quiet s s') (hs : Arrived s) : Arrived s' := by
  intro q t ht
  rw [h.arrival q t ht]
  exact lt_of_lt_of_le (hs q t ((h.queue q).subset ht)) h.clock

private theorem flagOf_congr {k k' : Kernel} (h : k'.flag = k.flag) (q : Queue) :
    flagOf k' q = flagOf k q := by
  cases q with
  | mutex m => rfl
  | object o => rw [flagOf, flagOf, h]

theorem Precedes.congr {t u : ThreadId} {flag : Flag} (h : Precedes s t u flag)
    (ht : prioOf s' t = prioOf s t) (hu : prioOf s' u = prioOf s u)
    (hta : s'.arrival t = s.arrival t) (hua : s'.arrival u = s.arrival u) :
    Precedes s' t u flag := by
  cases flag with
  | fifo =>
      show s'.arrival t < s'.arrival u
      rw [hta, hua]
      exact h
  | prio =>
      show prioOf s' t < prioOf s' u ∨ prioOf s' t = prioOf s' u ∧ s'.arrival t < s'.arrival u
      rw [ht, hu, hta, hua]
      exact h

/-- Threads leave lists, and those that stay keep their priorities. -/
theorem Ordered.sublist (hs : Ordered s)
    (hqueue : ∀ q, (s'.kernel.queue q).Sublist (s.kernel.queue q))
    (hflag : s'.kernel.flag = s.kernel.flag)
    (hprio : ∀ q, ∀ t ∈ s'.kernel.queue q, prioOf s' t = prioOf s t)
    (harrival : ∀ q, ∀ t ∈ s'.kernel.queue q, s'.arrival t = s.arrival t) : Ordered s' := by
  intro q
  rw [flagOf_congr hflag q]
  refine ((hs q).sublist (hqueue q)).imp_of_mem fun {t u} ht hu htu => ?_
  exact htu.congr (hprio q t ht) (hprio q u hu) (harrival q t ht) (harrival q u hu)

theorem Quiet.ordered (h : Quiet s s') (hs : Ordered s) : Ordered s' :=
  hs.sublist h.queue h.flag (fun _ t _ => h.priority t) h.arrival

theorem Restores.sublist {t : ThreadId} {m : MutexId} (h : Restores s s' t m) (q : Queue) :
    (s'.kernel.queue q).Sublist (s.kernel.queue q) := by
  rw [h.queue]
  exact update_sublist (List.tail_sublist _) q

/-- The thread that joins a list has waited for a shorter time than the others. -/
theorem Joins.older {t u : ThreadId} {q i : Queue} (h : Joins s s' t q) (hs : Arrived s)
    (hu : u ∈ s.kernel.queue i) : s'.arrival u = s.arrival u ∧ s'.arrival u < s'.arrival t := by
  have hne : u ≠ t := fun heq => h.fresh i (heq ▸ hu)
  rw [h.arrival, Function.update_of_ne hne, Function.update_self]
  exact ⟨rfl, hs i u hu⟩

/-- The list it joins stays in order. -/
theorem Joins.insert {t : ThreadId} {q : Queue} (h : Joins s s' t q) (hs : Arrived s)
    (hlist : (s.kernel.queue q).Pairwise fun t u => Precedes s' t u (flagOf s.kernel q)) :
    (s'.kernel.queue q).Pairwise fun t u => Precedes s' t u (flagOf s'.kernel q) := by
  rw [flagOf_congr h.flag q, h.queue, Function.update_self]
  cases hflag : flagOf s.kernel q with
  | fifo =>
      rw [hflag] at hlist
      refine List.pairwise_append.mpr ⟨hlist, List.pairwise_singleton _ t, fun u hu v hv => ?_⟩
      rw [List.mem_singleton.mp hv]
      exact (h.older hs hu).2
  | prio =>
      rw [hflag] at hlist
      refine pairwise_enqueue hlist (fun u hu hover => ?_) fun u hu hover => ?_
      · have hle : prioOf s' u ≤ prioOf s' t := not_lt.mp (of_decide_eq_false hover)
        rcases Nat.lt_or_eq_of_le hle with hlt | heq
        · exact Or.inl hlt
        · exact Or.inr ⟨heq, (h.older hs hu).2⟩
      · have hlt : prioOf s' t < prioOf s' u := of_decide_eq_true hover
        refine ⟨Or.inl hlt, fun v huv => Or.inl ?_⟩
        rcases huv with hlt' | ⟨heq, -⟩
        · omega
        · omega

/-- A thread that waits is raised: the lists stay in order if and only if it does not pass a
thread in front of it. -/
theorem ordered_blocks {t : ThreadId} {m : MutexId} {timeout : BitVec 32} {o : ThreadId}
    (hinv : Inv s) (harrived : Arrived s) (hblocks : Blocks s.kernel t m timeout o)
    (h : Joins s s' t (.mutex m))
    (hprio : ∀ u, prioOf s' u = if u = o then min (prioOf s o) (prioOf s t) else prioOf s u)
    (hs : Ordered s) : Ordered s' ↔ Orders s (.take t m timeout) := by
  have hown : o ∉ s.kernel.queue (.mutex m) := ((hinv.mutexes m).of_owner hblocks.1).2.2.1
  constructor
  · intro hs' o₂ hblocks₂ hlt q hflag ho u hu hbefore
    have heq : o₂ = o := Option.some.inj (hblocks₂.1.symm.trans hblocks.1)
    subst heq
    have hq : q ≠ .mutex m := by
      rintro rfl
      exact hown ho
    have hordered := hs q
    have hordered' := hs' q
    rw [flagOf_congr h.flag q, h.queue, Function.update_of_ne hq] at hordered'
    rw [hflag] at hordered hordered'
    have hne : u ≠ o₂ := by
      rintro rfl
      exact not_before_self hbefore
    have hfront : Before s' u o₂ :=
      pairwise_front hordered hordered' hu ho hne (not_before_of_before hbefore)
    rw [Before, hprio, hprio, if_neg hne, if_pos rfl, min_eq_right hlt.le, (h.older harrived hu).1,
      (h.older harrived ho).1] at hfront
    exact hfront
  · intro horders
    have hlists : ∀ q, (s.kernel.queue q).Pairwise fun u v =>
        Precedes s' u v (flagOf s.kernel q) := by
      intro q
      refine (hs q).imp_of_mem fun {u v} hu hv huv => ?_
      have hua := (h.older harrived hu).1
      have hva := (h.older harrived hv).1
      cases hflag : flagOf s.kernel q with
      | fifo =>
          rw [hflag] at huv
          show s'.arrival u < s'.arrival v
          rw [hua, hva]
          exact huv
      | prio =>
          rw [hflag] at huv
          show Before s' u v
          rw [Before, hprio u, hprio v, hua, hva]
          have hbefore : prioOf s u < prioOf s v ∨
              prioOf s u = prioOf s v ∧ s.arrival u < s.arrival v := huv
          by_cases hvo : v = o
          · subst hvo
            have hne : u ≠ v := by
              rintro rfl
              exact not_before_self hbefore
            rw [if_neg hne, if_pos rfl]
            by_cases hlt : prioOf s t < prioOf s v
            · have hfront := horders v hblocks hlt q hflag hv u hu hbefore
              omega
            · omega
          · rw [if_neg hvo]
            split
            · rename_i huo
              subst huo
              omega
            · exact hbefore
    intro q
    by_cases hq : q = .mutex m
    · subst hq
      exact h.insert harrived (hlists _)
    · have hlist := hlists q
      rwa [← flagOf_congr h.flag q, ← Function.update_of_ne hq _ s.kernel.queue, ← h.queue] at hlist

private theorem ordered_step (hinv : Inv s) (harrived : Arrived s) (h : Effect s s' e)
    (hs : Ordered s) : Ordered s' ↔ Orders s e := by
  cases h with
  | quiet hcalm h howner => exact iff_of_true (h.ordered hs) hcalm.orders
  | takes hcalm h hfree hlist howner => exact iff_of_true (h.ordered hs) hcalm.orders
  | @waits t o timeout h hprio =>
      have hlists : ∀ q, (s.kernel.queue q).Pairwise fun u v =>
          Precedes s' u v (flagOf s.kernel q) := by
        intro q
        refine (hs q).imp_of_mem fun {u v} hu hv huv => ?_
        exact huv.congr (hprio u) (hprio v) (h.older harrived hu).1 (h.older harrived hv).1
      refine iff_of_true (fun q => ?_) trivial
      by_cases hq : q = .object o
      · subst hq
        exact h.insert harrived (hlists _)
      · have hlist := hlists q
        rwa [← flagOf_congr h.flag q, ← Function.update_of_ne hq _ s.kernel.queue,
          ← h.queue] at hlist
  | blocks hblocks h hprio => exact ordered_blocks hinv harrived hblocks h hprio hs
  | @frees t m hfrees h =>
      refine iff_of_true (hs.sublist h.sublist h.flag (fun q u hu => ?_) fun _ _ _ => ?_) trivial
      · rw [h.priority, if_neg]
        rintro rfl
        exact h.fresh q ((h.sublist q).subset hu)
      · rw [h.arrival]

private theorem arrived_step (h : Effect s s' e) (hs : Arrived s) : Arrived s' := by
  cases h with
  | quiet hcalm h howner => exact h.arrived hs
  | takes hcalm h hfree hlist howner => exact h.arrived hs
  | waits h hprio => exact h.arrived hs
  | blocks hblocks h hprio => exact h.arrived hs
  | frees hfrees h =>
      intro q t ht
      rw [h.arrival, h.clock]
      exact hs q t ((h.sublist q).subset ht)

/-- The first thread of a list that is in order is one that `_ipc_list_resume` should wake. -/
theorem Ordered.head {q : Queue} {t : ThreadId} {list : List ThreadId} (h : Ordered s)
    (hlist : s.kernel.queue q = t :: list) :
    ∀ u ∈ list, Precedes s t u (flagOf s.kernel q) := by
  have hq := h q
  rw [hlist] at hq
  exact (List.pairwise_cons.mp hq).1

/-- **Every run.**  All lists are in order all along a run if and only if no step raises a
waiting thread over one in front of it. -/
theorem wait_lists_ordered (threads : Threads) (flag : Nat → Flag) (es : List Event)
    (s : MutexSys) (hes : Guarded step Enabled (boot threads flag) es)
    (hrun : run step (boot threads flag) es = .ok s) :
    Always step Ordered (boot threads flag) es ↔
      Guarded step Orders (boot threads flag) es := by
  have hboot : Inv (boot threads flag) ∧ Arrived (boot threads flag) :=
    ⟨boot_inv threads flag, fun q t ht => by cases ht⟩
  have hinv : ∀ s e s', Inv s ∧ Arrived s → Enabled s e → step s e = .ok s' →
      Inv s' ∧ Arrived s' := by
    intro s e s' hs he hstep
    have hspec := (step_spec hs.1 he).of_ok hstep
    exact ⟨hspec.1, arrived_step hspec.2 hs.2⟩
  exact always_iff_guarded hinv
    (fun s e s' hs he hstep hP => ordered_step hs.1 hs.2 ((step_spec hs.1 he).of_ok hstep).2 hP)
    hboot (fun q => List.Pairwise.nil) hes hrun

/-- Thread 2 stands in front of thread 1, and behind thread 3, which came first. -/
theorem wait_lists_ordered_three :
    Always step Ordered (boot twoPriorities fun _ => .prio)
        [.wait 3 0 5, .wait 1 0 5, .wait 2 0 5] ∧
      (run step (boot twoPriorities fun _ => .prio) [.wait 3 0 5, .wait 1 0 5, .wait 2 0 5]).map
        (fun s => s.kernel.queue (.object 0)) = .ok [3, 2, 1] := by
  have hes : Guarded step Enabled (boot twoPriorities fun _ => .prio)
      [.wait 3 0 5, .wait 1 0 5, .wait 2 0 5] := by
    decide
  have hread : (run step (boot twoPriorities fun _ => .prio)
      [.wait 3 0 5, .wait 1 0 5, .wait 2 0 5]).map
        (fun s => s.kernel.queue (.object 0)) = .ok [3, 2, 1] := by
    decide
  obtain ⟨s, hrun, -⟩ := exists_of_map_eq_ok hread
  exact ⟨(wait_lists_ordered _ _ _ s hes hrun).mpr
    ⟨trivial, fun _ _ => ⟨trivial, fun _ _ => ⟨trivial, fun _ _ => trivial⟩⟩⟩, hread⟩

/-- Threads of priorities 20, 10 and 5. -/
def threePriorities (t : ThreadId) : Thread :=
  ⟨false, if t = 1 then 20 else if t = 2 then 10 else 5, .eok, false, 0, 0⟩

/-- Thread 1 owns a mutex and waits behind thread 2 for an object; thread 3 takes the mutex and
raises thread 1 over thread 2. -/
theorem wait_list_not_ordered :
    Guarded step Enabled (boot threePriorities fun _ => .prio)
      [.take 1 0 0, .wait 2 0 5, .wait 1 0 5, .take 3 0 5] ∧
    ∃ s, run step (boot threePriorities fun _ => .prio)
        [.take 1 0 0, .wait 2 0 5, .wait 1 0 5, .take 3 0 5] = .ok s ∧ ¬Ordered s := by
  have hread : (run step (boot threePriorities fun _ => .prio)
      [.take 1 0 0, .wait 2 0 5, .wait 1 0 5, .take 3 0 5]).map
        (fun s => (prioOf s 1, prioOf s 2, s.kernel.queue (.object 0),
          flagOf s.kernel (.object 0))) = .ok (5, 10, [2, 1], .prio) := by decide
  obtain ⟨s, hrun, hs⟩ := exists_of_map_eq_ok hread
  refine ⟨by decide, s, hrun, fun hordered => ?_⟩
  simp only [Prod.mk.injEq] at hs
  obtain ⟨hone, htwo, hlist, hflag⟩ := hs
  have hfront : Precedes s 2 1 (flagOf s.kernel (.object 0)) :=
    hordered.head hlist 1 (List.mem_cons_self ..)
  rw [hflag] at hfront
  rcases hfront with hlt | ⟨heq, -⟩
  · omega
  · omega

end RtHypervisor.Ports.Mutex
