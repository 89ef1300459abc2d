import Mathlib.Tactic
import RtHypervisor.Ports.Ipc

/-!
# Completions

`rt_completion_done` sets the flag and resumes the waiting thread, but it is the waiting thread
that clears the flag, when it runs again.  Until then a second wait finds the flag set and
succeeds as well; and a thread whose timer ran out clears the flag too, so that a done that fell
between is lost.

`completion_once` says when neither happens.  The dones are counted when they set the flag, and
only if they found it clear when they looked at it, which they do before they disable the
interrupts.
-/

namespace RtHypervisor.Ports.Completion

open RtHypervisor.Verified.Run
open RtHypervisor.Ports.Ipc

/-- `struct rt_completion`, with the threads.  `flag` is whether it is `RT_COMPLETED`. -/
structure RtCompletion where
  threads : Threads
  flag : Bool
  suspendedList : List ThreadId

/-- `rt_completion_init`. -/
def rtCompletionInit (threads : Threads) : RtCompletion := ⟨threads, false, []⟩

/-- `rt_completion_wait` by thread `t`: what it returns, or nothing when the thread waits. -/
def rtCompletionWait (c : RtCompletion) (t : ThreadId) (timeout : BitVec 32) :
    Except Fault (RtCompletion × Option Err) :=
  if c.flag then pure ({ c with flag := false }, some .eok)
  else do
    -- only one thread can suspend on complete
    check .assertion c.suspendedList.isEmpty
    if timeout = 0 then pure (c, some .etimeout)
    else
      let threads := setError c.threads t .eok
      let (threads, list) := ipcListSuspend threads c.suspendedList t .fifo
      let threads ← startTimer threads t timeout
      pure ({ c with threads := threads, suspendedList := list }, none)

/-- The rest of `rt_completion_wait`, once the thread runs again. -/
def rtCompletionWaitWoken (c : RtCompletion) (t : ThreadId) : RtCompletion × Err :=
  ({ c with flag := false }, (c.threads t).error)

/-- `rt_completion_done`, behind the test of the flag. -/
def rtCompletionDone (c : RtCompletion) : RtCompletion :=
  let (threads, list) := ipcListResume c.threads c.suspendedList
  { threads := threads, flag := true, suspendedList := list }

/-- The thread timer of a waiting thread runs out. -/
def completionTimeout (c : RtCompletion) (t : ThreadId) : Except Fault RtCompletion := do
  let (threads, list) ← threadTimeout c.threads c.suspendedList t
  pure { c with threads := threads, suspendedList := list }

/-! ## Runs -/

/-- `waiting` says which threads are inside `rt_completion_wait`, behind its call of
`rt_schedule`, and `finding` how many calls of `rt_completion_done` have found the flag clear and
not yet disabled the interrupts; `dones` counts those that have, and `oks` the waits that
returned `RT_EOK`. -/
structure System where
  completion : RtCompletion
  waiting : ThreadId → Bool
  finding : Nat
  dones : Nat
  oks : Nat

inductive Event
  | wait (t : ThreadId) (timeout : BitVec 32)
  | woken (t : ThreadId)
  | test
  | done
  | timeout (t : ThreadId)
  | other (t : ThreadId) (x : Thread)

/-- A thread calls, or goes on, while it is not suspended; its timer runs out while it is
active; and what it does elsewhere, it does outside `rt_completion_wait`. -/
def Enabled (s : System) : Event → Prop
  | .wait t _ => s.waiting t = false ∧ (s.completion.threads t).suspended = false
  | .woken t => s.waiting t = true ∧ (s.completion.threads t).suspended = false
  | .done => 0 < s.finding
  | .timeout t => s.waiting t = true ∧ (s.completion.threads t).timer = true
  | .other t _ => s.waiting t = false
  | .test => True

instance (s : System) : ∀ e, Decidable (Enabled s e)
  | .wait .. => inferInstanceAs (Decidable (_ ∧ _))
  | .woken _ => inferInstanceAs (Decidable (_ ∧ _))
  | .done => inferInstanceAs (Decidable (_ < _))
  | .timeout _ => inferInstanceAs (Decidable (_ ∧ _))
  | .other .. => inferInstanceAs (Decidable (_ = _))
  | .test => inferInstanceAs (Decidable True)

def count (e : Err) : Nat := if e = .eok then 1 else 0

def step (s : System) : Event → Except Fault System
  | .wait t timeout => do
      let (c, r) ← rtCompletionWait s.completion t timeout
      match r with
      | some e => pure { s with completion := c, oks := s.oks + count e }
      | none => pure { s with completion := c, waiting := Function.update s.waiting t true }
  | .woken t =>
      let (c, e) := rtCompletionWaitWoken s.completion t
      pure
        { s with
          completion := c
          waiting := Function.update s.waiting t false
          oks := s.oks + count e }
  | .test => pure (if s.completion.flag then s else { s with finding := s.finding + 1 })
  | .done =>
      pure
        { s with
          completion := rtCompletionDone s.completion
          finding := s.finding - 1
          dones := s.dones + 1 }
  | .timeout t => do
      let c ← completionTimeout s.completion t
      pure { s with completion := c }
  | .other t x =>
      pure
        { s with
          completion := { s.completion with
            threads := Function.update s.completion.threads t x } }

def boot (threads : Threads) : System := ⟨rtCompletionInit threads, fun _ => false, 0, 0, 0⟩

/-- No more waits have succeeded than there were dones, and what is left of the dones is in
the flag. -/
def ConsumedOnce (s : System) : Prop :=
  s.oks ≤ s.dones ∧ s.dones - s.oks = s.completion.flag.toNat

instance (s : System) : Decidable (ConsumedOnce s) := inferInstanceAs (Decidable (_ ∧ _))

/-- A thread that was resumed runs before another wait takes the flag, one whose timer ran out
runs before there is a done, and two dones do not both find the flag clear. -/
def InTurn (s : System) : Event → Prop
  | .woken t => s.completion.flag = decide ((s.completion.threads t).error = .eok)
  | .done => s.completion.flag = false
  | _ => True

instance (s : System) : ∀ e, Decidable (InTurn s e)
  | .woken _ => inferInstanceAs (Decidable (_ = _))
  | .done => inferInstanceAs (Decidable (_ = _))
  | .wait .. | .test | .timeout _ | .other .. => inferInstanceAs (Decidable True)

section Steps

variable {s s' : System} {t : ThreadId} {timeout : BitVec 32}

/-- A wait that succeeds at once takes the flag, and no other touches it. -/
theorem wait_cases (h : step s (.wait t timeout) = .ok s') :
    s'.dones = s.dones ∧
      ((s.completion.flag = true ∧ s'.completion.flag = false ∧ s'.oks = s.oks + 1) ∨
        (s'.completion.flag = s.completion.flag ∧ s'.oks = s.oks)) := by
  obtain ⟨⟨c, r⟩, hwait, hrest⟩ := bind_eq_ok.mp h
  rw [rtCompletionWait] at hwait
  by_cases hflag : s.completion.flag = true
  · rw [if_pos hflag] at hwait
    cases hwait
    cases hrest
    exact ⟨rfl, Or.inl ⟨hflag, rfl, rfl⟩⟩
  · rw [if_neg hflag] at hwait
    obtain ⟨-, -, hwait⟩ := bind_eq_ok.mp hwait
    by_cases hzero : timeout = 0
    · rw [if_pos hzero] at hwait
      cases hwait
      cases hrest
      exact ⟨rfl, Or.inr ⟨rfl, rfl⟩⟩
    · rw [if_neg hzero] at hwait
      obtain ⟨threads, -, hwait⟩ := bind_eq_ok.mp hwait
      cases hwait
      cases hrest
      exact ⟨rfl, Or.inr ⟨rfl, rfl⟩⟩

private theorem count_eq (e : Err) : count e = (decide (e = .eok)).toNat := by
  cases e <;> rfl

private theorem balance_iff {dones oks : Nat} {flag b : Bool} (hle : oks ≤ dones)
    (h : dones - oks = flag.toNat) : oks + b.toNat = dones ↔ flag = b := by
  cases flag with
  | false =>
      rw [Bool.toNat_false] at h
      cases b with
      | false => exact iff_of_true (by rw [Bool.toNat_false]; omega) rfl
      | true => exact iff_of_false (by rw [Bool.toNat_true]; omega) Bool.false_ne_true
  | true =>
      rw [Bool.toNat_true] at h
      cases b with
      | false => exact iff_of_false (by rw [Bool.toNat_false]; omega) (by decide)
      | true => exact iff_of_true (by rw [Bool.toNat_true]; omega) rfl

/-- A step from a balanced state leads to one if and only if it is in turn. -/
theorem consumedOnce_step_iff {e : Event} (h : step s e = .ok s') (hs : ConsumedOnce s) :
    ConsumedOnce s' ↔ InTurn s e := by
  obtain ⟨hle, hflag⟩ := hs
  cases e with
  | wait t timeout =>
      obtain ⟨hdones, ⟨hset, hclear, hoks⟩ | ⟨hsame, hoks⟩⟩ := wait_cases h
      · rw [hset, Bool.toNat_true] at hflag
        refine iff_of_true ⟨?_, ?_⟩ trivial
        · omega
        · rw [hclear, Bool.toNat_false]
          omega
      · refine iff_of_true ⟨?_, ?_⟩ trivial
        · omega
        · rw [hsame, hoks, hdones, hflag]
  | woken t =>
      cases h
      have hwoken : ConsumedOnce
          { s with
            completion := { s.completion with flag := false }
            waiting := Function.update s.waiting t false
            oks := s.oks + count (s.completion.threads t).error } ↔
            s.oks + (decide ((s.completion.threads t).error = .eok)).toNat = s.dones := by
        rw [ConsumedOnce, count_eq]
        simp only [Bool.toNat_false]
        omega
      exact hwoken.trans (balance_iff hle hflag)
  | test =>
      cases h
      refine iff_of_true ?_ trivial
      split <;> exact ⟨hle, hflag⟩
  | done =>
      cases h
      rw [ConsumedOnce, InTurn, ← Bool.toNat_eq_zero]
      simp only [rtCompletionDone, Bool.toNat_true]
      omega
  | timeout t =>
      obtain ⟨c, hc, hrest⟩ := bind_eq_ok.mp h
      obtain ⟨threads, -, hc⟩ := bind_eq_ok.mp hc
      cases hc
      cases hrest
      exact iff_of_true ⟨hle, hflag⟩ trivial
  | other t x =>
      cases h
      exact iff_of_true ⟨hle, hflag⟩ trivial

end Steps

/-- Every completion is consumed once in exactly the runs whose steps are in turn. -/
theorem completion_once (threads : Threads) (es : List Event) (s : System)
    (hg : Guarded step Enabled (boot threads) es) (hrun : run step (boot threads) es = .ok s) :
    Always step ConsumedOnce (boot threads) es ↔ Guarded step InTurn (boot threads) es :=
  always_iff_guarded (fun _ _ _ (h : True) _ _ => h)
    (fun _ _ _ _ _ hstep hs => consumedOnce_step_iff hstep hs) trivial ⟨le_rfl, rfl⟩ hg hrun

/-- Threads that run. -/
def running : Threads := fun _ => ⟨false, 10, .eok, false, 0, 0⟩

/-- Two waits one after another, each with a done of its own. -/
theorem completion_once_two :
    Always step ConsumedOnce (boot running)
      [.wait 0 5, .test, .done, .woken 0, .test, .done, .wait 1 5] := by
  have hoks : (run step (boot running)
      [.wait 0 5, .test, .done, .woken 0, .test, .done, .wait 1 5]).map System.oks = .ok 2 := by
    decide
  obtain ⟨s, hrun, -⟩ := exists_of_map_eq_ok hoks
  exact (completion_once running _ s (by decide) hrun).mpr (by decide)

/-- One done lets two waits succeed: the second finds the flag set, for which the first has been
resumed. -/
theorem completion_consumed_twice :
    ∃ s, Guarded step Enabled (boot running) [.wait 0 5, .test, .done, .wait 1 5, .woken 0] ∧
      run step (boot running) [.wait 0 5, .test, .done, .wait 1 5, .woken 0] = .ok s ∧
      s.dones + s.finding = 1 ∧ s.oks = 2 := by
  have hguarded : Guarded step Enabled (boot running)
      [.wait 0 5, .test, .done, .wait 1 5, .woken 0] := by
    decide
  have hcounts : (run step (boot running) [.wait 0 5, .test, .done, .wait 1 5, .woken 0]).map
      (fun s => (s.dones + s.finding, s.oks)) = .ok (1, 2) := by
    decide
  obtain ⟨s, hrun, hs⟩ := exists_of_map_eq_ok hcounts
  exact ⟨s, hguarded, hrun, congrArg Prod.fst hs, congrArg Prod.snd hs⟩

end RtHypervisor.Ports.Completion
