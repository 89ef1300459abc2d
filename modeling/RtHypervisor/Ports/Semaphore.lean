import Mathlib.Tactic
import RtHypervisor.Ports.Ipc

/-!
# Semaphores

A release either adds a unit to `value` or hands it to the first waiting thread, which
returns from `rt_sem_take` only when it runs again; until then its timer may not take the unit
back.  `Ledger` counts units from outside: the releases and the takes since the semaphore was
last set, to whom a unit was handed over, and what each take returned.

`sem_conserved` is about every run: the threads may do anything else between two operations
(`Event.other`), and their priorities may change at any time.
-/

namespace RtHypervisor.Ports.Semaphore

open RtHypervisor.Verified.Run
open RtHypervisor.Ports.Ipc

/-- `RT_SEM_VALUE_MAX`. -/
def semValueMax : BitVec 16 := 0xffff

/-- `RT_IPC_CMD_RESET`. -/
def ipcCmdReset : Int := 1

/-- `struct rt_semaphore`, with the threads. -/
structure Sem where
  threads : Threads
  value : BitVec 16
  flag : Flag
  suspendThread : List ThreadId

/-- `rt_sem_take` by thread `t`: what it returns, or nothing when the thread waits. -/
def rtSemTake (s : Sem) (t : ThreadId) (timeout : BitVec 32) : Except Fault (Sem × Option Err) :=
  if 0 < s.value then pure ({ s with value := s.value - 1 }, some .eok)
  else if timeout = 0 then pure (s, some .etimeout)
  else do
    let threads := setError s.threads t .eok
    let (threads, list) := ipcListSuspend threads s.suspendThread t s.flag
    let threads ← startTimer threads t timeout
    pure ({ s with threads := threads, suspendThread := list }, none)

/-- What `rt_sem_take` returns once the thread runs again. -/
def rtSemTakeWoken (s : Sem) (t : ThreadId) : Err :=
  if (s.threads t).error ≠ .eok then (s.threads t).error else .eok

/-- `rt_sem_release`. -/
def rtSemRelease (s : Sem) : Sem × Err :=
  if s.suspendThread ≠ [] then
    let (threads, list) := ipcListResume s.threads s.suspendThread
    ({ s with threads := threads, suspendThread := list }, .eok)
  else if s.value < semValueMax then ({ s with value := s.value + 1 }, .eok)
  else (s, .efull)

/-- `rt_sem_control`. -/
def rtSemControl (s : Sem) (cmd : Int) (arg : BitVec 64) : Except Fault (Sem × Err) :=
  if cmd = ipcCmdReset then do
    let threads ← ipcListResumeAll s.threads s.suspendThread
    pure ({ s with threads := threads, suspendThread := [], value := arg.setWidth 16 }, .eok)
  else pure (s, .error)

/-- The thread timer of a waiting thread runs out. -/
def semTimeout (s : Sem) (t : ThreadId) : Except Fault Sem := do
  let (threads, list) ← threadTimeout s.threads s.suspendThread t
  pure { s with threads := threads, suspendThread := list }

/-! ## Runs -/

/-- A take that has returned, and whether it was given a unit. -/
structure Return where
  thread : ThreadId
  err : Err
  granted : Bool
deriving DecidableEq, Repr

/-- `base` is the value the semaphore was last set to; `released` and `taken` count the
successful releases and takes since then, a take to which a unit is handed over when it is.
`granted` says which of the takes that wait were handed a unit. -/
structure Ledger where
  base : Nat
  released : Nat
  taken : Nat
  granted : ThreadId → Bool
  returns : List Return

/-- `taking` says which threads are inside `rt_sem_take`, behind its call of `rt_schedule`. -/
structure SemSys where
  sem : Sem
  taking : ThreadId → Bool
  ledger : Ledger

inductive Event
  | take (t : ThreadId) (timeout : BitVec 32)
  | woken (t : ThreadId)
  | release
  | timeout (t : ThreadId)
  | control (cmd : Int) (arg : BitVec 64)
  | priority (t : ThreadId) (p : Nat)
  | other (t : ThreadId) (x : Thread)

/-- A thread calls, or goes on, while it is not suspended; its timer runs out while it is
active; and what it does elsewhere, it does outside `rt_sem_take`. -/
def Enabled (s : SemSys) : Event → Prop
  | .take t _ => s.taking t = false ∧ (s.sem.threads t).suspended = false
  | .woken t => s.taking t = true ∧ (s.sem.threads t).suspended = false
  | .timeout t => s.taking t = true ∧ (s.sem.threads t).timer = true
  | .other t _ => s.taking t = false
  | _ => True

def count (e : Err) : Nat := if e = .eok then 1 else 0

/-- A take returns at once, with a unit if it took one off `value`. -/
def Ledger.took (l : Ledger) (t : ThreadId) (e : Err) (value value' : BitVec 16) : Ledger :=
  { l with taken := l.taken + count e, returns := ⟨t, e, value' ≠ value⟩ :: l.returns }

/-- A release, which hands the unit to the thread that waits first. -/
def Ledger.release (l : Ledger) (e : Err) : List ThreadId → Ledger
  | [] => { l with released := l.released + count e }
  | t :: _ =>
      { l with
        released := l.released + count e
        taken := l.taken + 1
        granted := Function.update l.granted t true }

def step (s : SemSys) : Event → Except Fault SemSys
  | .take t timeout => do
      let (sem, r) ← rtSemTake s.sem t timeout
      match r with
      | some e => pure { s with sem := sem, ledger := s.ledger.took t e s.sem.value sem.value }
      | none =>
          pure
            { sem := sem
              taking := Function.update s.taking t true
              ledger := { s.ledger with granted := Function.update s.ledger.granted t false } }
  | .woken t =>
      let e := rtSemTakeWoken s.sem t
      pure
        { s with
          taking := Function.update s.taking t false
          ledger :=
            { s.ledger with returns := ⟨t, e, s.ledger.granted t⟩ :: s.ledger.returns } }
  | .release =>
      let (sem, e) := rtSemRelease s.sem
      pure { s with sem := sem, ledger := s.ledger.release e s.sem.suspendThread }
  | .timeout t => do
      let sem ← semTimeout s.sem t
      pure { s with sem := sem }
  | .control cmd arg => do
      let (sem, e) ← rtSemControl s.sem cmd arg
      let ledger :=
        if e = .eok then { s.ledger with base := sem.value.toNat, released := 0, taken := 0 }
        else s.ledger
      pure { s with sem := sem, ledger := ledger }
  | .priority t p =>
      pure
        { s with
          sem := { s.sem with
            threads := modify s.sem.threads t fun x => { x with currentPriority := p } } }
  | .other t x =>
      pure { s with sem := { s.sem with threads := Function.update s.sem.threads t x } }

/-- `rt_sem_init`, among threads in any state. -/
def init (threads : Threads) (value : BitVec 16) (flag : Flag) : SemSys where
  sem := ⟨threads, value, flag, []⟩
  taking := fun _ => false
  ledger := ⟨value.toNat, 0, 0, fun _ => false, []⟩

/-- Units are conserved. -/
structure Conserved (s : SemSys) : Prop where
  at_rest : 0 < s.sem.value → s.sem.suspendThread = []
  balance : s.ledger.base + s.ledger.released = s.ledger.taken + s.sem.value.toNat
  returns : ∀ r ∈ s.ledger.returns, r.err = .eok ↔ r.granted = true

/-- A thread that waits has no unit yet and no error; one that was woken has a unit or an
error, and its timer is off. -/
def ThreadOk (x : Thread) (taking granted : Bool) : Prop :=
  taking = true →
    if x.suspended then x.error = .eok ∧ granted = false
    else x.timer = false ∧ (x.error = .eok ↔ granted = true)

structure Inv (s : SemSys) : Prop where
  conserved : Conserved s
  parked : Parked s.sem.threads s.sem.suspendThread fun t => s.taking t = true
  threads : ∀ t, ThreadOk (s.sem.threads t) (s.taking t) (s.ledger.granted t)

section Steps

variable {s : SemSys} {t : ThreadId}

/-- A return is recorded. -/
theorem Conserved.cons {value : BitVec 16} {taken : Nat} {granted : ThreadId → Bool}
    {sem : Sem} {taking : ThreadId → Bool} {r : Return} (h : Conserved s)
    (hrest : 0 < value → sem.suspendThread = []) (hvalue : sem.value = value)
    (hbalance : s.ledger.base + s.ledger.released = taken + value.toNat)
    (hr : r.err = .eok ↔ r.granted = true) :
    Conserved ⟨sem, taking, { s.ledger with
      taken := taken, granted := granted, returns := r :: s.ledger.returns }⟩ := by
  subst hvalue
  refine ⟨hrest, hbalance, ?_⟩
  intro r' hr'
  rcases List.mem_cons.mp hr' with rfl | hr'
  · exact hr
  · exact h.returns r' hr'

private theorem take_inv (hs : Inv s) (hrun : (s.sem.threads t).suspended = false)
    (timeout : BitVec 32) :
    Meets (· = .assertion) Inv (step s (.take t timeout)) := by
  rw [step, rtSemTake]
  by_cases hpos : 0 < s.sem.value
  · -- a unit is there
    rw [if_pos hpos]
    have hsub : (s.sem.value - 1).toNat = s.sem.value.toNat - 1 := by bv_omega
    have hne : s.sem.value - 1 ≠ s.sem.value := by bv_omega
    have hpos' : 0 < s.sem.value.toNat := by bv_omega
    have hbalance := hs.conserved.balance
    refine ⟨hs.conserved.cons (fun _ => hs.conserved.at_rest hpos) rfl ?_
      ⟨fun _ => decide_eq_true hne, fun _ => rfl⟩, hs.parked, hs.threads⟩
    rw [hsub]
    simp only [count, if_pos]
    omega
  · rw [if_neg hpos]
    by_cases hzero : timeout = 0
    · -- none, and no waiting
      rw [if_pos hzero]
      exact ⟨hs.conserved.cons hs.conserved.at_rest rfl hs.conserved.balance (by simp), hs.parked,
        hs.threads⟩
    · -- the thread waits
      rw [if_neg hzero]
      have hrun' : (setError s.sem.threads t .eok t).suspended = false := by
        rw [setError_self]
        exact hrun
      simp only [bind_assoc]
      refine (block_meets hrun').bind ?_
      rintro threads ⟨b, rfl⟩
      rw [setError, modify_modify]
      have htaking : ∀ u, Function.update s.taking t true u = true ↔ u = t ∨ s.taking u = true := by
        intro u
        by_cases hu : u = t
        · simp [hu]
        · simp [hu]
      refine ⟨⟨fun h => absurd h hpos, hs.conserved.balance, hs.conserved.returns⟩,
        hs.parked.insert hrun (fun _ hu => by simp only [modify_of_ne hu])
          (by simp only [modify_self]) htaking, ?_⟩
      · refine forall_of_ne t hs.threads (fun u hu h => ?_) ?_
        · simpa only [modify_of_ne hu, Function.update_of_ne hu] using h
        · simp [ThreadOk]

theorem woken_inv (hs : Inv s) (htake : s.taking t = true)
    (hrun : (s.sem.threads t).suspended = false) :
    Meets (· = .assertion) Inv (step s (.woken t)) := by
  have hthread := hs.threads t htake
  rw [hrun] at hthread
  have hreturn : rtSemTakeWoken s.sem t = (s.sem.threads t).error := by
    rw [rtSemTakeWoken]
    split
    · rfl
    · rename_i heok
      exact (not_not.mp heok).symm
  refine ⟨hs.conserved.cons hs.conserved.at_rest rfl hs.conserved.balance ?_, ?_, ?_⟩
  · rw [hreturn]
    exact hthread.2
  · refine hs.parked.congr fun u => ?_
    by_cases hu : u = t
    · simp [hu, hrun]
    · simp [hu]
  · refine forall_of_ne t hs.threads (fun u hu h => ?_) ?_
    · simpa only [Function.update_of_ne hu] using h
    · simp [ThreadOk]

private theorem release_inv (hs : Inv s) : Meets (· = .assertion) Inv (step s .release) := by
  rw [step, rtSemRelease]
  have hbalance := hs.conserved.balance
  cases hlist : s.sem.suspendThread with
  | nil =>
      rw [if_neg (by simp)]
      by_cases hmax : s.sem.value < semValueMax
      · -- nobody waits
        rw [if_pos hmax]
        have hadd : (s.sem.value + 1).toNat = s.sem.value.toNat + 1 := by
          rw [semValueMax] at hmax
          bv_omega
        have hparked := hs.parked
        rw [hlist] at hparked
        refine ⟨⟨fun _ => rfl, ?_, hs.conserved.returns⟩, hparked, hs.threads⟩
        show s.ledger.base + (s.ledger.released + count .eok) =
          s.ledger.taken + (s.sem.value + 1).toNat
        rw [hadd]
        simp only [count, if_pos]
        omega
      · rw [if_neg hmax]
        exact ⟨⟨hs.conserved.at_rest, hbalance, hs.conserved.returns⟩, hs.parked, hs.threads⟩
  | cons t list =>
      -- the unit goes to the first thread, and `value` stays zero
      rw [if_pos (by simp)]
      have hparked := hs.parked
      rw [hlist] at hparked
      rw [hparked.resume_eq]
      have hwaits := (hparked.mem_iff t).mp (List.mem_cons_self ..)
      have hthread := hs.threads t hwaits.1
      rw [hwaits.2] at hthread
      refine ⟨⟨?_, ?_, hs.conserved.returns⟩, hparked.resume, ?_⟩
      · intro hpos
        rw [hs.conserved.at_rest hpos] at hlist
        cases hlist
      · show s.ledger.base + (s.ledger.released + count .eok) =
          s.ledger.taken + 1 + s.sem.value.toNat
        simp only [count, if_pos]
        omega
      · refine forall_of_ne t hs.threads (fun u hu h => ?_) ?_
        · simpa only [Ledger.release, wake_of_ne hu, Function.update_of_ne hu] using h
        · have herror : (s.sem.threads t).error = .eok := hthread.1
          simp [ThreadOk, Ledger.release, herror]

theorem timeout_inv (hs : Inv s) (htake : s.taking t = true)
    (htimer : (s.sem.threads t).timer = true) :
    Meets (· = .assertion) Inv (step s (.timeout t)) := by
  have hthread := hs.threads t htake
  cases hsusp : (s.sem.threads t).suspended with
  | false =>
      rw [hsusp] at hthread
      have hoff : (s.sem.threads t).timer = false := hthread.1
      rw [htimer] at hoff
      cases hoff
  | true =>
      rw [hsusp] at hthread
      rw [step, semTimeout, threadTimeout, hsusp, setError, wake, modify_modify]
      refine ⟨⟨fun hpos => ?_, hs.conserved.balance, hs.conserved.returns⟩,
        hs.parked.erase (fun _ hu => by simp only [modify_of_ne hu])
          (by simp only [modify_self]), ?_⟩
      · have hnil : s.sem.suspendThread = [] := hs.conserved.at_rest hpos
        show s.sem.suspendThread.erase t = []
        rw [hnil]
        rfl
      · refine forall_of_ne t hs.threads (fun u hu h => ?_) ?_
        · simpa only [modify_of_ne hu] using h
        · have hgranted : s.ledger.granted t = false := hthread.2
          simp [ThreadOk, hgranted]

theorem control_inv (hs : Inv s) (cmd : Int) (arg : BitVec 64) :
    Meets (· = .assertion) Inv (step s (.control cmd arg)) := by
  rw [step, rtSemControl]
  by_cases hcmd : cmd = ipcCmdReset
  · rw [if_pos hcmd]
    obtain ⟨threads, hall, hparked, hin, hout⟩ := hs.parked.resumeAll
    rw [hall]
    refine ⟨⟨fun _ => rfl, ?_, hs.conserved.returns⟩, hparked, fun t => ?_⟩
    · show (arg.setWidth 16).toNat + 0 = 0 + (arg.setWidth 16).toNat
      omega
    · show ThreadOk (threads t) (s.taking t) (s.ledger.granted t)
      by_cases hmem : t ∈ s.sem.suspendThread
      · -- a thread that waited returns with the error it is given
        have hwaits := (hs.parked.mem_iff t).mp hmem
        have hthread := hs.threads t hwaits.1
        rw [hwaits.2] at hthread
        have hgranted : s.ledger.granted t = false := hthread.2
        rw [hin t hmem]
        simp [ThreadOk, hgranted]
      · rw [hout t hmem]
        exact hs.threads t
  · rw [if_neg hcmd]
    exact ⟨⟨hs.conserved.at_rest, hs.conserved.balance, hs.conserved.returns⟩, hs.parked,
      hs.threads⟩

theorem step_inv (s : SemSys) (e : Event) (hs : Inv s) (he : Enabled s e) :
    Meets (· = .assertion) Inv (step s e) := by
  cases e with
  | take t timeout => exact take_inv hs he.2 timeout
  | woken t => exact woken_inv hs he.1 he.2
  | release => exact release_inv hs
  | timeout t => exact timeout_inv hs he.1 he.2
  | control cmd arg => exact control_inv hs cmd arg
  | priority t p =>
      refine ⟨⟨hs.conserved.at_rest, hs.conserved.balance, hs.conserved.returns⟩,
        hs.parked.change (t := t) (fun _ hu => by simp only [modify_of_ne hu]) fun _ => by
          simp only [modify_self], ?_⟩
      refine forall_of_ne t hs.threads (fun u hu h => ?_) ?_
      · simpa only [modify_of_ne hu] using h
      · have hthread := hs.threads t
        show ThreadOk (modify s.sem.threads t _ t) (s.taking t) (s.ledger.granted t)
        rw [modify_self]
        exact hthread
  | other t x =>
      have hidle : s.taking t = false := he
      refine ⟨⟨hs.conserved.at_rest, hs.conserved.balance, hs.conserved.returns⟩, ?_, ?_⟩
      · refine hs.parked.congr fun u => ?_
        by_cases hu : u = t
        · simp [hu, hidle]
        · simp [hu]
      · refine forall_of_ne t hs.threads (fun u hu h => ?_) ?_
        · simpa only [Function.update_of_ne hu] using h
        · intro htake
          rw [hidle] at htake
          cases htake

end Steps

theorem init_inv (threads : Threads) (value : BitVec 16) (flag : Flag) :
    Inv (init threads value flag) := by
  refine ⟨⟨fun _ => rfl, ?_, ?_⟩, Parked.nil (fun _ h => by cases h), ?_⟩
  · show value.toNat + 0 = 0 + value.toNat
    omega
  · intro r hr
    cases hr
  · intro t htake
    cases htake

/-- A release that finds `value` at its limit and nobody waiting is an error and changes
nothing; no other release fails. -/
def OverRelease (s : Sem) : Prop :=
  if s.suspendThread = [] ∧ s.value = semValueMax then rtSemRelease s = (s, .efull)
  else (rtSemRelease s).2 = .eok

private theorem overRelease (s : Sem) : OverRelease s := by
  rw [OverRelease]
  by_cases hlist : s.suspendThread = []
  · by_cases hmax : s.value = semValueMax
    · rw [if_pos ⟨hlist, hmax⟩, rtSemRelease, hlist, hmax]
      rfl
    · have hlt : s.value < semValueMax := by
        rw [semValueMax] at hmax ⊢
        bv_omega
      rw [if_neg fun h => hmax h.2, rtSemRelease, if_neg (by simpa using hlist), if_pos hlt]
  · rw [if_neg fun h => hlist h.1, rtSemRelease, if_pos hlist]

/-- **Every run.**  Units are conserved, and each take that returned did so successfully if and
only if it was given one; a run stops only at a waiting time that the timer does not take. -/
theorem sem_conserved (threads : Threads) (value : BitVec 16) (flag : Flag) (es : List Event)
    (hes : Guarded step Enabled (init threads value flag) es) :
    Meets (· = .assertion) (fun s => Conserved s ∧ OverRelease s.sem)
      (run step (init threads value flag) es) :=
  (run_meets step_inv (init_inv threads value flag) hes).mono fun s hs =>
    ⟨hs.conserved, overRelease s.sem⟩

/-- A thread that waits and is handed the unit. -/
theorem sem_conserved_handover : ∃ s, run step
    (init (fun _ => ⟨false, 10, .eok, false, 0, 0⟩) 0 .prio)
    [.take 1 5, .release, .woken 1] = .ok s ∧ Conserved s ∧ OverRelease s.sem := by
  have hes : Guarded step Enabled (init (fun _ => ⟨false, 10, .eok, false, 0, 0⟩) 0 .prio)
      [.take 1 5, .release, .woken 1] := by
    refine ⟨⟨rfl, rfl⟩, fun s₁ h₁ => ⟨trivial, fun s₂ h₂ => ⟨?_, fun _ _ => trivial⟩⟩⟩
    rw [← Except.ok.inj h₁] at h₂
    rw [← Except.ok.inj h₂]
    exact ⟨rfl, rfl⟩
  have hreturns : (run step (init (fun _ => ⟨false, 10, .eok, false, 0, 0⟩) 0 .prio)
      [.take 1 5, .release, .woken 1]).map (fun s => s.ledger.returns) =
      .ok [⟨1, .eok, true⟩] := by decide
  obtain ⟨s, hrun, -⟩ := exists_of_map_eq_ok hreturns
  exact ⟨s, hrun, (sem_conserved _ _ _ _ hes).of_ok hrun⟩

end RtHypervisor.Ports.Semaphore
