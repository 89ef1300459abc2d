import RtHypervisor.Ports.TimerRun

/-!
# What `rt_timer_control` tells

The timers are seen here one action at a time, so that a control command may come anywhere,
also while a timeout function runs: a round of a check is cut in two, `enter` up to the call
of the timeout function and `leave` after it, and what happens in between is any sequence of
actions.  `step_acts` says that a run of the checks as `timer.c` has them is such a sequence.

Two things are right whatever the order of the actions.  `getRemainTime` stores the tick at
which a check finds the timer expired, and the flag `getState` looks at agrees with the timer
list (`flags_right`), as long as no timeout function turns its own timer into a one-shot
timer.  But `getState` runs on into `getRemainTime`, which overwrites the answer.
-/

namespace RtHypervisor.Ports.Timer

open RtHypervisor.Verified.Run
open RtHypervisor.Verified.SkipList

/-! ## Actions -/

/-- The timers, and the timer whose timeout function a check is running. -/
structure Checks where
  sys : TimerSys
  running : Kind → Option TimerId

inductive Act
  | init (t : TimerId) (kind : Kind) (obj : ObjClass) (time : Tick) (periodic : Bool)
  | call (c : Call)
  | control (t : TimerId) (cmd : Ctrl)
  | tick
  | begin (k : Kind)
  | enter (k : Kind)
  | leave (k : Kind)

/-- One action.  A check that is running a timeout function does not enter another round, and
one that is not has none to leave. -/
def act (c : Checks) : Act → Except Fault Checks
  | .init t kind obj time periodic => do
      let s ← rtTimerInit c.sys t kind obj time periodic
      pure { c with sys := s }
  | .call x => do
      let s ← exec c.sys x
      pure { c with sys := s }
  | .control t cmd => do
      let (s, _) ← rtTimerControl c.sys t cmd
      pure { c with sys := s }
  | .tick => pure { c with sys := tickIncrease c.sys }
  | .begin k =>
      if c.running k = none then
        pure { c with sys := { c.sys with temp := Function.update c.sys.temp k [] } }
      else pure c
  | .enter k =>
      match c.running k, linked c.sys k with
      | none, t :: _ =>
          if expired c.sys t then
            pure { sys := takeOut c.sys k t, running := Function.update c.running k (some t) }
          else pure c
      | _, _ => pure c
  | .leave k =>
      match c.running k with
      | none => pure c
      | some t => do
          let s ← putBack c.sys k t
          pure { sys := s, running := Function.update c.running k none }

def idle : Kind → Option TimerId := fun _ => none

/-! ## Checks are sequences of actions -/

section Acts

variable {c : Checks} {s s' : TimerSys} {k : Kind} {running : Kind → Option TimerId}

/-- A round of a check, with whatever its timeout function does. -/
theorem checkLoop_acts {χ : Type} {run1 : TimerSys → χ → Except Fault TimerSys}
    {calls : Nat → TimerSys → List χ}
    (hrun1 : ∀ s x s' t, run1 s x = .ok s' → ∃ as,
      run act ⟨s, Function.update running k (some t)⟩ as =
        .ok ⟨s', Function.update running k (some t)⟩)
    {fuel i : Nat} {fired : List (TimerId × List χ)} (hidle : running k = none)
    (h : checkLoop run1 calls k fuel i s = .ok (s', fired)) :
    ∃ as, run act ⟨s, running⟩ as = .ok ⟨s', running⟩ := by
  have hcalls : ∀ (xs : List χ) (s s' : TimerSys) (t : TimerId), run run1 s xs = .ok s' →
      ∃ as, run act ⟨s, Function.update running k (some t)⟩ as =
        .ok ⟨s', Function.update running k (some t)⟩ := by
    intro xs
    induction xs with
    | nil =>
        intro s s' t hrun
        cases hrun
        exact ⟨[], rfl⟩
    | cons x xs ih =>
        intro s s' t hrun
        obtain ⟨s₁, hx, hrest⟩ := run_cons_eq_ok hrun
        obtain ⟨as, has⟩ := hrun1 s x s₁ t hx
        obtain ⟨bs, hbs⟩ := ih s₁ s' t hrest
        exact ⟨as ++ bs, by rw [run_append_ok has, hbs]⟩
  induction fuel generalizing i s fired with
  | zero => cases h
  | succ fuel ih =>
      rw [checkLoop] at h
      split at h
      · cases pure_eq_ok.mp h
        exact ⟨[], rfl⟩
      · rename_i t rest hlinked
        by_cases hexp : expired s t = true
        · rw [if_pos hexp] at h
          obtain ⟨s₁, hrun, h⟩ := bind_eq_ok.mp h
          obtain ⟨s₂, hback, h⟩ := bind_eq_ok.mp h
          obtain ⟨⟨s₃, fired'⟩, hloop, hret⟩ := bind_eq_ok.mp h
          cases pure_eq_ok.mp hret
          have henter : act ⟨s, running⟩ (.enter k) =
              .ok ⟨takeOut s k t, Function.update running k (some t)⟩ := by
            simp only [act, hidle, hlinked, hexp, if_true]
            rfl
          obtain ⟨as, has⟩ := hcalls _ _ _ t hrun
          have hleave : act ⟨s₁, Function.update running k (some t)⟩ (.leave k) =
              .ok ⟨s₂, running⟩ := by
            simp only [act, Function.update_self, hback, ok_bind, Function.update_idem]
            rw [← hidle, Function.update_eq_self]
            rfl
          obtain ⟨bs, hbs⟩ := ih hloop
          refine ⟨.enter k :: (as ++ .leave k :: bs), ?_⟩
          rw [run_cons_ok henter, run_append_ok has, run_cons_ok hleave, hbs]
        · rw [if_neg hexp] at h
          cases pure_eq_ok.mp h
          exact ⟨[], rfl⟩

private theorem rtTimerCheck_acts {calls : Nat → TimerSys → List Call} {fuel : Nat}
    {fired : List (TimerId × List Call)} (hidle : running .hard = none)
    (h : rtTimerCheck calls fuel s = .ok (s', fired)) :
    ∃ as, run act ⟨s, running⟩ as = .ok ⟨s', running⟩ := by
  have hbegin : act ⟨s, running⟩ (.begin .hard) =
      .ok ⟨{ s with temp := Function.update s.temp .hard [] }, running⟩ := by
    simp only [act, hidle, if_true]
    rfl
  have hcall : ∀ s x s' t, exec s x = .ok s' → ∃ as,
      run act ⟨s, Function.update running .hard (some t)⟩ as =
        .ok ⟨s', Function.update running .hard (some t)⟩ := by
    intro s x s' t hx
    refine ⟨[.call x], ?_⟩
    simp only [run, act, hx, ok_bind]
    rfl
  obtain ⟨as, has⟩ := checkLoop_acts hcall hidle h
  exact ⟨.begin .hard :: as, by rw [run_cons_ok hbegin, has]⟩

private theorem rtSoftTimerCheck_acts {calls : Nat → TimerSys → List SoftCall} {fuel : Nat}
    {fired : List (TimerId × List SoftCall)} (hidle : ∀ k, running k = none)
    (h : rtSoftTimerCheck calls fuel s = .ok (s', fired)) :
    ∃ as, run act ⟨s, running⟩ as = .ok ⟨s', running⟩ := by
  have hbegin : act ⟨s, running⟩ (.begin .soft) =
      .ok ⟨{ s with temp := Function.update s.temp .soft [] }, running⟩ := by
    simp only [act, hidle, if_true]
    rfl
  have hcall : ∀ s x s' t, softExec s x = .ok s' → ∃ as,
      run act ⟨s, Function.update running .soft (some t)⟩ as =
        .ok ⟨s', Function.update running .soft (some t)⟩ := by
    intro s x s' t hx
    cases x with
    | call x =>
        refine ⟨[.call x], ?_⟩
        have hx' : exec s x = .ok s' := hx
        simp only [run, act, hx', ok_bind]
        rfl
    | tick =>
        cases hx
        exact ⟨[.tick], rfl⟩
    | check fuel calls =>
        obtain ⟨⟨s₁, fired⟩, hcheck, hret⟩ := bind_eq_ok.mp hx
        cases pure_eq_ok.mp hret
        refine rtTimerCheck_acts ?_ hcheck
        rw [Function.update_of_ne (by decide)]
        exact hidle .hard
  obtain ⟨as, has⟩ := checkLoop_acts hcall (hidle .soft) h
  exact ⟨.begin .soft :: as, by rw [run_cons_ok hbegin, has]⟩

/-- **Every event is a sequence of actions.** -/
theorem step_acts {e : Event} (h : step s e = .ok s') :
    ∃ as, run act ⟨s, idle⟩ as = .ok ⟨s', idle⟩ := by
  cases e with
  | init t kind obj time periodic =>
      refine ⟨[.init t kind obj time periodic], ?_⟩
      have hx : rtTimerInit s t kind obj time periodic = .ok s' := h
      simp only [run, act, hx, ok_bind]
      rfl
  | call x =>
      refine ⟨[.call x], ?_⟩
      have hx : exec s x = .ok s' := h
      simp only [run, act, hx, ok_bind]
      rfl
  | control t cmd =>
      obtain ⟨⟨s₁, out⟩, hcmd, hret⟩ := bind_eq_ok.mp h
      cases pure_eq_ok.mp hret
      refine ⟨[.control t cmd], ?_⟩
      simp only [run, act, hcmd, ok_bind]
      rfl
  | tick =>
      cases h
      exact ⟨[.tick], rfl⟩
  | check fuel calls =>
      obtain ⟨⟨s₁, fired⟩, hcheck, hret⟩ := bind_eq_ok.mp h
      cases pure_eq_ok.mp hret
      exact rtTimerCheck_acts rfl hcheck
  | softCheck fuel calls =>
      obtain ⟨⟨s₁, fired⟩, hcheck, hret⟩ := bind_eq_ok.mp h
      cases pure_eq_ok.mp hret
      exact rtSoftTimerCheck_acts (fun _ => rfl) hcheck

end Acts

/-! ## The flag and the lists -/

/-- What the actions keep: the rows of the lists, and for each timer that its flag says
whether it is linked.  A periodic timer is active while its timeout function runs, though it
is on the temporary list only. -/
structure Booked (c : Checks) : Prop where
  stacked : ∀ k, Stacked (c.sys.lists k)
  active : ∀ k, ∀ t ∈ linked c.sys k, (c.sys.timers t).activated = true ∧
    (c.sys.timers t).kind = k ∧ (c.sys.timers t).obj ≠ .none
  held : ∀ t, (c.sys.timers t).activated = true → t ∈ linked c.sys (c.sys.timers t).kind ∨
    t ∈ c.sys.temp (c.sys.timers t).kind ∧ (c.sys.timers t).periodic = true
  temp : ∀ k, c.sys.temp k = [] ∨ ∃ t, c.running k = some t ∧ c.sys.temp k = [t] ∧
    (c.sys.timers t).kind = k ∧ (c.sys.timers t).obj ≠ .none ∧ t ∉ linked c.sys k

/-- Timers are initialised where there is no timer, and a timeout function does not make its
own timer a one-shot timer. -/
def Ordinary (c : Checks) : Act → Prop
  | .init t _ _ _ _ => (c.sys.timers t).obj = .none
  | .control t .setOneshot => ∀ k, c.running k ≠ some t
  | _ => True

section Booked

variable {c c' : Checks} {s s' : TimerSys} {t u : TimerId} {k : Kind}
  {running running' : Kind → Option TimerId}

theorem Booked.nodup (h : Booked c) (k : Kind) : (linked c.sys k).Nodup :=
  (h.stacked k).nodup _ (by simp [linked])

/-- A timer on a temporary list is linked nowhere. -/
theorem Booked.apart (h : Booked c) (ht : t ∈ c.sys.temp k) :
    (c.sys.timers t).kind = k ∧ (c.sys.timers t).obj ≠ .none ∧ ∀ j, t ∉ linked c.sys j := by
  rcases h.temp k with hnil | ⟨u, -, htemp, hkind, hobj, hout⟩
  · rw [hnil] at ht
    cases ht
  · rw [htemp, List.mem_singleton] at ht
    subst ht
    refine ⟨hkind, hobj, fun j hj => hout ?_⟩
    rw [← hkind, (h.active j t hj).2.1]
    exact hj

/-- Taking a timer out, with its flag cleared. -/
theorem Booked.without (h : Booked ⟨s, running⟩) {f : RtTimer → RtTimer}
    (hidle : ∀ x, (f x).activated = false) :
    Booked ⟨setTimer (timerRemove s t) t f, running⟩ ∧
      (∀ j, t ∉ linked (setTimer (timerRemove s t) t f) j) ∧
      ∀ j, t ∉ (setTimer (timerRemove s t) t f).temp j := by
  have hmem : ∀ j u, u ∈ linked (setTimer (timerRemove s t) t f) j ↔ u ≠ t ∧ u ∈ linked s j :=
    fun j u => (h.nodup j).mem_erase_iff
  have hnodup : ∀ j, (s.temp j).Nodup := by
    intro j
    rcases h.temp j with hnil | ⟨u, -, htemp, -⟩
    · have hnil : s.temp j = [] := hnil
      rw [hnil]
      exact List.nodup_nil
    · have htemp : s.temp j = [u] := htemp
      rw [htemp]
      exact List.nodup_singleton u
  have hmemTemp : ∀ j u, u ∈ (setTimer (timerRemove s t) t f).temp j ↔ u ≠ t ∧ u ∈ s.temp j :=
    fun j u => (hnodup j).mem_erase_iff
  have hother : ∀ u, u ≠ t → (setTimer (timerRemove s t) t f).timers u = s.timers u :=
    fun u hu => setTimer_of_ne hu f
  refine ⟨⟨fun j => (h.stacked j).remove t, ?_, ?_, ?_⟩, ?_, ?_⟩
  · intro j u hu
    obtain ⟨hne, hu⟩ := (hmem j u).mp hu
    rw [hother u hne]
    exact h.active j u hu
  · intro u hu
    have hne : u ≠ t := by
      rintro rfl
      rw [setTimer_self, hidle] at hu
      cases hu
    rw [hother u hne] at hu ⊢
    rcases h.held u hu with hin | ⟨hin, hper⟩
    · exact Or.inl ((hmem _ u).mpr ⟨hne, hin⟩)
    · exact Or.inr ⟨(hmemTemp _ u).mpr ⟨hne, hin⟩, hper⟩
  · intro j
    rcases h.temp j with hnil | ⟨u, hrun, htemp, hkind, hobj, hout⟩
    · left
      have hnil : s.temp j = [] := hnil
      show (s.temp j).erase t = []
      rw [hnil]
      rfl
    · have htemp : s.temp j = [u] := htemp
      by_cases hu : u = t
      · left
        show (s.temp j).erase t = []
        rw [htemp, hu]
        simp
      · right
        refine ⟨u, hrun, ?_, ?_, ?_, ?_⟩
        · show (s.temp j).erase t = [u]
          rw [htemp, List.erase_of_not_mem (by simpa using Ne.symm hu)]
        · rw [hother u hu]
          exact hkind
        · rw [hother u hu]
          exact hobj
        · exact fun hin => hout ((hmem j u).mp hin).2
  · exact fun j hj => ((hmem j t).mp hj).1 rfl
  · exact fun j hj => ((hmemTemp j t).mp hj).1 rfl

/-- Starting a timer that is nowhere. -/
theorem Booked.started (h : Booked ⟨s, running⟩) (hl : ∀ j, t ∉ linked s j)
    (ht : ∀ j, t ∉ s.temp j) (hobj : (s.timers t).obj ≠ .none) :
    Booked ⟨started s t, running⟩ := by
  have hlist : (Timer.started s t).lists (s.timers t).kind =
      insertRows (passes s (s.tick + (s.timers t).initTick)) t
        (height (s.randomNr + 1) (s.lists (s.timers t).kind).upper.length)
        (s.lists (s.timers t).kind).upper (s.lists (s.timers t).kind).bottom none :=
    Function.update_self ..
  have hins : Stacked (insertRows (passes s (s.tick + (s.timers t).initTick)) t
        (height (s.randomNr + 1) (s.lists (s.timers t).kind).upper.length)
        (s.lists (s.timers t).kind).upper (s.lists (s.timers t).kind).bottom none) ∧ _ :=
    (h.stacked (s.timers t).kind).insertRows (hl (s.timers t).kind) _
  have hmem : ∀ j u, u ∈ linked (Timer.started s t) j ↔
      u ∈ linked s j ∨ u = t ∧ j = (s.timers t).kind := by
    intro j u
    by_cases hj : j = (s.timers t).kind
    · rw [hj]
      unfold linked
      rw [hlist, hins.2.mem_iff, List.mem_cons]
      tauto
    · unfold linked
      rw [started_lists_of_ne hj]
      tauto
  have hne : ∀ j u, u ∈ linked s j → u ≠ t := by
    rintro j u hu rfl
    exact hl j hu
  refine ⟨?_, ?_, ?_, ?_⟩
  · intro j
    by_cases hj : j = (s.timers t).kind
    · rw [hj, hlist]
      exact hins.1
    · rw [started_lists_of_ne hj]
      exact h.stacked j
  · intro j u hu
    rcases (hmem j u).mp hu with hu | ⟨rfl, rfl⟩
    · rw [started_of_ne (hne j u hu)]
      exact h.active j u hu
    · rw [started_self]
      exact ⟨rfl, rfl, hobj⟩
  · intro u hu
    by_cases heq : u = t
    · subst heq
      left
      rw [started_self]
      exact (hmem _ u).mpr (Or.inr ⟨rfl, rfl⟩)
    · rw [started_of_ne heq] at hu ⊢
      rcases h.held u hu with hin | hin
      · exact Or.inl ((hmem _ u).mpr (Or.inl hin))
      · exact Or.inr hin
  · intro j
    rcases h.temp j with hnil | ⟨u, hrun, htemp, hkind, hobj', hout⟩
    · exact Or.inl hnil
    · right
      have hu : u ≠ t := by
        rintro rfl
        have htemp : s.temp j = [u] := htemp
        exact ht j (by rw [htemp]; exact List.mem_singleton_self u)
      refine ⟨u, hrun, htemp, ?_, ?_, ?_⟩
      · rw [started_of_ne hu]
        exact hkind
      · rw [started_of_ne hu]
        exact hobj'
      · intro hin
        rcases (hmem j u).mp hin with hin | ⟨heq, -⟩
        · exact hout hin
        · exact hu heq

theorem Booked.rtTimerStart (h : Booked ⟨s, running⟩) (hrun : rtTimerStart s t = .ok s') :
    Booked ⟨s', running⟩ := by
  obtain ⟨hobj, rfl⟩ := rtTimerStart_eq_ok hrun
  obtain ⟨hbooked, hl, ht⟩ :=
    h.without (t := t) (f := fun x => { x with activated := false }) (fun _ => rfl)
  refine hbooked.started hl ht ?_
  rw [setTimer_self]
  exact hobj

theorem Booked.exec (h : Booked ⟨s, running⟩) {x : Call} (hrun : exec s x = .ok s') :
    Booked ⟨s', running⟩ := by
  have hdrop : ∀ t obj, dropObject s t obj = .ok s' → Booked ⟨s', running⟩ := by
    intro t obj hdrop
    obtain ⟨-, -, hret⟩ := bind_eq_ok.mp hdrop
    cases pure_eq_ok.mp hret
    exact (h.without (fun _ => rfl)).1
  cases x with
  | start t => exact h.rtTimerStart hrun
  | stop t =>
      obtain ⟨-, -, hret⟩ := bind_eq_ok.mp hrun
      split at hret
      · cases pure_eq_ok.mp hret
        exact (h.without (fun _ => rfl)).1
      · cases pure_eq_ok.mp hret
        exact h
  | detach t => exact hdrop t .static hrun
  | delete t => exact hdrop t .dynamic hrun

/-- Fields that the lists do not depend on. -/
theorem Booked.setTimer (h : Booked ⟨s, running⟩) {f : RtTimer → RtTimer}
    (hact : ∀ x, (f x).activated = x.activated) (hkind : ∀ x, (f x).kind = x.kind)
    (hobj : ∀ x, (f x).obj = x.obj)
    (hper : (f (s.timers t)).periodic = true ∨ (s.timers t).periodic = false ∨
      ∀ j, t ∉ s.temp j) : Booked ⟨setTimer s t f, running⟩ := by
  have hfield : ∀ {β : Type} (g : RtTimer → β), (∀ x, g (f x) = g x) →
      ∀ u, g ((Timer.setTimer s t f).timers u) = g (s.timers u) := by
    intro β g hg u
    by_cases hu : u = t
    · rw [hu, setTimer_self, hg]
    · rw [setTimer_of_ne hu]
  refine ⟨h.stacked, ?_, ?_, ?_⟩
  · intro j u hu
    rw [hfield RtTimer.activated hact, hfield RtTimer.kind hkind, hfield RtTimer.obj hobj]
    exact h.active j u hu
  · intro u hu
    rw [hfield RtTimer.activated hact] at hu
    rw [hfield RtTimer.kind hkind]
    rcases h.held u hu with hin | ⟨hin, hp⟩
    · exact Or.inl hin
    · refine Or.inr ⟨hin, ?_⟩
      by_cases heq : u = t
      · subst heq
        rw [setTimer_self]
        rcases hper with hper | hper | hper
        · exact hper
        · have hp : (s.timers u).periodic = true := hp
          rw [hper] at hp
          cases hp
        · exact absurd hin (hper _)
      · rw [setTimer_of_ne heq]
        exact hp
  · intro j
    rcases h.temp j with hnil | ⟨u, hrun, htemp, hk, ho, hout⟩
    · exact Or.inl hnil
    · right
      refine ⟨u, hrun, htemp, ?_, ?_, hout⟩
      · rw [hfield RtTimer.kind hkind]
        exact hk
      · rw [hfield RtTimer.obj hobj]
        exact ho

/-- A timer that is nowhere may be given any record, as long as it is not active. -/
theorem Booked.init (h : Booked ⟨s, running⟩) (hobj : (s.timers t).obj = .none)
    {f : RtTimer → RtTimer} (hidle : ∀ x, (f x).activated = false) :
    Booked ⟨Timer.setTimer s t f, running⟩ := by
  have hne : ∀ u, (s.timers u).obj ≠ .none → u ≠ t := by
    rintro u hu rfl
    exact hu hobj
  refine ⟨h.stacked, ?_, ?_, ?_⟩
  · intro j u hu
    have hu' := h.active j u hu
    rw [setTimer_of_ne (hne u hu'.2.2)]
    exact hu'
  · intro u hu
    by_cases heq : u = t
    · rw [heq, setTimer_self, hidle] at hu
      cases hu
    · rw [setTimer_of_ne heq] at hu ⊢
      exact h.held u hu
  · intro j
    rcases h.temp j with hnil | ⟨u, hrun, htemp, hk, ho, hout⟩
    · exact Or.inl hnil
    · right
      refine ⟨u, hrun, htemp, ?_, ?_, hout⟩
      · rw [setTimer_of_ne (hne u ho)]
        exact hk
      · rw [setTimer_of_ne (hne u ho)]
        exact ho

/-- The invariant reads the rows, the temporary lists and the timers only. -/
theorem Booked.congr (h : Booked ⟨s, running⟩) (hlists : s'.lists = s.lists)
    (htemp : s'.temp = s.temp) (htimers : s'.timers = s.timers) : Booked ⟨s', running⟩ := by
  have hlinked : linked s' = linked s := by
    funext k
    unfold linked
    rw [hlists]
  refine ⟨?_, ?_, ?_, ?_⟩
  · simp only [hlists]
    exact h.stacked
  · simp only [hlinked, htimers]
    exact h.active
  · simp only [hlinked, htimers, htemp]
    exact h.held
  · simp only [hlinked, htimers, htemp]
    exact h.temp

/-- A check that has left its round, with an empty temporary list. -/
theorem Booked.rest (h : Booked ⟨s, running⟩) (hnil : s.temp k = []) :
    Booked ⟨s, Function.update running k none⟩ := by
  refine ⟨h.stacked, h.active, h.held, fun j => ?_⟩
  by_cases hj : j = k
  · rw [hj]
    exact Or.inl hnil
  · rcases h.temp j with hnil | ⟨u, hrun, hu⟩
    · exact Or.inl hnil
    · refine Or.inr ⟨u, ?_, hu⟩
      simp only
      rw [Function.update_of_ne hj]
      exact hrun

theorem Booked.takeOut (h : Booked ⟨s, running⟩) (hidle : running k = none)
    (hlinked : t ∈ linked s k) :
    Booked ⟨takeOut s k t, Function.update running k (some t)⟩ := by
  obtain ⟨-, hkind, hobj⟩ := h.active k t hlinked
  obtain ⟨hw, hl, ht⟩ :=
    h.without (t := t) (f := fun x => { x with activated := false }) (fun _ => rfl)
  have hh := takeOut_holds hkind hobj
  generalize Timer.takeOut s k t = s' at hh ⊢
  generalize Timer.setTimer (timerRemove s t) t (fun x => { x with activated := false }) = w
    at hw hl ht hh
  have hnil : w.temp k = [] := by
    rcases hw.temp k with hnil | ⟨u, hrun, -⟩
    · exact hnil
    · have hrun : running k = some u := hrun
      rw [hidle] at hrun
      cases hrun
  have hsame : linked s' = linked w := by
    funext j
    unfold linked
    rw [hh.lists]
  have hself : s'.temp k = [t] := by rw [hh.temp, Function.update_self, hnil]
  have hother : ∀ j, j ≠ k → s'.temp j = w.temp j := fun j hj => by
    rw [hh.temp, Function.update_of_ne hj]
  have hne : ∀ j u, u ∈ linked w j → u ≠ t := by
    rintro j u hu rfl
    exact hl j hu
  refine ⟨?_, ?_, ?_, ?_⟩
  · simp only [hh.lists]
    exact hw.stacked
  · intro j u hu
    simp only [hsame] at hu
    simp only [hh.timers u (hne j u hu)]
    exact hw.active j u hu
  · intro u hu
    by_cases heq : u = t
    · subst heq
      right
      refine ⟨?_, hh.active hu⟩
      simp only [hh.kind, hself]
      exact List.mem_singleton_self u
    · simp only [hh.timers u heq] at hu ⊢
      rcases hw.held u hu with hin | ⟨hin, hper⟩
      · left
        rw [hsame]
        exact hin
      · have hin : u ∈ w.temp (w.timers u).kind := hin
        have hj : (w.timers u).kind ≠ k := by
          intro hj
          rw [hj, hnil] at hin
          cases hin
        exact Or.inr ⟨by rw [hother _ hj]; exact hin, hper⟩
  · intro j
    by_cases hj : j = k
    · subst hj
      refine Or.inr ⟨t, Function.update_self .., hself, hh.kind, hh.obj, ?_⟩
      simp only [hsame]
      exact hl j
    · rcases hw.temp j with hempty | ⟨u, hrun, htemp, hk, ho, hout⟩
      · exact Or.inl ((hother j hj).trans hempty)
      · have htemp : w.temp j = [u] := htemp
        have hu : u ≠ t := by
          rintro rfl
          exact ht j (by rw [htemp]; exact List.mem_singleton_self u)
        refine Or.inr ⟨u, ?_, (hother j hj).trans htemp, ?_, ?_, ?_⟩
        · simp only
          rw [Function.update_of_ne hj]
          exact hrun
        · simp only [hh.timers u hu]
          exact hk
        · simp only [hh.timers u hu]
          exact ho
        · simp only [hsame]
          exact hout

theorem Booked.putBack (h : Booked ⟨s, running⟩) (hrunning : running k = some t)
    (hback : putBack s k t = .ok s') : Booked ⟨s', Function.update running k none⟩ := by
  have hone : s.temp k ≠ [] → s.temp k = [t] := by
    intro hne
    rcases h.temp k with hnil | ⟨u, hrun, htemp, -⟩
    · exact absurd hnil hne
    · cases hrun.symm.trans hrunning
      exact htemp
  rcases putBack_cases hback with ⟨hempty, rfl⟩ | ⟨hne, -, -, hstart⟩ | ⟨hne, hidle, rfl⟩
  · have hsame : Booked ⟨{ s with softBusy := if k = .soft then false else s.softBusy }, running⟩ :=
      h.congr rfl rfl rfl
    exact hsame.rest hempty
  · -- the timer is started again, from a state without it
    have htemp := hone hne
    obtain ⟨hobj, rfl⟩ := rtTimerStart_eq_ok hstart
    obtain ⟨hw, hl, ht⟩ :=
      h.without (t := t) (f := fun x => { x with activated := false }) (fun _ => rfl)
    have htimers : (deactivate (timerRemove (deactivate (released s k t) t) t) t).timers =
        (Timer.setTimer (timerRemove s t) t fun x => { x with activated := false }).timers := by
      funext u
      by_cases hu : u = t
      · rw [hu, deactivate, setTimer_self, setTimer_self]
        show { (deactivate (released s k t) t).timers t with activated := false } = _
        rw [deactivate, setTimer_self]
        rfl
      · rw [deactivate, setTimer_of_ne hu, setTimer_of_ne hu]
        show (deactivate (released s k t) t).timers u = s.timers u
        rw [deactivate, setTimer_of_ne hu]
        rfl
    have htemps : (deactivate (timerRemove (deactivate (released s k t) t) t) t).temp =
        (Timer.setTimer (timerRemove s t) t fun x => { x with activated := false }).temp := by
      funext j
      exact (restart_without htemp).temp_eq j
    have hw' : Booked ⟨deactivate (timerRemove (deactivate (released s k t) t) t) t, running⟩ :=
      hw.congr rfl htemps htimers
    refine (hw'.started hl ?_ ?_).rest ?_
    · rw [htemps]
      exact ht
    · rw [htimers, setTimer_self]
      have htimer : (deactivate (released s k t) t).timers t =
          { s.timers t with activated := false } := by
        rw [deactivate, setTimer_self]
        rfl
      rw [htimer] at hobj
      exact hobj
    · show (deactivate (timerRemove (deactivate (released s k t) t) t) t).temp k = []
      rw [htemps]
      show (s.temp k).erase t = []
      rw [htemp]
      simp
  · have htemp := hone hne
    have hmem : t ∈ s.temp k := by
      rw [htemp]
      exact List.mem_singleton_self t
    obtain ⟨-, -, hout⟩ := h.apart hmem
    have hself : (released s k t).temp k = [] := by
      show Function.update s.temp k ((s.temp k).erase t) k = []
      rw [Function.update_self, htemp]
      simp
    have hother : ∀ j, j ≠ k → (released s k t).temp j = s.temp j :=
      fun j hj => Function.update_of_ne hj ..
    refine ⟨h.stacked, h.active, ?_, ?_⟩
    · intro u hu
      rcases h.held u hu with hin | ⟨hin, hper⟩
      · exact Or.inl hin
      · have hin : u ∈ s.temp (s.timers u).kind := hin
        have hj : (s.timers u).kind ≠ k := by
          intro hj
          rw [hj, htemp, List.mem_singleton] at hin
          subst hin
          exact hidle ⟨hper, hu⟩
        exact Or.inr ⟨by rw [← hother _ hj] at hin; exact hin, hper⟩
    · intro j
      by_cases hj : j = k
      · rw [hj]
        exact Or.inl hself
      · rcases h.temp j with hnil | ⟨u, hrun, hu, hrest⟩
        · exact Or.inl ((hother j hj).trans hnil)
        · refine Or.inr ⟨u, ?_, (hother j hj).trans hu, hrest⟩
          simp only
          rw [Function.update_of_ne hj]
          exact hrun

theorem Booked.control (h : Booked ⟨s, running⟩) {cmd : Ctrl} {out : Option Tick}
    (hord : Ordinary ⟨s, running⟩ (.control t cmd))
    (hrun : rtTimerControl s t cmd = .ok (s', out)) : Booked ⟨s', running⟩ := by
  obtain ⟨-, -, hcmd⟩ := bind_eq_ok.mp hrun
  cases cmd with
  | getTime =>
      cases pure_eq_ok.mp hcmd
      exact h
  | setTime time =>
      obtain ⟨-, -, hret⟩ := bind_eq_ok.mp hcmd
      cases pure_eq_ok.mp hret
      refine h.setTimer (fun _ => rfl) (fun _ => rfl) (fun _ => rfl) ?_
      cases hper : (s.timers t).periodic with
      | true => exact Or.inl rfl
      | false => exact Or.inr (Or.inl rfl)
  | setOneshot =>
      cases pure_eq_ok.mp hcmd
      refine h.setTimer (fun _ => rfl) (fun _ => rfl) (fun _ => rfl) (Or.inr (Or.inr ?_))
      intro j hj
      rcases h.temp j with hnil | ⟨u, hrunning, htemp, -⟩
      · have hnil : s.temp j = [] := hnil
        rw [hnil] at hj
        cases hj
      · have htemp : s.temp j = [u] := htemp
        rw [htemp, List.mem_singleton] at hj
        exact hord j (by rw [hj]; exact hrunning)
  | setPeriodic =>
      cases pure_eq_ok.mp hcmd
      exact h.setTimer (fun _ => rfl) (fun _ => rfl) (fun _ => rfl) (Or.inl rfl)
  | getState =>
      cases pure_eq_ok.mp hcmd
      exact h
  | getRemainTime =>
      cases pure_eq_ok.mp hcmd
      exact h

/-- **One action.** -/
theorem act_booked (c : Checks) (a : Act) (c' : Checks) (h : Booked c) (hord : Ordinary c a)
    (hact : act c a = .ok c') : Booked c' := by
  cases a with
  | init t kind obj time periodic =>
      obtain ⟨s, hinit, hret⟩ := bind_eq_ok.mp hact
      cases pure_eq_ok.mp hret
      obtain ⟨-, -, hret⟩ := bind_eq_ok.mp hinit
      cases pure_eq_ok.mp hret
      exact h.init hord fun _ => rfl
  | call x =>
      obtain ⟨s, hexec, hret⟩ := bind_eq_ok.mp hact
      cases pure_eq_ok.mp hret
      exact h.exec hexec
  | control t cmd =>
      obtain ⟨⟨s, out⟩, hcmd, hret⟩ := bind_eq_ok.mp hact
      cases pure_eq_ok.mp hret
      exact h.control hord hcmd
  | tick =>
      cases hact
      exact h.congr rfl rfl rfl
  | begin k =>
      simp only [act] at hact
      split at hact
      · rename_i hidle
        cases pure_eq_ok.mp hact
        refine h.congr rfl ?_ rfl
        rcases h.temp k with hnil | ⟨u, hrun, -⟩
        · rw [← hnil, Function.update_eq_self]
        · rw [hidle] at hrun
          cases hrun
      · cases pure_eq_ok.mp hact
        exact h
  | enter k =>
      simp only [act] at hact
      split at hact
      · rename_i t rest hidle hlinked
        split at hact
        · cases pure_eq_ok.mp hact
          exact h.takeOut hidle (by rw [hlinked]; exact List.mem_cons_self ..)
        · cases pure_eq_ok.mp hact
          exact h
      · cases pure_eq_ok.mp hact
        exact h
  | leave k =>
      simp only [act] at hact
      split at hact
      · cases pure_eq_ok.mp hact
        exact h
      · rename_i t hrunning
        obtain ⟨s, hback, hret⟩ := bind_eq_ok.mp hact
        cases pure_eq_ok.mp hret
        exact h.putBack hrunning hback

private theorem booked_boot (levels : Nat) (tick : Tick) (randomNr : BitVec 32) :
    Booked ⟨boot levels tick randomNr, idle⟩ := by
  refine ⟨fun _ => stacked_empty TimerId levels, ?_, ?_, fun _ => Or.inl rfl⟩
  · intro k t ht
    cases ht
  · intro t ht
    cases ht

/-- **The flag is right**: in every state of every run, an active timer is linked or is a
periodic one whose timeout function is running, and a linked timer is active. -/
theorem flags_right (levels : Nat) (tick : Tick) (randomNr : BitVec 32) {as : List Act}
    (hord : Guarded act Ordinary ⟨boot levels tick randomNr, idle⟩ as)
    (hrun : run act ⟨boot levels tick randomNr, idle⟩ as = .ok c) (t : TimerId) :
    (t ∈ linked c.sys (c.sys.timers t).kind → (c.sys.timers t).activated = true) ∧
      ((c.sys.timers t).activated = true → t ∈ linked c.sys (c.sys.timers t).kind ∨
        c.running (c.sys.timers t).kind = some t ∧ (c.sys.timers t).periodic = true) := by
  have hb : Booked c :=
    run_inv_of_returns act_booked (booked_boot levels tick randomNr) hord hrun
  refine ⟨fun hin => (hb.active _ t hin).1, fun hact => ?_⟩
  rcases hb.held t hact with hin | ⟨hin, hper⟩
  · exact Or.inl hin
  · right
    refine ⟨?_, hper⟩
    rcases hb.temp (c.sys.timers t).kind with hnil | ⟨u, hrunning, htemp, -⟩
    · rw [hnil] at hin
      cases hin
    · rw [htemp, List.mem_singleton] at hin
      rw [hrunning, hin]

end Booked

/-! ## The answers -/

/-- `RT_TIMER_FLAG_ACTIVATED` and `RT_TIMER_FLAG_DEACTIVATED`. -/
def stateWord (active : Bool) : Tick := if active then 1 else 0

/-- Whether a timer is in a timer list. -/
def queued (s : TimerSys) (t : TimerId) : Bool := t ∈ linked s .hard ∨ t ∈ linked s .soft

/-- A check at tick `e` finds the timer expired, and one a tick before does not. -/
def ExpiresAt (s : TimerSys) (t : TimerId) (e : Tick) : Prop :=
  expired { s with tick := e } t = true ∧ expired { s with tick := e - 1 } t = false

/-- Only the record of the timer is another, and that is `f` of what it was. -/
def ChangesOnly (s : TimerSys) (t : TimerId) (s' : TimerSys) (f : RtTimer → RtTimer) : Prop :=
  { s' with timers := s.timers } = s ∧ (∀ u, u ≠ t → s'.timers u = s.timers u) ∧
    s'.timers t = f (s.timers t)

/-- What a command should do, and store. -/
def Right (s : TimerSys) (t : TimerId) (s' : TimerSys) (out : Option Tick) : Ctrl → Prop
  | .getTime => s' = s ∧ out = some (s.timers t).initTick
  | .setTime time => ChangesOnly s t s' (fun x => { x with initTick := time }) ∧ out = none
  | .setOneshot => ChangesOnly s t s' (fun x => { x with periodic := false }) ∧ out = none
  | .setPeriodic => ChangesOnly s t s' (fun x => { x with periodic := true }) ∧ out = none
  | .getState => s' = s ∧ out = some (stateWord (queued s t))
  | .getRemainTime => s' = s ∧ ∃ e, out = some e ∧ ExpiresAt s t e

/-- A control command of the action does what it should. -/
def Truthful (c : Checks) : Act → Prop
  | .control t cmd =>
      ∀ s' out, rtTimerControl c.sys t cmd = .ok (s', out) → Right c.sys t s' out cmd
  | _ => True

/-- A state is asked for only when the timeout tick of the timer is the word for it. -/
def StateByChance (c : Checks) : Act → Prop
  | .control t .getState =>
      (c.sys.timers t).obj ≠ .none → (c.sys.timers t).timeoutTick = stateWord (queued c.sys t)
  | _ => True

section Answers

variable {s : TimerSys} {t : TimerId}

private theorem expiresAt_iff {e : Tick} : ExpiresAt s t e ↔ e = (s.timers t).timeoutTick := by
  have hnow : expired { s with tick := e } t = true ↔
      e - (s.timers t).timeoutTick < tickHalf := by
    simp [expired]
  have hbefore : expired { s with tick := e - 1 } t = false ↔
      ¬e - 1 - (s.timers t).timeoutTick < tickHalf := by
    simp [expired]
  rw [ExpiresAt, hnow, hbefore, tickHalf]
  constructor
  · rintro ⟨hin, hout⟩
    bv_omega
  · rintro rfl
    constructor <;> bv_omega

private theorem changesOnly_setTimer (f : RtTimer → RtTimer) : ChangesOnly s t (setTimer s t f) f :=
  ⟨rfl, fun _ hu => setTimer_of_ne hu f, setTimer_self f⟩

/-- The commands on a timer, but for the one that asks for its state. -/
theorem rtTimerControl_right {cmd : Ctrl} (hcmd : cmd ≠ .getState) {s' : TimerSys}
    {out : Option Tick} (h : rtTimerControl s t cmd = .ok (s', out)) : Right s t s' out cmd := by
  obtain ⟨-, -, hret⟩ := bind_eq_ok.mp h
  cases cmd with
  | getTime =>
      cases pure_eq_ok.mp hret
      exact ⟨rfl, rfl⟩
  | setTime time =>
      obtain ⟨-, -, hret⟩ := bind_eq_ok.mp hret
      cases pure_eq_ok.mp hret
      exact ⟨changesOnly_setTimer _, rfl⟩
  | setOneshot =>
      cases pure_eq_ok.mp hret
      exact ⟨changesOnly_setTimer _, rfl⟩
  | setPeriodic =>
      cases pure_eq_ok.mp hret
      exact ⟨changesOnly_setTimer _, rfl⟩
  | getState => exact absurd rfl hcmd
  | getRemainTime =>
      cases pure_eq_ok.mp hret
      exact ⟨rfl, _, rfl, expiresAt_iff.mpr rfl⟩

/-- The state a command stores is the timeout tick. -/
theorem getState_right_iff {c : Checks} :
    Truthful c (.control t .getState) ↔ StateByChance c (.control t .getState) := by
  constructor
  · intro h hobj
    have hcmd : rtTimerControl c.sys t .getState =
        .ok (c.sys, some (c.sys.timers t).timeoutTick) := by
      simp only [rtTimerControl, decide_eq_true hobj, check_true, ok_bind]
      rfl
    exact Option.some.inj (h _ _ hcmd).2
  · intro h s' out hcmd
    obtain ⟨_, hobj, hret⟩ := bind_eq_ok.mp hcmd
    cases pure_eq_ok.mp hret
    exact ⟨rfl, congrArg some (h (of_decide_eq_true (check_eq_ok.mp hobj)))⟩

end Answers

private theorem truthful_iff (c : Checks) (a : Act) : Truthful c a ↔ StateByChance c a := by
  cases a with
  | control t cmd =>
      by_cases hcmd : cmd = .getState
      · rw [hcmd]
        exact getState_right_iff
      · constructor
        · intro _
          cases cmd with
          | getState => exact absurd rfl hcmd
          | _ => trivial
        · exact fun _ _ _ h => rtTimerControl_right hcmd h
  | _ => exact Iff.rfl

/-- **When the commands tell the truth**: in every run in which a state is asked for only of
timers whose timeout tick happens to be the word for their state. -/
theorem control_truthful_iff (levels : Nat) (tick : Tick) (randomNr : BitVec 32)
    (as : List Act) :
    Guarded act Truthful ⟨boot levels tick randomNr, idle⟩ as ↔
      Guarded act StateByChance ⟨boot levels tick randomNr, idle⟩ as := by
  have hsame : Truthful = StateByChance := by
    funext c a
    exact propext (truthful_iff c a)
  rw [hsame]

/-- A timer that was started at tick 0 with a period of 10 ticks is said to be in state 10. -/
theorem started_timer_lies :
    ¬Guarded act Truthful ⟨boot 0 0 0, idle⟩
      [.init 1 .hard .static 10 false, .call (.start 1), .control 1 .getState] := by
  intro h
  have hinit := h.2 _ rfl
  have hstart := hinit.2 _ rfl
  have hstate := (hstart.1 _ _ rfl).2
  revert hstate
  decide

end RtHypervisor.Ports.Timer
