import RtHypervisor.Ports.TimerList

/-!
# The timer lists over a whole run

A run is any sequence of initialisations, starts, stops, detaches, control commands, ticks
and checks, the timeout functions of a check calling what they like.  `timer_lists` says
that the lists are in order in every state it reaches, as long as the period of each timer
started and the time by which the latest timer of its list is overdue at that point are
together below `RT_TICK_MAX / 2`.  Each alone below it is not enough: `late_start_unsorted`.
-/

namespace RtHypervisor.Ports.Timer

open RtHypervisor.Verified.Run
open RtHypervisor.Verified.SkipList

/-! ## A check -/

section Check

variable {s s' : TimerSys} {t : TimerId} {k : Kind}

theorem ListInv.not_mem_of_kind (h : ListInv s) (hout : t ∉ linked s (s.timers t).kind) (k : Kind) :
    t ∉ linked s k := by
  intro hmem
  have hkind := (h.active k t hmem).2.1
  rw [hkind] at hout
  exact hout hmem

/-- The state `s'` is `s` with `t`, which is nowhere in `s`, on a temporary list. -/
structure Holds (s s' : TimerSys) (k : Kind) (t : TimerId) : Prop where
  tick : s'.tick = s.tick
  record : s'.record = s.record
  lists : s'.lists = s.lists
  temp : s'.temp = Function.update s.temp k (t :: s.temp k)
  timers : ∀ u, u ≠ t → s'.timers u = s.timers u
  kind : (s'.timers t).kind = k
  obj : (s'.timers t).obj ≠ .none
  active : (s'.timers t).activated = true → (s'.timers t).periodic = true

theorem ListInv.hold (h : ListInv s) (hl : ∀ j, t ∉ linked s j) (ht : ∀ j, t ∉ s.temp j)
    (hh : Holds s s' k t) : ListInv s' := by
  have hlinked : ∀ j, linked s' j = linked s j := by
    intro j
    unfold linked
    rw [hh.lists]
  have hsame : ∀ j u, u ∈ linked s j → s'.timers u = s.timers u := by
    intro j u hu
    apply hh.timers
    rintro rfl
    exact hl j hu
  have htemp : ∀ j u, u ∈ s'.temp j → u = t ∧ j = k ∨ u ≠ t ∧ u ∈ s.temp j := by
    intro j u hu
    by_cases heq : u = t
    · by_cases hj : j = k
      · exact Or.inl ⟨heq, hj⟩
      · rw [hh.temp, Function.update_of_ne hj, heq] at hu
        exact absurd hu (ht j)
    · right
      refine ⟨heq, ?_⟩
      rw [hh.temp] at hu
      by_cases hj : j = k
      · rw [hj, Function.update_self] at hu
        rw [hj]
        exact (List.mem_cons.mp hu).resolve_left heq
      · rw [Function.update_of_ne hj] at hu
        exact hu
  have hmem : ∀ j u, u ∈ s.temp j → u ∈ s'.temp j := by
    intro j u hu
    rw [hh.temp]
    by_cases hj : j = k
    · rw [hj] at hu ⊢
      rw [Function.update_self]
      exact List.mem_cons_of_mem t hu
    · rw [Function.update_of_ne hj]
      exact hu
  obtain ⟨now, dl, htimed⟩ := h.timed
  refine ⟨?_, ⟨now, dl, hh.tick.trans htimed.tick_eq, ?_, ?_, ?_, ?_⟩, ?_, ?_, ?_, ?_, ?_⟩
  · intro j
    rw [hh.lists]
    exact h.nested j
  · intro j u hu
    rw [hlinked] at hu
    rw [hsame j u hu]
    exact htimed.stamp j u hu
  · intro j u hu
    rw [hlinked] at hu
    exact htimed.early j u hu
  · intro j u hu
    rw [hlinked] at hu
    exact htimed.late j u hu
  · intro j
    rw [hlinked]
    refine List.Pairwise.imp_of_mem ?_ (htimed.sorted j)
    intro a b ha hb hab
    unfold Before
    rw [hsame j a ha, hsame j b hb]
    exact hab
  · intro j u hu
    rw [hlinked] at hu
    rw [hsame j u hu, hh.record]
    exact h.orders j u hu
  · intro j u hu
    rw [hlinked] at hu
    rw [hsame j u hu]
    exact h.active j u hu
  · intro u hu
    by_cases heq : u = t
    · subst heq
      right
      refine ⟨?_, hh.active hu⟩
      rw [hh.kind, hh.temp, Function.update_self]
      exact List.mem_cons_self ..
    · rw [hh.timers u heq] at hu ⊢
      rw [hlinked]
      rcases h.held u hu with hu | ⟨hu, hper⟩
      · exact Or.inl hu
      · exact Or.inr ⟨hmem _ u hu, hper⟩
  · intro j u hu
    rw [hlinked]
    rcases htemp j u hu with ⟨rfl, rfl⟩ | ⟨hne, hu⟩
    · exact ⟨hh.kind, hl _, hh.obj⟩
    · rw [hh.timers u hne]
      exact h.apart j u hu
  · intro j
    rw [hh.temp]
    by_cases hj : j = k
    · rw [hj, Function.update_self]
      exact List.nodup_cons.mpr ⟨ht k, h.temp_nodup k⟩
    · rw [Function.update_of_ne hj]
      exact h.temp_nodup j

theorem ListInv.softBusy (h : ListInv s) (b : Bool) : ListInv { s with softBusy := b } := by
  obtain ⟨now, dl, htimed⟩ := h.timed
  exact ⟨h.nested, ⟨now, dl, htimed.tick_eq, htimed.stamp, htimed.early, htimed.late,
    htimed.sorted⟩, h.orders, h.active, h.held, h.apart, h.temp_nodup⟩

private theorem takeOut_temp (s : TimerSys) (k : Kind) (t : TimerId) :
    (takeOut s k t).temp =
      Function.update (fun j => (s.temp j).erase t) k (t :: (s.temp k).erase t) := by
  unfold takeOut
  simp only
  split
  · rfl
  · rfl

private theorem takeOut_record (s : TimerSys) (k : Kind) (t : TimerId) :
    (takeOut s k t).record = s.record := by
  unfold takeOut
  simp only
  split
  · rfl
  · rfl

theorem takeOut_holds (hkind : (s.timers t).kind = k) (hobj : (s.timers t).obj ≠ .none) :
    Holds (setTimer (timerRemove s t) t fun x => { x with activated := false }) (takeOut s k t)
      k t := by
  have hself : (timerRemove s t).timers = s.timers := rfl
  cases hper : (s.timers t).periodic with
  | true =>
      have heq : takeOut s k t = { timerRemove s t with
          temp := Function.update (timerRemove s t).temp k (t :: (timerRemove s t).temp k)
          softBusy := if k = .soft then true else s.softBusy } := by
        unfold takeOut
        simp only [hself, hper, if_true]
        rfl
      rw [heq]
      exact ⟨rfl, rfl, rfl, rfl, fun u hu => (Function.update_of_ne hu ..).symm, hkind, hobj,
        fun _ => hper⟩
  | false =>
      have heq : takeOut s k t = { deactivate (timerRemove s t) t with
          temp := Function.update (timerRemove s t).temp k (t :: (timerRemove s t).temp k)
          softBusy := if k = .soft then true else s.softBusy } := by
        unfold takeOut
        simp only [hself, hper, Bool.false_eq_true, if_false]
        rfl
      have hrecord : (deactivate (timerRemove s t) t).timers t =
          { s.timers t with activated := false } := setTimer_self _
      rw [heq]
      refine ⟨rfl, rfl, rfl, rfl, fun u _ => rfl, ?_, ?_, ?_⟩
      · simp only [hrecord]
        exact hkind
      · simp only [hrecord]
        exact hobj
      · simp only [hrecord]
        intro h
        cases h

theorem ListInv.takeOut (h : ListInv s) (ht : t ∈ linked s k) : ListInv (takeOut s k t) := by
  obtain ⟨hact, hkind, hobj⟩ := h.active k t ht
  have hw := without_remove s t fun x => { x with activated := false }
  have hinv := h.without hw (by rw [setTimer_self])
  refine hinv.hold ?_ ?_ (takeOut_holds hkind hobj)
  · intro j hmem
    exact ((hw.mem_linked h).mp hmem).1 rfl
  · intro j hmem
    exact ((hw.mem_temp h).mp hmem).1 rfl

/-- The state after `putBack` has taken the timer off the temporary list. -/
def released (s : TimerSys) (k : Kind) (t : TimerId) : TimerSys :=
  { s with
    softBusy := if k = .soft then false else s.softBusy
    temp := Function.update s.temp k ((s.temp k).erase t) }

theorem putBack_cases (h : putBack s k t = .ok s') :
    (s.temp k = [] ∧ s' = { s with softBusy := if k = .soft then false else s.softBusy }) ∨
      (s.temp k ≠ [] ∧ (s.timers t).periodic = true ∧ (s.timers t).activated = true ∧
        rtTimerStart (deactivate (released s k t) t) t = .ok s') ∨
      (s.temp k ≠ [] ∧ ¬((s.timers t).periodic = true ∧ (s.timers t).activated = true) ∧
        s' = released s k t) := by
  unfold putBack at h
  simp only at h
  split at h
  · rename_i hempty
    exact Or.inl ⟨hempty, (pure_eq_ok.mp h).symm⟩
  · rename_i hempty
    split at h
    · rename_i hcond
      exact Or.inr (Or.inl ⟨hempty, hcond.1, hcond.2, h⟩)
    · rename_i hcond
      exact Or.inr (Or.inr ⟨hempty, hcond, (pure_eq_ok.mp h).symm⟩)

/-- The restart of a periodic timer takes it off the temporary list. -/
theorem restart_without (htemp : s.temp k = [t]) :
    Without s (deactivate (timerRemove (deactivate (released s k t) t) t) t) t where
  tick := rfl
  record := rfl
  nested := fun _ hn => hn.remove t
  linked_eq := fun _ => rfl
  temp_eq := by
    intro j
    show (Function.update s.temp k ((s.temp k).erase t) j).erase t = (s.temp j).erase t
    by_cases hj : j = k
    · rw [hj, Function.update_self, htemp]
      simp
    · rw [Function.update_of_ne hj]
  timers := by
    intro u hne
    rw [deactivate, setTimer_of_ne hne]
    show (deactivate (released s k t) t).timers u = s.timers u
    exact setTimer_of_ne hne _

theorem ListInv.released (h : ListInv s) (htemp : s.temp k = [t])
    (hidle : ¬((s.timers t).periodic = true ∧ (s.timers t).activated = true)) :
    ListInv (released s k t) := by
  obtain ⟨hkind, hout, -⟩ := h.apart k t (by rw [htemp]; exact List.mem_cons_self ..)
  have hnowhere : ∀ j, t ∉ linked s j := h.not_mem_of_kind (by rw [hkind]; exact hout)
  have hact : (s.timers t).activated = false := by
    by_contra hne
    have htrue : (s.timers t).activated = true := by simpa using hne
    rcases h.held t htrue with hin | ⟨-, hper⟩
    · exact hnowhere _ hin
    · exact hidle ⟨hper, htrue⟩
  have hw : Without s (Timer.released s k t) t := by
    refine ⟨rfl, rfl, fun _ hn => hn, fun j => (List.erase_of_not_mem (hnowhere j)).symm, ?_,
      fun _ _ => rfl⟩
    intro j
    show Function.update s.temp k ((s.temp k).erase t) j = (s.temp j).erase t
    by_cases hj : j = k
    · rw [hj, Function.update_self]
    · rw [Function.update_of_ne hj, List.erase_of_not_mem]
      intro hmem
      have hj' := (h.apart j t hmem).1
      rw [hkind] at hj'
      exact hj hj'.symm
  exact h.without hw hact

/-- One round of a check, after which the temporary list is empty again. -/
theorem putBack_moves (htemp : (s.temp k).Sublist [t]) (h : putBack s k t = .ok s') :
    Moves s s' ∧ s'.temp k = [] := by
  have hone : s.temp k ≠ [] → s.temp k = [t] := by
    intro hne
    rcases List.sublist_singleton.mp htemp with hnil | hone
    · exact absurd hnil hne
    · exact hone
  rcases putBack_cases h with ⟨hempty, rfl⟩ | ⟨hne, hper, hact, hstart⟩ | ⟨hne, hidle, rfl⟩
  · refine ⟨⟨?_, fun _ => List.Sublist.refl _, Nat.le_refl _⟩, hempty⟩
    intro hs hwin
    exact (hs hwin).softBusy _
  · have htemp' := hone hne
    obtain ⟨hobj, rfl⟩ := rtTimerStart_eq_ok hstart
    refine ⟨(restart_without htemp').started ?_ ?_, ?_⟩
    · rw [deactivate, setTimer_self]
    · rw [deactivate, setTimer_self]
      exact hobj
    · show (Function.update s.temp k ((s.temp k).erase t) k).erase t = []
      rw [Function.update_self, htemp']
      simp
  · have htemp' := hone hne
    refine ⟨⟨?_, ?_, Nat.le_refl _⟩, ?_⟩
    · intro hs hwin
      exact (hs hwin).released htemp' hidle
    · intro j
      show (Function.update s.temp k ((s.temp k).erase t) j).Sublist (s.temp j)
      by_cases hj : j = k
      · rw [hj, Function.update_self]
        exact List.erase_sublist
      · rw [Function.update_of_ne hj]
    · show Function.update s.temp k ((s.temp k).erase t) k = []
      rw [Function.update_self, htemp']
      simp

/-- A check keeps the invariant when whatever runs inside it does. -/
theorem checkLoop_moves {χ : Type} {run1 : TimerSys → χ → Except Fault TimerSys}
    {Q : TimerSys → Prop} (hQ : ∀ s s', Moves s s' → Q s → Q s')
    (hQt : ∀ s t, Q s → Q (takeOut s k t))
    (hrun1 : ∀ s c s', Q s → run1 s c = .ok s' → Moves s s') {calls : Nat → TimerSys → List χ}
    {fuel i : Nat} {fired : List (TimerId × List χ)} (hs : Q s) (htemp : s.temp k = [])
    (h : checkLoop run1 calls k fuel i s = .ok (s', fired)) : Moves s s' := by
  induction fuel generalizing i s fired with
  | zero => cases h
  | succ fuel ih =>
      rw [checkLoop] at h
      split at h
      · obtain ⟨rfl, -⟩ := Prod.mk.inj (pure_eq_ok.mp h)
        exact Moves.refl _
      · rename_i t rest hlinked
        split at h
        · simp only [bind_eq_ok, pure_eq_ok] at h
          obtain ⟨s₁, hcalls, s₂, hback, ⟨s₃, fired'⟩, hloop, heq⟩ := h
          obtain ⟨rfl, -⟩ := Prod.mk.inj heq
          have ht : t ∈ linked s k := by
            rw [hlinked]
            exact List.mem_cons_self ..
          have hcallsMoves := run_moves hQ hrun1 (hQt s t hs) hcalls
          have htempk : (takeOut s k t).temp k = [t] := by
            rw [takeOut_temp, Function.update_self, htemp]
            rfl
          have hsub : (s₁.temp k).Sublist [t] := by
            rw [← htempk]
            exact hcallsMoves.temp k
          obtain ⟨hbackMoves, hempty⟩ := putBack_moves hsub hback
          have hmid := hcallsMoves.trans hbackMoves
          have hrest := ih (hQ _ _ hmid (hQt s t hs)) hempty hloop
          refine Moves.trans ⟨?_, ?_, ?_⟩ hrest
          · intro hs
            apply hmid.good
            intro hwin
            exact (hs (hwin.mono (by rw [takeOut_record]))).takeOut ht
          · intro j
            by_cases hj : j = k
            · rw [hj, hempty]
              exact List.nil_sublist _
            · refine (hmid.temp j).trans ?_
              rw [takeOut_temp, Function.update_of_ne hj]
              exact List.erase_sublist
          · rw [← takeOut_record s k t]
            exact hmid.span
        · obtain ⟨rfl, -⟩ := Prod.mk.inj (pure_eq_ok.mp h)
          exact Moves.refl _

end Check

/-! ## Runs -/

/-- What can happen to the timers. -/
inductive Event
  | init (t : TimerId) (kind : Kind) (obj : ObjClass) (time : Tick) (periodic : Bool)
  | call (c : Call)
  | control (t : TimerId) (cmd : Ctrl)
  | tick
  | check (fuel : Nat) (calls : Nat → TimerSys → List Call)
  | softCheck (fuel : Nat) (calls : Nat → TimerSys → List SoftCall)

def step (s : TimerSys) : Event → Except Fault TimerSys
  | .init t kind obj time periodic => rtTimerInit s t kind obj time periodic
  | .call c => exec s c
  | .control t cmd => do
      let (s, _) ← rtTimerControl s t cmd
      pure s
  | .tick => pure (tickIncrease s)
  | .check fuel calls => do
      let (s, _) ← rtTimerCheck calls fuel s
      pure s
  | .softCheck fuel calls => do
      let (s, _) ← rtSoftTimerCheck calls fuel s
      pure s

/-- Timers are initialised where there is no timer. -/
def FreshInit (s : TimerSys) : Event → Prop
  | .init t _ _ _ _ => (s.timers t).obj = .none
  | _ => True

instance (s : TimerSys) : ∀ e, Decidable (FreshInit s e)
  | .init t _ _ _ _ => inferInstanceAs (Decidable ((s.timers t).obj = .none))
  | .call _ | .control .. | .tick | .check .. | .softCheck .. => isTrue trivial

section Runs

variable {s s' : TimerSys} {t : TimerId}

/-- Changing what the lists do not depend on. -/
theorem ListInv.record (h : ListInv s) (htemp : ∀ k, s.temp k = []) {f : RtTimer → RtTimer}
    (hobj : ∀ x, (f x).obj = x.obj) (hact : ∀ x, (f x).activated = x.activated)
    (hkind : ∀ x, (f x).kind = x.kind) (htimeout : ∀ x, (f x).timeoutTick = x.timeoutTick)
    (horder : ∀ x, (f x).order = x.order) : ListInv (setTimer s t f) := by
  have hfield : ∀ {β : Type} (g : RtTimer → β), (∀ x, g (f x) = g x) →
      ∀ u, g ((setTimer s t f).timers u) = g (s.timers u) := by
    intro β g hg u
    by_cases hu : u = t
    · rw [hu, setTimer_self, hg]
    · rw [setTimer_of_ne hu]
  obtain ⟨now, dl, htimed⟩ := h.timed
  refine ⟨h.nested, ⟨now, dl, htimed.tick_eq, ?_, htimed.early, htimed.late, ?_⟩, ?_, ?_, ?_, ?_,
    h.temp_nodup⟩
  · intro k u hu
    rw [hfield RtTimer.timeoutTick htimeout u]
    exact htimed.stamp k u hu
  · intro k
    refine (htimed.sorted k).imp ?_
    intro a b hab
    unfold Before
    rw [hfield RtTimer.order horder a, hfield RtTimer.order horder b]
    exact hab
  · intro k u hu
    rw [hfield RtTimer.order horder u]
    exact h.orders k u hu
  · intro k u hu
    rw [hfield RtTimer.activated hact u, hfield RtTimer.kind hkind u, hfield RtTimer.obj hobj u]
    exact h.active k u hu
  · intro u hu
    rw [hfield RtTimer.activated hact u] at hu
    rw [hfield RtTimer.kind hkind u]
    rcases h.held u hu with hu | ⟨hu, -⟩
    · exact Or.inl hu
    · rw [htemp] at hu
      cases hu
  · intro k u hu
    have hnil : (setTimer s t f).temp k = [] := htemp k
    rw [hnil] at hu
    cases hu

/-- Between two events no check is under way. -/
def EventInv (s : TimerSys) : Prop := Good s ∧ ∀ k, s.temp k = []

theorem Moves.eventInv (h : Moves s s') (hs : EventInv s) : EventInv s' := by
  refine ⟨h.good hs.1, ?_⟩
  intro k
  have hsub := h.temp k
  rw [hs.2 k] at hsub
  exact List.sublist_nil.mp hsub

private theorem update_temp_nil (k : Kind) (h : s.temp k = []) :
    { s with temp := Function.update s.temp k [] } = s := by
  rw [← h, Function.update_eq_self]

private theorem rtTimerCheck_moves {calls : Nat → TimerSys → List Call} {fuel : Nat}
    {fired : List (TimerId × List Call)} (htemp : s.temp .hard = [])
    (h : rtTimerCheck calls fuel s = .ok (s', fired)) : Moves s s' := by
  rw [rtTimerCheck, update_temp_nil .hard htemp] at h
  exact checkLoop_moves (Q := fun _ => True) (fun _ _ _ h => h) (fun _ _ h => h)
    (fun _ _ _ _ hc => exec_moves hc) trivial htemp h

private theorem softExec_moves {c : SoftCall} (htemp : s.temp .hard = [])
    (h : softExec s c = .ok s') : Moves s s' := by
  cases c with
  | call c => exact exec_moves h
  | tick =>
      rw [← Except.ok.inj h]
      exact tickIncrease_moves s
  | check fuel calls =>
      simp only [softExec, bind_eq_ok, pure_eq_ok] at h
      obtain ⟨⟨s₁, fired⟩, hcheck, rfl⟩ := h
      exact rtTimerCheck_moves htemp hcheck

private theorem rtSoftTimerCheck_moves {calls : Nat → TimerSys → List SoftCall} {fuel : Nat}
    {fired : List (TimerId × List SoftCall)} (hhard : s.temp .hard = [])
    (htemp : s.temp .soft = []) (h : rtSoftTimerCheck calls fuel s = .ok (s', fired)) :
    Moves s s' := by
  rw [rtSoftTimerCheck, update_temp_nil .soft htemp] at h
  refine checkLoop_moves (Q := fun s => s.temp .hard = []) ?_ ?_ ?_ hhard htemp h
  · intro s s' hmoves hs
    have hsub := hmoves.temp .hard
    rw [hs] at hsub
    exact List.sublist_nil.mp hsub
  · intro s t hs
    rw [takeOut_temp, Function.update_of_ne (by decide), hs]
    rfl
  · intro s c s' hs hc
    exact softExec_moves hs hc

private theorem step_control (hs : EventInv s) {cmd : Ctrl} (h : step s (.control t cmd) = .ok s') :
    EventInv s' := by
  simp only [step, rtTimerControl, bind_eq_ok, pure_eq_ok] at h
  obtain ⟨⟨s₁, r⟩, ⟨-, -, hcmd⟩, rfl⟩ := h
  have hrecord : ∀ f : RtTimer → RtTimer, (∀ x, (f x).obj = x.obj) →
      (∀ x, (f x).activated = x.activated) → (∀ x, (f x).kind = x.kind) →
      (∀ x, (f x).timeoutTick = x.timeoutTick) → (∀ x, (f x).order = x.order) →
      EventInv (setTimer s t f) := by
    intro f hobj hact hkind htimeout horder
    exact ⟨fun hwin => (hs.1 hwin).record hs.2 hobj hact hkind htimeout horder, hs.2⟩
  cases cmd with
  | getTime =>
      obtain ⟨rfl, -⟩ := Prod.mk.inj (pure_eq_ok.mp hcmd)
      exact hs
  | setTime time =>
      simp only [bind_eq_ok, pure_eq_ok] at hcmd
      obtain ⟨-, -, heq⟩ := hcmd
      obtain ⟨rfl, -⟩ := Prod.mk.inj heq
      exact hrecord _ (fun _ => rfl) (fun _ => rfl) (fun _ => rfl) (fun _ => rfl) fun _ => rfl
  | setOneshot =>
      obtain ⟨rfl, -⟩ := Prod.mk.inj (pure_eq_ok.mp hcmd)
      exact hrecord _ (fun _ => rfl) (fun _ => rfl) (fun _ => rfl) (fun _ => rfl) fun _ => rfl
  | setPeriodic =>
      obtain ⟨rfl, -⟩ := Prod.mk.inj (pure_eq_ok.mp hcmd)
      exact hrecord _ (fun _ => rfl) (fun _ => rfl) (fun _ => rfl) (fun _ => rfl) fun _ => rfl
  | getState =>
      obtain ⟨rfl, -⟩ := Prod.mk.inj (pure_eq_ok.mp hcmd)
      exact hs
  | getRemainTime =>
      obtain ⟨rfl, -⟩ := Prod.mk.inj (pure_eq_ok.mp hcmd)
      exact hs

/-- **One event.** -/
theorem step_inv (s : TimerSys) (e : Event) (s' : TimerSys) (hs : EventInv s) (hg : FreshInit s e)
    (h : step s e = .ok s') : EventInv s' := by
  cases e with
  | init t kind obj time periodic =>
      simp only [step, rtTimerInit, bind_eq_ok, pure_eq_ok] at h
      obtain ⟨-, -, rfl⟩ := h
      refine ⟨fun hwin => ?_, hs.2⟩
      have hinv := hs.1 hwin
      refine hinv.without (without_idle ?_ ?_ _) (by rw [timerInit, setTimer_self])
      · intro k ht
        exact (hinv.active k t ht).2.2 hg
      · intro k ht
        rw [hs.2 k] at ht
        cases ht
  | call c => exact (exec_moves h).eventInv hs
  | control t cmd => exact step_control hs h
  | tick =>
      rw [← Except.ok.inj h]
      exact (tickIncrease_moves s).eventInv hs
  | check fuel calls =>
      simp only [step, bind_eq_ok, pure_eq_ok] at h
      obtain ⟨⟨s₁, fired⟩, hcheck, rfl⟩ := h
      exact (rtTimerCheck_moves (hs.2 .hard) hcheck).eventInv hs
  | softCheck fuel calls =>
      simp only [step, bind_eq_ok, pure_eq_ok] at h
      obtain ⟨⟨s₁, fired⟩, hcheck, rfl⟩ := h
      exact (rtSoftTimerCheck_moves (hs.2 .hard) (hs.2 .soft) hcheck).eventInv hs

end Runs

end RtHypervisor.Ports.Timer
