import Mathlib.Tactic
import RtHypervisor.Ports.AlarmUpdate

/-!
# The alarm in the RTC is the earliest one

`Cond` says of each call what it needs for that, and `alarm_programmed` that nothing less will
do.  `late_not_programmed` is a run in which a one-shot alarm that is over stays the current one.
-/

namespace RtHypervisor.Ports.Alarm

open RtHypervisor.Verified.Run
open RtHypervisor.Ports.RtcTime

/-! ## The alarm in the RTC -/

/-- The earliest alarm is the current one and the last one written to the RTC. -/
structure Programmed (s : Container) (t : Nat) (c : AlarmId) : Prop where
  earliest : Earliest s t c
  current : s.current = some c
  rtc : s.rtc = some (c, (s.alarms c).wkalarm)

/-- If an alarm is started, the earliest one is programmed. -/
def RightAt (s : Container) (t : Nat) : Prop :=
  (∃ a ∈ s.list, s.started a) → ∃ c, Programmed s t c

def Right (s : Container) : Prop := RightAt s s.time

/-- The started alarms and the current one have times of day. -/
structure Fit (s : Container) : Prop where
  clock : ∀ a ∈ s.list, s.started a → (s.alarms a).wktime.Clock
  current : ∀ c, s.current = some c → c ∈ s.list ∧ (s.alarms c).wktime.Clock

/-- A current alarm that is over has been written to the RTC as not enabled. -/
structure Valid (s : Container) : Prop extends Fit s where
  stale : ∀ c, s.current = some c → ¬ s.started c →
    ∃ w, s.rtc = some (c, w) ∧ w.enable = false

/-- No alarm has been started. -/
structure Initial (s : Container) : Prop where
  stopped : ∀ a ∈ s.list, ¬ s.started a
  current : s.current = none

/-- The alarm event of the current alarm has not been missed: it is not due, or all are. -/
def Keeps (s : Container) (t : Nat) : Prop :=
  ∀ c, s.current = some c → s.started c →
    ¬ Reached (now s.time) (now t) (s.due c) ∨
      ∀ a ∈ s.list, s.started a → Reached (now s.time) (now t) (s.due a)

/-- Of the alarms that stay started, one is for another second than that of the second reading,
or the current one stays started. -/
def Sees (s : Container) (t₁ t₂ : Nat) : Prop :=
  (∃ a ∈ s.list, stays (s.alarms a) t₁ = true) →
    (∃ a ∈ s.list, stays (s.alarms a) t₁ = true ∧ nextDue (s.alarms a) t₁ ≠ now t₂) ∨
      ∃ c, s.current = some c ∧ stays (s.alarms c) t₁ = true

instance (s : Container) (t : Nat) : Decidable (Keeps s t) :=
  inferInstanceAs (Decidable (∀ c ∈ s.current, s.started c →
    ¬ Reached (now s.time) (now t) (s.due c) ∨
      ∀ a ∈ s.list, s.started a → Reached (now s.time) (now t) (s.due a)))

instance (s : Container) (t₁ t₂ : Nat) : Decidable (Sees s t₁ t₂) :=
  inferInstanceAs (Decidable ((∃ a ∈ s.list, stays (s.alarms a) t₁ = true) →
    (∃ a ∈ s.list, stays (s.alarms a) t₁ = true ∧ nextDue (s.alarms a) t₁ ≠ now t₂) ∨
      ∃ c ∈ s.current, stays (s.alarms c) t₁ = true))

/-- The second of the day that `alarm_setup` sets the alarm to. -/
def setupDue (s : Container) (id : AlarmId) (t : Nat) : Int :=
  daySec (alarmSetup (s.alarms id) (gmtimeR t)).1.wktime

/-- What a start that succeeds needs of the current alarm `c`: that it is started and its event
has not been missed, and that its time is not now unless the new alarm's is now, too; or that the
new alarm, which is another one, comes before it and before all others, and again that the time
of the current alarm is not now. -/
def StartsWell (s : Container) (id : AlarmId) (t₁ t₂ : Nat) (c : AlarmId) : Prop :=
  s.started c ∧ Keeps s t₂ ∧ (s.due c ≠ now t₂ ∨ setupDue s id t₁ = now t₂) ∨
    c ≠ id ∧ ahead (now t₂) (setupDue s id t₁) < ahead (now t₂) (s.due c) ∧ s.due c ≠ now t₂ ∧
      ∀ a ∈ s.list, s.started a →
        ahead (now t₂) (setupDue s id t₁) ≤ ahead (now t₂) (s.due a)

/-- What a call needs to leave the earliest alarm in the RTC. -/
def Cond (s : Container) : Event → Prop
  | .start id t₁ t₂ =>
      if (s.alarms id).started = true ∨ (alarmSetup (s.alarms id) (gmtimeR t₁)).2 = false then
        Keeps s t₂
      else ∀ c, s.current = some c → StartsWell s id t₁ t₂ c
  | .stop id t₁ t₂ =>
      if (s.alarms id).started then
        Sees (if s.current = some id then dropCurrent (clearStart s id) id else clearStart s id)
          t₁ t₂
      else Keeps s t₂
  | .delete id t₁ t₂ =>
      if s.current = some id then Sees (dropCurrent (clearStart s id) id) t₁ t₂
      else Keeps (listRemove (clearStart s id) id) t₂
  | .alarm t₁ t₂ => Sees s t₁ t₂

instance (s : Container) (id : AlarmId) (t₁ t₂ : Nat) (c : AlarmId) :
    Decidable (StartsWell s id t₁ t₂ c) :=
  inferInstanceAs (Decidable (_ ∨ _))

instance (s : Container) : ∀ e, Decidable (Cond s e)
  | .start id t₁ t₂ => inferInstanceAs (Decidable
      (if (s.alarms id).started = true ∨ (alarmSetup (s.alarms id) (gmtimeR t₁)).2 = false then
        Keeps s t₂
      else ∀ c ∈ s.current, StartsWell s id t₁ t₂ c))
  | .stop id t₁ t₂ => inferInstanceAs (Decidable
      (if (s.alarms id).started then
        Sees (if s.current = some id then dropCurrent (clearStart s id) id else clearStart s id)
          t₁ t₂
      else Keeps s t₂))
  | .delete id t₁ t₂ => inferInstanceAs (Decidable
      (if s.current = some id then Sees (dropCurrent (clearStart s id) id) t₁ t₂
      else Keeps (listRemove (clearStart s id) id) t₂))
  | .alarm t₁ t₂ => inferInstanceAs (Decidable (Sees s t₁ t₂))

section

variable {s : Container} {t t₁ t₂ : Nat} {id : AlarmId}

theorem Fit.inDay (h : Fit s) {a : AlarmId} (ha : a ∈ s.list) (hstarted : s.started a) :
    InDay (s.due a) :=
  daySec_inDay (h.clock a ha hstarted)

/-- When time passes and nothing else happens. -/
theorem rightAt_iff_keeps (h : Fit s) (hright : Right s) : RightAt s t ↔ Keeps s t := by
  constructor
  · intro hat c hcurrent hstarted
    have hmem := (h.current c hcurrent).1
    obtain ⟨c₁, hprog⟩ := hright ⟨c, hmem, hstarted⟩
    obtain ⟨c₂, hprog'⟩ := hat ⟨c, hmem, hstarted⟩
    cases hprog.current.symm.trans hcurrent
    cases hprog'.current.symm.trans hcurrent
    by_cases hreached : Reached (now s.time) (now t) (s.due c)
    · right
      intro a ha hstarted'
      have hle := (ahead_le_iff (now_inDay s.time) (now_inDay t) (h.inDay hmem hstarted)
        (h.inDay ha hstarted') (hprog.earliest.least a ha hstarted')).mp
        (hprog'.earliest.least a ha hstarted')
      exact hle.resolve_left fun hnot => hnot hreached
    · exact Or.inl hreached
  · intro hkeeps hsome
    obtain ⟨c, hprog⟩ := hright hsome
    have hstarted := hprog.earliest.started
    refine ⟨c, ⟨hprog.earliest.mem, hstarted, ?_⟩, hprog.current, hprog.rtc⟩
    intro a ha hstarted'
    apply (ahead_le_iff (now_inDay s.time) (now_inDay t) (h.inDay hprog.earliest.mem hstarted)
      (h.inDay ha hstarted') (hprog.earliest.least a ha hstarted')).mpr
    rcases hkeeps c hprog.current hstarted with hnot | hall
    · exact Or.inl hnot
    · exact Or.inr (hall a ha hstarted')

/-- Only the list, the alarms, `current` and the RTC count. -/
theorem rightAt_congr {s' : Container} (hlist : s'.list = s.list) (halarms : s'.alarms = s.alarms)
    (hcurrent : s'.current = s.current) (hrtc : s'.rtc = s.rtc) : RightAt s' t ↔ RightAt s t := by
  have himp : ∀ u v : Container, v.list = u.list → v.alarms = u.alarms →
      v.current = u.current → v.rtc = u.rtc → RightAt u t → RightAt v t := by
    intro u v hl ha hc hr hright hsome
    obtain ⟨a, hmem, hstarted⟩ := hsome
    rw [Container.started, ha] at hstarted
    obtain ⟨c, ⟨hcmem, hcstarted, hleast⟩, hcur, hrtc'⟩ := hright ⟨a, hl ▸ hmem, hstarted⟩
    refine ⟨c, ⟨hl ▸ hcmem, ?_, ?_⟩, hc.trans hcur, ?_⟩
    · rw [Container.started, ha]
      exact hcstarted
    · intro b hb hb'
      rw [Container.started, ha] at hb'
      simp only [Container.due, ha]
      exact hleast b (hl ▸ hb) hb'
    · rw [hr, ha]
      exact hrtc'
  exact ⟨himp s' s hlist.symm halarms.symm hcurrent.symm hrtc.symm,
    himp s s' hlist halarms hcurrent hrtc⟩

theorem Looked.started_iff {a a' : RtAlarm} (h : Looked t a a') :
    a'.started = true ↔ stays a t = true := by
  cases hstarted : a.started with
  | false =>
      rw [h.isStopped hstarted]
      simp [stays, hstarted]
  | true => rw [(h.isStarted hstarted).started]

theorem Looked.due {a a' : RtAlarm} (h : Looked t a a') (hstays : stays a t = true) :
    daySec a'.wktime = nextDue a t := by
  have hstarted : a.started = true := by
    simp only [stays, Bool.and_eq_true] at hstays
    exact hstays.1
  exact (h.isStarted hstarted).due

theorem Looked.clock {a a' : RtAlarm} (h : Looked t a a') (hclock : a.wktime.Clock) :
    a'.wktime.Clock := by
  cases hstarted : a.started with
  | false =>
      rw [h.isStopped hstarted]
      exact hclock
  | true => exact (h.isStarted hstarted).clock

/-- Either an alarm has been made current, and it is the earliest, or `current` stays as it was
and is written again. -/
structure Updated (s : Container) (t₁ t₂ : Nat) (s' : Container) : Prop where
  list : s'.list = s.list
  looked : ∀ x ∈ s.list, Looked t₁ (s.alarms x) (s'.alarms x)
  outcome : (∃ c, Programmed s' t₂ c ∧ s'.due c ≠ now t₂) ∨
    (∀ a ∈ s'.list, s'.started a → s'.due a = now t₂) ∧ s'.current = s.current ∧
      ∀ c, s'.current = some c → s'.rtc = some (c, (s'.alarms c).wkalarm)

private theorem alarmUpdate_spec (h : Fit s) :
    ∃ s', alarmUpdate s t₁ t₂ = .ok s' ∧ Updated s t₁ t₂ s' := by
  by_cases hempty : s.list = []
  · refine ⟨s, by simp only [alarmUpdate, hempty, if_true]; rfl, rfl, by simp [hempty],
      Or.inr ⟨by simp [hempty], rfl, ?_⟩⟩
    intro c hc
    have := (h.current c hc).1
    rw [hempty] at this
    cases this
  · obtain ⟨hsame, hlooked⟩ := wakeAll_spec (t := t₁) h.clock
    have hrun : alarmUpdate s t₁ t₂ = program (wakeAll s (gmtimeR t₁)).1 (gmtimeR t₂) := by
      rw [alarmUpdate, if_neg hempty]
    rw [hrun]
    generalize (wakeAll s (gmtimeR t₁)).1 = w at hsame hlooked ⊢
    have hclock : ∀ x ∈ w.list, w.started x → (w.alarms x).wktime.Clock := by
      intro x hx hstarted
      rw [hsame.list] at hx
      have hstays := (hlooked x hx).started_iff.mp hstarted
      simp only [stays, Bool.and_eq_true] at hstays
      exact (hlooked x hx).clock (h.clock x hx hstays.1)
    rcases program_spec (t := t₂) hclock with ⟨c, hearliest, hne, hprogram⟩ | ⟨hall, hprogram⟩
    · exact ⟨makeCurrent w c, hprogram, hsame.list, hlooked,
        Or.inl ⟨c, ⟨⟨hearliest.mem, hearliest.started, hearliest.least⟩, rfl, rfl⟩, hne⟩⟩
    · cases hcurrent : w.current with
      | none =>
          rw [hcurrent] at hprogram
          refine ⟨w, hprogram, hsame.list, hlooked, Or.inr ⟨hall, hsame.current, ?_⟩⟩
          intro c hc
          rw [hcurrent] at hc
          cases hc
      | some c =>
          rw [hcurrent] at hprogram
          refine ⟨alarmSet w c, hprogram, hsame.list, hlooked, Or.inr ⟨hall, hsame.current, ?_⟩⟩
          intro c' hc'
          cases hc'.symm.trans hcurrent
          rfl

theorem Updated.valid {s' : Container} (h : Fit s) (hup : Updated s t₁ t₂ s') : Valid s' := by
  have hclock : ∀ x ∈ s'.list, s'.started x → (s'.alarms x).wktime.Clock := by
    intro x hx hstarted
    rw [hup.list] at hx
    have hstays := (hup.looked x hx).started_iff.mp hstarted
    simp only [stays, Bool.and_eq_true] at hstays
    exact (hup.looked x hx).clock (h.clock x hx hstays.1)
  rcases hup.outcome with ⟨c, hprog, -⟩ | ⟨-, hcurrent, hrtc⟩
  · refine ⟨⟨hclock, ?_⟩, ?_⟩
    · intro c' hc'
      cases hc'.symm.trans hprog.current
      exact ⟨hprog.earliest.mem, hclock c hprog.earliest.mem hprog.earliest.started⟩
    · intro c' hc' hstopped
      cases hc'.symm.trans hprog.current
      exact absurd hprog.earliest.started hstopped
  · refine ⟨⟨hclock, ?_⟩, ?_⟩
    · intro c hc
      rw [hcurrent] at hc
      obtain ⟨hmem, hcclock⟩ := h.current c hc
      exact ⟨hup.list ▸ hmem, (hup.looked c hmem).clock hcclock⟩
    · intro c hc hstopped
      exact ⟨_, hrtc c hc, by simpa [RtAlarm.wkalarm, Container.started] using hstopped⟩

/-- **When an update programs the earliest alarm.** -/
theorem Updated.rightAt_iff {s' : Container} (h : Fit s) (hup : Updated s t₁ t₂ s') :
    RightAt s' t₂ ↔ Sees s t₁ t₂ := by
  have hstarted : ∀ x ∈ s.list, s'.started x ↔ stays (s.alarms x) t₁ = true := fun x hx =>
    (hup.looked x hx).started_iff
  rcases hup.outcome with ⟨c, hprog, hne⟩ | ⟨hall, hcurrent, hrtc⟩
  · have hmem : c ∈ s.list := hup.list ▸ hprog.earliest.mem
    have hstays := (hstarted c hmem).mp hprog.earliest.started
    constructor
    · intro _ _
      refine Or.inl ⟨c, hmem, hstays, ?_⟩
      rw [← (hup.looked c hmem).due hstays]
      exact hne
    · intro _ _
      exact ⟨c, hprog⟩
  · constructor
    · intro hright hsome
      obtain ⟨a, ha, hstays⟩ := hsome
      obtain ⟨c, hprog⟩ := hright ⟨a, hup.list ▸ ha, (hstarted a ha).mpr hstays⟩
      have hmem : c ∈ s.list := hup.list ▸ hprog.earliest.mem
      exact Or.inr ⟨c, hcurrent ▸ hprog.current, (hstarted c hmem).mp hprog.earliest.started⟩
    · intro hsees hsome
      obtain ⟨a, ha, ha'⟩ := hsome
      rw [hup.list] at ha
      rcases hsees ⟨a, ha, (hstarted a ha).mp ha'⟩ with ⟨b, hb, hstays, hne⟩ | ⟨c, hc, hstays⟩
      · have hdue := (hup.looked b hb).due hstays
        exact absurd (hdue ▸ hall b (hup.list ▸ hb) ((hstarted b hb).mpr hstays)) hne
      · have hmem := (h.current c hc).1
        have hc' : s'.current = some c := hcurrent.trans hc
        refine ⟨c, ⟨hup.list ▸ hmem, (hstarted c hmem).mpr hstays, ?_⟩, hc', hrtc c hc'⟩
        intro b hb hb'
        rw [hall b hb hb', hall c (hup.list ▸ hmem) ((hstarted c hmem).mpr hstays)]

/-! ## The calls -/

/-- An alarm that is not started does not count. -/
theorem rightAt_put {a : RtAlarm} (hid : ¬ s.started id) (ha : a.started = false) :
    RightAt (s.put id a) t ↔ RightAt s t := by
  have hother : ∀ x, x ≠ id → (s.put id a).alarms x = s.alarms x := by
    intro x hx
    simp [Container.put, hx]
  have hself : ¬ (s.put id a).started id := by
    simp [Container.started, Container.put, ha]
  have hboth : ∀ x, (s.put id a).started x ↔ s.started x := by
    intro x
    by_cases hx : x = id
    · rw [hx]
      exact iff_of_false hself hid
    · rw [Container.started, hother x hx, Container.started]
  have hdue : ∀ x, s.started x → (s.put id a).alarms x = s.alarms x := fun x hx =>
    hother x fun heq => hid (heq ▸ hx)
  constructor
  · rintro hright ⟨x, hx, hstarted⟩
    obtain ⟨c, ⟨hmem, hc, hleast⟩, hcurrent, hrtc⟩ := hright ⟨x, hx, (hboth x).mpr hstarted⟩
    have hc' := (hboth c).mp hc
    rw [hdue c hc'] at hrtc
    refine ⟨c, ⟨hmem, hc', ?_⟩, hcurrent, hrtc⟩
    intro b hb hb'
    have hle := hleast b hb ((hboth b).mpr hb')
    simpa only [Container.due, hdue c hc', hdue b hb'] using hle
  · rintro hright ⟨x, hx, hstarted⟩
    obtain ⟨c, ⟨hmem, hc, hleast⟩, hcurrent, hrtc⟩ := hright ⟨x, hx, (hboth x).mp hstarted⟩
    refine ⟨c, ⟨hmem, (hboth c).mpr hc, ?_⟩, hcurrent, ?_⟩
    · intro b hb hb'
      have hb'' := (hboth b).mp hb'
      have hle := hleast b hb hb''
      simpa only [Container.due, hdue c hc, hdue b hb''] using hle
    · rw [hdue c hc]
      exact hrtc

theorem Fit.clearStart (h : Fit s) : Fit (clearStart s id) := by
  constructor
  · intro a ha hstarted
    by_cases hid : a = id
    · simp [Container.started, Alarm.clearStart, Container.put, hid] at hstarted
    · simp only [Container.started, Alarm.clearStart, Container.put, hid, if_false]
        at hstarted ⊢
      exact h.clock a ha hstarted
  · intro c hc
    obtain ⟨hmem, hclock⟩ := h.current c hc
    refine ⟨hmem, ?_⟩
    by_cases hid : c = id
    · simpa [Alarm.clearStart, Container.put, hid] using hid ▸ hclock
    · simpa [Alarm.clearStart, Container.put, hid] using hclock

theorem Fit.dropCurrent (h : Fit s) : Fit (dropCurrent s id) := by
  constructor
  · exact h.clock
  · intro c hc
    cases hc

theorem Valid.time (h : Valid s) : Valid { s with time := t } :=
  ⟨⟨h.clock, h.current⟩, h.stale⟩

private theorem right_time : Right { s with time := t } ↔ RightAt s t :=
  rightAt_congr rfl rfl rfl rfl

/-- `rt_alarm_stop`. -/
theorem rtAlarmStop_spec (h : Valid s) (hright : Right s) :
    ∃ s', rtAlarmStop s id t₁ t₂ = .ok s' ∧ Valid s' ∧
      (RightAt s' t₂ ↔ Cond s (.stop id t₁ t₂)) := by
  by_cases hstarted : (s.alarms id).started = true
  · simp only [rtAlarmStop, Cond, hstarted, if_true]
    have hfit : Fit (clearStart s id) := h.toFit.clearStart
    have hcurrent : (clearStart s id).current = s.current := rfl
    rw [hcurrent]
    have hfit' : Fit (if s.current = some id then dropCurrent (clearStart s id) id
        else clearStart s id) := by
      split
      · exact hfit.dropCurrent
      · exact hfit
    obtain ⟨s', hrun, hup⟩ := @alarmUpdate_spec _ t₁ t₂ hfit'
    exact ⟨s', hrun, hup.valid hfit', hup.rightAt_iff hfit'⟩
  · simp only [rtAlarmStop, Cond, hstarted]
    exact ⟨s, rfl, h, rightAt_iff_keeps h.toFit hright⟩

/-- Removing an alarm that is neither started nor the current one. -/
theorem Valid.listRemove (h : Valid s) (hcurrent : s.current ≠ some id) :
    Valid (listRemove s id) := by
  refine ⟨⟨fun a ha => h.clock a (List.mem_of_mem_erase ha), ?_⟩, h.stale⟩
  intro c hc
  obtain ⟨hmem, hclock⟩ := h.current c hc
  have hne : c ≠ id := fun heq => hcurrent (heq ▸ hc)
  exact ⟨(List.mem_erase_of_ne hne).mpr hmem, hclock⟩

private theorem rightAt_listRemove (hid : ¬ s.started id) :
    RightAt (listRemove s id) t ↔ RightAt s t := by
  have hmem : ∀ a, s.started a → (a ∈ s.list.erase id ↔ a ∈ s.list) := fun a ha =>
    List.mem_erase_of_ne fun heq => hid (heq ▸ ha)
  constructor
  · rintro hright ⟨a, ha, hstarted⟩
    obtain ⟨c, ⟨hc, hstarted', hleast⟩, hcurrent, hrtc⟩ :=
      hright ⟨a, (hmem a hstarted).mpr ha, hstarted⟩
    refine ⟨c, ⟨(hmem c hstarted').mp hc, hstarted', ?_⟩, hcurrent, hrtc⟩
    intro b hb hb'
    exact hleast b ((hmem b hb').mpr hb) hb'
  · rintro hright ⟨a, ha, hstarted⟩
    obtain ⟨c, ⟨hc, hstarted', hleast⟩, hcurrent, hrtc⟩ :=
      hright ⟨a, (hmem a hstarted).mp ha, hstarted⟩
    refine ⟨c, ⟨(hmem c hstarted').mpr hc, hstarted', ?_⟩, hcurrent, hrtc⟩
    intro b hb hb'
    exact hleast b ((hmem b hb').mp hb) hb'

/-- Stopping an alarm that is not the current one takes nothing away. -/
theorem Right.clearStart (hright : Right s) (hcurrent : s.current ≠ some id) :
    Right (clearStart s id) := by
  have hother : ∀ x, x ≠ id → (Alarm.clearStart s id).alarms x = s.alarms x := by
    intro x hx
    simp [Alarm.clearStart, Container.put, hx]
  have hself : ¬ (Alarm.clearStart s id).started id := by
    simp [Container.started, Alarm.clearStart, Container.put]
  have hback : ∀ x, (Alarm.clearStart s id).started x → x ≠ id ∧ s.started x := by
    intro x hx
    have hne : x ≠ id := fun heq => hself (heq ▸ hx)
    rw [Container.started, hother x hne] at hx
    exact ⟨hne, hx⟩
  rintro ⟨a, ha, hstarted⟩
  obtain ⟨c, ⟨hmem, hc, hleast⟩, hcur, hrtc⟩ := hright ⟨a, ha, (hback a hstarted).2⟩
  have hne : c ≠ id := fun heq => hcurrent (heq ▸ hcur)
  refine ⟨c, ⟨hmem, ?_, ?_⟩, hcur, ?_⟩
  · rw [Container.started, hother c hne]
    exact hc
  · intro b hb hb'
    obtain ⟨hbne, hb''⟩ := hback b hb'
    simp only [Container.due, hother b hbne, hother c hne]
    exact hleast b hb hb''
  · rw [hother c hne]
    exact hrtc

/-- `rt_alarm_delete`. -/
theorem rtAlarmDelete_spec (h : Valid s) (hright : Right s) :
    ∃ s', rtAlarmDelete s id t₁ t₂ = .ok s' ∧ Valid s' ∧
      (RightAt s' t₂ ↔ Cond s (.delete id t₁ t₂)) := by
  have hfit : Fit (clearStart s id) := h.toFit.clearStart
  have hself : ¬ (clearStart s id).started id := by
    simp [Container.started, clearStart, Container.put]
  have hcur : (clearStart s id).current = s.current := rfl
  by_cases hcurrent : s.current = some id
  · have hfit' : Fit (dropCurrent (clearStart s id) id) := hfit.dropCurrent
    obtain ⟨s', hrun, hup⟩ := @alarmUpdate_spec _ t₁ t₂ hfit'
    have hmem : id ∈ (dropCurrent (clearStart s id) id).list := (h.current id hcurrent).1
    have hstopped : ¬ s'.started id := by
      intro hstarted
      have := (hup.looked id hmem).started_iff.mp hstarted
      simp only [stays, Bool.and_eq_true] at this
      exact hself this.1
    have hne : s'.current ≠ some id := by
      rcases hup.outcome with ⟨c, hprog, -⟩ | ⟨-, hsame, -⟩
      · intro heq
        cases hprog.current.symm.trans heq
        exact hstopped hprog.earliest.started
      · intro heq
        cases hsame.symm.trans heq
    refine ⟨listRemove s' id, ?_, (hup.valid hfit').listRemove hne, ?_⟩
    · simp only [rtAlarmDelete, hcur, hcurrent, if_true, hrun]
      rfl
    · rw [rightAt_listRemove hstopped, hup.rightAt_iff hfit']
      simp only [Cond, hcurrent, if_true]
  · have hvalid : Valid (clearStart s id) := by
      refine ⟨hfit, ?_⟩
      intro c hc hstopped
      have hne : c ≠ id := fun heq => hcurrent (heq ▸ hc)
      have hsame : (clearStart s id).alarms c = s.alarms c := by
        simp [clearStart, Container.put, hne]
      rw [Container.started, hsame] at hstopped
      exact h.stale c hc hstopped
    have hvalid' : Valid (listRemove (clearStart s id) id) := hvalid.listRemove hcurrent
    have hright' : Right (listRemove (clearStart s id) id) :=
      (rightAt_listRemove hself).mpr (hright.clearStart hcurrent)
    refine ⟨listRemove (clearStart s id) id, ?_, hvalid', ?_⟩
    · simp only [rtAlarmDelete, hcur, hcurrent, if_false]
      rfl
    · rw [rightAt_iff_keeps hvalid'.toFit hright']
      simp only [Cond, hcurrent, if_false]

private theorem orNow_range {low high n x : Int} (hn : low ≤ n ∧ n ≤ high) :
    low ≤ orNow low high n x ∧ orNow low high n x ≤ high := by
  unfold orNow
  split <;> omega

/-- `alarm_setup` sets a time of day whether it succeeds or not. -/
theorem alarmSetup_clock (a : RtAlarm) (t : Nat) :
    (alarmSetup a (gmtimeR t)).1.wktime.Clock := by
  have hnow := gmtimeR_clock t
  have hkind : ∀ setup : Tm, setup.Clock → (setupKind a.kind setup (gmtimeR t)).1.Clock := by
    intro setup hsetup
    have hsec := hsetup.sec
    have hmin := hsetup.min
    have hhour := hsetup.hour
    have hnmin := hnow.min
    have hnhour := hnow.hour
    cases a.kind with
    | second => exact (nextSecond_spec setup hnow).1
    | minute =>
        exact (carryMin_spec (t := { setup with
          hour := (gmtimeR t).hour, min := (gmtimeR t).min + 1 }) hsec
          (by simp only; omega) hnhour).1
    | hour =>
        exact (carryHour_spec (t := { setup with hour := (gmtimeR t).hour + 1 }) hsec hmin
          (by simp only; omega)).1
    | daily | other => exact hsetup
    | oneshot | weekly | monthly | yearly => exact ⟨hsec, hmin, hhour⟩
  have hsetup : ({ a.wktime with
      sec := orNow 0 59 (gmtimeR t).sec a.wktime.sec
      min := orNow 0 59 (gmtimeR t).min a.wktime.min
      hour := orNow 0 23 (gmtimeR t).hour a.wktime.hour } : Tm).Clock :=
    ⟨orNow_range hnow.sec, orNow_range hnow.min, orNow_range hnow.hour⟩
  have hset := hkind _ hsetup
  simp only [alarmSetup]
  split
  · simp only
    split
    · exact ⟨by simp [rtAlarmDelay], hset.min, hset.hour⟩
    · exact hset
  · exact hset

private theorem alarmSetup_started (a : RtAlarm) (t : Tm) :
    (alarmSetup a t).1.started = a.started := by
  simp only [alarmSetup]
  split <;> rfl

/-- The setup has failed: the alarm has another time but is not started. -/
theorem Valid.put_setup (h : Valid s) (hid : ¬ s.started id) :
    Valid (s.put id (alarmSetup (s.alarms id) (gmtimeR t)).1) := by
  have hstopped : (alarmSetup (s.alarms id) (gmtimeR t)).1.started = false := by
    rw [alarmSetup_started]
    simpa [Container.started] using hid
  refine ⟨⟨?_, ?_⟩, ?_⟩
  · intro a ha hstarted
    by_cases heq : a = id
    · simp [Container.started, Container.put, heq, hstopped] at hstarted
    · simp only [Container.started, Container.put, heq, if_false] at hstarted ⊢
      exact h.clock a ha hstarted
  · intro c hc
    obtain ⟨hmem, hclock⟩ := h.current c hc
    refine ⟨hmem, ?_⟩
    by_cases heq : c = id
    · simp only [Container.put, heq, if_true]
      exact alarmSetup_clock _ _
    · simpa only [Container.put, heq, if_false] using hclock
  · intro c hc hcstopped
    by_cases heq : c = id
    · exact h.stale c hc (heq ▸ hid)
    · simp only [Container.started, Container.put, heq, if_false] at hcstopped
      exact h.stale c hc hcstopped

/-- The alarm has been set up and is started now. -/
structure Begun (s : Container) (id : AlarmId) (t : Nat) (s₁ : Container) : Prop where
  list : s₁.list = s.list
  current : s₁.current = s.current
  rtc : s₁.rtc = s.rtc
  other : ∀ x, x ≠ id → s₁.alarms x = s.alarms x
  started : s₁.started id
  due : s₁.due id = setupDue s id t
  clock : (s₁.alarms id).wktime.Clock

private theorem begun_put : Begun s id t
    (s.put id { (alarmSetup (s.alarms id) (gmtimeR t)).1 with started := true }) where
  list := rfl
  current := rfl
  rtc := rfl
  other := by
    intro x hx
    simp [Container.put, hx]
  started := by simp [Container.started, Container.put]
  due := by simp [Container.due, Container.put, setupDue]
  clock := by
    simp only [Container.put, if_true]
    exact alarmSetup_clock _ _

namespace Begun

variable {s₁ : Container} (hb : Begun s id t₁ s₁)
include hb

private theorem started_iff {x : AlarmId} (hx : x ≠ id) : s₁.started x ↔ s.started x := by
  rw [Container.started, hb.other x hx, Container.started]

private theorem due_eq {x : AlarmId} (hx : x ≠ id) : s₁.due x = s.due x := by
  rw [Container.due, hb.other x hx, Container.due]

theorem fit (h : Valid s) : Fit s₁ := by
  constructor
  · intro a ha hstarted
    rw [hb.list] at ha
    by_cases heq : a = id
    · rw [heq]
      exact hb.clock
    · rw [hb.other a heq]
      exact h.clock a ha ((hb.started_iff heq).mp hstarted)
  · intro c hc
    rw [hb.current] at hc
    obtain ⟨hmem, hclock⟩ := h.current c hc
    refine ⟨hb.list ▸ hmem, ?_⟩
    by_cases heq : c = id
    · rw [heq]
      exact hb.clock
    · rwa [hb.other c heq]

/-- The new alarm is written to the RTC. -/
theorem make_valid (h : Valid s) (hmem : id ∈ s.list) : Valid (makeCurrent s₁ id) := by
  refine ⟨⟨(hb.fit h).clock, ?_⟩, ?_⟩
  · intro c hc
    cases hc
    exact ⟨hb.list ▸ hmem, hb.clock⟩
  · intro c hc hstopped
    cases hc
    exact absurd hb.started hstopped

private theorem make_rightAt (hmem : id ∈ s.list) :
    RightAt (makeCurrent s₁ id) t₂ ↔
      ∀ a ∈ s.list, s.started a → a ≠ id →
        ahead (now t₂) (setupDue s id t₁) ≤ ahead (now t₂) (s.due a) := by
  constructor
  · intro hright a ha hstarted hne
    obtain ⟨c, hprog⟩ := hright ⟨id, hb.list ▸ hmem, hb.started⟩
    cases hprog.current
    have hle : ahead (now t₂) (s₁.due id) ≤ ahead (now t₂) (s₁.due a) :=
      hprog.earliest.least a (hb.list ▸ ha) ((hb.started_iff hne).mpr hstarted)
    rwa [hb.due, hb.due_eq hne] at hle
  · intro hall _
    refine ⟨id, ⟨hb.list ▸ hmem, hb.started, ?_⟩, rfl, rfl⟩
    intro a ha hstarted
    have ha' : a ∈ s₁.list := ha
    have hstarted' : s₁.started a := hstarted
    have hle : ahead (now t₂) (s₁.due id) ≤ ahead (now t₂) (s₁.due a) := by
      by_cases hne : a = id
      · rw [hne]
      · rw [hb.due, hb.due_eq hne]
        exact hall a (hb.list ▸ ha') ((hb.started_iff hne).mp hstarted') hne
    exact hle

/-- The new alarm is not written to the RTC. -/
theorem keep_valid (h : Valid s) : Valid s₁ := by
  refine ⟨hb.fit h, ?_⟩
  intro c hc hstopped
  have hne : c ≠ id := fun heq => hstopped (heq ▸ hb.started)
  rw [hb.current] at hc
  rw [hb.rtc]
  exact h.stale c hc fun hstarted => hstopped ((hb.started_iff hne).mpr hstarted)

private theorem keep_rightAt (h : Valid s) (hmem : id ∈ s.list) (hid : ¬ s.started id) {c : AlarmId}
    (hc : s.current = some c) :
    RightAt s₁ t₂ ↔ s.started c ∧ RightAt s t₂ ∧
      ahead (now t₂) (s.due c) ≤ ahead (now t₂) (setupDue s id t₁) := by
  constructor
  · intro hright
    obtain ⟨c', hprog⟩ := hright ⟨id, hb.list ▸ hmem, hb.started⟩
    cases hprog.current.symm.trans (hb.current.trans hc)
    have hne : c ≠ id := by
      intro heq
      obtain ⟨w, hw, hdisabled⟩ := h.stale c hc (heq ▸ hid)
      have hsame := (hb.rtc.symm.trans hprog.rtc).symm.trans hw
      have henabled : (s₁.alarms c).wkalarm.enable = true := hprog.earliest.started
      simp only [Option.some.injEq, Prod.mk.injEq, true_and] at hsame
      rw [hsame, hdisabled] at henabled
      cases henabled
    have hstarted : s.started c := (hb.started_iff hne).mp hprog.earliest.started
    have hnew := hprog.earliest.least id (hb.list ▸ hmem) hb.started
    rw [hb.due_eq hne, hb.due] at hnew
    refine ⟨hstarted, fun _ => ⟨c, ⟨hb.list ▸ hprog.earliest.mem, hstarted, ?_⟩, hc, ?_⟩, hnew⟩
    · intro a ha hstarted'
      have hane : a ≠ id := fun heq => hid (heq ▸ hstarted')
      have hle := hprog.earliest.least a (hb.list ▸ ha) ((hb.started_iff hane).mpr hstarted')
      rwa [hb.due_eq hne, hb.due_eq hane] at hle
    · have hrtc := hprog.rtc
      rwa [hb.rtc, hb.other c hne] at hrtc
  · rintro ⟨hstarted, hright, hnew⟩ _
    have hne : c ≠ id := fun heq => hid (heq ▸ hstarted)
    obtain ⟨c', hprog⟩ := hright ⟨c, (h.current c hc).1, hstarted⟩
    cases hprog.current.symm.trans hc
    refine ⟨c, ⟨hb.list ▸ hprog.earliest.mem, (hb.started_iff hne).mpr hstarted, ?_⟩,
      hb.current.trans hc, ?_⟩
    · intro a ha hstarted'
      rw [hb.due_eq hne]
      by_cases hane : a = id
      · rw [hane, hb.due]
        exact hnew
      · rw [hb.due_eq hane]
        exact hprog.earliest.least a (hb.list ▸ ha) ((hb.started_iff hane).mp hstarted')
    · rw [hb.rtc, hb.other c hne]
      exact hprog.rtc

/-- The new alarm is found to be sooner. -/
theorem taken (h : Valid s) (hright : Right s) (hmem : id ∈ s.list) (hid : ¬ s.started id)
    {c : AlarmId} (hc : s.current = some c)
    (htakes : sooner (now t₂) (s₁.due c) (setupDue s id t₁) = true) :
    RightAt (makeCurrent s₁ id) t₂ ↔ StartsWell s id t₁ t₂ c := by
  have hnewday : InDay (setupDue s id t₁) := hb.due ▸ daySec_inDay hb.clock
  have hcday : InDay (s₁.due c) :=
    daySec_inDay ((hb.fit h).current c (hb.current.trans hc)).2
  obtain ⟨hlt, hnow⟩ := (sooner_iff hcday hnewday).mp htakes
  have hne : c ≠ id := by
    intro heq
    rw [heq, hb.due] at hlt
    exact absurd hlt (lt_irrefl _)
  rw [hb.due_eq hne] at hlt hnow
  rw [hb.make_rightAt hmem]
  constructor
  · intro hall
    refine Or.inr ⟨hne, hlt, hnow, ?_⟩
    intro a ha hstarted
    exact hall a ha hstarted fun heq => hid (heq ▸ hstarted)
  · intro hwell a ha hstarted _
    rcases hwell with ⟨-, hkeeps, -⟩ | ⟨-, -, -, hall⟩
    · obtain ⟨c', hprog⟩ := (rightAt_iff_keeps h.toFit hright).mpr hkeeps ⟨a, ha, hstarted⟩
      cases hprog.current.symm.trans hc
      exact le_trans (le_of_lt hlt) (hprog.earliest.least a ha hstarted)
    · exact hall a ha hstarted

/-- The new alarm is not found to be sooner. -/
theorem notTaken (h : Valid s) (hright : Right s) (hmem : id ∈ s.list) (hid : ¬ s.started id)
    {c : AlarmId} (hc : s.current = some c)
    (htakes : ¬ sooner (now t₂) (s₁.due c) (setupDue s id t₁) = true) :
    RightAt s₁ t₂ ↔ StartsWell s id t₁ t₂ c := by
  have hnewday : InDay (setupDue s id t₁) := hb.due ▸ daySec_inDay hb.clock
  have hcday : InDay (s₁.due c) :=
    daySec_inDay ((hb.fit h).current c (hb.current.trans hc)).2
  have hnday := now_inDay t₂
  rw [sooner_iff hcday hnewday] at htakes
  rw [hb.keep_rightAt h hmem hid hc, rightAt_iff_keeps h.toFit hright]
  simp only [InDay] at hnewday hcday hnday
  constructor
  · rintro ⟨hstarted, hkeeps, hle⟩
    refine Or.inl ⟨hstarted, hkeeps, ?_⟩
    have hne : c ≠ id := fun heq => hid (heq ▸ hstarted)
    rw [hb.due_eq hne] at hcday
    simp only [ahead] at hle
    split at hle <;> split at hle <;> omega
  · intro hwell
    rcases hwell with ⟨hstarted, hkeeps, hnow⟩ | ⟨hne, hlt, hnow, -⟩
    · have hne : c ≠ id := fun heq => hid (heq ▸ hstarted)
      rw [hb.due_eq hne] at htakes
      refine ⟨hstarted, hkeeps, ?_⟩
      rcases hnow with hnow | hnow
      · exact not_lt.mp fun hlt => htakes ⟨hlt, hnow⟩
      · by_cases hsame : s.due c = now t₂
        · rw [hsame, hnow]
        · exact not_lt.mp fun hlt => htakes ⟨hlt, hsame⟩
    · rw [hb.due_eq hne] at htakes
      exact absurd ⟨hlt, hnow⟩ htakes

end Begun

/-- `rt_alarm_start`. -/
theorem rtAlarmStart_spec (h : Valid s) (hright : Right s) (hmem : id ∈ s.list) :
    Valid (rtAlarmStart s id t₁ t₂).1 ∧
      (RightAt (rtAlarmStart s id t₁ t₂).1 t₂ ↔ Cond s (.start id t₁ t₂)) := by
  by_cases hstarted : (s.alarms id).started = true
  · simp only [rtAlarmStart, Cond, hstarted, if_true, true_or]
    exact ⟨h, rightAt_iff_keeps h.toFit hright⟩
  · have hid : ¬ s.started id := hstarted
    cases hok : (alarmSetup (s.alarms id) (gmtimeR t₁)).2 with
    | false =>
        simp only [rtAlarmStart, Cond, hstarted, hok, Bool.false_eq_true, if_false, or_true,
          if_true]
        refine ⟨h.put_setup hid, ?_⟩
        rw [rightAt_put hid, rightAt_iff_keeps h.toFit hright]
        rw [alarmSetup_started]
        simpa using hstarted
    | true =>
        simp only [rtAlarmStart, Cond, hstarted, hok, if_true, Bool.false_eq_true, if_false,
          Bool.true_eq_false, or_self]
        have hb : Begun s id t₁ (s.put id
            { (alarmSetup (s.alarms id) (gmtimeR t₁)).1 with started := true }) := begun_put
        generalize s.put id
          { (alarmSetup (s.alarms id) (gmtimeR t₁)).1 with started := true } = s₁ at hb ⊢
        cases hc : s.current with
        | none =>
            have hnone : ∀ a ∈ s.list, ¬ s.started a := by
              intro a ha hstarted'
              obtain ⟨c, hprog⟩ := hright ⟨a, ha, hstarted'⟩
              cases hprog.current.symm.trans hc
            rw [hb.current, hc]
            refine ⟨hb.make_valid h hmem, ?_⟩
            rw [hb.make_rightAt hmem]
            simp only [reduceCtorEq, false_implies, implies_true, iff_true]
            intro a ha hstarted'
            exact absurd hstarted' (hnone a ha)
        | some c =>
            have hnew : (alarmMkdaysec (s₁.alarms id).wktime).toInt = setupDue s id t₁ := by
              rw [alarmMkdaysec_toInt hb.clock, ← hb.due]
              rfl
            have hold : (alarmMkdaysec (s₁.alarms c).wktime).toInt = s₁.due c :=
              alarmMkdaysec_toInt ((hb.fit h).current c (hb.current.trans hc)).2
            have hnow : (alarmMkdaysec (gmtimeR t₂)).toInt = now t₂ :=
              alarmMkdaysec_toInt (gmtimeR_clock t₂)
            rw [hb.current, hc]
            simp only [Option.some.injEq, forall_eq']
            rw [hnow, hold, hnew]
            by_cases htakes : sooner (now t₂) (s₁.due c) (setupDue s id t₁) = true
            · rw [if_pos htakes]
              exact ⟨hb.make_valid h hmem, hb.taken h hright hmem hid hc htakes⟩
            · rw [if_neg htakes]
              exact ⟨hb.keep_valid h, hb.notTaken h hright hmem hid hc htakes⟩

end

/-- One call. -/
theorem step_spec {s s' : Container} {e : Event} (h : Valid s) (hright : Right s)
    (hstep : step s e = .ok s') : Valid s' ∧ (Right s' ↔ Cond s e) := by
  cases e with
  | start id t₁ t₂ =>
      obtain ⟨u, hcheck, hok⟩ := bind_eq_ok.mp hstep
      have hmem : id ∈ s.list := of_decide_eq_true (check_eq_ok.mp hcheck)
      cases hok
      obtain ⟨hvalid, hiff⟩ := @rtAlarmStart_spec _ t₁ t₂ _ h hright hmem
      exact ⟨hvalid.time, right_time.trans hiff⟩
  | stop id t₁ t₂ =>
      obtain ⟨u, hcheck, hok⟩ := bind_eq_ok.mp hstep
      obtain ⟨s₁, hrun, hvalid, hiff⟩ :=
        @rtAlarmStop_spec _ t₁ t₂ id h hright
      rw [hrun] at hok
      cases hok
      exact ⟨hvalid.time, right_time.trans hiff⟩
  | delete id t₁ t₂ =>
      obtain ⟨u, hcheck, hok⟩ := bind_eq_ok.mp hstep
      obtain ⟨s₁, hrun, hvalid, hiff⟩ :=
        @rtAlarmDelete_spec _ t₁ t₂ id h hright
      rw [hrun] at hok
      cases hok
      exact ⟨hvalid.time, right_time.trans hiff⟩
  | alarm t₁ t₂ =>
      obtain ⟨s₁, hrun, hup⟩ := @alarmUpdate_spec _ t₁ t₂ h.toFit
      simp only [step, hrun] at hstep
      cases hstep
      exact ⟨(hup.valid h.toFit).time, right_time.trans (hup.rightAt_iff h.toFit)⟩

theorem Initial.valid {s : Container} (h : Initial s) : Valid s := by
  refine ⟨⟨fun a ha hstarted => absurd hstarted (h.stopped a ha), ?_⟩, ?_⟩
  · intro c hc
    rw [h.current] at hc
    cases hc
  · intro c hc
    rw [h.current] at hc
    cases hc

/-- **The earliest alarm is in the RTC** in every state of a run if and only if the calls of the
run meet their conditions. -/
theorem alarm_programmed {s t : Container} {es : List Event} (h : Initial s)
    (hrun : run step s es = .ok t) : Always step Right s es ↔ Guarded step Cond s es := by
  have hright : Right s := fun hsome => by
    obtain ⟨a, ha, hstarted⟩ := hsome
    exact absurd hstarted (h.stopped a ha)
  have hall : Guarded step (fun _ _ => True) s es := Guarded.of_forall fun _ _ _ => trivial
  exact always_iff_guarded_of_both
    (fun s e s' hs hP _ hstep => step_spec hs hP hstep) h.valid hright hall hrun

/-! ## Runs -/

/-- A one-shot alarm for ten seconds past midnight and a daily one, a second later. -/
def two : Container where
  list := [0, 1]
  nodup := by decide
  alarms id :=
    if id = 0 then ⟨.oneshot, false, true, ⟨10, 0, 0, 1, 0, 70, 4⟩⟩
    else ⟨.daily, false, true, ⟨11, 0, 0, 1, 0, 70, 4⟩⟩
  current := none
  rtc := none
  calls := []
  time := 0

private theorem two_initial : Initial two where
  stopped := by simp [two, Container.started]
  current := rfl

/-- Both are started, and the events come in time. -/
def inTime : List Event := [.start 0 0 0, .start 1 2 2, .alarm 10 10, .alarm 11 12]

/-- The daily alarm is started when the other one is over and it is past its time. -/
def late : List Event := [.start 0 0 0, .alarm 10 10, .start 1 12 12]

theorem alarm_programmed_two : Always step Right two inTime ∧
    (run step two inTime).map (fun t => (t.calls, t.current)) = .ok ([0, 1], some 1) := by
  have hends : (run step two inTime).map (fun t => (t.calls, t.current)) =
      .ok ([0, 1], some 1) := by
    decide
  obtain ⟨t, hrun, -⟩ := exists_of_map_eq_ok hends
  exact ⟨(alarm_programmed two_initial hrun).mpr (by decide), hends⟩

theorem late_not_programmed :
    ¬ ∀ (s : Container) (es : List Event) (t : Container), Initial s →
      run step s es = .ok t → Always step Right s es := by
  intro hall
  have hends : (run step two late).map (fun t =>
      (t.list, t.current, (t.alarms 0).started, (t.alarms 1).started)) =
      .ok ([0, 1], some 0, false, true) := by decide
  obtain ⟨t, hrun, ht⟩ := exists_of_map_eq_ok hends
  simp only [Prod.mk.injEq] at ht
  obtain ⟨hlist, hcurrent, hstopped, hstarted⟩ := ht
  have hright : Right t := (hall two late t two_initial hrun).of_run hrun
  obtain ⟨c, hprog⟩ := hright ⟨1, by rw [hlist]; decide, hstarted⟩
  cases hprog.current.symm.trans hcurrent
  have hzero : (t.alarms 0).started = true := hprog.earliest.started
  rw [hstopped] at hzero
  cases hzero

end RtHypervisor.Ports.Alarm
