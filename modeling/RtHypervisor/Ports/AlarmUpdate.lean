import Mathlib.Tactic
import RtHypervisor.Ports.Alarm

/-!
# What `alarm_update` does

`daySec` is the second of the day a time of day stands for, `ahead` the seconds until the clock
shows it again.  `wakeAll_spec` and `program_spec` are the two loops.
-/

namespace RtHypervisor.Ports.Alarm

open RtHypervisor.Verified.Nearest
open RtHypervisor.Verified.Run
open RtHypervisor.Ports.RtcTime

/-! ## Times of day -/

/-- The second of the day. -/
def daySec (t : Tm) : Int := t.sec + t.min * 60 + t.hour * 3600

/-- The second of the day that the clock shows at `t`. -/
def now (t : Nat) : Int := daySec (gmtimeR t)

/-- The seconds from `n` to the next time the clock shows `x`. -/
def ahead (n x : Int) : Int := if n < x then x - n else x - n + 86400

/-- The seconds that have passed when the clock has gone from `n` to `n'`. -/
def elapsed (n n' : Int) : Int := if n ≤ n' then n' - n else n' - n + 86400

/-- A second of the day. -/
def InDay (n : Int) : Prop := 0 ≤ n ∧ n < 86400

theorem daySec_inDay {t : Tm} (h : t.Clock) : InDay (daySec t) := by
  have hsec := h.sec
  have hmin := h.min
  have hhour := h.hour
  constructor <;> simp only [daySec] <;> omega

theorem now_inDay (t : Nat) : InDay (now t) := daySec_inDay (gmtimeR_clock t)

theorem alarmMkdaysec_toInt {t : Tm} (h : t.Clock) : (alarmMkdaysec t).toInt = daySec t := by
  have hday := daySec_inDay h
  have heq : alarmMkdaysec t = BitVec.ofInt 32 (daySec t) := by
    simp only [alarmMkdaysec, daySec, BitVec.ofInt_add]
  rw [heq, BitVec.toInt_ofInt]
  simp only [InDay] at hday
  rw [Int.bmod_def]
  omega

/-- The alarm at `y` has been due since the clock showed `n`. -/
def Reached (n n' y : Int) : Prop := ahead n y ≤ elapsed n n'

instance (n n' y : Int) : Decidable (Reached n n' y) :=
  inferInstanceAs (Decidable (ahead n y ≤ elapsed n n'))

/-- When the clock goes on, of two times of day the nearer one stays the nearer one unless it
alone is passed. -/
theorem ahead_le_iff {n n' x y : Int} (hn : InDay n) (hn' : InDay n') (hx : InDay x)
    (hy : InDay y) (hle : ahead n x ≤ ahead n y) :
    ahead n' x ≤ ahead n' y ↔ ¬ Reached n n' x ∨ Reached n n' y := by
  simp only [InDay] at hn hn' hx hy
  simp only [ahead, Reached, elapsed] at hle ⊢
  split at hle <;> split at hle <;> split <;> split <;> omega

/-- What the comparisons of `rt_alarm_start` decide. -/
theorem sooner_iff {n old new : Int} (hold : InDay old) (hnew : InDay new) :
    sooner n old new = true ↔ ahead n new < ahead n old ∧ old ≠ n := by
  simp only [InDay] at hold hnew
  simp only [sooner, ahead]
  split
  · simp only [true_iff]
    split <;> split <;> omega
  · split
    · simp only [true_iff]
      split <;> split <;> omega
    · split
      · simp only [true_iff]
        split <;> split <;> omega
      · simp only [Bool.false_eq_true, false_iff]
        split <;> split <;> omega

/-! ## One alarm wakes up -/

theorem carryHour_spec {t : Tm} (hsec : 0 ≤ t.sec ∧ t.sec ≤ 59) (hmin : 0 ≤ t.min ∧ t.min ≤ 59)
    (hhour : 0 ≤ t.hour ∧ t.hour ≤ 24) :
    (carryHour t).Clock ∧ daySec (carryHour t) = daySec t % 86400 := by
  by_cases hcarry : t.hour > 23
  · simp only [carryHour, hcarry, if_true]
    exact ⟨⟨hsec, hmin, by simp⟩, by simp only [daySec]; omega⟩
  · simp only [carryHour, hcarry, if_false]
    exact ⟨⟨hsec, hmin, by omega⟩, by simp only [daySec]; omega⟩

theorem carryMin_spec {t : Tm} (hsec : 0 ≤ t.sec ∧ t.sec ≤ 59) (hmin : 0 ≤ t.min ∧ t.min ≤ 60)
    (hhour : 0 ≤ t.hour ∧ t.hour ≤ 23) :
    (carryMin t).Clock ∧ daySec (carryMin t) = daySec t % 86400 := by
  by_cases hcarry : t.min > 59
  · simp only [carryMin, hcarry, if_true]
    have hspec := carryHour_spec (t := { t with min := 0, hour := t.hour + 1 }) hsec
      (by simp) (by simp only; omega)
    refine ⟨hspec.1, ?_⟩
    rw [hspec.2]
    simp only [daySec]
    omega
  · simp only [carryMin, hcarry, if_false]
    exact ⟨⟨hsec, by omega, hhour⟩, by simp only [daySec]; omega⟩

private theorem carrySec_spec {t : Tm} (hsec : 0 ≤ t.sec ∧ t.sec ≤ 60)
    (hmin : 0 ≤ t.min ∧ t.min ≤ 59) (hhour : 0 ≤ t.hour ∧ t.hour ≤ 23) :
    (carrySec t).Clock ∧ daySec (carrySec t) = daySec t % 86400 := by
  by_cases hcarry : t.sec > 59
  · simp only [carrySec, hcarry, if_true]
    have hspec := carryMin_spec (t := { t with sec := 0, min := t.min + 1 }) (by simp)
      (by simp only; omega) hhour
    refine ⟨hspec.1, ?_⟩
    rw [hspec.2]
    simp only [daySec]
    omega
  · simp only [carrySec, hcarry, if_false]
    exact ⟨⟨by omega, hmin, hhour⟩, by simp only [daySec]; omega⟩

theorem nextSecond_spec (t : Tm) {n : Tm} (hn : n.Clock) :
    (nextSecond t n).Clock ∧ daySec (nextSecond t n) = (daySec n + 1) % 86400 := by
  have hsec := hn.sec
  have hmin := hn.min
  have hhour := hn.hour
  have hspec := carrySec_spec
    (t := { t with hour := n.hour, min := n.min, sec := n.sec + 1 })
    (by simp only; omega) hmin hhour
  refine ⟨hspec.1, ?_⟩
  rw [nextSecond, hspec.2]
  simp only [daySec]
  omega

/-- A one-shot alarm fires at `t`. -/
def fires (a : RtAlarm) (t : Nat) : Bool :=
  decide (a.kind = .oneshot) &&
    justPast (BitVec.ofInt 32 (timegm (gmtimeR t)).2) (BitVec.ofInt 32 (timegm a.wktime).2)

/-- The alarm is started, and not over when it is looked at at `t`. -/
def stays (a : RtAlarm) (t : Nat) : Bool :=
  a.started && !fires a t

/-- The second of the day an alarm is for after it has been looked at at `t`. -/
def nextDue (a : RtAlarm) (t : Nat) : Int :=
  let n := gmtimeR t
  match a.kind with
  | .second => (daySec n + 1) % 86400
  | .minute =>
      if a.wktime.sec = n.sec then (n.hour * 3600 + (n.min + 1) * 60 + a.wktime.sec) % 86400
      else n.hour * 3600 + a.wktime.min * 60 + a.wktime.sec
  | .hour =>
      if a.wktime.min = n.min ∧ a.wktime.sec = n.sec then
        ((n.hour + 1) * 3600 + a.wktime.min * 60 + a.wktime.sec) % 86400
      else daySec a.wktime
  | _ => daySec a.wktime

/-- `n` is the reading at `t`, up to the day of the week that `timegm` has written. -/
def ReadAt (t : Nat) (n : Tm) : Prop := ∃ wday, n = { gmtimeR t with wday := wday }

theorem ReadAt.refl (t : Nat) : ReadAt t (gmtimeR t) := ⟨(gmtimeR t).wday, rfl⟩

theorem ReadAt.clock {t : Nat} {n : Tm} (h : ReadAt t n) : n.Clock := by
  obtain ⟨wday, rfl⟩ := h
  have hclock := gmtimeR_clock t
  exact ⟨hclock.sec, hclock.min, hclock.hour⟩

theorem ReadAt.timegm {t : Nat} {n : Tm} (h : ReadAt t n) :
    (timegm n).2 = (timegm (gmtimeR t)).2 ∧ ReadAt t (timegm n).1 := by
  have hclock := h.clock
  obtain ⟨wday, rfl⟩ := h
  have hdated : ({ gmtimeR t with wday := wday } : Tm).Dated :=
    ⟨(gmtimeR_dated t).mon, (gmtimeR_dated t).mday⟩
  obtain ⟨wday', hsame⟩ := timegm_inRange hclock hdated
  exact ⟨timegm_wday (gmtimeR_clock t) (gmtimeR_dated t) wday, wday', hsame⟩

/-- What `alarm_wakeup` makes of a started alarm. -/
structure Woken (t : Nat) (a a' : RtAlarm) : Prop where
  started : a'.started = stays a t
  clock : a'.wktime.Clock
  due : daySec a'.wktime = nextDue a t

private theorem wake_spec {a : RtAlarm} {t : Nat} {n : Tm} (hstarted : a.started = true)
    (hclock : a.wktime.Clock) (hn : ReadAt t n) :
    Woken t a (a.wake n).1 ∧ ReadAt t (a.wake n).2.1 := by
  have hsec := hclock.sec
  have hmin := hclock.min
  have hhour := hclock.hour
  have hnclock := hn.clock
  have hnsec := hnclock.sec
  have hnmin := hnclock.min
  have hnhour := hnclock.hour
  -- the kinds that leave the alarm as it is
  have hsame : ∀ b, a.kind = b → b ≠ .oneshot → stays a t = true := by
    rintro b rfl hb
    simp [stays, fires, hstarted, hb]
  have hread : daySec n = daySec (gmtimeR t) ∧ n.sec = (gmtimeR t).sec ∧
      n.min = (gmtimeR t).min ∧ n.hour = (gmtimeR t).hour := by
    obtain ⟨wday, rfl⟩ := hn
    exact ⟨rfl, rfl, rfl, rfl⟩
  cases hkind : a.kind with
  | oneshot =>
      obtain ⟨htime, hread'⟩ := hn.timegm
      obtain ⟨hs, hm, hh⟩ := timegm_clock hclock
      simp only [RtAlarm.wake, hkind]
      refine ⟨⟨?_, ⟨?_, ?_, ?_⟩, ?_⟩, hread'⟩
      · simp only [stays, fires, hkind, hstarted, htime]
        cases justPast _ _ <;> simp
      · rw [hs]
        exact hsec
      · rw [hm]
        exact hmin
      · rw [hh]
        exact hhour
      · simp only [nextDue, hkind, daySec, hs, hm, hh]
  | daily =>
      simp only [RtAlarm.wake, hkind]
      exact ⟨⟨by rw [hstarted, hsame _ hkind (by simp)], hclock, by simp [nextDue, hkind]⟩, hn⟩
  | weekly =>
      simp only [RtAlarm.wake, hkind]
      exact ⟨⟨by rw [hstarted, hsame _ hkind (by simp)], hclock, by simp [nextDue, hkind]⟩, hn⟩
  | monthly =>
      simp only [RtAlarm.wake, hkind]
      exact ⟨⟨by rw [hstarted, hsame _ hkind (by simp)], hclock, by simp [nextDue, hkind]⟩, hn⟩
  | yearly =>
      simp only [RtAlarm.wake, hkind]
      exact ⟨⟨by rw [hstarted, hsame _ hkind (by simp)], hclock, by simp [nextDue, hkind]⟩, hn⟩
  | other =>
      simp only [RtAlarm.wake, hkind]
      exact ⟨⟨by rw [hstarted, hsame _ hkind (by simp)], hclock, by simp [nextDue, hkind]⟩, hn⟩
  | second =>
      obtain ⟨hclock', hday⟩ := nextSecond_spec a.wktime hnclock
      simp only [RtAlarm.wake, hkind]
      refine ⟨⟨by rw [hstarted, hsame _ hkind (by simp)], hclock', ?_⟩, hn⟩
      simp only [nextDue, hkind, hday, hread.1]
  | minute =>
      simp only [RtAlarm.wake, hkind]
      by_cases hs : a.wktime.sec = n.sec
      · obtain ⟨hclock', hday⟩ := carryMin_spec
          (t := { a.wktime with hour := n.hour, min := n.min + 1 }) hsec
          (by simp only; omega) hnhour
        rw [if_pos hs]
        refine ⟨⟨by rw [hstarted, hsame _ hkind (by simp)], hclock', ?_⟩, hn⟩
        rw [hday]
        simp only [nextDue, hkind, daySec, ← hread.2.1, ← hread.2.2.1, ← hread.2.2.2, hs, if_true]
        congr 1
        omega
      · rw [if_neg hs]
        refine ⟨⟨by rw [hstarted, hsame _ hkind (by simp)], ⟨hsec, hmin, hnhour⟩, ?_⟩, hn⟩
        simp only [nextDue, hkind, daySec, ← hread.2.1, ← hread.2.2.2, hs, if_false]
        omega
  | hour =>
      simp only [RtAlarm.wake, hkind]
      by_cases hs : a.wktime.min = n.min ∧ a.wktime.sec = n.sec
      · obtain ⟨hclock', hday⟩ := carryHour_spec
          (t := { a.wktime with hour := n.hour + 1 }) hsec hmin (by simp only; omega)
        rw [if_pos hs]
        refine ⟨⟨by rw [hstarted, hsame _ hkind (by simp)], hclock', ?_⟩, hn⟩
        rw [hday]
        simp only [nextDue, hkind, daySec, ← hread.2.1, ← hread.2.2.1, ← hread.2.2.2]
        rw [if_pos hs]
        congr 1
        omega
      · rw [if_neg hs]
        refine ⟨⟨by rw [hstarted, hsame _ hkind (by simp)], hclock, ?_⟩, hn⟩
        simp only [nextDue, hkind, ← hread.2.1, ← hread.2.2.1]
        rw [if_neg hs]

/-! ## The first loop of `alarm_update` -/

def Container.started (s : Container) (id : AlarmId) : Prop := (s.alarms id).started = true

instance (s : Container) (id : AlarmId) : Decidable (s.started id) :=
  inferInstanceAs (Decidable ((s.alarms id).started = true))

def Container.due (s : Container) (id : AlarmId) : Int := daySec (s.alarms id).wktime

/-- What `alarm_wakeup` leaves alone. -/
structure Same (s s' : Container) : Prop where
  list : s'.list = s.list
  current : s'.current = s.current
  time : s'.time = s.time

theorem Same.trans {s s' s'' : Container} (h : Same s s') (h' : Same s' s'') : Same s s'' :=
  ⟨h'.list.trans h.list, h'.current.trans h.current, h'.time.trans h.time⟩

/-- The alarm after `alarm_wakeup`, started or not. -/
structure Looked (t : Nat) (a a' : RtAlarm) : Prop where
  isStarted : a.started = true → Woken t a a'
  isStopped : a.started = false → a' = a

private theorem alarmWakeup_spec {s : Container} {id : AlarmId} {t : Nat} {n : Tm} (hn : ReadAt t n)
    (hclock : s.started id → (s.alarms id).wktime.Clock) :
    Same s (alarmWakeup s id n).1 ∧
      (∀ x, x ≠ id → (alarmWakeup s id n).1.alarms x = s.alarms x) ∧
      Looked t (s.alarms id) ((alarmWakeup s id n).1.alarms id) ∧
      ReadAt t (alarmWakeup s id n).2 := by
  cases hstarted : (s.alarms id).started with
  | false =>
      simp only [alarmWakeup, hstarted, Bool.false_eq_true, if_false]
      refine ⟨⟨rfl, rfl, rfl⟩, fun x _ => trivial, ⟨fun h => ?_, fun _ => rfl⟩, hn⟩
      rw [hstarted] at h
      cases h
  | true =>
      obtain ⟨hwoken, hread⟩ := wake_spec hstarted (hclock hstarted) hn
      simp only [alarmWakeup, hstarted, if_true]
      refine ⟨?_, ?_, ⟨fun _ => ?_, fun h => ?_⟩, hread⟩
      · constructor <;> split <;> split <;> rfl
      · intro x hx
        split <;> split <;> simp [Container.put, alarmSet, hx]
      · have hid : ∀ s' : Container, s'.alarms id = ((s.alarms id).wake n).1 →
            Woken t (s.alarms id) (s'.alarms id) := by
          intro s' hs'
          rw [hs']
          exact hwoken
        apply hid
        split <;> split <;> simp [Container.put, alarmSet]
      · rw [hstarted] at h
        cases h

/-- One round of the loop. -/
def wakeOne (sn : Container × Tm) (id : AlarmId) : Container × Tm := alarmWakeup sn.1 id sn.2

private theorem wake_foldl {t : Nat} {l : List AlarmId} (hl : l.Nodup) {p : Container × Tm}
    (hn : ReadAt t p.2) (hclock : ∀ x ∈ l, p.1.started x → (p.1.alarms x).wktime.Clock) :
    Same p.1 (l.foldl wakeOne p).1 ∧
      (∀ x, x ∉ l → (l.foldl wakeOne p).1.alarms x = p.1.alarms x) ∧
      ∀ x ∈ l, Looked t (p.1.alarms x) ((l.foldl wakeOne p).1.alarms x) := by
  induction l generalizing p with
  | nil => exact ⟨⟨rfl, rfl, rfl⟩, fun x _ => rfl, by simp⟩
  | cons id l ih =>
      obtain ⟨hid, hnodup⟩ := List.nodup_cons.mp hl
      obtain ⟨hsame, hother, hlooked, hread⟩ :
          Same p.1 (wakeOne p id).1 ∧
            (∀ x, x ≠ id → (wakeOne p id).1.alarms x = p.1.alarms x) ∧
            Looked t (p.1.alarms id) ((wakeOne p id).1.alarms id) ∧
            ReadAt t (wakeOne p id).2 :=
        alarmWakeup_spec hn (hclock id (List.mem_cons_self ..))
      have hclock' : ∀ x ∈ l, (wakeOne p id).1.started x →
          ((wakeOne p id).1.alarms x).wktime.Clock := by
        intro x hx hstarted
        have hne : x ≠ id := fun heq => hid (heq ▸ hx)
        rw [hother x hne]
        rw [Container.started, hother x hne] at hstarted
        exact hclock x (List.mem_cons_of_mem _ hx) hstarted
      obtain ⟨hsame', hother', hlooked'⟩ := ih hnodup hread hclock'
      refine ⟨hsame.trans hsame', ?_, ?_⟩
      · intro x hx
        rw [List.mem_cons, not_or] at hx
        exact (hother' x hx.2).trans (hother x hx.1)
      · intro x hx
        rw [List.foldl_cons]
        rcases List.mem_cons.mp hx with heq | hx
        · rw [heq, hother' id hid]
          exact hlooked
        · have hne : x ≠ id := fun heq => hid (heq ▸ hx)
          have hrest := hlooked' x hx
          rwa [hother x hne] at hrest

/-- Every alarm in the list is looked at once. -/
theorem wakeAll_spec {s : Container} {t : Nat}
    (hclock : ∀ x ∈ s.list, s.started x → (s.alarms x).wktime.Clock) :
    Same s (wakeAll s (gmtimeR t)).1 ∧
      ∀ x ∈ s.list, Looked t (s.alarms x) ((wakeAll s (gmtimeR t)).1.alarms x) := by
  obtain ⟨hsame, -, hlooked⟩ := wake_foldl (p := (s, gmtimeR t)) s.nodup (ReadAt.refl t) hclock
  exact ⟨hsame, hlooked⟩

/-! ## The second loop of `alarm_update` -/

/-- `sec_tmp`. -/
def secTmp (s : Container) (secNow : Int) (id : AlarmId) : Int :=
  (alarmMkdaysec (s.alarms id).wktime).toInt - secNow

def isAfter (s : Container) (secNow : Int) (id : AlarmId) : Bool :=
  (s.alarms id).started && decide (secTmp s secNow id > 0)

def isBefore (s : Container) (secNow : Int) (id : AlarmId) : Bool :=
  (s.alarms id).started && !decide (secTmp s secNow id > 0)

/-- The loop looks for two alarms at once. -/
theorem consider_foldl (s : Container) (secNow : Int) (l : List AlarmId)
    (next prev : Best AlarmId Int) :
    l.foldl (consider s secNow) ⟨next, prev⟩ =
      ⟨l.foldl (Best.keep (isAfter s secNow) (secTmp s secNow)) next,
        l.foldl (Best.keep (isBefore s secNow) (secTmp s secNow)) prev⟩ := by
  induction l generalizing next prev with
  | nil => rfl
  | cons id l ih =>
      have hstep : consider s secNow ⟨next, prev⟩ id =
          ⟨next.keep (isAfter s secNow) (secTmp s secNow) id,
            prev.keep (isBefore s secNow) (secTmp s secNow) id⟩ := by
        have hbody : consider s secNow ⟨next, prev⟩ id =
            if (s.alarms id).started then
              if secTmp s secNow id > 0 then
                if secTmp s secNow id < next.value then ⟨⟨secTmp s secNow id, some id⟩, prev⟩
                else ⟨next, prev⟩
              else if secTmp s secNow id < prev.value then ⟨next, ⟨secTmp s secNow id, some id⟩⟩
              else ⟨next, prev⟩
            else ⟨next, prev⟩ := rfl
        rw [hbody]
        cases hstarted : (s.alarms id).started with
        | false => simp [Best.keep, isAfter, isBefore, hstarted]
        | true =>
            by_cases hpos : secTmp s secNow id > 0
            · by_cases hlt : secTmp s secNow id < next.value
              · simp [Best.keep, isAfter, isBefore, hstarted, hpos, hlt]
              · simp [Best.keep, isAfter, isBefore, hstarted, hpos, hlt]
            · by_cases hlt : secTmp s secNow id < prev.value
              · simp [Best.keep, isAfter, isBefore, hstarted, hpos, hlt]
              · simp [Best.keep, isAfter, isBefore, hstarted, hpos, hlt]
      rw [List.foldl_cons, hstep]
      exact ih _ _

/-- `c` is started, and of the started alarms none is due before it. -/
structure Earliest (s : Container) (t : Nat) (c : AlarmId) : Prop where
  mem : c ∈ s.list
  started : s.started c
  least : ∀ a ∈ s.list, s.started a → ahead (now t) (s.due c) ≤ ahead (now t) (s.due a)

/-- What the second half of `alarm_update` does: it makes the earliest alarm the current one, but
it does not see an alarm whose time is now. -/
theorem program_spec {s : Container} {t : Nat}
    (hclock : ∀ x ∈ s.list, s.started x → (s.alarms x).wktime.Clock) :
    (∃ c, Earliest s t c ∧ s.due c ≠ now t ∧ program s (gmtimeR t) = .ok (makeCurrent s c)) ∨
      (∀ a ∈ s.list, s.started a → s.due a = now t) ∧
        program s (gmtimeR t) =
          .ok (match s.current with | some c => alarmSet s c | none => s) := by
  have hnow : (alarmMkdaysec (gmtimeR t)).toInt = now t := alarmMkdaysec_toInt (gmtimeR_clock t)
  have htmp : ∀ x ∈ s.list, s.started x → secTmp s (now t) x = s.due x - now t := by
    intro x hx hstarted
    rw [secTmp, alarmMkdaysec_toInt (hclock x hx hstarted)]
    rfl
  have hday : ∀ x ∈ s.list, s.started x → InDay (s.due x) := fun x hx hstarted =>
    daySec_inDay (hclock x hx hstarted)
  have hnday := now_inDay t
  have hafter := best_foldl (isAfter s (now t)) (secTmp s (now t)) (24 * 3600) s.list
  have hbefore := best_foldl (isBefore s (now t)) (secTmp s (now t)) 0 s.list
  simp only [program, hnow, consider_foldl]
  generalize s.list.foldl (Best.keep (isAfter s (now t)) (secTmp s (now t))) _ = next at hafter ⊢
  generalize s.list.foldl (Best.keep (isBefore s (now t)) (secTmp s (now t))) _ = prev
    at hbefore ⊢
  simp only [InDay] at hday hnday
  by_cases hnext : next.value < 24 * 3600
  · -- an alarm later today
    obtain ⟨c, helem, hmem, hc, -, hleast⟩ := hafter.found hnext
    simp only [isAfter, Bool.and_eq_true, decide_eq_true_eq] at hc hleast
    have hcday := hday c hmem hc.1
    have hctmp := htmp c hmem hc.1
    left
    refine ⟨c, ⟨hmem, hc.1, ?_⟩, by omega, by rw [if_pos hnext, helem]; rfl⟩
    intro a ha hstarted
    have haday := hday a ha hstarted
    have hatmp := htmp a ha hstarted
    have hle := hleast a ha
    simp only [ahead]
    split <;> split <;> first | omega | skip
    have := hle ⟨hstarted, by omega⟩
    omega
  · have hnone := hafter.nothing hnext
    simp only [isAfter, Bool.and_eq_true, decide_eq_true_eq] at hnone
    have hearlier : ∀ a ∈ s.list, s.started a → s.due a ≤ now t := by
      intro a ha hstarted
      have haday := hday a ha hstarted
      have hatmp := htmp a ha hstarted
      by_contra hlate
      have := hnone a ha ⟨hstarted, by omega⟩
      omega
    by_cases hprev : prev.value < 0
    · -- the first alarm of tomorrow
      obtain ⟨c, helem, hmem, hc, hvalue, hleast⟩ := hbefore.found hprev
      simp only [isBefore, Bool.and_eq_true, Bool.not_eq_true', decide_eq_false_iff_not]
        at hc hleast
      have hcday := hday c hmem hc.1
      have hctmp := htmp c hmem hc.1
      left
      refine ⟨c, ⟨hmem, hc.1, ?_⟩, by omega, by rw [if_neg hnext, if_pos hprev, helem]; rfl⟩
      intro a ha hstarted
      have haday := hday a ha hstarted
      have hatmp := htmp a ha hstarted
      have hlate := hearlier a ha hstarted
      have hle := hleast a ha ⟨hstarted, by omega⟩
      simp only [ahead]
      split <;> split <;> omega
    · have hzero := hbefore.nothing hprev
      simp only [isBefore, Bool.and_eq_true, Bool.not_eq_true', decide_eq_false_iff_not] at hzero
      right
      constructor
      · intro a ha hstarted
        have hatmp := htmp a ha hstarted
        have hlate := hearlier a ha hstarted
        have := hzero a ha ⟨hstarted, by omega⟩
        omega
      · simp only [hnext, hprev, if_false]
        cases s.current <;> rfl

end RtHypervisor.Ports.Alarm
