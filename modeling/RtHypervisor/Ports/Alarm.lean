import Mathlib.Tactic
import RtHypervisor.Verified.Nearest
import RtHypervisor.Verified.Run
import RtHypervisor.Ports.RtcTime

/-!
# RTC alarms

The RTC is to hold the earliest of the started alarms.  `alarm_update` picks it among all of them
but overlooks an alarm whose time is the second of the update; `rt_alarm_start` compares the new
alarm with `_container.current`, which may be a one-shot alarm that is over.

`alarm_programmed` says which calls keep the earliest alarm in the RTC.  A call holds the mutex
and is one step, its two readings of the clock are arbitrary; the callbacks are recorded and call
nothing here.  Writing an alarm to the RTC succeeds and the time written is read back.
-/

namespace RtHypervisor.Ports.Alarm

open RtHypervisor.Verified.Nearest
open RtHypervisor.Verified.Run
open RtHypervisor.Ports.RtcTime

/-- `alarm->flag & 0xFF00`. -/
inductive Kind
  | oneshot
  | daily
  | weekly
  | monthly
  | yearly
  | hour
  | minute
  | second
  | other
deriving DecidableEq, Repr

/-- `struct rt_alarm`; `started` is the flag `RT_ALARM_STATE_START`. -/
structure RtAlarm where
  kind : Kind
  started : Bool
  hasCallback : Bool
  wktime : Tm

abbrev AlarmId := Nat

/-- `struct rt_rtc_wkalarm`. -/
structure Wkalarm where
  enable : Bool
  sec : Int
  min : Int
  hour : Int
deriving DecidableEq, Repr

/-- `_container` with its alarms; what was last written to the RTC and by which alarm; the
callbacks that were made; when the last call read the clock. -/
structure Container where
  list : List AlarmId
  nodup : list.Nodup
  alarms : AlarmId → RtAlarm
  current : Option AlarmId
  rtc : Option (AlarmId × Wkalarm)
  calls : List AlarmId
  time : Nat

def Container.put (s : Container) (id : AlarmId) (a : RtAlarm) : Container :=
  { s with alarms := fun x => if x = id then a else s.alarms x }

/-- `RT_ALARM_DELAY`, where the RTC is not the one in software. -/
def rtAlarmDelay : Nat := 2

/-- `RT_RTC_YEARS_MAX`. -/
def rtRtcYearsMax : Int := 137

/-- `alarm_mkdaysec`. -/
def alarmMkdaysec (t : Tm) : BitVec 32 :=
  BitVec.ofInt 32 t.sec + BitVec.ofInt 32 (t.min * 60) + BitVec.ofInt 32 (t.hour * 3600)

def RtAlarm.wkalarm (a : RtAlarm) : Wkalarm :=
  ⟨a.started, a.wktime.sec, a.wktime.min, a.wktime.hour⟩

/-- `alarm_set`. -/
def alarmSet (s : Container) (id : AlarmId) : Container :=
  { s with rtc := some (id, (s.alarms id).wkalarm) }

/-- `if (tm_hour > 23)` and what it guards. -/
def carryHour (t : Tm) : Tm :=
  if t.hour > 23 then { t with hour := 0 } else t

/-- `if (tm_min > 59)` and what it guards. -/
def carryMin (t : Tm) : Tm :=
  if t.min > 59 then carryHour { t with min := 0, hour := t.hour + 1 } else t

/-- `if (tm_sec > 59)` and what it guards. -/
def carrySec (t : Tm) : Tm :=
  if t.sec > 59 then carryMin { t with sec := 0, min := t.min + 1 } else t

/-- The time an alarm of every second is given. -/
def nextSecond (t now : Tm) : Tm :=
  carrySec { t with hour := now.hour, min := now.min, sec := now.sec + 1 }

/-- `((sec_now - sec_alarm) <= RT_ALARM_DELAY)`. -/
def inDelay (secNow secAlarm : BitVec 32) : Bool :=
  (secNow - secAlarm).toNat ≤ rtAlarmDelay

/-- `((sec_now - sec_alarm) <= RT_ALARM_DELAY) && (sec_now >= sec_alarm)`. -/
def justPast (secNow secAlarm : BitVec 32) : Bool :=
  inDelay secNow secAlarm && decide (secAlarm ≤ secNow)

/-- The `switch` of `alarm_wakeup`: the alarm, `*now` and `wakeup` after it. -/
def RtAlarm.wake (a : RtAlarm) (now : Tm) : RtAlarm × Tm × Bool :=
  let secAlarm := alarmMkdaysec a.wktime
  let secNow := alarmMkdaysec now
  match a.kind with
  | .oneshot =>
      let (wktime, timeAlarm) := timegm a.wktime
      let (now, timeNow) := timegm now
      let wakeup := justPast (BitVec.ofInt 32 timeNow) (BitVec.ofInt 32 timeAlarm)
      ({ a with wktime := wktime, started := if wakeup then false else a.started }, now, wakeup)
  | .second => ({ a with wktime := nextSecond a.wktime now }, now, true)
  | .minute =>
      let wktime := { a.wktime with hour := now.hour }
      if wktime.sec = now.sec then
        ({ a with wktime := carryMin { wktime with min := now.min + 1 } }, now, true)
      else ({ a with wktime := wktime }, now, false)
  | .hour =>
      if a.wktime.min = now.min ∧ a.wktime.sec = now.sec then
        ({ a with wktime := carryHour { a.wktime with hour := now.hour + 1 } }, now, true)
      else (a, now, false)
  | .daily => (a, now, justPast secNow secAlarm)
  | .weekly =>
      let secAlarm := secAlarm + BitVec.ofInt 32 (a.wktime.wday * 24 * 3600)
      let secNow := secNow + BitVec.ofInt 32 (now.wday * 24 * 3600)
      (a, now, a.wktime.wday = now.wday ∧ secNow = secAlarm)
  | .monthly => (a, now, decide (a.wktime.mday = now.mday) && inDelay secNow secAlarm)
  | .yearly =>
      (a, now, decide (a.wktime.mday = now.mday ∧ a.wktime.mon = now.mon) &&
        inDelay secNow secAlarm)
  | .other => (a, now, false)

/-- `alarm_wakeup`. -/
def alarmWakeup (s : Container) (id : AlarmId) (now : Tm) : Container × Tm :=
  let a := s.alarms id
  if a.started then
    let (a, now, wakeup) := a.wake now
    let s := s.put id a
    -- the one-shot alarm has been stopped
    let s := if wakeup ∧ a.kind = .oneshot then alarmSet s id else s
    let s := if wakeup ∧ a.hasCallback then { s with calls := s.calls ++ [id] } else s
    (s, now)
  else (s, now)

/-- The first loop of `alarm_update`. -/
def wakeAll (s : Container) (now : Tm) : Container × Tm :=
  s.list.foldl (fun sn id => alarmWakeup sn.1 id sn.2) (s, now)

/-- The alarms found by the second loop of `alarm_update`, after now and before now. -/
structure Found where
  next : Best AlarmId Int
  prev : Best AlarmId Int

/-- The body of the second loop. -/
def consider (s : Container) (secNow : Int) (f : Found) (id : AlarmId) : Found :=
  let a := s.alarms id
  if a.started then
    let secTmp := (alarmMkdaysec a.wktime).toInt - secNow
    if secTmp > 0 then
      if secTmp < f.next.value then { f with next := ⟨secTmp, some id⟩ } else f
    else
      if secTmp < f.prev.value then { f with prev := ⟨secTmp, some id⟩ } else f
  else f

def makeCurrent (s : Container) (id : AlarmId) : Container :=
  { alarmSet s id with current := some id }

/-- `alarm_update`, from the second reading of the clock on. -/
def program (s : Container) (now : Tm) : Except Fault Container := do
  let secNow := (alarmMkdaysec now).toInt
  let found := s.list.foldl (consider s secNow) ⟨⟨24 * 3600, none⟩, ⟨0, none⟩⟩
  if found.next.value < 24 * 3600 then
    let next ← deref found.next.elem
    pure (makeCurrent s next)
  else if found.prev.value < 0 then
    let prev ← deref found.prev.elem
    pure (makeCurrent s prev)
  else
    match s.current with
    | some c => pure (alarmSet s c)
    | none => pure s

/-- `alarm_update`; `t₁` and `t₂` are what it reads from the clock. -/
def alarmUpdate (s : Container) (t₁ t₂ : Nat) : Except Fault Container :=
  if s.list = [] then pure s
  else program (wakeAll s (gmtimeR t₁)).1 (gmtimeR t₂)

/-- `days_of_year_month`. -/
def daysOfYearMonth (tmYear tmMon : Int) : Int :=
  let year := tmYear + 1900
  if tmMon = 1 then
    28 + (if (year % 4 = 0 ∧ year % 100 ≠ 0) ∨ year % 400 = 0 then 1 else 0)
  else if tmMon ≤ 6 ∧ tmMon % 2 = 0 ∨ tmMon > 6 ∧ tmMon % 2 = 1 then 31
  else 30

/-- `is_valid_date`. -/
def isValidDate (date : Tm) : Bool :=
  !(decide (date.year < 0) || decide (date.year > rtRtcYearsMax)) &&
  !(decide (date.mon < 0) || decide (date.mon > 11)) &&
  !(decide (date.mday < 1) || decide (date.mday > daysOfYearMonth date.year date.mon))

/-- A "don't care" value is set to now. -/
def orNow (low high now x : Int) : Int :=
  if x > high ∨ x < low then now else x

/-- `RT_ALARM_TM_NOW`. -/
def rtAlarmTmNow : Int := -1

/-- The days a month of a yearly alarm may have. -/
def yearlyDays (mon : Int) : Int :=
  if mon = 1 then 29
  else if mon ≤ 6 ∧ mon % 2 = 0 ∨ mon > 6 ∧ mon % 2 = 1 then 31
  else 30

/-- The `switch` of `alarm_setup`; `none` where it goes to `_exit`, with the fields as they are
then. -/
def setupKind (kind : Kind) (setup now : Tm) : Tm × Bool :=
  match kind with
  | .second => (nextSecond setup now, true)
  | .minute => (carryMin { setup with hour := now.hour, min := now.min + 1 }, true)
  | .hour => (carryHour { setup with hour := now.hour + 1 }, true)
  | .daily => (setup, true)
  | .oneshot =>
      let setup :=
        { setup with
          year := if setup.year = rtAlarmTmNow then now.year else setup.year
          mon := if setup.mon = rtAlarmTmNow then now.mon else setup.mon
          mday := if setup.mday = rtAlarmTmNow then now.mday else setup.mday }
      (setup, isValidDate setup)
  | .weekly => ({ setup with wday := orNow 0 6 now.wday setup.wday }, true)
  | .monthly => ({ setup with mday := orNow 1 31 now.mday setup.mday }, true)
  | .yearly =>
      let setup := { setup with mon := orNow 0 11 now.mon setup.mon }
      ({ setup with mday := orNow 1 (yearlyDays setup.mon) now.mday setup.mday }, true)
  | .other => (setup, false)

/-- `alarm_setup`, and whether it returns `RT_EOK`. -/
def alarmSetup (a : RtAlarm) (now : Tm) : RtAlarm × Bool :=
  let setup :=
    { a.wktime with
      sec := orNow 0 59 now.sec a.wktime.sec
      min := orNow 0 59 now.min a.wktime.min
      hour := orNow 0 23 now.hour a.wktime.hour }
  let (setup, ok) := setupKind a.kind setup now
  if ok then
    let setup :=
      if setup.hour = 23 ∧ setup.min = 59 ∧ setup.sec = 59 then
        { setup with sec := 60 - rtAlarmDelay }
      else setup
    ({ a with wktime := setup }, true)
  else ({ a with wktime := setup }, false)

/-- The three comparisons of `rt_alarm_start`. -/
def sooner (secNow secOld secNew : Int) : Bool :=
  if secNew < secOld ∧ secNew > secNow then true
  else if secNew > secNow ∧ secOld < secNow then true
  else if secNew < secOld ∧ secOld < secNow then true
  else false

/-- `rt_alarm_start`, and whether it returns `RT_EOK`. -/
def rtAlarmStart (s : Container) (id : AlarmId) (t₁ t₂ : Nat) : Container × Bool :=
  let a := s.alarms id
  if a.started then (s, true)
  else
    let (a, ok) := alarmSetup a (gmtimeR t₁)
    if ok then
      let s := s.put id { a with started := true }
      match s.current with
      | none => (makeCurrent s id, true)
      | some c =>
          let secNow := (alarmMkdaysec (gmtimeR t₂)).toInt
          let secOld := (alarmMkdaysec (s.alarms c).wktime).toInt
          let secNew := (alarmMkdaysec (s.alarms id).wktime).toInt
          if sooner secNow secOld secNew then (makeCurrent s id, true) else (s, true)
    else (s.put id a, false)

/-- `alarm->flag &= ~RT_ALARM_STATE_START`. -/
def clearStart (s : Container) (id : AlarmId) : Container :=
  s.put id { s.alarms id with started := false }

/-- What `rt_alarm_stop` and `rt_alarm_delete` do if the alarm is the current one. -/
def dropCurrent (s : Container) (id : AlarmId) : Container :=
  { alarmSet s id with current := none }

/-- `rt_alarm_stop`. -/
def rtAlarmStop (s : Container) (id : AlarmId) (t₁ t₂ : Nat) : Except Fault Container :=
  if (s.alarms id).started then
    let s := clearStart s id
    let s := if s.current = some id then dropCurrent s id else s
    alarmUpdate s t₁ t₂
  else pure s

/-- `rt_list_remove`. -/
def listRemove (s : Container) (id : AlarmId) : Container :=
  { s with
    list := s.list.erase id
    nodup := s.nodup.erase id }

/-- `rt_alarm_delete`. -/
def rtAlarmDelete (s : Container) (id : AlarmId) (t₁ t₂ : Nat) : Except Fault Container := do
  let s := clearStart s id
  let s ← if s.current = some id then alarmUpdate (dropCurrent s id) t₁ t₂ else pure s
  pure (listRemove s id)

/-- The calls, each with what it reads from the clock; `alarm` is the alarm event. -/
inductive Event
  | start (id : AlarmId) (t₁ t₂ : Nat)
  | stop (id : AlarmId) (t₁ t₂ : Nat)
  | delete (id : AlarmId) (t₁ t₂ : Nat)
  | alarm (t₁ t₂ : Nat)

/-- One call; an alarm that has been deleted is a dangling pointer. -/
def step (s : Container) : Event → Except Fault Container
  | .start id t₁ t₂ => do
      check .wildPointer (id ∈ s.list)
      pure { (rtAlarmStart s id t₁ t₂).1 with time := t₂ }
  | .stop id t₁ t₂ => do
      check .wildPointer (id ∈ s.list)
      let s ← rtAlarmStop s id t₁ t₂
      pure { s with time := t₂ }
  | .delete id t₁ t₂ => do
      check .wildPointer (id ∈ s.list)
      let s ← rtAlarmDelete s id t₁ t₂
      pure { s with time := t₂ }
  | .alarm t₁ t₂ => do
      let s ← alarmUpdate s t₁ t₂
      pure { s with time := t₂ }

end RtHypervisor.Ports.Alarm
