import Mathlib.Tactic
import RtHypervisor.Ports.Timer
import RtHypervisor.Verified.PrefixArray

/-!
# The emulated timer of a vCPU

`CNTP_CTL_EL0` and `CNTP_TVAL_EL0` trap, and `sysreg_vtimer_handler` keeps their values in the
vCPU's `ptimer`, with a timer of the kernel behind them.  For a write it hands the handlers the
saved transfer register; for a read it hands them a null pointer, through which they store what
they should have stored in that register.
-/

namespace RtHypervisor.Ports.Vtimer

open RtHypervisor.Verified.Run
open RtHypervisor.Verified.PrefixArray
open RtHypervisor.Ports.Timer

/-- `CNTP_CTL_ENABLE_MASK`. -/
def cntpCtlEnableMask : BitVec 32 := 1
/-- `CNTP_CTL_IMASK_MASK`. -/
def cntpCtlImaskMask : BitVec 32 := 2
/-- `CNTP_CTL_ISTATUS_MASK`. -/
def cntpCtlIstatusMask : BitVec 32 := 4

/-- `ESR_DIRECTION_MASK`. -/
def esrDirectionMask : BitVec 32 := 0b1
/-- `ESR_RT_MASK`. -/
def esrRtMask : BitVec 32 := 0x1F <<< 5
/-- `ESR_SYSREG_MASK`. -/
def esrSysregMask : BitVec 32 :=
  (0x3 <<< 20) ||| (0x7 <<< 17) ||| (0x7 <<< 14) ||| (0xF <<< 10) ||| (0xF <<< 1)
/-- `ESR_SYSREG`. -/
def esrSysreg (op0 op1 crn crm op2 : BitVec 32) : BitVec 32 :=
  (op0 <<< 20) ||| (op1 <<< 14) ||| (op2 <<< 17) ||| (crn <<< 10) ||| (crm <<< 1)

/-- `ESR_SYSREG_CNTP_TVAL_EL0`. -/
def esrSysregCntpTval : BitVec 32 := esrSysreg 3 3 14 2 0
/-- `ESR_SYSREG_CNTP_CTL_EL0`. -/
def esrSysregCntpCtl : BitVec 32 := esrSysreg 3 3 14 2 1

/-- The registers saved at the trap. -/
abbrev Regs := Vector (BitVec 64) 32

/-- The vCPU's `vtc->ptimer`, and the timers of the kernel. -/
structure PTimer where
  timer : TimerId
  ctl : BitVec 32
  tval : BitVec 32
  sys : TimerSys

/-! ## Handlers -/

/-- The timer fires: it is enabled and not masked. -/
def unmasked (ctl : BitVec 32) : Bool :=
  ctl &&& cntpCtlEnableMask ≠ 0 ∧ ¬ ctl &&& cntpCtlImaskMask ≠ 0

/-- `vtimer_handler_cntp_ctl`, with the number of the register that `reg_val` points to. -/
def vtimerHandlerCntpCtl (s : PTimer) (isWrite : Bool) (regs : Regs) (regVal : Option Nat) :
    Except Fault (PTimer × Regs) := do
  let i ← deref regVal
  if isWrite then
    let val ← readAt regs i
    let v := val.setWidth 32 &&& ~~~cntpCtlIstatusMask
    let v := if v &&& cntpCtlEnableMask ≠ 0 then v ||| (s.ctl &&& cntpCtlIstatusMask) else v
    let sys ← if unmasked v then rtTimerStart s.sys s.timer else rtTimerStop s.sys s.timer
    pure ({ s with ctl := v, sys := sys }, regs)
  else
    let regs ← writeAt regs i (s.ctl.setWidth 64)
    pure (s, regs)

/-- `vtimer_handler_cntp_tval`. -/
def vtimerHandlerCntpTval (s : PTimer) (isWrite : Bool) (regs : Regs) (regVal : Option Nat) :
    Except Fault (PTimer × Regs) := do
  let i ← deref regVal
  if isWrite then
    let val ← readAt regs i
    let ctl := s.ctl &&& ~~~cntpCtlIstatusMask
    let (sys, _) ← rtTimerControl s.sys s.timer (.setTime (val.setWidth 32))
    pure ({ s with ctl := ctl, tval := val.setWidth 32, sys := sys }, regs)
  else
    let regs ← writeAt regs i (s.tval.setWidth 64)
    pure (s, regs)

/-- `sysreg_vtimer_handler`. -/
def sysregVtimerHandler (s : PTimer) (regs : Regs) (regName : BitVec 32) (isWrite : Bool)
    (srt : Nat) : Except Fault (PTimer × Regs) :=
  let regVal := if isWrite then some srt else none
  if regName = esrSysregCntpCtl then vtimerHandlerCntpCtl s isWrite regs regVal
  else if regName = esrSysregCntpTval then vtimerHandlerCntpTval s isWrite regs regVal
  else pure (s, regs)

def esrIsWrite (esr : BitVec 32) : Bool := ¬ esr &&& esrDirectionMask = 1

def esrSrt (esr : BitVec 32) : Nat := ((esr &&& esrRtMask) >>> 5).toNat

/-- `ec_sys64_handler`.  The counter and `CNTP_CVAL_EL0` go to `sysreg_vtimer_handler` too, which
knows nothing of them. -/
def ecSys64Handler (s : PTimer) (regs : Regs) (esr : BitVec 32) : Except Fault (PTimer × Regs) :=
  sysregVtimerHandler s regs (esr &&& esrSysregMask) (esrIsWrite esr) (esrSrt esr)

/-! ## Accesses -/

/-- The emulated registers. -/
inductive TimerReg
  | ctl
  | tval
deriving DecidableEq, Repr

def TimerReg.name : TimerReg → BitVec 32
  | .ctl => esrSysregCntpCtl
  | .tval => esrSysregCntpTval

/-- A trapped access to one of them, with the registers of the guest at the time. -/
structure Access where
  reg : TimerReg
  esr : BitVec 32
  regs : Regs
  names : esr &&& esrSysregMask = reg.name

/-- The transfer register. -/
def Access.val (a : Access) : BitVec 64 := a.regs.getD (esrSrt a.esr) 0

/-- The values last written; in `ctl` the bit ISTATUS is kept while the timer is enabled. -/
structure Written where
  ctl : BitVec 32
  tval : BitVec 32

def Written.read (w : Written) : TimerReg → BitVec 32
  | .ctl => w.ctl
  | .tval => w.tval

def Written.write (w : Written) (v : BitVec 32) : TimerReg → Written
  | .ctl =>
      { w with ctl := (v &&& ~~~cntpCtlIstatusMask) |||
          if v &&& cntpCtlEnableMask ≠ 0 then w.ctl &&& cntpCtlIstatusMask else 0 }
  | .tval => { w with tval := v }

def Written.after (w : Written) (a : Access) : Written :=
  if esrIsWrite a.esr then w.write (a.val.setWidth 32) a.reg else w

/-- The kernel's timer is linked and will fire. -/
def active (s : PTimer) : Bool := (s.sys.timers s.timer).activated

/-- A read puts the value last written into the transfer register and changes no other; a write
changes none, and leaves the kernel's timer active when it is enabled and not masked. -/
def Right (w : Written) (a : Access) (s : PTimer) (regs : Regs) : Prop :=
  if esrIsWrite a.esr then
    regs = a.regs ∧ (active s = true ↔ unmasked (w.after a).ctl = true)
  else ∃ h : esrSrt a.esr < 32, regs = a.regs.set (esrSrt a.esr) ((w.read a.reg).setWidth 64)

/-- Every access of the sequence is carried out, and right. -/
def ReadsBack : Written → PTimer → List Access → Prop
  | _, _, [] => True
  | w, s, a :: as =>
      ∃ s' regs, ecSys64Handler s a.regs a.esr = .ok (s', regs) ∧ Right w a s' regs ∧
        ReadsBack (w.after a) s' as

/-- The accesses that are carried out: writes, of `CNTP_TVAL_EL0` only with a value that
`rt_timer_control` takes. -/
def AccessOk (a : Access) : Prop :=
  esrIsWrite a.esr = true ∧ (a.reg = .tval → a.val.setWidth 32 < tickHalf)

/-- The context as `vtimer_ctxt_create` leaves it. -/
structure Created (s : PTimer) : Prop where
  ctl : s.ctl = 0
  tval : s.tval = 0
  timer : (s.sys.timers s.timer).obj = .dynamic
  inactive : active s = false

/-- The context against the values last written. -/
structure Inv (w : Written) (s : PTimer) : Prop where
  ctl : s.ctl = w.ctl
  tval : s.tval = w.tval
  istatus : w.ctl &&& cntpCtlIstatusMask = 0
  timer : (s.sys.timers s.timer).obj ≠ .none
  active : active s = true ↔ unmasked w.ctl = true

/-! ## One access -/

private theorem esrSrt_lt (esr : BitVec 32) : esrSrt esr < 32 := by
  have hle : (esr &&& esrRtMask).toNat ≤ esrRtMask.toNat := by
    rw [BitVec.toNat_and]
    exact Nat.and_le_right
  have hmask : esrRtMask.toNat = 0x3E0 := rfl
  rw [esrSrt, BitVec.toNat_ushiftRight, Nat.shiftRight_eq_div_pow]
  omega

section Step

variable {w : Written} {s : PTimer} {a : Access}

theorem Access.val_eq (a : Access) : readAt a.regs (esrSrt a.esr) = .ok a.val := by
  rw [readAt_ok a.regs (esrSrt_lt a.esr), Access.val]
  simp [Vector.getD, esrSrt_lt a.esr]

private theorem ecSys64Handler_eq (s : PTimer) (a : Access) :
    ecSys64Handler s a.regs a.esr =
      match a.reg with
      | .ctl => vtimerHandlerCntpCtl s (esrIsWrite a.esr) a.regs
          (if esrIsWrite a.esr then some (esrSrt a.esr) else none)
      | .tval => vtimerHandlerCntpTval s (esrIsWrite a.esr) a.regs
          (if esrIsWrite a.esr then some (esrSrt a.esr) else none) := by
  have hne : esrSysregCntpTval ≠ esrSysregCntpCtl := by decide
  rw [ecSys64Handler, a.names, sysregVtimerHandler]
  cases a.reg with
  | ctl => exact if_pos rfl
  | tval =>
      rw [TimerReg.name, if_neg hne]
      exact if_pos rfl

/-- A read goes through the null pointer. -/
theorem read_faults (s : PTimer) (a : Access) (hread : esrIsWrite a.esr = false) :
    ecSys64Handler s a.regs a.esr = .error .nullPointer := by
  rw [ecSys64Handler_eq, hread]
  cases a.reg with
  | ctl => rfl
  | tval => rfl

private theorem tval_faults (hobj : (s.sys.timers s.timer).obj ≠ .none) (hreg : a.reg = .tval)
    (hwrite : esrIsWrite a.esr = true) (hbig : ¬ a.val.setWidth 32 < tickHalf) :
    ecSys64Handler s a.regs a.esr = .error .assertion := by
  rw [ecSys64Handler_eq, hreg, hwrite]
  simp only [vtimerHandlerCntpTval, if_true, deref_some, ok_bind, a.val_eq, rtTimerControl, hobj,
    ne_eq, not_false_eq_true, decide_true, check_true, hbig, decide_false, check_false, error_bind]

private theorem rtTimerStart_timers {sys : TimerSys} {t : TimerId}
    (hobj : (sys.timers t).obj ≠ .none) :
    ∃ sys', rtTimerStart sys t = .ok sys' ∧ (sys'.timers t).activated = true ∧
      (sys'.timers t).obj = (sys.timers t).obj := by
  have hcheck : decide ((sys.timers t).obj ≠ .none) = true := decide_eq_true hobj
  simp only [rtTimerStart, hcheck, check_true, ok_bind]
  refine ⟨_, rfl, ?_, ?_⟩
  · simp only [Function.update_self]
  · simp only [Function.update_self, deactivate, setTimer, timerRemove]

private theorem rtTimerStop_timers {sys : TimerSys} {t : TimerId}
    (hobj : (sys.timers t).obj ≠ .none) :
    ∃ sys', rtTimerStop sys t = .ok sys' ∧ (sys'.timers t).activated = false ∧
      (sys'.timers t).obj = (sys.timers t).obj := by
  by_cases hact : (sys.timers t).activated = true
  · refine ⟨deactivate (timerRemove sys t) t, ?_, ?_, ?_⟩
    · simp only [rtTimerStop, hobj, ne_eq, not_false_eq_true, decide_true, check_true, ok_bind,
        hact, if_true]
      rfl
    · simp only [deactivate, setTimer, Function.update_self]
    · simp only [deactivate, setTimer, timerRemove, Function.update_self]
  · refine ⟨sys, ?_, by simpa using hact, rfl⟩
    simp only [rtTimerStop, hobj, ne_eq, not_false_eq_true, decide_true, check_true, ok_bind, hact]
    rfl

private theorem and_istatus_and (v : BitVec 32) :
    v &&& ~~~cntpCtlIstatusMask &&& cntpCtlIstatusMask = 0 := by
  rw [BitVec.and_assoc]
  have hzero : ~~~cntpCtlIstatusMask &&& cntpCtlIstatusMask = 0 := by decide
  rw [hzero]
  exact BitVec.and_zero

private theorem and_not_istatus {v : BitVec 32} (h : v &&& cntpCtlIstatusMask = 0) :
    v &&& ~~~cntpCtlIstatusMask = v := by
  apply BitVec.eq_of_getLsbD_eq
  intro i hi
  have hbit : (v &&& cntpCtlIstatusMask).getLsbD i = (0 : BitVec 32).getLsbD i := by rw [h]
  have hzero : (0 : BitVec 32).getLsbD i = false := BitVec.getLsbD_zero
  rw [hzero, BitVec.getLsbD_and] at hbit
  rw [BitVec.getLsbD_and, BitVec.getLsbD_not]
  cases hv : v.getLsbD i with
  | false => rfl
  | true =>
      rw [hv, Bool.true_and] at hbit
      rw [hbit]
      simp [hi]

/-- A write of `CNTP_CTL_EL0`. -/
theorem ctl_write (hi : Inv w s) (hreg : a.reg = .ctl) (hwrite : esrIsWrite a.esr = true) :
    ∃ s', ecSys64Handler s a.regs a.esr = .ok (s', a.regs) ∧ Inv (w.after a) s' := by
  have hold : s.ctl &&& cntpCtlIstatusMask = 0 := by
    rw [hi.ctl]
    exact hi.istatus
  have hor : ∀ v : BitVec 32, v ||| 0 = v := fun v => BitVec.or_zero
  have hnew : w.after a = { w with ctl := a.val.setWidth 32 &&& ~~~cntpCtlIstatusMask } := by
    simp only [Written.after, hwrite, if_true, hreg, Written.write, hi.istatus, ite_self, hor]
  have histatus := and_istatus_and (a.val.setWidth 32)
  rw [hnew, ecSys64Handler_eq, hreg, hwrite]
  simp only [vtimerHandlerCntpCtl, if_true, deref_some, ok_bind, a.val_eq, hold, hor, ite_self]
  by_cases hfires : unmasked (a.val.setWidth 32 &&& ~~~cntpCtlIstatusMask) = true
  · obtain ⟨sys, hstart, hact, hobj⟩ := rtTimerStart_timers hi.timer
    rw [if_pos hfires, hstart]
    refine ⟨_, rfl, rfl, hi.tval, histatus, ?_, iff_of_true hact hfires⟩
    simp only [hobj]
    exact hi.timer
  · obtain ⟨sys, hstop, hact, hobj⟩ := rtTimerStop_timers hi.timer
    rw [if_neg hfires, hstop]
    refine ⟨_, rfl, rfl, hi.tval, histatus, ?_, iff_of_false ?_ hfires⟩
    · simp only [hobj]
      exact hi.timer
    · simp only [active, hact]
      decide

/-- A write of `CNTP_TVAL_EL0` that `rt_timer_control` takes. -/
theorem tval_write (hi : Inv w s) (hreg : a.reg = .tval) (hwrite : esrIsWrite a.esr = true)
    (hsmall : a.val.setWidth 32 < tickHalf) :
    ∃ s', ecSys64Handler s a.regs a.esr = .ok (s', a.regs) ∧ Inv (w.after a) s' := by
  have hctl : s.ctl &&& ~~~cntpCtlIstatusMask = w.ctl := by
    rw [hi.ctl]
    exact and_not_istatus hi.istatus
  have hnew : w.after a = { w with tval := a.val.setWidth 32 } := by
    simp only [Written.after, hwrite, if_true, hreg, Written.write]
  have hcheck : decide ((s.sys.timers s.timer).obj ≠ .none) = true := decide_eq_true hi.timer
  have hrun : ecSys64Handler s a.regs a.esr =
      .ok ({ s with
        ctl := w.ctl
        tval := a.val.setWidth 32
        sys := setTimer s.sys s.timer fun x => { x with initTick := a.val.setWidth 32 } },
        a.regs) := by
    rw [ecSys64Handler_eq, hreg, hwrite]
    simp only [vtimerHandlerCntpTval, if_true, deref_some, ok_bind, a.val_eq, rtTimerControl,
      hcheck, check_true, hsmall, decide_true, hctl]
    rfl
  refine ⟨_, hrun, ?_⟩
  rw [hnew]
  refine ⟨rfl, rfl, hi.istatus, ?_, ?_⟩
  · simp only [setTimer, Function.update_self]
    exact hi.timer
  · have hact := hi.active
    simp only [active, setTimer, Function.update_self] at hact ⊢
    exact hact

private theorem access_ok (hi : Inv w s) (hok : AccessOk a) :
    ∃ s', ecSys64Handler s a.regs a.esr = .ok (s', a.regs) ∧ Inv (w.after a) s' := by
  cases hreg : a.reg with
  | ctl => exact ctl_write hi hreg hok.1
  | tval => exact tval_write hi hreg hok.1 (hok.2 hreg)

private theorem access_faults (hi : Inv w s) (hbad : ¬ AccessOk a) :
    ∃ f, ecSys64Handler s a.regs a.esr = .error f := by
  by_cases hwrite : esrIsWrite a.esr = true
  · have htval : ¬ (a.reg = .tval → a.val.setWidth 32 < tickHalf) := fun h => hbad ⟨hwrite, h⟩
    rw [Classical.not_imp] at htval
    exact ⟨_, tval_faults hi.timer htval.1 hwrite htval.2⟩
  · exact ⟨_, read_faults s a (by simpa using hwrite)⟩

end Step

/-! ## Sequences -/

private theorem readsBack_of_inv {w : Written} {s : PTimer} (hi : Inv w s) (as : List Access) :
    ReadsBack w s as ↔ ∀ a ∈ as, AccessOk a := by
  induction as generalizing w s with
  | nil => simp [ReadsBack]
  | cons a as ih =>
      by_cases hok : AccessOk a
      · obtain ⟨s', hrun, hi'⟩ := access_ok hi hok
        have hright : Right w a s' a.regs := by
          rw [Right, if_pos hok.1]
          exact ⟨rfl, hi'.active⟩
        have hstep : ReadsBack w s (a :: as) ↔ ReadsBack (w.after a) s' as := by
          constructor
          · rintro ⟨s₂, regs, hrun₂, -, hrest⟩
            cases Except.ok.inj (hrun.symm.trans hrun₂)
            exact hrest
          · intro hrest
            exact ⟨s', a.regs, hrun, hright, hrest⟩
        rw [hstep, ih hi', List.forall_mem_cons]
        exact (and_iff_right hok).symm
      · obtain ⟨f, hrun⟩ := access_faults hi hok
        refine iff_of_false ?_ fun hall => hok (hall a List.mem_cons_self)
        rintro ⟨s₂, regs, hrun₂, -⟩
        rw [hrun] at hrun₂
        cases hrun₂

theorem Created.inv {s : PTimer} (h : Created s) : Inv ⟨0, 0⟩ s := by
  refine ⟨h.ctl, h.tval, by decide, ?_, ?_⟩
  · rw [h.timer]
    decide
  · rw [h.inactive]
    decide

/-- **The emulated timer registers**, from the state the context is created in: all accesses of a
sequence are right if and only if none of them is a read, or writes a `CNTP_TVAL_EL0` that
`rt_timer_control` asserts against. -/
theorem timer_registers_iff {s : PTimer} (h : Created s) (as : List Access) :
    ReadsBack ⟨0, 0⟩ s as ↔ ∀ a ∈ as, AccessOk a :=
  readsBack_of_inv h.inv as

/-! ## One vCPU -/

/-- The context of a vCPU with timer 0. -/
def fresh : PTimer where
  timer := 0
  ctl := 0
  tval := 0
  sys := timerInit (boot 0 0 0) 0 .soft .dynamic 62500 true

private theorem created_fresh : Created fresh := ⟨rfl, rfl, rfl, rfl⟩

/-- An access with transfer register `x1`. -/
def access (reg : TimerReg) (direction : BitVec 1) (val : BitVec 64) : Access where
  reg := reg
  esr := reg.name ||| (1 <<< 5) ||| direction.setWidth 32
  regs := Vector.replicate 32 val
  names := by
    cases reg <;> (revert direction; decide)

/-- A period is set, and the timer enabled. -/
theorem timer_registers_start :
    ReadsBack ⟨0, 0⟩ fresh [access .tval 0 1000, access .ctl 0 1] := by
  refine (timer_registers_iff created_fresh _).mpr ?_
  intro a ha
  rcases List.mem_cons.mp ha with rfl | ha
  · exact ⟨by decide, fun _ => by decide⟩
  · obtain rfl := List.mem_singleton.mp ha
    exact ⟨by decide, fun h => by cases h⟩

/-- The guest reads `CNTP_CTL_EL0`. -/
theorem ctl_read_faults :
    ¬ ∀ (s : PTimer) (as : List Access), Created s → ReadsBack ⟨0, 0⟩ s as := by
  intro hall
  have hok := (timer_registers_iff created_fresh [access .ctl 1 0]).mp
    (hall fresh _ created_fresh) _ List.mem_cons_self
  exact absurd hok.1 (by decide)

end RtHypervisor.Ports.Vtimer
