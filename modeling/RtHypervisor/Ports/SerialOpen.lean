import Mathlib.Data.BitVec
import RtHypervisor.Verified.Run

/-!
# Opening and closing a serial device

`rt_device_open` and `rt_device_close` count the openings and `rt_serial_open` and
`rt_serial_close` set the device up and take it down, all on one `open_flag`.  It is written anew
by every `rt_serial_open`, and keeps `RT_DEVICE_FLAG_INT_RX` only if that opening asks for it too.
The last close looks at it to find out whether there is a buffer.

`RT_SERIAL_USING_DMA` is not defined for the boards.  A failing `rt_malloc` ends in an assertion.
-/

namespace RtHypervisor.Ports.SerialOpen

open RtHypervisor.Verified
open RtHypervisor.Verified.Run

abbrev Ptr := Nat
abbrev Flags := BitVec 16

def flagStandalone : Flags := 0x008
def flagActivated : Flags := 0x010
def flagStream : Flags := 0x040
def flagIntRx : Flags := 0x100
def flagDmaRx : Flags := 0x200
def flagIntTx : Flags := 0x400
def flagDmaTx : Flags := 0x800
def oflagClose : Flags := 0x000
def oflagOpen : Flags := 0x008

def rtEOK : Int := 0
def rtERROR : Int := 1
def rtENOSYS : Int := 6
def rtEBUSY : Int := 7
def rtEIO : Int := 8

/-- `x & f`, as a condition. -/
def has (x f : Flags) : Bool := x &&& f != 0

/-- `struct rt_serial_device`, with the interrupts its low level device has enabled and what was
allocated and freed.  `rxBuffers` are the blocks allocated for `serial_rx`. -/
structure SerialDevice where
  flag : Flags
  openFlag : Flags
  refCount : BitVec 8
  serialRx : Option Ptr
  serialTx : Option Ptr
  interrupts : Flags
  next : Ptr
  rxBuffers : List Ptr
  freed : List Ptr

/-- `serial->ops->control` with `RT_DEVICE_CTRL_SET_INT`. -/
def controlSetInt (dev : SerialDevice) (f : Flags) : SerialDevice :=
  { dev with interrupts := dev.interrupts ||| f }

/-- `serial->ops->control` with `RT_DEVICE_CTRL_CLR_INT`. -/
def controlClrInt (dev : SerialDevice) (f : Flags) : SerialDevice :=
  { dev with interrupts := dev.interrupts &&& ~~~f }

def rtFree (dev : SerialDevice) (p : Ptr) : SerialDevice := { dev with freed := p :: dev.freed }

/-! ## The serial driver -/

/-- `rt_serial_init`; `configured` is what `ops->configure` returns. -/
def rtSerialInit (configured : Int) (dev : SerialDevice) : SerialDevice × Int :=
  ({ dev with serialRx := none, serialTx := none }, configured)

/-- The part of `rt_serial_open` about `serial_rx`. -/
def serialOpenRx (memory : Bool) (dev : SerialDevice) (oflag : Flags) :
    Except Fault SerialDevice :=
  match dev.serialRx with
  | none =>
      if has oflag flagIntRx then do
        check .assertion memory
        let dev := { dev with
          serialRx := some dev.next
          next := dev.next + 1
          rxBuffers := dev.next :: dev.rxBuffers
          openFlag := dev.openFlag ||| flagIntRx }
        pure (controlSetInt dev flagIntRx)
      else pure { dev with serialRx := none }
  | some _ =>
      if has oflag flagIntRx then pure { dev with openFlag := dev.openFlag ||| flagIntRx }
      else pure dev

/-- The part of `rt_serial_open` about `serial_tx`. -/
def serialOpenTx (memory : Bool) (dev : SerialDevice) (oflag : Flags) :
    Except Fault SerialDevice :=
  match dev.serialTx with
  | none =>
      if has oflag flagIntTx then do
        check .assertion memory
        let dev := { dev with
          serialTx := some dev.next
          next := dev.next + 1
          openFlag := dev.openFlag ||| flagIntTx }
        pure (controlSetInt dev flagIntTx)
      else pure { dev with serialTx := none }
  | some _ =>
      if has oflag flagIntTx then pure { dev with openFlag := dev.openFlag ||| flagIntTx }
      else pure dev

/-- The flags that `rt_serial_open` refuses. -/
def unsupported (dev : SerialDevice) (oflag : Flags) : Bool :=
  (has oflag flagDmaRx && !has dev.flag flagDmaRx) ||
    (has oflag flagDmaTx && !has dev.flag flagDmaTx) ||
    (has oflag flagIntRx && !has dev.flag flagIntRx) ||
    (has oflag flagIntTx && !has dev.flag flagIntTx)

def rtSerialOpen (memory : Bool) (dev : SerialDevice) (oflag : Flags) :
    Except Fault (SerialDevice × Int) :=
  if unsupported dev oflag then pure (dev, - rtEIO)
  else do
    let streamFlag :=
      if has oflag flagStream || has dev.openFlag flagStream then flagStream else 0
    let dev := { dev with openFlag := oflag &&& 0xff }
    let dev ← serialOpenRx memory dev oflag
    let dev ← serialOpenTx memory dev oflag
    pure ({ dev with openFlag := dev.openFlag ||| streamFlag }, rtEOK)

/-- The part of `rt_serial_close` about `serial_rx`. -/
def serialCloseRx (dev : SerialDevice) : Except Fault SerialDevice :=
  if has dev.openFlag flagIntRx then
    let dev := controlClrInt dev flagIntRx
    let dev := { dev with openFlag := dev.openFlag &&& ~~~flagIntRx }
    match dev.serialRx with
    | none => throw .assertion
    | some rxFifo => pure { rtFree dev rxFifo with serialRx := none }
  else pure dev

/-- The part of `rt_serial_close` about `serial_tx`. -/
def serialCloseTx (dev : SerialDevice) : Except Fault SerialDevice :=
  if has dev.openFlag flagIntTx then
    let dev := controlClrInt dev flagIntTx
    let dev := { dev with openFlag := dev.openFlag &&& ~~~flagIntTx }
    match dev.serialTx with
    | none => throw .assertion
    | some txFifo => pure { rtFree dev txFifo with serialTx := none }
  else pure dev

def rtSerialClose (dev : SerialDevice) : Except Fault (SerialDevice × Int) :=
  if 1 < dev.refCount then pure (dev, rtEOK)
  else do
    let dev ← serialCloseRx dev
    let dev ← serialCloseTx dev
    pure ({ dev with flag := dev.flag &&& ~~~flagActivated }, rtEOK)

/-! ## The device layer -/

/-- The start of `rt_device_open`. -/
def activate (configured : Int) (dev : SerialDevice) : SerialDevice × Int :=
  if has dev.flag flagActivated then (dev, rtEOK)
  else
    let init := rtSerialInit configured dev
    if init.2 ≠ rtEOK then init
    else ({ init.1 with flag := init.1.flag ||| flagActivated }, init.2)

def rtDeviceOpen (configured : Int) (memory : Bool) (dev : SerialDevice) (oflag : Flags) :
    Except Fault (SerialDevice × Int) :=
  let (dev, result) := activate configured dev
  if result ≠ rtEOK then pure (dev, result)
  else if has dev.flag flagStandalone && has dev.openFlag oflagOpen then pure (dev, -rtEBUSY)
  else do
    let (dev, result) ← rtSerialOpen memory dev oflag
    if result = rtEOK ∨ result = -rtENOSYS then
      let dev := { dev with
        openFlag := dev.openFlag ||| oflagOpen
        refCount := dev.refCount + 1 }
      check .assertion (dev.refCount != 0)
      pure (dev, result)
    else pure (dev, result)

def rtDeviceClose (dev : SerialDevice) : Except Fault (SerialDevice × Int) :=
  if dev.refCount = 0 then pure (dev, -rtERROR)
  else
    let dev := { dev with refCount := dev.refCount - 1 }
    if dev.refCount ≠ 0 then pure (dev, rtEOK)
    else do
      let (dev, result) ← rtSerialClose dev
      if result = rtEOK ∨ result = -rtENOSYS then
        pure ({ dev with openFlag := oflagClose }, result)
      else pure (dev, result)

/-! ## Sequences of openings and closings -/

/-- The device, how many openings and closings succeeded, and whether one since it was last closed
asked for `RT_DEVICE_FLAG_INT_RX`. -/
structure Session where
  dev : SerialDevice
  opens : Nat
  closes : Nat
  requested : Bool

inductive Event
  | openDevice (oflag : Flags) (configured : Int) (memory : Bool)
  | closeDevice

def step (s : Session) : Event → Except Fault Session
  | .openDevice oflag configured memory => do
      let (dev, result) ← rtDeviceOpen configured memory s.dev oflag
      if result = rtEOK then
        pure { s with
          dev
          opens := s.opens + 1
          requested := s.requested || has oflag flagIntRx }
      else pure { s with dev }
  | .closeDevice => do
      let (dev, result) ← rtDeviceClose s.dev
      if result = rtEOK then
        pure { s with
          dev
          closes := s.closes + 1
          requested := if dev.refCount = 0 then false else s.requested }
      else pure { s with dev }

/-- A device as `rt_hw_serial_register` leaves it. -/
def registered (flag : Flags) : Session where
  dev :=
    { flag, openFlag := 0, refCount := 0, serialRx := none, serialTx := none, interrupts := 0,
      next := 0, rxBuffers := [], freed := [] }
  opens := 0
  closes := 0
  requested := false

/-- The books of the device layer and of the driver agree. -/
structure Books (s : Session) : Prop where
  count : s.dev.refCount.toNat + s.closes = s.opens
  kept : s.requested = true → has s.dev.openFlag flagIntRx = true
  rx : s.dev.serialRx.isSome = has s.dev.openFlag flagIntRx
  closed : s.dev.refCount = 0 →
    s.dev.serialRx = none ∧ has s.dev.interrupts flagIntRx = false ∧
      ∀ p ∈ s.dev.rxBuffers, s.dev.freed.count p = 1

/-- The opening is not refused. -/
def Accepted (dev : SerialDevice) (oflag : Flags) (configured : Int) : Prop :=
  (has dev.flag flagActivated = true ∨ configured = rtEOK) ∧
    ¬(has dev.flag flagStandalone = true ∧ has dev.openFlag oflagOpen = true) ∧
    unsupported dev oflag = false

/-- An opening that is not refused, of a device that is open for `RT_DEVICE_FLAG_INT_RX`, asks for
it again. -/
def AsksAgain (s : Session) : Event → Prop
  | .openDevice oflag configured _ =>
      Accepted s.dev oflag configured → has s.dev.openFlag flagIntRx = true →
        has oflag flagIntRx = true
  | .closeDevice => True

instance (dev : SerialDevice) (oflag : Flags) (configured : Int) :
    Decidable (Accepted dev oflag configured) :=
  inferInstanceAs (Decidable (_ ∧ _))

instance (s : Session) : ∀ e, Decidable (AsksAgain s e)
  | .openDevice oflag configured _ => inferInstanceAs (Decidable
      (Accepted s.dev oflag configured → has s.dev.openFlag flagIntRx = true →
        has oflag flagIntRx = true))
  | .closeDevice => isTrue trivial

/-! ## Flags -/

section Flags

variable {x y f : Flags}

private theorem has_or : has (x ||| y) f = (has x f || has y f) := by
  have hdist : (x ||| y) &&& f = 0 ↔ x &&& f = 0 ∧ y &&& f = 0 := by
    rw [BitVec.and_comm, BitVec.and_or_distrib_left, BitVec.and_comm f, BitVec.and_comm f]
    exact BitVec.or_eq_zero_iff
  rw [Bool.eq_iff_iff, Bool.or_eq_true]
  simp only [has, bne_iff_ne, ne_eq, hdist]
  exact Decidable.not_and_iff_or_not

private theorem has_and_of_eq (h : y &&& f = f) : has (x &&& y) f = has x f := by
  rw [has, has, BitVec.and_assoc, h]

private theorem has_and_of_zero (h : y &&& f = 0) : has (x &&& y) f = false := by
  have hzero : x &&& (0 : Flags) = 0 := BitVec.and_zero
  rw [has, BitVec.and_assoc, h, hzero]
  rfl

end Flags

/-! ## The receive buffer -/

/-- The current buffer has not been freed and every other one has been, once. -/
structure Owned (dev : SerialDevice) : Prop where
  active : dev.serialRx.isSome = true → has dev.flag flagActivated = true
  enabled : has dev.interrupts flagIntRx = dev.serialRx.isSome
  current : ∀ p, dev.serialRx = some p → p ∈ dev.rxBuffers
  old : ∀ p, p ∈ dev.rxBuffers ∨ p ∈ dev.freed → p < dev.next
  tx : ∀ p, dev.serialTx = some p → p < dev.next ∧ p ∉ dev.rxBuffers
  live : ∀ p, dev.serialRx = some p → p ∉ dev.freed
  once : ∀ p ∈ dev.rxBuffers, dev.serialRx ≠ some p → dev.freed.count p = 1

section Owned

variable {dev dev' : SerialDevice} {oflag : Flags} {memory : Bool} {configured result : Int}

/-- The flags and the count are not looked at. -/
theorem Owned.flags (h : Owned dev) (openFlag : Flags) (refCount : BitVec 8) :
    Owned { dev with openFlag, refCount } :=
  { h with }

theorem Owned.rx_none (h : Owned dev) (hoff : has dev.flag flagActivated ≠ true) :
    dev.serialRx = none := by
  cases hrx : dev.serialRx with
  | none => rfl
  | some p => exact absurd (h.active (by rw [hrx]; rfl)) hoff

/-- Until it is activated the device has no buffer to forget. -/
theorem Owned.activate (h : Owned dev) (hact : activate configured dev = (dev', result)) :
    Owned dev' ∧ dev'.openFlag = dev.openFlag ∧ dev'.refCount = dev.refCount ∧
      dev'.serialRx = dev.serialRx := by
  unfold SerialOpen.activate at hact
  by_cases hon : has dev.flag flagActivated = true
  · rw [if_pos hon] at hact
    cases hact
    exact ⟨h, rfl, rfl, rfl⟩
  · rw [if_neg hon] at hact
    have hnone := h.rx_none hon
    have hbare : Owned { dev with serialRx := none, serialTx := none } :=
      { h with
        active := fun hsome => by cases hsome
        enabled := by rw [h.enabled, hnone]
        current := fun p hp => by cases hp
        tx := fun p hp => by cases hp
        live := fun p hp => by cases hp
        once := fun p hp _ => h.once p hp (by rw [hnone]; nofun) }
    by_cases hfail : (rtSerialInit configured dev).2 ≠ rtEOK
    · rw [if_pos hfail] at hact
      cases hact
      exact ⟨hbare, rfl, rfl, hnone.symm⟩
    · rw [if_neg hfail] at hact
      cases hact
      exact ⟨{ hbare with active := fun hsome => by cases hsome }, rfl, rfl, hnone.symm⟩

/-- What opening does, seen from `serial_rx`. -/
structure Opens (oflag : Flags) (dev dev' : SerialDevice) : Prop where
  owned : Owned dev'
  flag : dev'.flag = dev.flag
  refCount : dev'.refCount = dev.refCount
  openFlag : has dev'.openFlag flagIntRx = (has dev.openFlag flagIntRx || has oflag flagIntRx)
  rx : dev'.serialRx.isSome = (dev.serialRx.isSome || has oflag flagIntRx)

theorem Owned.openRx (h : Owned dev) (hon : has dev.flag flagActivated = true)
    (hok : serialOpenRx memory dev oflag = .ok dev') : Opens oflag dev dev' := by
  unfold serialOpenRx at hok
  cases hrx : dev.serialRx with
  | none =>
      simp only [hrx] at hok
      cases hask : has oflag flagIntRx with
      | false =>
          simp only [hask, Bool.false_eq_true, if_false] at hok
          rw [← pure_eq_ok.mp hok]
          exact
            { owned := by rw [← hrx]; exact h
              flag := rfl
              refCount := rfl
              openFlag := by rw [hask, Bool.or_false]
              rx := by rw [hrx, hask]; rfl }
      | true =>
          simp only [hask, if_true, bind_eq_ok] at hok
          obtain ⟨-, -, hok⟩ := hok
          rw [← pure_eq_ok.mp hok]
          have hfresh : dev.next ∉ dev.freed := fun hin =>
            Nat.lt_irrefl _ (h.old _ (Or.inr hin))
          exact
            { owned :=
                { active := fun _ => hon
                  enabled := by
                    simp only [controlSetInt, has_or]
                    exact Bool.or_true _
                  current := fun p hp => by
                    cases hp
                    exact List.mem_cons_self ..
                  old := fun p hp => by
                    rcases hp with hbuf | hfreed
                    · rcases List.mem_cons.mp hbuf with rfl | hbuf
                      · exact Nat.lt_succ_self _
                      · exact Nat.lt_succ_of_lt (h.old p (Or.inl hbuf))
                    · exact Nat.lt_succ_of_lt (h.old p (Or.inr hfreed))
                  tx := fun p hp => by
                    have ⟨hlt, hnot⟩ := h.tx p hp
                    refine ⟨Nat.lt_succ_of_lt hlt, fun hin => ?_⟩
                    rcases List.mem_cons.mp hin with rfl | hin
                    · exact Nat.lt_irrefl _ hlt
                    · exact hnot hin
                  live := fun p hp => by
                    cases hp
                    exact hfresh
                  once := fun p hp hne => by
                    rcases List.mem_cons.mp hp with rfl | hp
                    · exact absurd rfl hne
                    · exact h.once p hp (by rw [hrx]; nofun) }
              flag := rfl
              refCount := rfl
              openFlag := by
                simp only [controlSetInt, has_or, hask]
                rfl
              rx := by rw [hask, Bool.or_true]; rfl }
  | some p =>
      simp only [hrx] at hok
      split at hok
      · rename_i hask
        rw [← pure_eq_ok.mp hok]
        exact
          { owned := by rw [← hrx]; exact { h with }
            flag := rfl
            refCount := rfl
            openFlag := by simp only [has_or, hask]; rfl
            rx := by rw [hrx]; rfl }
      · rename_i hask
        rw [← pure_eq_ok.mp hok]
        exact
          { owned := h
            flag := rfl
            refCount := rfl
            openFlag := by rw [Bool.eq_false_iff.mpr hask, Bool.or_false]
            rx := by rw [hrx]; rfl }

/-- What leaves `serial_rx` and its flag alone. -/
structure Apart (dev dev' : SerialDevice) : Prop where
  owned : Owned dev'
  flag : dev'.flag = dev.flag
  refCount : dev'.refCount = dev.refCount
  openFlag : has dev'.openFlag flagIntRx = has dev.openFlag flagIntRx
  rx : dev'.serialRx = dev.serialRx

theorem Owned.openTx (h : Owned dev) (hok : serialOpenTx memory dev oflag = .ok dev') :
    Apart dev dev' := by
  have hflag : has (dev.openFlag ||| flagIntTx) flagIntRx = has dev.openFlag flagIntRx := by
    rw [has_or]
    exact Bool.or_false _
  unfold serialOpenTx at hok
  cases htx : dev.serialTx with
  | none =>
      simp only [htx] at hok
      split at hok
      · simp only [bind_eq_ok] at hok
        obtain ⟨-, -, hok⟩ := hok
        rw [← pure_eq_ok.mp hok]
        have hint : has (dev.interrupts ||| flagIntTx) flagIntRx =
            has dev.interrupts flagIntRx := by
          rw [has_or]
          exact Bool.or_false _
        exact
          { owned := { h with
              enabled := hint.trans h.enabled
              old := fun p hp => Nat.lt_succ_of_lt (h.old p hp)
              tx := fun p hp => by
                cases hp
                exact ⟨Nat.lt_succ_self _, fun hin => Nat.lt_irrefl _ (h.old _ (Or.inl hin))⟩ }
            flag := rfl
            refCount := rfl
            openFlag := hflag
            rx := rfl }
      · rw [← pure_eq_ok.mp hok]
        exact ⟨{ h with tx := fun p hp => by cases hp }, rfl, rfl, rfl, rfl⟩
  | some p =>
      simp only [htx] at hok
      split at hok
      · rw [← pure_eq_ok.mp hok]
        exact ⟨by rw [← htx]; exact { h with }, rfl, rfl, hflag, rfl⟩
      · rw [← pure_eq_ok.mp hok]
        exact ⟨h, rfl, rfl, rfl, rfl⟩

/-- `rt_serial_open`: the flag is there afterwards exactly if this opening asks for it. -/
theorem Owned.serialOpen (h : Owned dev) (hon : has dev.flag flagActivated = true)
    (hsupported : unsupported dev oflag = false)
    (hok : rtSerialOpen memory dev oflag = .ok (dev', result)) :
    result = rtEOK ∧ Owned dev' ∧ dev'.refCount = dev.refCount ∧
      has dev'.openFlag flagIntRx = has oflag flagIntRx ∧
      dev'.serialRx.isSome = (dev.serialRx.isSome || has oflag flagIntRx) := by
  simp only [rtSerialOpen, hsupported, Bool.false_eq_true, if_false, bind_eq_ok] at hok
  obtain ⟨dev₁, hrx, dev₂, htx, hok⟩ := hok
  cases hok
  have hopen := (h.flags (oflag &&& 0xff) dev.refCount).openRx hon hrx
  have htail := hopen.owned.openTx htx
  have hlow : has (oflag &&& 0xff) flagIntRx = false := has_and_of_zero (by decide)
  have hstream : has (if (has oflag flagStream || has dev.openFlag flagStream) = true
      then flagStream else 0) flagIntRx = false := by
    split <;> decide
  refine ⟨rfl, { htail.owned with }, htail.refCount.trans hopen.refCount, ?_, ?_⟩
  · rw [has_or, hstream, Bool.or_false, htail.openFlag, hopen.openFlag, hlow, Bool.false_or]
  · rw [htail.rx]
    exact hopen.rx

/-- `rt_serial_close` frees the buffer if the flag tells of it. -/
theorem Owned.closeRx (h : Owned dev) (hrx : dev.serialRx.isSome = has dev.openFlag flagIntRx)
    (hok : serialCloseRx dev = .ok dev') :
    Owned dev' ∧ dev'.refCount = dev.refCount ∧ dev'.serialRx = none := by
  unfold serialCloseRx at hok
  cases hflag : has dev.openFlag flagIntRx with
  | false =>
      simp only [hflag, Bool.false_eq_true, if_false] at hok
      rw [← pure_eq_ok.mp hok]
      exact ⟨h, rfl, by simpa [hflag] using hrx⟩
  | true =>
      simp only [hflag, if_true, controlClrInt] at hok
      cases hcur : dev.serialRx with
      | none =>
          simp only [hcur] at hok
          cases hok
      | some p =>
          simp only [hcur] at hok
          rw [← pure_eq_ok.mp hok]
          have hfree : p ∉ dev.freed := h.live p hcur
          exact
            ⟨{ active := fun hsome => by cases hsome
               enabled := has_and_of_zero (by decide)
               current := fun q hq => by cases hq
               old := fun q hq => by
                 rcases hq with hbuf | hfreed
                 · exact h.old q (Or.inl hbuf)
                 · rcases List.mem_cons.mp hfreed with rfl | hfreed
                   · exact h.old _ (Or.inl (h.current _ hcur))
                   · exact h.old q (Or.inr hfreed)
               tx := h.tx
               live := fun q hq => by cases hq
               once := fun q hq _ => by
                 simp only [rtFree]
                 by_cases heq : p = q
                 · rw [← heq, List.count_cons_self, List.count_eq_zero.mpr hfree]
                 · rw [List.count_cons_of_ne heq]
                   refine h.once q hq fun hsome => heq ?_
                   rw [hcur] at hsome
                   exact Option.some.inj hsome }, rfl, rfl⟩

theorem Owned.closeTx (h : Owned dev) (hok : serialCloseTx dev = .ok dev') :
    Owned dev' ∧ dev'.refCount = dev.refCount ∧ dev'.serialRx = dev.serialRx := by
  unfold serialCloseTx at hok
  split at hok
  · simp only [controlClrInt] at hok
    cases htx : dev.serialTx with
    | none =>
        simp only [htx] at hok
        cases hok
    | some p =>
        simp only [htx] at hok
        rw [← pure_eq_ok.mp hok]
        have ⟨hlt, hnot⟩ := h.tx p htx
        have hint : has (dev.interrupts &&& ~~~flagIntTx) flagIntRx =
            has dev.interrupts flagIntRx := has_and_of_eq (by decide)
        exact
          ⟨{ active := h.active
             enabled := hint.trans h.enabled
             current := h.current
             old := fun q hq => by
               rcases hq with hbuf | hfreed
               · exact h.old q (Or.inl hbuf)
               · rcases List.mem_cons.mp hfreed with rfl | hfreed
                 · exact hlt
                 · exact h.old q (Or.inr hfreed)
             tx := fun q hq => by cases hq
             live := fun q hq hin => by
               rcases List.mem_cons.mp hin with rfl | hin
               · exact hnot (h.current _ hq)
               · exact h.live q hq hin
             once := fun q hq hne => by
               have hpq : p ≠ q := fun heq => hnot (by rw [heq]; exact hq)
               simp only [rtFree]
               rw [List.count_cons_of_ne hpq]
               exact h.once q hq hne }, rfl, rfl⟩
  · rw [← pure_eq_ok.mp hok]
    exact ⟨h, rfl, rfl⟩

theorem Owned.serialClose (h : Owned dev) (hcount : dev.refCount = 0)
    (hrx : dev.serialRx.isSome = has dev.openFlag flagIntRx)
    (hok : rtSerialClose dev = .ok (dev', result)) :
    result = rtEOK ∧ Owned dev' ∧ dev'.refCount = 0 ∧ dev'.serialRx = none := by
  have hlast : ¬1 < dev.refCount := by
    rw [hcount]
    decide
  simp only [rtSerialClose, hlast, if_false, bind_eq_ok] at hok
  obtain ⟨dev₁, hcloseRx, dev₂, hcloseTx, hok⟩ := hok
  cases hok
  have ⟨howned₁, hcount₁, hnone₁⟩ := h.closeRx hrx hcloseRx
  have ⟨howned₂, hcount₂, hsame⟩ := howned₁.closeTx hcloseTx
  have hnone₂ : dev₂.serialRx = none := hsame.trans hnone₁
  refine ⟨rfl, { howned₂ with active := fun hsome => ?_ }, hcount₂.trans (hcount₁.trans hcount),
    hnone₂⟩
  rw [hnone₂] at hsome
  cases hsome

/-! ## The device layer -/

private theorem activate_eq_ok (hact : activate configured dev = (dev', result)) :
    result = rtEOK ↔ has dev.flag flagActivated = true ∨ configured = rtEOK := by
  unfold SerialOpen.activate at hact
  by_cases hon : has dev.flag flagActivated = true
  · rw [if_pos hon] at hact
    cases hact
    exact ⟨fun _ => Or.inl hon, fun _ => rfl⟩
  · rw [if_neg hon] at hact
    have hresult : result = configured := by
      by_cases hfail : (rtSerialInit configured dev).2 ≠ rtEOK
      · rw [if_pos hfail] at hact
        cases hact
        rfl
      · rw [if_neg hfail] at hact
        cases hact
        rfl
    rw [hresult]
    exact ⟨Or.inr, fun h => h.resolve_left hon⟩

/-- Activating changes one flag. -/
theorem activate_flag (hact : activate configured dev = (dev', result)) :
    (result = rtEOK → has dev'.flag flagActivated = true) ∧
      ∀ f, has flagActivated f = false → has dev'.flag f = has dev.flag f := by
  unfold SerialOpen.activate at hact
  by_cases hon : has dev.flag flagActivated = true
  · rw [if_pos hon] at hact
    cases hact
    exact ⟨fun _ => hon, fun _ _ => rfl⟩
  · rw [if_neg hon] at hact
    by_cases hfail : (rtSerialInit configured dev).2 ≠ rtEOK
    · rw [if_pos hfail] at hact
      cases hact
      exact ⟨fun h => absurd h hfail, fun _ _ => rfl⟩
    · rw [if_neg hfail] at hact
      cases hact
      refine ⟨fun _ => ?_, fun f hf => ?_⟩
      · rw [has_or]
        exact Bool.or_true _
      · rw [has_or, hf, Bool.or_false]
        rfl

/-- An opening that is accepted. -/
structure OpensDevice (oflag : Flags) (dev dev' : SerialDevice) : Prop where
  owned : Owned dev'
  refCount : dev'.refCount.toNat = dev.refCount.toNat + 1
  openFlag : has dev'.openFlag flagIntRx = has oflag flagIntRx
  rx : dev'.serialRx.isSome = (dev.serialRx.isSome || has oflag flagIntRx)

/-- An opening that is refused. -/
structure Refuses (dev dev' : SerialDevice) : Prop where
  owned : Owned dev'
  refCount : dev'.refCount = dev.refCount
  openFlag : dev'.openFlag = dev.openFlag
  rx : dev'.serialRx = dev.serialRx

private theorem toNat_succ {x : BitVec 8} (h : x + 1 ≠ 0) : (x + 1).toNat = x.toNat + 1 := by
  have hone : (1 : BitVec 8).toNat = 1 := rfl
  have hlt := x.isLt
  rw [BitVec.toNat_add, hone]
  refine Nat.mod_eq_of_lt ?_
  by_contra hover
  have heq : x.toNat + 1 = 2 ^ 8 := by omega
  refine h (BitVec.eq_of_toNat_eq ?_)
  rw [BitVec.toNat_add, hone, heq]
  rfl

theorem Owned.deviceOpen (h : Owned dev)
    (hok : rtDeviceOpen configured memory dev oflag = .ok (dev', result)) :
    Accepted dev oflag configured ∧ result = rtEOK ∧ OpensDevice oflag dev dev' ∨
      ¬Accepted dev oflag configured ∧ result ≠ rtEOK ∧ Refuses dev dev' := by
  cases hact : SerialOpen.activate configured dev with
  | mk dev₁ result₁ =>
    have ⟨howned, hopenFlag, hcount, hrx⟩ := h.activate hact
    have heok := activate_eq_ok hact
    have ⟨hon, hflags⟩ := activate_flag hact
    have hsame : unsupported dev₁ oflag = unsupported dev oflag := by
      simp only [unsupported]
      rw [hflags _ (by decide), hflags _ (by decide), hflags _ (by decide), hflags _ (by decide)]
    have hrefused : Refuses dev dev₁ := ⟨howned, hcount, hopenFlag, hrx⟩
    simp only [rtDeviceOpen, hact] at hok
    by_cases hinit : result₁ = rtEOK
    · rw [if_neg (not_not_intro hinit)] at hok
      by_cases hbusy : (has dev₁.flag flagStandalone && has dev₁.openFlag oflagOpen) = true
      · rw [if_pos hbusy] at hok
        cases hok
        right
        rw [Bool.and_eq_true, hflags _ (by decide), hopenFlag] at hbusy
        exact ⟨fun hacc => hacc.2.1 hbusy, by decide, hrefused⟩
      · rw [if_neg hbusy] at hok
        rw [Bool.and_eq_true, hflags _ (by decide), hopenFlag] at hbusy
        simp only [bind_eq_ok] at hok
        obtain ⟨⟨dev₂, result₂⟩, hserial, hok⟩ := hok
        cases hsup : unsupported dev oflag with
        | true =>
            rw [rtSerialOpen, hsame, if_pos hsup] at hserial
            cases hserial
            have herror : ¬(- rtEIO = rtEOK ∨ - rtEIO = - rtENOSYS) := by decide
            rw [if_neg herror] at hok
            cases hok
            right
            refine ⟨fun hacc => ?_, fun heq => herror (Or.inl heq), hrefused⟩
            rw [hacc.2.2] at hsup
            cases hsup
        | false =>
            have ⟨hresult, howned₂, hcount₂, hflag₂, hrx₂⟩ :=
              howned.serialOpen (hon hinit) (hsame.trans hsup) hserial
            simp only [hresult, true_or, if_true, bind_eq_ok] at hok
            obtain ⟨u, hnonzero, hok⟩ := hok
            cases hok
            left
            refine ⟨⟨heok.mp hinit, hbusy, hsup⟩, rfl, ⟨{ howned₂ with }, ?_, ?_, ?_⟩⟩
            · rw [check_eq_ok, bne_iff_ne] at hnonzero
              rw [toNat_succ hnonzero, hcount₂, hcount]
            · rw [has_or, hflag₂]
              exact Bool.or_false _
            · rw [hrx₂, hrx]
    · rw [if_pos hinit] at hok
      cases hok
      right
      exact ⟨fun hacc => hinit (heok.mpr hacc.1), hinit, hrefused⟩

/-- A close of a device that is open. -/
structure ClosesDevice (dev dev' : SerialDevice) : Prop where
  owned : Owned dev'
  refCount : dev'.refCount.toNat + 1 = dev.refCount.toNat
  others : dev'.refCount ≠ 0 → dev'.openFlag = dev.openFlag ∧ dev'.serialRx = dev.serialRx
  last : dev'.refCount = 0 → has dev'.openFlag flagIntRx = false ∧ dev'.serialRx = none

theorem Owned.deviceClose (h : Owned dev)
    (hrx : dev.serialRx.isSome = has dev.openFlag flagIntRx)
    (hok : rtDeviceClose dev = .ok (dev', result)) :
    result ≠ rtEOK ∧ dev' = dev ∨ result = rtEOK ∧ ClosesDevice dev dev' := by
  unfold rtDeviceClose at hok
  by_cases hzero : dev.refCount = 0
  · rw [if_pos hzero] at hok
    cases hok
    exact Or.inl ⟨by decide, rfl⟩
  · rw [if_neg hzero] at hok
    have hdec : (dev.refCount - 1).toNat + 1 = dev.refCount.toNat := by
      have hback : dev.refCount - 1 + 1 = dev.refCount := by
        simp
      rw [← toNat_succ (by rwa [hback]), hback]
    right
    by_cases hmore : dev.refCount - 1 ≠ 0
    · simp only [hmore, ne_eq, not_false_eq_true, if_true] at hok
      cases hok
      exact ⟨rfl, { h with }, hdec, fun _ => ⟨rfl, rfl⟩, fun hlast => absurd hlast hmore⟩
    · have hlast : dev.refCount - 1 = 0 := not_not.mp hmore
      simp only [hlast, ne_eq, not_true_eq_false, if_false, bind_eq_ok] at hok
      obtain ⟨⟨dev₁, result₁⟩, hclose, hok⟩ := hok
      have ⟨hresult, howned, hcount, hnone⟩ :=
        (h.flags dev.openFlag 0).serialClose rfl hrx hclose
      simp only [hresult, true_or, if_true] at hok
      cases hok
      refine ⟨rfl, { howned with }, ?_, fun hmore => absurd hcount hmore, fun _ => ⟨?_, hnone⟩⟩
      · rw [hcount, ← hdec, hlast]
      · have hclosed : has oflagClose flagIntRx = false := by decide
        exact hclosed

end Owned

/-! ## The books -/

/-- Without a buffer the interrupt is off and every buffer there was has been freed. -/
theorem Owned.settled {dev : SerialDevice} (h : Owned dev) (hnone : dev.serialRx = none) :
    has dev.interrupts flagIntRx = false ∧ ∀ p ∈ dev.rxBuffers, dev.freed.count p = 1 := by
  refine ⟨?_, fun p hp => h.once p hp (by rw [hnone]; nofun)⟩
  rw [h.enabled, hnone]
  rfl

private theorem has_zero : has 0 flagIntRx = false := by decide

private theorem owned_registered (flag : Flags) : Owned (registered flag).dev where
  active := fun h => by cases h
  enabled := has_zero
  current := fun _ h => by cases h
  old := fun _ h => by rcases h with h | h <;> cases h
  tx := fun _ h => by cases h
  live := fun _ h => by cases h
  once := fun _ h => by cases h

private theorem books_registered (flag : Flags) : Books (registered flag) where
  count := rfl
  kept := fun h => by cases h
  rx := has_zero.symm
  closed := fun _ => ⟨rfl, has_zero, fun _ h => by cases h⟩

/-- A refused opening changes no book. -/
theorem Books.refuse {s : Session} {dev : SerialDevice} (h : Books s) (hd : Refuses s.dev dev) :
    Books { s with dev } where
  count := by rw [hd.refCount]; exact h.count
  kept := fun hreq => by rw [hd.openFlag]; exact h.kept hreq
  rx := by rw [hd.rx, hd.openFlag]; exact h.rx
  closed := fun hzero => by
    rw [hd.refCount] at hzero
    have hnone := hd.rx.trans (h.closed hzero).1
    exact ⟨hnone, hd.owned.settled hnone⟩

/-- An accepted opening keeps the books exactly if it asks for the flag again. -/
theorem Books.accept_iff {s : Session} {dev : SerialDevice} {oflag : Flags} (h : Books s)
    (hd : OpensDevice oflag s.dev dev) :
    Books { s with dev, opens := s.opens + 1, requested := s.requested || has oflag flagIntRx } ↔
      (has s.dev.openFlag flagIntRx = true → has oflag flagIntRx = true) := by
  constructor
  · intro hbooks hflag
    have hrx := hbooks.rx
    simp only at hrx
    rwa [hd.rx, hd.openFlag, h.rx, hflag, Bool.true_or, eq_comm] at hrx
  · intro hask
    have hrx : (s.dev.serialRx.isSome || has oflag flagIntRx) = has oflag flagIntRx := by
      rw [h.rx]
      cases hflag : has s.dev.openFlag flagIntRx with
      | false => rfl
      | true => rw [hask hflag]; rfl
    exact
      { count := by
          have hcount := h.count
          simp only
          rw [hd.refCount]
          omega
        kept := fun hreq => by
          rw [Bool.or_eq_true] at hreq
          simp only
          rw [hd.openFlag]
          exact hreq.elim (fun hold => hask (h.kept hold)) id
        rx := by
          simp only
          rw [hd.rx, hd.openFlag, hrx]
        closed := fun hzero => by
          have hcount := hd.refCount
          simp only at hzero
          rw [hzero] at hcount
          exact absurd hcount.symm (Nat.succ_ne_zero _) }

theorem Books.close {s : Session} {dev : SerialDevice} (h : Books s)
    (hd : ClosesDevice s.dev dev) :
    Books { s with
      dev
      closes := s.closes + 1
      requested := if dev.refCount = 0 then false else s.requested } where
  count := by
    have hcount := h.count
    have hdec := hd.refCount
    simp only
    omega
  kept := fun hreq => by
    simp only at hreq ⊢
    split at hreq
    · cases hreq
    · rename_i hmore
      rw [(hd.others hmore).1]
      exact h.kept hreq
  rx := by
    simp only
    by_cases hlast : dev.refCount = 0
    · rw [(hd.last hlast).1, (hd.last hlast).2]
      rfl
    · rw [(hd.others hlast).1, (hd.others hlast).2]
      exact h.rx
  closed := fun hzero => ⟨(hd.last hzero).2, hd.owned.settled (hd.last hzero).2⟩

private theorem books_step (s : Session) (e : Event) (s' : Session) (ho : Owned s.dev) (h : Books s)
    (hok : step s e = .ok s') : Owned s'.dev ∧ (Books s' ↔ AsksAgain s e) := by
  cases e with
  | openDevice oflag configured memory =>
      simp only [step, bind_eq_ok] at hok
      obtain ⟨⟨dev, result⟩, hopen, hok⟩ := hok
      rcases ho.deviceOpen hopen with ⟨hacc, rfl, hd⟩ | ⟨hacc, hresult, hd⟩
      · rw [if_pos rfl] at hok
        cases hok
        exact ⟨hd.owned, (h.accept_iff hd).trans ⟨fun hask _ => hask, fun hask => hask hacc⟩⟩
      · rw [if_neg hresult] at hok
        cases hok
        exact ⟨hd.owned, fun _ hacc' => absurd hacc' hacc, fun _ => h.refuse hd⟩
  | closeDevice =>
      simp only [step, bind_eq_ok] at hok
      obtain ⟨⟨dev, result⟩, hclose, hok⟩ := hok
      rcases ho.deviceClose h.rx hclose with ⟨hresult, rfl⟩ | ⟨rfl, hd⟩
      · rw [if_neg hresult] at hok
        cases hok
        exact ⟨ho, fun _ => trivial, fun _ => h⟩
      · rw [if_pos rfl] at hok
        cases hok
        exact ⟨hd.owned, fun _ => trivial, fun _ => h.close hd⟩

/-- The books are kept all along a sequence of openings and closings exactly if no opening drops
the flag of the openings before it. -/
theorem serial_books_iff (flag : Flags) (es : List Event) (s : Session)
    (hrun : run step (registered flag) es = .ok s) :
    Always step Books (registered flag) es ↔ Guarded step AsksAgain (registered flag) es := by
  have hany : Guarded step (fun _ _ => True) (registered flag) es :=
    Guarded.of_forall fun _ _ _ => trivial
  exact always_iff_guarded_of_both
    (fun s e s' ho h _ hstep => books_step s e s' ho h hstep)
    (owned_registered flag) (books_registered flag) hany hrun

/-- The console opens, then the shell for `RT_DEVICE_FLAG_INT_RX`, the console for the same, all
close, and the shell comes back. -/
def consoleThenShell : List Event :=
  [.openDevice 0x043 0 true, .openDevice 0x143 0 true, .openDevice 0x143 0 true, .closeDevice,
    .closeDevice, .closeDevice, .openDevice 0x143 0 true]

theorem serial_books_iff_shell :
    Always step Books (registered 0x103) consoleThenShell ∧
      (run step (registered 0x103) consoleThenShell).map
        (fun s => (s.dev.refCount, s.dev.rxBuffers, s.dev.freed, s.dev.serialRx)) =
        .ok (1, [1, 0], [0], some 1) :=
  ⟨(serial_books_iff 0x103 consoleThenShell _ rfl).mpr (by decide), by decide⟩

/-- The shell opens for `RT_DEVICE_FLAG_INT_RX`, the console does not, and both close. -/
def shellThenConsole : List Event :=
  [.openDevice 0x143 0 true, .openDevice 0x043 0 true, .closeDevice, .closeDevice]

/-- The device is closed, and the buffer is still there. -/
theorem console_drops_rx :
    ¬∀ (flag : Flags) (es : List Event) (s : Session),
      run step (registered flag) es = .ok s → Always step Books (registered flag) es := by
  intro hall
  have hbooks := (hall 0x103 shellThenConsole _ rfl).of_run rfl
  have hnone := (hbooks.closed rfl).1
  cases hnone

end RtHypervisor.Ports.SerialOpen
