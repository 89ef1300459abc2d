import Mathlib
import RtHypervisor.Verified.Ring

/-!
# The receive FIFO of a serial device

In interrupt mode the handler puts each character into a ring of `bufsz` cells and readers take
them out, each under disabled interrupts.  The handler moves `get_index` too when the ring has
gone around.  One cell stays empty, and `is_full` is set besides.

A `Driver` is the two functions of the source over any store with the three critical sections:
readers and handlers are at a point of their code each, and an event is the next section of one
of them.  `ringFifo` is the store of the source and `queueFifo` the queue it stands for.
`Holds` relates the two, and every event keeps it (`holds_step`).
-/

namespace RtHypervisor.Ports.SerialRx

open RtHypervisor.Verified

abbrev Byte := BitVec 8
abbrev ThreadId := Nat
abbrev ContextId := Nat

/-! ## The store of the source -/

/-- `struct rt_serial_rx_fifo`. -/
structure RxFifo where
  buffer : Nat → Byte
  putIndex : BitVec 16
  getIndex : BitVec 16
  isFull : Bool

/-- `index += 1; if (index >= bufsz) index = 0;` -/
def advance (bufsz index : BitVec 16) : BitVec 16 :=
  if bufsz ≤ index + 1 then 0 else index + 1

/-- What `rt_hw_serial_isr` does with a character. -/
def putChar (bufsz : BitVec 16) (rxFifo : RxFifo) (ch : BitVec 32) : RxFifo :=
  let putIndex := advance bufsz rxFifo.putIndex
  let rxFifo := { rxFifo with
    buffer := Function.update rxFifo.buffer rxFifo.putIndex.toNat (ch.setWidth 8)
    putIndex }
  if putIndex = rxFifo.getIndex then
    { rxFifo with getIndex := advance bufsz rxFifo.getIndex, isFull := true }
  else rxFifo

/-- The length that `rt_hw_serial_isr` computes for `rx_indicate`. -/
def rxLength (bufsz : BitVec 16) (rxFifo : RxFifo) : Int :=
  if rxFifo.getIndex ≤ rxFifo.putIndex then
    (rxFifo.putIndex.toNat : Int) - rxFifo.getIndex.toNat
  else
    (bufsz.toNat : Int) - ((rxFifo.getIndex.toNat : Int) - rxFifo.putIndex.toNat)

/-! ## Readers and handlers -/

/-- The critical sections of a receive FIFO. -/
structure Fifo (σ : Type) where
  put : σ → BitVec 32 → σ
  get : σ → Option (Byte × σ)
  length : σ → Int

/-- Where a call of `rt_hw_serial_isr` is. -/
inductive Isr
  | idle
  | receiving
  | indicating

/-- `reading` is the rest of `length` and the data of a call of `_serial_int_rx`.  `received`,
`taken`, `returned` and `indicated` record what has happened. -/
structure Driver (σ : Type) where
  fifo : σ
  rxIndicate : Bool
  reading : ThreadId → Option (BitVec 32 × List Byte)
  isr : ContextId → Isr
  received : List Byte
  taken : List Byte
  returned : List (ThreadId × List Byte)
  indicated : List Int

inductive Event
  | setRxIndicate (set : Bool)
  | call (t : ThreadId) (length : BitVec 32)
  | round (t : ThreadId)
  | interrupt (c : ContextId)
  | getc (c : ContextId) (ch : BitVec 32)
  | indicate (c : ContextId)

section Driver

variable {σ : Type} (fifo : Fifo σ)

/-- `_serial_int_rx` returns. -/
def finish (s : Driver σ) (t : ThreadId) (data : List Byte) : Driver σ :=
  { s with
    reading := Function.update s.reading t none
    returned := s.returned ++ [(t, data)] }

/-- A round of the loop of `_serial_int_rx`. -/
def readRound (s : Driver σ) (t : ThreadId) (length : BitVec 32) (data : List Byte) : Driver σ :=
  if length = 0 then finish s t data
  else
    match fifo.get s.fifo with
    | none => finish s t data
    | some (ch, rest) =>
        { s with
          fifo := rest
          reading := Function.update s.reading t (some (length - 1, data ++ [ch]))
          taken := s.taken ++ [ch] }

/-- A round of the loop of `rt_hw_serial_isr`. -/
def isrRound (s : Driver σ) (c : ContextId) (ch : BitVec 32) : Driver σ :=
  if ch = -1 then { s with isr := Function.update s.isr c .indicating }
  else { s with fifo := fifo.put s.fifo ch, received := s.received ++ [ch.setWidth 8] }

/-- The end of `rt_hw_serial_isr`. -/
def isrIndicate (s : Driver σ) (c : ContextId) : Driver σ :=
  let s := { s with isr := Function.update s.isr c .idle }
  if s.rxIndicate = true ∧ fifo.length s.fifo ≠ 0 then
    { s with indicated := s.indicated ++ [fifo.length s.fifo] }
  else s

/-- An event of a thread or of a handler that is elsewhere changes nothing. -/
def step (s : Driver σ) : Event → Driver σ
  | .setRxIndicate set => { s with rxIndicate := set }
  | .call t length =>
      match s.reading t with
      | none => { s with reading := Function.update s.reading t (some (length, [])) }
      | some _ => s
  | .round t =>
      match s.reading t with
      | none => s
      | some (length, data) => readRound fifo s t length data
  | .interrupt c =>
      match s.isr c with
      | .idle => { s with isr := Function.update s.isr c .receiving }
      | _ => s
  | .getc c ch =>
      match s.isr c with
      | .receiving => isrRound fifo s c ch
      | _ => s
  | .indicate c =>
      match s.isr c with
      | .indicating => isrIndicate fifo s c
      | _ => s

def run (s : Driver σ) (es : List Event) : Driver σ := es.foldl (step fifo) s

def initial (store : σ) : Driver σ where
  fifo := store
  rxIndicate := false
  reading := fun _ => none
  isr := fun _ => .idle
  received := []
  taken := []
  returned := []
  indicated := []

end Driver

/-- What `rt_serial_open` sets up; the cells can have any contents. -/
def RxFifo.empty (buffer : Nat → Byte) : RxFifo where
  buffer := buffer
  putIndex := 0
  getIndex := 0
  isFull := false

/-! ## The queue -/

/-- The unread bytes, oldest first, and before them those that have left, each with whether it
was returned to a reader. -/
structure RxQueue where
  left : List (Byte × Bool)
  unread : List Byte

/-- The oldest byte leaves. -/
def RxQueue.leave (returned : Bool) (q : RxQueue) : RxQueue where
  left := q.left ++ (q.unread.take 1).map fun ch => (ch, returned)
  unread := q.unread.drop 1

/-- A byte comes in; when more than `bufsz - 1` are unread, the oldest is dropped. -/
def RxQueue.put (bufsz : Nat) (q : RxQueue) (ch : BitVec 32) : RxQueue :=
  let q := { q with unread := q.unread ++ [ch.setWidth 8] }
  if bufsz - 1 < q.unread.length then q.leave false else q

def RxQueue.get (q : RxQueue) : Option (Byte × RxQueue) :=
  q.unread.head?.map fun ch => (ch, q.leave true)

def queueFifo (bufsz : Nat) : Fifo RxQueue where
  put := RxQueue.put bufsz
  get := RxQueue.get
  length := fun q => q.unread.length

/-! ## Two stores that answer alike -/

/-- `R` is kept by the critical sections, which answer alike. -/
structure Alike {σ τ : Type} (R : σ → τ → Prop) (fifo : Fifo σ) (fifo' : Fifo τ) : Prop where
  put : ∀ {x y}, R x y → ∀ ch, R (fifo.put x ch) (fifo'.put y ch)
  none : ∀ {x y}, R x y → fifo'.get y = none → fifo.get x = none
  some : ∀ {x y ch y'}, R x y → fifo'.get y = some (ch, y') →
    ∃ x', fifo.get x = some (ch, x') ∧ R x' y'
  length : ∀ {x y}, R x y → fifo.length x = fifo'.length y

/-- All but the store is the same. -/
structure Related {σ τ : Type} (R : σ → τ → Prop) (s : Driver σ) (t : Driver τ) : Prop where
  fifo : R s.fifo t.fifo
  rxIndicate : s.rxIndicate = t.rxIndicate
  reading : s.reading = t.reading
  isr : s.isr = t.isr
  received : s.received = t.received
  taken : s.taken = t.taken
  returned : s.returned = t.returned
  indicated : s.indicated = t.indicated

section Alike

variable {σ τ : Type} {R : σ → τ → Prop} {fifo : Fifo σ} {fifo' : Fifo τ}
variable {s : Driver σ} {t : Driver τ}

theorem Related.finish (h : Related R s t) (i : ThreadId) (data : List Byte) :
    Related R (finish s i data) (finish t i data) where
  fifo := h.fifo
  rxIndicate := h.rxIndicate
  reading := by simp only [SerialRx.finish, h.reading]
  isr := h.isr
  received := h.received
  taken := h.taken
  returned := congrArg (· ++ [(i, data)]) h.returned
  indicated := h.indicated

theorem Related.readRound (h : Related R s t) (ha : Alike R fifo fifo') (i : ThreadId)
    (length : BitVec 32) (data : List Byte) :
    Related R (readRound fifo s i length data) (readRound fifo' t i length data) := by
  unfold SerialRx.readRound
  by_cases hzero : length = 0
  · rw [if_pos hzero, if_pos hzero]
    exact h.finish i data
  · rw [if_neg hzero, if_neg hzero]
    cases hget : fifo'.get t.fifo with
    | none =>
        rw [ha.none h.fifo hget]
        exact h.finish i data
    | some out =>
        have ⟨rest, hrest, hkeep⟩ := ha.some h.fifo hget
        rw [hrest]
        exact { h with
          fifo := hkeep
          reading := congrArg (Function.update · i _) h.reading
          taken := congrArg (· ++ [out.1]) h.taken }

theorem Related.isrRound (h : Related R s t) (ha : Alike R fifo fifo') (c : ContextId)
    (ch : BitVec 32) : Related R (isrRound fifo s c ch) (isrRound fifo' t c ch) := by
  unfold SerialRx.isrRound
  split
  · exact { h with isr := congrArg (Function.update · c _) h.isr }
  · exact { h with
      fifo := ha.put h.fifo ch
      received := congrArg (· ++ [ch.setWidth 8]) h.received }

theorem Related.isrIndicate (h : Related R s t) (ha : Alike R fifo fifo') (c : ContextId) :
    Related R (isrIndicate fifo s c) (isrIndicate fifo' t c) := by
  have hidle : Related R { s with isr := Function.update s.isr c .idle }
      { t with isr := Function.update t.isr c .idle } :=
    { h with isr := congrArg (Function.update · c _) h.isr }
  have hlength := ha.length h.fifo
  by_cases hcall : t.rxIndicate = true ∧ fifo'.length t.fifo ≠ 0
  · have hcall' : s.rxIndicate = true ∧ fifo.length s.fifo ≠ 0 := by
      rwa [h.rxIndicate, hlength]
    simp only [SerialRx.isrIndicate]
    rw [if_pos hcall', if_pos hcall]
    exact { hidle with indicated := by simp only [h.indicated, hlength] }
  · have hcall' : ¬(s.rxIndicate = true ∧ fifo.length s.fifo ≠ 0) := by
      rwa [h.rxIndicate, hlength]
    simp only [SerialRx.isrIndicate]
    rw [if_neg hcall', if_neg hcall]
    exact hidle

theorem Related.step (h : Related R s t) (ha : Alike R fifo fifo') (e : Event) :
    Related R (step fifo s e) (step fifo' t e) := by
  cases e with
  | setRxIndicate set => exact { h with rxIndicate := rfl }
  | call i length =>
      simp only [SerialRx.step, h.reading]
      cases t.reading i with
      | none => exact { h with reading := rfl }
      | some call => exact h
  | round i =>
      simp only [SerialRx.step, h.reading]
      cases t.reading i with
      | none => exact h
      | some call => exact h.readRound ha i call.1 call.2
  | interrupt c =>
      simp only [SerialRx.step, h.isr]
      cases t.isr c with
      | idle => exact { h with isr := rfl }
      | receiving => exact h
      | indicating => exact h
  | getc c ch =>
      simp only [SerialRx.step, h.isr]
      cases t.isr c with
      | idle => exact h
      | receiving => exact h.isrRound ha c ch
      | indicating => exact h
  | indicate c =>
      simp only [SerialRx.step, h.isr]
      cases t.isr c with
      | idle => exact h
      | receiving => exact h
      | indicating => exact h.isrIndicate ha c

theorem Related.run (h : Related R s t) (ha : Alike R fifo fifo') (es : List Event) :
    Related R (run fifo s es) (run fifo' t es) := by
  induction es generalizing s t with
  | nil => exact h
  | cons e es ih => exact ih (h.step ha e)

end Alike

/-! ## The ring holds the queue -/

/-- The ring holds the bytes `unread`; with `is_full` set there is room for no other. -/
structure Holds (bufsz : BitVec 16) (rxFifo : RxFifo) (unread : List Byte) : Prop where
  contents : Ring.contents bufsz.toNat rxFifo.getIndex.toNat unread.length rxFifo.buffer = unread
  get_lt : rxFifo.getIndex.toNat < bufsz.toNat
  put_eq : rxFifo.putIndex.toNat = (rxFifo.getIndex.toNat + unread.length) % bufsz.toNat
  length_lt : unread.length < bufsz.toNat
  full : rxFifo.isFull = true → unread.length + 1 = bufsz.toNat

section Holds

variable {bufsz index : BitVec 16} {rxFifo : RxFifo} {unread : List Byte}

private theorem advance_toNat (h : index.toNat < bufsz.toNat) :
    (advance bufsz index).toNat = (index.toNat + 1) % bufsz.toNat := by
  have hbits := bufsz.isLt
  have hone : (1 : BitVec 16).toNat = 1 := rfl
  have hsucc : (index + 1).toNat = index.toNat + 1 := by
    rw [BitVec.toNat_add, hone, Nat.mod_eq_of_lt (by omega)]
  rw [advance, ← Ring.wrap_eq h]
  by_cases hwrap : bufsz ≤ index + 1
  · have hnat : bufsz.toNat ≤ index.toNat + 1 := hsucc ▸ BitVec.le_def.mp hwrap
    rw [if_pos hwrap, if_pos hnat]
    rfl
  · have hnat : ¬bufsz.toNat ≤ index.toNat + 1 := fun hle =>
      hwrap (BitVec.le_def.mpr (hsucc ▸ hle))
    rw [if_neg hwrap, if_neg hnat, hsucc]

theorem Holds.put_lt (h : Holds bufsz rxFifo unread) : rxFifo.putIndex.toNat < bufsz.toNat := by
  rw [h.put_eq]
  exact Nat.mod_lt _ (by have := h.get_lt; omega)

theorem Holds.length_eq (h : Holds bufsz rxFifo unread) :
    rxLength bufsz rxFifo = unread.length := by
  have hget := h.get_lt
  have hlen := h.length_lt
  have hput := h.put_eq
  rw [Ring.wrap_mod hget hlen.le] at hput
  rw [rxLength]
  by_cases hle : rxFifo.getIndex ≤ rxFifo.putIndex
  · have hnat := BitVec.le_def.mp hle
    rw [if_pos hle]
    split at hput <;> omega
  · have hnat : ¬rxFifo.getIndex.toNat ≤ rxFifo.putIndex.toNat := fun hn =>
      hle (BitVec.le_def.mpr hn)
    rw [if_neg hle]
    split at hput <;> omega

theorem Holds.put (h : Holds bufsz rxFifo unread) (hsize : 2 ≤ bufsz.toNat) (ch : BitVec 32)
    (left : List (Byte × Bool)) :
    Holds bufsz (putChar bufsz rxFifo ch) (RxQueue.put bufsz.toNat ⟨left, unread⟩ ch).unread := by
  have hget := h.get_lt
  have hlen := h.length_lt
  have hput : (advance bufsz rxFifo.putIndex).toNat =
      (rxFifo.getIndex.toNat + (unread.length + 1)) % bufsz.toNat := by
    rw [advance_toNat h.put_lt, h.put_eq, Nat.mod_add_mod, Nat.add_assoc]
  have hcontents : Ring.contents bufsz.toNat rxFifo.getIndex.toNat (unread.length + 1)
      (Function.update rxFifo.buffer rxFifo.putIndex.toNat (ch.setWidth 8)) =
      unread ++ [ch.setWidth 8] := by
    rw [h.put_eq, Ring.contents_append hlen, h.contents]
  have hlength : (unread ++ [ch.setWidth 8]).length = unread.length + 1 := by
    rw [List.length_append, List.length_singleton]
  -- the handler runs into the reader exactly when the queue has one byte too many
  have hover : advance bufsz rxFifo.putIndex = rxFifo.getIndex ↔
      bufsz.toNat - 1 < (unread ++ [ch.setWidth 8]).length := by
    rw [hlength]
    constructor
    · intro heq
      by_contra hroom
      have hmod : (rxFifo.getIndex.toNat + (unread.length + 1)) % bufsz.toNat =
          (rxFifo.getIndex.toNat + 0) % bufsz.toNat := by
        rw [← hput, heq, Nat.add_zero, Nat.mod_eq_of_lt hget]
      have hzero := Ring.mod_add_left_cancel (by omega) (by omega) hmod
      omega
    · intro hfull
      have hn : unread.length + 1 = bufsz.toNat := by omega
      refine BitVec.eq_of_toNat_eq ?_
      rw [hput, hn, Nat.add_mod_right, Nat.mod_eq_of_lt hget]
  simp only [putChar, RxQueue.put]
  by_cases hfull : bufsz.toNat - 1 < (unread ++ [ch.setWidth 8]).length
  · rw [if_pos hfull, if_pos (hover.mpr hfull)]
    have hdrop : ((unread ++ [ch.setWidth 8]).drop 1).length = unread.length := by
      rw [List.length_drop, hlength, Nat.add_sub_cancel]
    constructor
    · simp only [RxQueue.leave]
      rw [hdrop, advance_toNat hget]
      have htail : (Ring.contents bufsz.toNat rxFifo.getIndex.toNat (unread.length + 1)
            (Function.update rxFifo.buffer rxFifo.putIndex.toNat (ch.setWidth 8))).drop 1 =
          Ring.contents bufsz.toNat ((rxFifo.getIndex.toNat + 1) % bufsz.toNat)
            (unread.length + 1 - 1)
            (Function.update rxFifo.buffer rxFifo.putIndex.toNat (ch.setWidth 8)) :=
        Ring.drop_contents (Nat.le_add_left 1 unread.length)
      rw [hcontents, Nat.add_sub_cancel] at htail
      exact htail.symm
    · rw [advance_toNat hget]
      exact Nat.mod_lt _ (by omega)
    · simp only [RxQueue.leave]
      rw [hdrop, hput, advance_toNat hget, Nat.mod_add_mod, Nat.add_assoc,
        Nat.add_comm 1 unread.length]
    · simp only [RxQueue.leave]
      rwa [hdrop]
    · simp only [RxQueue.leave]
      rw [hdrop]
      omega
  · rw [if_neg hfull, if_neg fun heq => hfull (hover.mp heq)]
    constructor
    · rw [hlength]
      exact hcontents
    · exact hget
    · rw [hlength]
      exact hput
    · rw [hlength] at hfull ⊢
      omega
    · intro hset
      have hn := h.full hset
      omega

end Holds

/-! ## What has left the queue -/

/-- Every byte received is unread or has left, in order, and those that were taken are the ones
handed to a reader. -/
structure Accounted (s : Driver RxQueue) : Prop where
  received : s.fifo.left.map Prod.fst ++ s.fifo.unread = s.received
  taken : (s.fifo.left.filter Prod.snd).map Prod.fst = s.taken

section Accounted

variable {bufsz : Nat} {s : Driver RxQueue}

private theorem leave_map (q : RxQueue) (returned : Bool) :
    (q.leave returned).left.map Prod.fst ++ (q.leave returned).unread =
      q.left.map Prod.fst ++ q.unread := by
  cases hq : q.unread with
  | nil => simp [RxQueue.leave, hq]
  | cons ch unread => simp [RxQueue.leave, hq]

private theorem leave_dropped (q : RxQueue) :
    ((q.leave false).left.filter Prod.snd).map Prod.fst =
      (q.left.filter Prod.snd).map Prod.fst := by
  cases hq : q.unread with
  | nil => simp [RxQueue.leave, hq]
  | cons ch unread => simp [RxQueue.leave, hq]

theorem Accounted.readRound (h : Accounted s) (t : ThreadId) (length : BitVec 32)
    (data : List Byte) : Accounted (readRound (queueFifo bufsz) s t length data) := by
  unfold SerialRx.readRound
  split
  · exact ⟨h.received, h.taken⟩
  · cases hq : s.fifo.unread with
    | nil =>
        have hnone : (queueFifo bufsz).get s.fifo = none := by simp [queueFifo, RxQueue.get, hq]
        rw [hnone]
        exact ⟨h.received, h.taken⟩
    | cons ch unread =>
        have hsome : (queueFifo bufsz).get s.fifo = some (ch, s.fifo.leave true) := by
          simp [queueFifo, RxQueue.get, hq]
        rw [hsome]
        constructor
        · exact (leave_map s.fifo true).trans h.received
        · simp only [RxQueue.leave, hq, ← h.taken]
          simp

theorem Accounted.isrRound (h : Accounted s) (c : ContextId) (ch : BitVec 32) :
    Accounted (isrRound (queueFifo bufsz) s c ch) := by
  unfold SerialRx.isrRound
  split
  · exact ⟨h.received, h.taken⟩
  · have hreceived : s.fifo.left.map Prod.fst ++ (s.fifo.unread ++ [ch.setWidth 8]) =
        s.received ++ [ch.setWidth 8] := by
      rw [← List.append_assoc, h.received]
    simp only [queueFifo, RxQueue.put]
    split
    · exact ⟨(leave_map ..).trans hreceived, (leave_dropped _).trans h.taken⟩
    · exact ⟨hreceived, h.taken⟩

theorem Accounted.isrIndicate (h : Accounted s) (c : ContextId) :
    Accounted (isrIndicate (queueFifo bufsz) s c) := by
  simp only [SerialRx.isrIndicate]
  split
  · exact ⟨h.received, h.taken⟩
  · exact ⟨h.received, h.taken⟩

theorem Accounted.step (h : Accounted s) (e : Event) :
    Accounted (step (queueFifo bufsz) s e) := by
  cases e with
  | setRxIndicate set => exact ⟨h.received, h.taken⟩
  | call t length =>
      simp only [SerialRx.step]
      cases s.reading t with
      | none => exact ⟨h.received, h.taken⟩
      | some call => exact h
  | round t =>
      simp only [SerialRx.step]
      cases s.reading t with
      | none => exact h
      | some call => exact h.readRound t call.1 call.2
  | interrupt c =>
      simp only [SerialRx.step]
      cases s.isr c with
      | idle => exact ⟨h.received, h.taken⟩
      | receiving => exact h
      | indicating => exact h
  | getc c ch =>
      simp only [SerialRx.step]
      cases s.isr c with
      | idle => exact h
      | receiving => exact h.isrRound c ch
      | indicating => exact h
  | indicate c =>
      simp only [SerialRx.step]
      cases s.isr c with
      | idle => exact h
      | receiving => exact h
      | indicating => exact h.isrIndicate c

theorem Accounted.run (h : Accounted s) (es : List Event) :
    Accounted (run (queueFifo bufsz) s es) := by
  induction es generalizing s with
  | nil => exact h
  | cons e es ih => exact ih (h.step e)

end Accounted

/-! ## The receive FIFO -/

/-- What the driver does with the ring is what it would do with the queue: it received, handed
out and returned the same bytes and gave `rx_indicate` the same lengths. -/
structure Faithful (bufsz : BitVec 16) (ring : Driver RxFifo) (queue : Driver RxQueue) : Prop where
  reading : ring.reading = queue.reading
  returned : ring.returned = queue.returned
  indicated : ring.indicated = queue.indicated
  unread : rxLength bufsz ring.fifo = queue.fifo.unread.length
  put_lt : ring.fifo.putIndex < bufsz
  get_lt : ring.fifo.getIndex < bufsz
  received : queue.fifo.left.map Prod.fst ++ queue.fifo.unread = ring.received
  taken : (queue.fifo.left.filter Prod.snd).map Prod.fst = ring.taken

end RtHypervisor.Ports.SerialRx
