import Mathlib.Tactic
import RtHypervisor.Verified.Run
import RtHypervisor.Verified.Ring

/-!
# Ring buffers

`ringbuffer.c` keeps bytes between a read and a write index of 15 bits.  Where the indices are
equal, a mirror bit beside each tells a full buffer from an empty one: it flips whenever its index
goes around.

`fifo` is what the operations do to a bounded queue of bytes; `ringbuffer_fifo` says that the
ring buffer does the same in every run.
-/

namespace RtHypervisor.Ports.RingBuffer

open RtHypervisor.Verified
open RtHypervisor.Verified.Run

abbrev Byte := BitVec 8

/-- `struct rt_ringbuffer`. -/
structure RtRingbuffer where
  bufferPtr : Nat → Byte
  readMirror : BitVec 1
  readIndex : BitVec 15
  writeMirror : BitVec 1
  writeIndex : BitVec 15
  bufferSize : BitVec 16

/-- `enum rt_ringbuffer_state`. -/
inductive Status
  | empty
  | full
  | halffull
deriving DecidableEq, Repr

/-- `rt_ringbuffer_init`. -/
def rtRingbufferInit (pool : Nat → Byte) (size : BitVec 16) : Except Fault RtRingbuffer := do
  check .assertion ((0 : BitVec 16).slt size)
  pure
    { bufferPtr := pool
      readMirror := 0
      readIndex := 0
      writeMirror := 0
      writeIndex := 0
      -- `RT_ALIGN_DOWN(size, RT_ALIGN_SIZE)`
      bufferSize := size &&& ~~~(3 : BitVec 16) }

section Operations

variable (rb : RtRingbuffer)

/-- `rt_ringbuffer_status`. -/
def rtRingbufferStatus : Status :=
  if rb.readIndex = rb.writeIndex then
    if rb.readMirror = rb.writeMirror then .empty else .full
  else .halffull

/-- `rt_ringbuffer_data_len`. -/
def rtRingbufferDataLen : Nat :=
  match rtRingbufferStatus rb with
  | .empty => 0
  | .full => rb.bufferSize.toNat
  | .halffull =>
      let wi := rb.writeIndex.toNat
      let ri := rb.readIndex.toNat
      if wi > ri then wi - ri else rb.bufferSize.toNat - (ri - wi)

/-- `rt_ringbuffer_space_len`. -/
def rtRingbufferSpaceLen : Nat := rb.bufferSize.toNat - rtRingbufferDataLen rb

/-- Copy bytes behind the write index.  The flag says that this goes into the other side of the
mirror. -/
def copyIn (ptr : Nat → Byte) (length : Nat) : RtRingbuffer × Bool :=
  let rest := rb.bufferSize.toNat - rb.writeIndex.toNat
  if rest > length then
    ({ rb with
      bufferPtr := Ring.copyTo rb.bufferPtr rb.writeIndex.toNat length ptr
      writeIndex := rb.writeIndex + BitVec.ofNat 15 length }, false)
  else
    ({ rb with
      bufferPtr :=
        Ring.copyTo (Ring.copyTo rb.bufferPtr rb.writeIndex.toNat rest ptr) 0 (length - rest)
          fun i => ptr (rest + i)
      writeMirror := ~~~rb.writeMirror
      writeIndex := BitVec.ofNat 15 (length - rest) }, true)

/-- `rt_ringbuffer_put`. -/
def rtRingbufferPut (ptr : Nat → Byte) (length : BitVec 16) : RtRingbuffer × Nat :=
  let size := BitVec.ofNat 16 (rtRingbufferSpaceLen rb)
  if size = 0 then (rb, 0)
  else
    let length := if size < length then size else length
    ((copyIn rb ptr length.toNat).1, length.toNat)

/-- `rt_ringbuffer_put_force`. -/
def rtRingbufferPutForce (ptr : Nat → Byte) (length : BitVec 16) : RtRingbuffer × Nat :=
  let spaceLength := BitVec.ofNat 16 (rtRingbufferSpaceLen rb)
  let skip := if length > rb.bufferSize then length.toNat - rb.bufferSize.toNat else 0
  let length := if length > rb.bufferSize then rb.bufferSize else length
  let (rb, other) := copyIn rb (fun i => ptr (skip + i)) length.toNat
  let rb :=
    if length > spaceLength then
      { rb with
        readMirror :=
          if other ∧ rb.writeIndex ≤ rb.readIndex then ~~~rb.readMirror else rb.readMirror
        readIndex := rb.writeIndex }
    else rb
  (rb, length.toNat)

/-- `rt_ringbuffer_get`, with the bytes it copies. -/
def rtRingbufferGet (length : BitVec 16) : RtRingbuffer × List Byte :=
  let size := rtRingbufferDataLen rb
  if size = 0 then (rb, [])
  else
    let length := if size < length.toNat then size else length.toNat
    let rest := rb.bufferSize.toNat - rb.readIndex.toNat
    if rest > length then
      ({ rb with readIndex := rb.readIndex + BitVec.ofNat 15 length },
        (List.range length).map fun i => rb.bufferPtr (rb.readIndex.toNat + i))
    else
      ({ rb with
        readMirror := ~~~rb.readMirror
        readIndex := BitVec.ofNat 15 (length - rest) },
        ((List.range rest).map fun i => rb.bufferPtr (rb.readIndex.toNat + i)) ++
          (List.range (length - rest)).map fun i => rb.bufferPtr i)

/-- `rt_ringbuffer_peak`, with the bytes its pointer leads to. -/
def rtRingbufferPeak : RtRingbuffer × List Byte :=
  let size := rtRingbufferDataLen rb
  if size = 0 then (rb, [])
  else
    let rest := rb.bufferSize.toNat - rb.readIndex.toNat
    let bytes k := (List.range k).map fun i => rb.bufferPtr (rb.readIndex.toNat + i)
    if rest > size then
      ({ rb with readIndex := rb.readIndex + BitVec.ofNat 15 size }, bytes size)
    else ({ rb with readMirror := ~~~rb.readMirror, readIndex := 0 }, bytes rest)

/-- `rt_ringbuffer_putchar`. -/
def rtRingbufferPutchar (ch : Byte) : RtRingbuffer × Nat :=
  if rtRingbufferSpaceLen rb = 0 then (rb, 0)
  else
    let rb := { rb with bufferPtr := Function.update rb.bufferPtr rb.writeIndex.toNat ch }
    if rb.writeIndex.toNat = rb.bufferSize.toNat - 1 then
      ({ rb with writeMirror := ~~~rb.writeMirror, writeIndex := 0 }, 1)
    else ({ rb with writeIndex := rb.writeIndex + 1 }, 1)

/-- `rt_ringbuffer_putchar_force`. -/
def rtRingbufferPutcharForce (ch : Byte) : RtRingbuffer × Nat :=
  let oldState := rtRingbufferStatus rb
  let rb := { rb with bufferPtr := Function.update rb.bufferPtr rb.writeIndex.toNat ch }
  if rb.writeIndex.toNat = rb.bufferSize.toNat - 1 then
    let rb := { rb with writeMirror := ~~~rb.writeMirror, writeIndex := 0 }
    (if oldState = .full then
      { rb with readMirror := ~~~rb.readMirror, readIndex := rb.writeIndex } else rb, 1)
  else
    let rb := { rb with writeIndex := rb.writeIndex + 1 }
    (if oldState = .full then { rb with readIndex := rb.writeIndex } else rb, 1)

/-- `rt_ringbuffer_getchar`. -/
def rtRingbufferGetchar : RtRingbuffer × List Byte :=
  if rtRingbufferDataLen rb = 0 then (rb, [])
  else
    let ch := rb.bufferPtr rb.readIndex.toNat
    if rb.readIndex.toNat = rb.bufferSize.toNat - 1 then
      ({ rb with readMirror := ~~~rb.readMirror, readIndex := 0 }, [ch])
    else ({ rb with readIndex := rb.readIndex + 1 }, [ch])

/-- `rt_ringbuffer_reset`. -/
def rtRingbufferReset : RtRingbuffer :=
  { rb with readMirror := 0, readIndex := 0, writeMirror := 0, writeIndex := 0 }

end Operations

/-! ## Runs -/

inductive Op
  | put (ptr : Nat → Byte) (length : BitVec 16)
  | putForce (ptr : Nat → Byte) (length : BitVec 16)
  | get (length : BitVec 16)
  | peak
  | putchar (ch : Byte)
  | putcharForce (ch : Byte)
  | getchar
  | reset

/-- What a call returns: how many bytes it has put, or the bytes that were read. -/
inductive Result
  | count (n : Nat)
  | bytes (l : List Byte)
deriving DecidableEq, Repr

def step (rb : RtRingbuffer) : Op → RtRingbuffer × Result
  | .put ptr length => (rtRingbufferPut rb ptr length).map id .count
  | .putForce ptr length => (rtRingbufferPutForce rb ptr length).map id .count
  | .get length => (rtRingbufferGet rb length).map id .bytes
  | .peak => (rtRingbufferPeak rb).map id .bytes
  | .putchar ch => (rtRingbufferPutchar rb ch).map id .count
  | .putcharForce ch => (rtRingbufferPutcharForce rb ch).map id .count
  | .getchar => (rtRingbufferGetchar rb).map id .bytes
  | .reset => (rtRingbufferReset rb, .count 0)

/-! ## The queue -/

/-- Append to a queue of `n` bytes what fits. -/
def enqueue (n : Nat) (q data : List Byte) : List Byte × Result :=
  (q ++ data.take (n - q.length), .count (min (n - q.length) data.length))

/-- Append everything, and keep the last `n` bytes. -/
def enqueueForce (n : Nat) (q data : List Byte) : List Byte × Result :=
  ((q ++ data).drop ((q ++ data).length - n), .count (min n data.length))

/-- Remove up to `k` bytes. -/
def dequeue (q : List Byte) (k : Nat) : List Byte × Result := (q.drop k, .bytes (q.take k))

/-- The operations on a queue of `n` bytes of which `contiguous` lie behind one another. -/
def fifo (n contiguous : Nat) (q : List Byte) : Op → List Byte × Result
  | .put ptr length => enqueue n q ((List.range length.toNat).map ptr)
  | .putForce ptr length => enqueueForce n q ((List.range length.toNat).map ptr)
  | .get length => dequeue q length.toNat
  | .peak => dequeue q contiguous
  | .putchar ch => enqueue n q [ch]
  | .putcharForce ch => enqueueForce n q [ch]
  | .getchar => dequeue q 1
  | .reset => ([], .count 0)

/-- The `data_len` bytes from `read_index` on are the queue `q`; the indices are below the size
`n`, and the buffer is seen as empty or full when the queue is. -/
structure Represents (n : Nat) (rb : RtRingbuffer) (q : List Byte) : Prop where
  size : rb.bufferSize.toNat = n
  read_lt : rb.readIndex.toNat < n
  write_lt : rb.writeIndex.toNat < n
  bytes : Ring.contents n rb.readIndex.toNat (rtRingbufferDataLen rb) rb.bufferPtr = q
  empty : rtRingbufferStatus rb = .empty ↔ q = []
  full : rtRingbufferStatus rb = .full ↔ q.length = n

/-- All along a run, the ring buffer represents the queue and returns what the queue does. -/
def Evolves (n : Nat) : RtRingbuffer → List Byte → List Op → Prop
  | rb, q, [] => Represents n rb q
  | rb, q, op :: ops =>
      let next := fifo n (n - rb.readIndex.toNat) q op
      Represents n rb q ∧ (step rb op).2 = next.2 ∧ Evolves n (step rb op).1 next.1 ops

/-! ## The indices -/

/-- The mirror bits differ when the write index has gone around and the read index has not. -/
structure Holds (rb : RtRingbuffer) (q : List Byte) : Prop where
  size_lt : rb.bufferSize.toNat < 2 ^ 15
  read_lt : rb.readIndex.toNat < rb.bufferSize.toNat
  le : q.length ≤ rb.bufferSize.toNat
  write : rb.writeIndex.toNat = (rb.readIndex.toNat + q.length) % rb.bufferSize.toNat
  mirror : rb.readMirror = rb.writeMirror ↔
    rb.readIndex.toNat + q.length < rb.bufferSize.toNat
  bytes : Ring.contents rb.bufferSize.toNat rb.readIndex.toNat q.length rb.bufferPtr = q

private theorem flip_eq : ∀ a b : BitVec 1, a = ~~~b ↔ ¬a = b := by decide

private theorem flip_eq' : ∀ a b : BitVec 1, ~~~a = b ↔ ¬a = b := by decide

section Holds

variable {rb rb' : RtRingbuffer} {q : List Byte} {k : Nat}

theorem Holds.write_eq (h : Holds rb q) :
    rb.writeIndex.toNat = if rb.readIndex.toNat + q.length < rb.bufferSize.toNat
      then rb.readIndex.toNat + q.length
      else rb.readIndex.toNat + q.length - rb.bufferSize.toNat :=
  h.write.trans (Ring.wrap_mod h.read_lt h.le)

theorem Holds.write_lt (h : Holds rb q) : rb.writeIndex.toNat < rb.bufferSize.toNat := by
  rw [h.write]
  exact Nat.mod_lt _ (Nat.zero_lt_of_lt h.read_lt)

theorem Holds.index_eq (h : Holds rb q) :
    rb.readIndex = rb.writeIndex ↔ q.length = 0 ∨ q.length = rb.bufferSize.toNat := by
  have hw := h.write_eq
  have hr := h.read_lt
  have hle := h.le
  rw [← BitVec.toNat_inj]
  split at hw
  · omega
  · omega

/-- The three states that are told apart, and how far the write index is ahead in each. -/
theorem Holds.status (h : Holds rb q) :
    (rtRingbufferStatus rb = .empty ∧ q.length = 0) ∨
      (rtRingbufferStatus rb = .full ∧ q.length = rb.bufferSize.toNat) ∨
      (rtRingbufferStatus rb = .halffull ∧ 0 < q.length ∧ q.length < rb.bufferSize.toNat) := by
  have hr := h.read_lt
  have hle := h.le
  have hi := h.index_eq
  have hm := h.mirror
  rw [rtRingbufferStatus]
  by_cases hindex : rb.readIndex = rb.writeIndex
  · have hcases := hi.mp hindex
    rw [if_pos hindex]
    by_cases hmirror : rb.readMirror = rb.writeMirror
    · have hlt := hm.mp hmirror
      rw [if_pos hmirror]
      exact Or.inl ⟨rfl, by omega⟩
    · have hlt := mt hm.mpr hmirror
      rw [if_neg hmirror]
      exact Or.inr (Or.inl ⟨rfl, by omega⟩)
  · have hcases := mt hi.mpr hindex
    rw [if_neg hindex]
    exact Or.inr (Or.inr ⟨rfl, by omega, by omega⟩)

theorem Holds.size_pos (h : Holds rb q) : 0 < rb.bufferSize.toNat :=
  Nat.zero_lt_of_lt h.read_lt

theorem Holds.empty_iff (h : Holds rb q) : rtRingbufferStatus rb = .empty ↔ q.length = 0 := by
  have hpos := h.size_pos
  rcases h.status with ⟨hs, hq⟩ | ⟨hs, hq⟩ | ⟨hs, hq⟩
  · exact iff_of_true hs hq
  · exact iff_of_false (by rw [hs]; decide) (by omega)
  · exact iff_of_false (by rw [hs]; decide) (by omega)

theorem Holds.full_iff (h : Holds rb q) :
    rtRingbufferStatus rb = .full ↔ q.length = rb.bufferSize.toNat := by
  have hpos := h.size_pos
  rcases h.status with ⟨hs, hq⟩ | ⟨hs, hq⟩ | ⟨hs, hq⟩
  · exact iff_of_false (by rw [hs]; decide) (by omega)
  · exact iff_of_true hs hq
  · exact iff_of_false (by rw [hs]; decide) (by omega)

/-- `rt_ringbuffer_data_len` is the length of the queue. -/
theorem Holds.dataLen_eq (h : Holds rb q) : rtRingbufferDataLen rb = q.length := by
  have hw := h.write_eq
  have hr := h.read_lt
  have hle := h.le
  rw [rtRingbufferDataLen]
  cases hstatus : rtRingbufferStatus rb with
  | empty => exact (h.empty_iff.mp hstatus).symm
  | full => exact (h.full_iff.mp hstatus).symm
  | halffull =>
      have hempty : q.length ≠ 0 := fun h0 => by
        rw [h.empty_iff.mpr h0] at hstatus
        cases hstatus
      have hfull : q.length ≠ rb.bufferSize.toNat := fun h0 => by
        rw [h.full_iff.mpr h0] at hstatus
        cases hstatus
      simp only
      split at hw
      · rw [if_pos (by omega)]
        omega
      · rw [if_neg (by omega)]
        omega

theorem Holds.spaceLen_eq (h : Holds rb q) :
    rtRingbufferSpaceLen rb = rb.bufferSize.toNat - q.length := by
  rw [rtRingbufferSpaceLen, h.dataLen_eq]

theorem Holds.represents (h : Holds rb q) : Represents rb.bufferSize.toNat rb q := by
  refine ⟨rfl, h.read_lt, h.write_lt, ?_, ?_, h.full_iff⟩
  · rw [h.dataLen_eq]
    exact h.bytes
  · rw [h.empty_iff, List.length_eq_zero_iff]

/-- The read index moves on. -/
theorem Holds.remove (h : Holds rb q) (hk : k ≤ q.length) (hsize : rb'.bufferSize = rb.bufferSize)
    (hpool : rb'.bufferPtr = rb.bufferPtr) (hwi : rb'.writeIndex = rb.writeIndex)
    (hwm : rb'.writeMirror = rb.writeMirror)
    (hri : rb'.readIndex.toNat = (rb.readIndex.toNat + k) % rb.bufferSize.toNat)
    (hrm : rb'.readMirror = if rb.readIndex.toNat + k < rb.bufferSize.toNat then rb.readMirror
      else ~~~rb.readMirror) : Holds rb' (q.drop k) := by
  have hw := h.write
  have hr := h.read_lt
  have hle := h.le
  have hm := h.mirror
  have hri' := hri.trans (Ring.wrap_mod hr (hk.trans hle))
  refine ⟨?_, ?_, ?_, ?_, ?_, ?_⟩
  · rw [hsize]
    exact h.size_lt
  · rw [hsize, hri]
    exact Nat.mod_lt _ (Nat.zero_lt_of_lt hr)
  · rw [hsize, List.length_drop]
    omega
  · rw [hsize, hwi, hri, List.length_drop, hw, Nat.mod_add_mod]
    congr 1
    omega
  · rw [hsize, hwm, hrm, List.length_drop]
    split at hri'
    · rename_i hlt
      rw [if_pos hlt, hm]
      omega
    · rename_i hlt
      rw [if_neg hlt, flip_eq', hm]
      omega
  · have hdrop : (Ring.contents rb.bufferSize.toNat rb.readIndex.toNat q.length
        rb.bufferPtr).drop k = _ := Ring.drop_contents hk
    rw [hsize, hpool, hri, List.length_drop, ← hdrop, h.bytes]

/-- `k` bytes were copied behind the write index, which moved on. -/
structure Copied (rb rb' : RtRingbuffer) (ptr : Nat → Byte) (k : Nat) : Prop where
  size : rb'.bufferSize = rb.bufferSize
  readIndex : rb'.readIndex = rb.readIndex
  readMirror : rb'.readMirror = rb.readMirror
  writeIndex : rb'.writeIndex.toNat = (rb.writeIndex.toNat + k) % rb.bufferSize.toNat
  writeMirror : rb'.writeMirror =
    if rb.writeIndex.toNat + k < rb.bufferSize.toNat then rb.writeMirror else ~~~rb.writeMirror
  written : Ring.Written rb.bufferSize.toNat rb.writeIndex.toNat k ptr rb.bufferPtr rb'.bufferPtr

/-- There is room for the bytes that were copied. -/
theorem Holds.append {f : Nat → Byte} (h : Holds rb q) (hc : Copied rb rb' f k)
    (hk : q.length + k ≤ rb.bufferSize.toNat) : Holds rb' (q ++ (List.range k).map f) := by
  have hw := h.write_eq
  have hr := h.read_lt
  have hm := h.mirror
  have hlen : (q ++ (List.range k).map f).length = q.length + k := by simp
  refine ⟨?_, ?_, ?_, ?_, ?_, ?_⟩
  · rw [hc.size]
    exact h.size_lt
  · rw [hc.size, hc.readIndex]
    exact hr
  · rw [hc.size, hlen]
    exact hk
  · rw [hc.size, hc.readIndex, hlen, hc.writeIndex, h.write, Nat.mod_add_mod, Nat.add_assoc]
  · rw [hc.size, hc.readIndex, hlen, hc.readMirror, hc.writeMirror]
    split at hw
    · split
      · rw [hm]
        omega
      · rw [flip_eq, hm]
        omega
    · rw [if_pos (by omega), hm]
      omega
  · have hwritten := hc.written
    rw [h.write] at hwritten
    rw [hc.size, hc.readIndex, hlen, hwritten.append h.size_pos hk, h.bytes]

/-- The bytes that were copied overwrite the oldest ones, and the read index follows. -/
theorem Holds.overwrite {f : Nat → Byte} {rb'' : RtRingbuffer} (h : Holds rb q)
    (hc : Copied rb rb' f k) (hover : rb.bufferSize.toNat ≤ q.length + k)
    (hpool : rb''.bufferPtr = rb'.bufferPtr) (hsize : rb''.bufferSize = rb'.bufferSize)
    (hwi : rb''.writeIndex = rb'.writeIndex) (hri : rb''.readIndex = rb'.writeIndex)
    (hmirror : ¬rb''.readMirror = rb''.writeMirror) :
    Holds rb'' ((q ++ (List.range k).map f).drop (q.length + k - rb.bufferSize.toNat)) := by
  have hwlt : rb'.writeIndex.toNat < rb.bufferSize.toNat := by
    rw [hc.writeIndex]
    exact Nat.mod_lt _ h.size_pos
  have hlen : ((q ++ (List.range k).map f).drop
      (q.length + k - rb.bufferSize.toNat)).length = rb.bufferSize.toNat := by
    rw [List.length_drop, List.length_append, List.length_map, List.length_range]
    omega
  refine ⟨?_, ?_, ?_, ?_, ?_, ?_⟩
  · rw [hsize, hc.size]
    exact h.size_lt
  · rw [hsize, hc.size, hri]
    exact hwlt
  · rw [hlen, hsize, hc.size]
  · rw [hlen, hsize, hc.size, hri, hwi, Nat.add_mod_right, Nat.mod_eq_of_lt hwlt]
  · rw [hlen, hsize, hc.size]
    exact iff_of_false hmirror (by omega)
  · have hwritten := hc.written
    rw [h.write] at hwritten
    have hfull := hwritten.overwrite h.size_pos hover
    rw [h.bytes, ← Nat.mod_add_mod, ← h.write, ← hc.writeIndex] at hfull
    rw [hlen, hsize, hc.size, hri, hpool, hfull]

/-- `copyIn` of no more bytes than the buffer has. -/
theorem Holds.copyIn {f : Nat → Byte} (h : Holds rb q) (hk : k ≤ rb.bufferSize.toNat) :
    Copied rb (copyIn rb f k).1 f k ∧
      ((copyIn rb f k).2 = true ↔ rb.bufferSize.toNat ≤ rb.writeIndex.toNat + k) := by
  have hw := h.write_lt
  have hsize := h.size_lt
  by_cases hrest : rb.bufferSize.toNat - rb.writeIndex.toNat > k
  · rw [RingBuffer.copyIn, if_pos hrest]
    refine ⟨⟨rfl, rfl, rfl, ?_, ?_, Ring.written_straight (by omega)⟩, ?_⟩
    · simp only [BitVec.toNat_add, BitVec.toNat_ofNat]
      rw [Nat.mod_eq_of_lt (by omega), Nat.mod_eq_of_lt (by omega), Nat.mod_eq_of_lt (by omega)]
    · rw [if_pos (by omega)]
    · exact iff_of_false Bool.false_ne_true (by omega)
  · rw [RingBuffer.copyIn, if_neg hrest]
    refine ⟨⟨rfl, rfl, rfl, ?_, ?_, Ring.written_around hw (by omega) hk⟩, ?_⟩
    · simp only [BitVec.toNat_ofNat]
      rw [Ring.wrap_mod hw hk, if_neg (by omega), Nat.mod_eq_of_lt (by omega)]
      omega
    · rw [if_neg (by omega)]
    · exact iff_of_true rfl (by omega)

/-- One byte at the write index is copied. -/
theorem Holds.copied_char {ch : Byte} (h : Holds rb q)
    (hsize : rb'.bufferSize = rb.bufferSize) (hri : rb'.readIndex = rb.readIndex)
    (hrm : rb'.readMirror = rb.readMirror)
    (hpool : rb'.bufferPtr = Function.update rb.bufferPtr rb.writeIndex.toNat ch)
    (hwi : rb'.writeIndex =
      if rb.writeIndex.toNat = rb.bufferSize.toNat - 1 then 0 else rb.writeIndex + 1)
    (hwm : rb'.writeMirror = if rb.writeIndex.toNat = rb.bufferSize.toNat - 1
      then ~~~rb.writeMirror else rb.writeMirror) : Copied rb rb' (fun _ => ch) 1 := by
  have hw := h.write_lt
  have hlt := h.size_lt
  refine ⟨hsize, hri, hrm, ?_, ?_, ⟨fun j hj => ?_, fun x hx hne => ?_⟩⟩
  · rw [hwi, Ring.wrap_mod hw (by omega)]
    split
    · rw [if_neg (by omega)]
      simp only [BitVec.ofNat_eq_ofNat, BitVec.toNat_ofNat]
      omega
    · rw [if_pos (by omega)]
      simp only [BitVec.ofNat_eq_ofNat, BitVec.toNat_add, BitVec.toNat_ofNat]
      omega
  · rw [hwm]
    split
    · rw [if_neg (by omega)]
    · rw [if_pos (by omega)]
  · have hj0 : j = 0 := by omega
    rw [hpool, hj0, Nat.add_zero, Nat.mod_eq_of_lt hw]
    exact Function.update_self ..
  · have hne0 := hne 0 (by omega)
    rw [Nat.add_zero, Nat.mod_eq_of_lt hw] at hne0
    rw [hpool]
    exact Function.update_of_ne hne0 ..

/-- `rb'` and `result` are what the queue becomes and returns. -/
def Follows (rb rb' : RtRingbuffer) (result : Result) (next : List Byte × Result) : Prop :=
  rb'.bufferSize = rb.bufferSize ∧ Holds rb' next.1 ∧ result = next.2

theorem enqueue_eq {n : Nat} {ptr : Nat → Byte} :
    enqueue n q ((List.range k).map ptr) =
      (q ++ (List.range (min (n - q.length) k)).map ptr, .count (min (n - q.length) k)) := by
  rw [enqueue, ← List.map_take, List.take_range, List.length_map, List.length_range]

/-- Of more than `n` bytes, only the last `n` matter. -/
theorem enqueueForce_skip {n : Nat} {ptr : Nat → Byte} (hn : n ≤ k) :
    enqueueForce n q ((List.range k).map ptr) =
      enqueueForce n q ((List.range n).map fun i => ptr (k - n + i)) := by
  have hsplit : (List.range k).map ptr =
      (List.range (k - n)).map ptr ++ (List.range n).map fun i => ptr (k - n + i) := by
    rw [← Nat.sub_add_cancel hn, List.range_add, List.map_append, List.map_map,
      Nat.sub_add_cancel hn]
    rfl
  have hdata (l : List Byte) (data : Nat → Byte) :
      (l ++ (List.range n).map data).drop ((l ++ (List.range n).map data).length - n) =
        (List.range n).map data := by
    rw [List.length_append, List.length_map, List.length_range, Nat.add_sub_cancel,
      List.drop_left]
  rw [enqueueForce, enqueueForce, hsplit, ← List.append_assoc, hdata, hdata,
    List.length_append, List.length_map, List.length_map, List.length_range, List.length_range,
    Nat.sub_add_cancel hn, Nat.min_self, Nat.min_eq_left hn]

private theorem enqueueForce_eq {n : Nat} {f : Nat → Byte} (hk : k ≤ n) :
    enqueueForce n q ((List.range k).map f) =
      ((q ++ (List.range k).map f).drop (q.length + k - n), .count k) := by
  rw [enqueueForce, List.length_append, List.length_map, List.length_range, Nat.min_eq_right hk]

theorem Holds.put (h : Holds rb q) (ptr : Nat → Byte) (length : BitVec 16) :
    Follows rb (rtRingbufferPut rb ptr length).1 (.count (rtRingbufferPut rb ptr length).2)
      (enqueue rb.bufferSize.toNat q ((List.range length.toNat).map ptr)) := by
  have hle := h.le
  have hsize : (BitVec.ofNat 16 (rtRingbufferSpaceLen rb)).toNat =
      rb.bufferSize.toNat - q.length := by
    rw [h.spaceLen_eq, BitVec.toNat_ofNat, Nat.mod_eq_of_lt (by omega)]
  rw [enqueue_eq, rtRingbufferPut]
  generalize BitVec.ofNat 16 (rtRingbufferSpaceLen rb) = size at hsize
  by_cases hfull : size = 0
  · have hspace : rb.bufferSize.toNat - q.length = 0 := by rw [← hsize, hfull]; rfl
    rw [if_pos hfull, hspace, Nat.zero_min, List.range_zero, List.map_nil, List.append_nil]
    exact ⟨rfl, h, rfl⟩
  · have hmin : (if size < length then size else length).toNat =
        min (rb.bufferSize.toNat - q.length) length.toNat := by
      split
      · rename_i hlt
        have hlt' := BitVec.lt_def.mp hlt
        omega
      · rename_i hlt
        have hlt' := mt BitVec.lt_def.mpr hlt
        omega
    rw [if_neg hfull]
    simp only [hmin]
    generalize hk : min (rb.bufferSize.toNat - q.length) length.toNat = k
    obtain ⟨hc, -⟩ := h.copyIn (f := ptr) (k := k) (by omega)
    exact ⟨hc.size, h.append hc (by omega), rfl⟩

/-- The mirror bits differ once bytes were overwritten. -/
theorem Holds.mirror_ne {f : Nat → Byte} (h : Holds rb q) (hc : Copied rb rb' f k)
    (hk : k ≤ rb.bufferSize.toNat) (hover : rb.bufferSize.toNat < q.length + k) :
    ¬(if rb.bufferSize.toNat ≤ rb.writeIndex.toNat + k ∧ rb'.writeIndex ≤ rb.readIndex
      then ~~~rb.readMirror else rb.readMirror) = rb'.writeMirror := by
  have hw := h.write_eq
  have hr := h.read_lt
  have hle := h.le
  have hm := h.mirror
  have hwi := hc.writeIndex.trans (Ring.wrap_mod h.write_lt hk)
  rw [hc.writeMirror]
  by_cases haround : rb.writeIndex.toNat + k < rb.bufferSize.toNat
  · -- the write index went around before, and the read index did not
    rw [if_neg (by omega), if_pos haround, hm]
    split at hw <;> omega
  · rw [if_neg haround] at hwi
    rw [if_neg haround]
    by_cases hlt : rb.readIndex.toNat + q.length < rb.bufferSize.toNat
    · rw [if_pos hlt] at hw
      rw [if_neg fun hflip => absurd (BitVec.le_def.mp hflip.2) (by omega), flip_eq, not_not, hm]
      exact hlt
    · rw [if_neg hlt] at hw
      rw [if_pos ⟨by omega, BitVec.le_def.mpr (by omega)⟩, flip_eq, flip_eq', not_not, hm]
      exact hlt

theorem Holds.putForce (h : Holds rb q) (ptr : Nat → Byte) (length : BitVec 16) :
    Follows rb (rtRingbufferPutForce rb ptr length).1
      (.count (rtRingbufferPutForce rb ptr length).2)
      (enqueueForce rb.bufferSize.toNat q ((List.range length.toNat).map ptr)) := by
  have hle := h.le
  have hspace : (BitVec.ofNat 16 (rtRingbufferSpaceLen rb)).toNat =
      rb.bufferSize.toNat - q.length := by
    rw [h.spaceLen_eq, BitVec.toNat_ofNat, Nat.mod_eq_of_lt (by omega)]
  rw [rtRingbufferPutForce]
  generalize BitVec.ofNat 16 (rtRingbufferSpaceLen rb) = space at hspace
  -- the bytes that are copied, whether some are skipped or not
  obtain ⟨skip, k, hskip, hk, hkn, hforce⟩ : ∃ skip : Nat, ∃ k : BitVec 16,
      (if length > rb.bufferSize then length.toNat - rb.bufferSize.toNat else 0) = skip ∧
      (if length > rb.bufferSize then rb.bufferSize else length) = k ∧
      k.toNat ≤ rb.bufferSize.toNat ∧
      enqueueForce rb.bufferSize.toNat q ((List.range length.toNat).map ptr) =
        enqueueForce rb.bufferSize.toNat q
          ((List.range k.toNat).map fun i => ptr (skip + i)) := by
    by_cases hlong : length > rb.bufferSize
    · have hlt := BitVec.lt_def.mp hlong
      exact ⟨_, _, rfl, rfl, by rw [if_pos hlong], by
        rw [if_pos hlong, if_pos hlong, enqueueForce_skip hlt.le]⟩
    · have hlt := mt BitVec.lt_def.mpr hlong
      refine ⟨_, _, rfl, rfl, by rw [if_neg hlong]; omega, ?_⟩
      simp only [if_neg hlong, Nat.zero_add]
  rw [hforce, enqueueForce_eq hkn]
  simp only [hskip, hk]
  obtain ⟨hc, hother⟩ := h.copyIn (f := fun i => ptr (skip + i)) hkn
  generalize RingBuffer.copyIn rb (fun i => ptr (skip + i)) k.toNat = copied at hc hother
  obtain ⟨rb', other⟩ := copied
  simp only at hc hother
  by_cases hover : k > space
  · have hlt := BitVec.lt_def.mp hover
    have hmirror := h.mirror_ne hc hkn (by omega)
    simp only [if_pos hover]
    refine ⟨hc.size, h.overwrite hc (by omega) rfl rfl rfl rfl ?_, rfl⟩
    simpa only [hother, hc.readMirror, hc.readIndex] using hmirror
  · have hlt := mt BitVec.lt_def.mpr hover
    have hfit : q.length + k.toNat - rb.bufferSize.toNat = 0 := by omega
    simp only [if_neg hover]
    rw [hfit, List.drop_zero]
    exact ⟨hc.size, h.append hc (by omega), rfl⟩

private theorem dequeue_eq (h : Holds rb q) (hk : k ≤ q.length) :
    (dequeue q k).2 =
      .bytes (Ring.contents rb.bufferSize.toNat rb.readIndex.toNat k rb.bufferPtr) := by
  have htake : (Ring.contents rb.bufferSize.toNat rb.readIndex.toNat q.length
      rb.bufferPtr).take k = _ := Ring.take_contents hk
  rw [dequeue, ← htake, h.bytes]

private theorem dequeue_nil : dequeue [] k = ([], .bytes []) := by
  rw [dequeue, List.drop_nil, List.take_nil]

/-- `k` bytes that do not go around are read. -/
theorem Holds.read_straight (h : Holds rb q) (hk : k ≤ q.length)
    (hrest : rb.readIndex.toNat + k < rb.bufferSize.toNat) :
    Follows rb { rb with readIndex := rb.readIndex + BitVec.ofNat 15 k }
      (.bytes ((List.range k).map fun i => rb.bufferPtr (rb.readIndex.toNat + i)))
      (dequeue q k) := by
  have hlt := h.size_lt
  refine ⟨rfl, h.remove hk rfl rfl rfl rfl ?_ ?_, ?_⟩
  · simp only [BitVec.toNat_add, BitVec.toNat_ofNat]
    rw [Nat.mod_eq_of_lt hrest]
    omega
  · rw [if_pos hrest]
  · rw [dequeue_eq h hk, Ring.contents_straight hrest.le]

/-- `k` bytes that go around are read. -/
theorem Holds.read_around (h : Holds rb q) (hk : k ≤ q.length)
    (hrest : rb.bufferSize.toNat ≤ rb.readIndex.toNat + k) :
    Follows rb
      { rb with
        readMirror := ~~~rb.readMirror
        readIndex := BitVec.ofNat 15 (k - (rb.bufferSize.toNat - rb.readIndex.toNat)) }
      (.bytes (((List.range (rb.bufferSize.toNat - rb.readIndex.toNat)).map fun i =>
          rb.bufferPtr (rb.readIndex.toNat + i)) ++
        (List.range (k - (rb.bufferSize.toNat - rb.readIndex.toNat))).map rb.bufferPtr))
      (dequeue q k) := by
  have hlt := h.size_lt
  have hr := h.read_lt
  have hle := h.le
  refine ⟨rfl, h.remove hk rfl rfl rfl rfl ?_ ?_, ?_⟩
  · simp only [BitVec.toNat_ofNat]
    rw [Ring.wrap_mod hr (by omega), if_neg (by omega), Nat.mod_eq_of_lt (by omega)]
    omega
  · rw [if_neg (by omega)]
  · rw [dequeue_eq h hk, Ring.contents_wrap hr.le hrest (by omega)]

/-- Nothing is read from an empty buffer. -/
theorem Holds.read_empty (h : Holds rb q) (hempty : q.length = 0) :
    Follows rb rb (.bytes []) (dequeue q k) := by
  have hq : q = [] := List.length_eq_zero_iff.mp hempty
  subst hq
  rw [dequeue_nil]
  exact ⟨rfl, h, rfl⟩

private theorem dequeue_min : dequeue q k = dequeue q (min q.length k) := by
  rw [dequeue, dequeue, Nat.min_comm, ← List.take_eq_take_min]
  congr 1
  by_cases hk : k ≤ q.length
  · rw [Nat.min_eq_left hk]
  · rw [List.drop_eq_nil_of_le (by omega), List.drop_eq_nil_of_le (by omega)]

theorem Holds.get (h : Holds rb q) (length : BitVec 16) :
    Follows rb (rtRingbufferGet rb length).1 (.bytes (rtRingbufferGet rb length).2)
      (dequeue q length.toNat) := by
  rw [rtRingbufferGet, h.dataLen_eq]
  by_cases hempty : q.length = 0
  · rw [if_pos hempty]
    exact h.read_empty hempty
  · have hmin : (if q.length < length.toNat then q.length else length.toNat) =
        min q.length length.toNat := by
      split <;> omega
    rw [if_neg hempty, dequeue_min]
    simp only [hmin]
    generalize hk : min q.length length.toNat = k
    split
    · exact h.read_straight (by omega) (by omega)
    · exact h.read_around (by omega) (by omega)

theorem Holds.peak (h : Holds rb q) :
    Follows rb (rtRingbufferPeak rb).1 (.bytes (rtRingbufferPeak rb).2)
      (dequeue q (rb.bufferSize.toNat - rb.readIndex.toNat)) := by
  have hr := h.read_lt
  rw [rtRingbufferPeak, h.dataLen_eq]
  by_cases hempty : q.length = 0
  · rw [if_pos hempty]
    exact h.read_empty hempty
  · rw [if_neg hempty, dequeue_min]
    by_cases hrest : rb.bufferSize.toNat - rb.readIndex.toNat > q.length
    · rw [Nat.min_eq_left hrest.le]
      simp only [if_pos hrest]
      exact h.read_straight le_rfl (by omega)
    · rw [Nat.min_eq_right (by omega)]
      simp only [if_neg hrest]
      have haround := h.read_around (k := rb.bufferSize.toNat - rb.readIndex.toNat)
        (by omega) (by omega)
      rwa [Nat.sub_self, List.range_zero, List.map_nil, List.append_nil] at haround

theorem Holds.getchar (h : Holds rb q) :
    Follows rb (rtRingbufferGetchar rb).1 (.bytes (rtRingbufferGetchar rb).2) (dequeue q 1) := by
  have hr := h.read_lt
  rw [rtRingbufferGetchar, h.dataLen_eq]
  by_cases hempty : q.length = 0
  · rw [if_pos hempty]
    exact h.read_empty hempty
  · rw [if_neg hempty]
    by_cases hlast : rb.readIndex.toNat = rb.bufferSize.toNat - 1
    · have hone : rb.bufferSize.toNat - rb.readIndex.toNat = 1 := by omega
      have haround := h.read_around (k := 1) (by omega) (by omega)
      rw [hone, Nat.sub_self, List.range_zero, List.map_nil, List.append_nil] at haround
      simp only [if_pos hlast]
      exact haround
    · simp only [if_neg hlast]
      exact h.read_straight (k := 1) (by omega) (by omega)

theorem Holds.putchar (h : Holds rb q) (ch : Byte) :
    Follows rb (rtRingbufferPutchar rb ch).1 (.count (rtRingbufferPutchar rb ch).2)
      (enqueue rb.bufferSize.toNat q [ch]) := by
  have hle := h.le
  rw [rtRingbufferPutchar, h.spaceLen_eq]
  by_cases hfull : rb.bufferSize.toNat - q.length = 0
  · rw [if_pos hfull, enqueue, hfull, List.take_zero, List.append_nil, Nat.zero_min]
    exact ⟨rfl, h, rfl⟩
  · have hone : min (rb.bufferSize.toNat - q.length) [ch].length = 1 := by
      rw [List.length_singleton]
      omega
    rw [if_neg hfull, enqueue, hone, List.take_of_length_le (by rw [List.length_singleton]; omega)]
    by_cases hlast : rb.writeIndex.toNat = rb.bufferSize.toNat - 1
    · simp only [if_pos hlast]
      refine ⟨rfl, h.append (k := 1) (f := fun _ => ch) ?_ (by omega), rfl⟩
      exact h.copied_char rfl rfl rfl rfl (if_pos hlast).symm (if_pos hlast).symm
    · simp only [if_neg hlast]
      refine ⟨rfl, h.append (k := 1) (f := fun _ => ch) ?_ (by omega), rfl⟩
      exact h.copied_char rfl rfl rfl rfl (if_neg hlast).symm (if_neg hlast).symm

theorem Holds.putcharForce (h : Holds rb q) (ch : Byte) :
    Follows rb (rtRingbufferPutcharForce rb ch).1 (.count (rtRingbufferPutcharForce rb ch).2)
      (enqueueForce rb.bufferSize.toNat q [ch]) := by
  have hle := h.le
  have hr := h.read_lt
  have hm := h.mirror
  have hw := h.write_eq
  have hforce := enqueueForce_eq (q := q) (k := 1) (f := fun _ => ch) h.size_pos
  rw [List.range_one, List.map_singleton] at hforce
  rw [hforce, rtRingbufferPutcharForce]
  by_cases hfull : q.length = rb.bufferSize.toNat
  · have hne : ¬rb.readMirror = rb.writeMirror := fun heq => absurd (hm.mp heq) (by omega)
    simp only [if_pos (h.full_iff.mpr hfull)]
    by_cases hlast : rb.writeIndex.toNat = rb.bufferSize.toNat - 1
    · simp only [if_pos hlast]
      have hc : Copied rb
          { rb with
            bufferPtr := Function.update rb.bufferPtr rb.writeIndex.toNat ch
            writeMirror := ~~~rb.writeMirror
            writeIndex := 0 } (fun _ => ch) 1 :=
        h.copied_char rfl rfl rfl rfl (if_pos hlast).symm (if_pos hlast).symm
      refine ⟨rfl, h.overwrite hc (by omega) rfl rfl rfl rfl ?_, rfl⟩
      simpa only [flip_eq, flip_eq', not_not] using hne
    · simp only [if_neg hlast]
      have hc : Copied rb
          { rb with
            bufferPtr := Function.update rb.bufferPtr rb.writeIndex.toNat ch
            writeIndex := rb.writeIndex + 1 } (fun _ => ch) 1 :=
        h.copied_char rfl rfl rfl rfl (if_neg hlast).symm (if_neg hlast).symm
      exact ⟨rfl, h.overwrite hc (by omega) rfl rfl rfl rfl hne, rfl⟩
  · have hfit : q.length + 1 - rb.bufferSize.toNat = 0 := by omega
    simp only [if_neg (mt h.full_iff.mp hfull)]
    rw [hfit, List.drop_zero]
    by_cases hlast : rb.writeIndex.toNat = rb.bufferSize.toNat - 1
    · simp only [if_pos hlast]
      refine ⟨rfl, h.append (k := 1) (f := fun _ => ch) ?_ (by omega), rfl⟩
      exact h.copied_char rfl rfl rfl rfl (if_pos hlast).symm (if_pos hlast).symm
    · simp only [if_neg hlast]
      refine ⟨rfl, h.append (k := 1) (f := fun _ => ch) ?_ (by omega), rfl⟩
      exact h.copied_char rfl rfl rfl rfl (if_neg hlast).symm (if_neg hlast).symm

theorem Holds.reset (h : Holds rb q) :
    Follows rb (rtRingbufferReset rb) (.count 0) ([], .count 0) := by
  have hpos := h.size_pos
  have hholds : Holds (rtRingbufferReset rb) [] :=
    ⟨h.size_lt, hpos, Nat.zero_le _, (Nat.zero_mod _).symm, iff_of_true rfl hpos, rfl⟩
  exact ⟨rfl, hholds, rfl⟩

/-- Every operation does to the ring buffer what it does to the queue. -/
theorem Holds.step (h : Holds rb q) (op : Op) :
    Follows rb (step rb op).1 (step rb op).2
      (fifo rb.bufferSize.toNat (rb.bufferSize.toNat - rb.readIndex.toNat) q op) := by
  cases op with
  | put ptr length => exact h.put ptr length
  | putForce ptr length => exact h.putForce ptr length
  | get length => exact h.get length
  | peak => exact h.peak
  | putchar ch => exact h.putchar ch
  | putcharForce ch => exact h.putcharForce ch
  | getchar => exact h.getchar
  | reset => exact h.reset

/-- A run keeps the size, and the ring buffer evolves like the queue. -/
theorem Holds.run (h : Holds rb q) (ops : List Op) : Evolves rb.bufferSize.toNat rb q ops := by
  induction ops generalizing rb q with
  | nil => exact h.represents
  | cons op ops ih =>
      obtain ⟨hsize, hholds, hresult⟩ := h.step op
      have hrest := ih hholds
      rw [hsize] at hrest
      exact ⟨h.represents, hresult, hrest⟩

end Holds

/-- `RT_ALIGN_SIZE`. -/
def rtAlignSize : Nat := 4

/-- `RT_ALIGN_DOWN` clears the two lowest bits. -/
theorem toNat_alignDown (size : BitVec 16) :
    (size &&& ~~~(3 : BitVec 16)).toNat = size.toNat / rtAlignSize * rtAlignSize := by
  have hshift : size &&& ~~~(3 : BitVec 16) = (size >>> 2) <<< 2 := by
    ext i hi
    simp only [BitVec.getElem_and, BitVec.getElem_not, BitVec.getElem_shiftLeft]
    interval_cases i <;> simp
  rw [hshift, rtAlignSize, BitVec.toNat_shiftLeft, BitVec.toNat_ushiftRight, Nat.shiftLeft_eq,
    Nat.shiftRight_eq_div_pow]
  omega

/-- A new ring buffer is empty. -/
theorem holds_init (pool : Nat → Byte) {size : BitVec 16}
    (hsize : (rtAlignSize : Int) ≤ size.toInt) :
    ∃ rb, rtRingbufferInit pool size = .ok rb ∧
      rb.bufferSize.toNat = size.toNat / rtAlignSize * rtAlignSize ∧ Holds rb [] := by
  have hnat : rtAlignSize ≤ size.toNat ∧ size.toNat < 2 ^ 15 := by
    rw [rtAlignSize] at hsize ⊢
    rw [BitVec.toInt_eq_toNat_cond] at hsize
    split at hsize <;> omega
  have hpos : (0 : BitVec 16).slt size = true := by
    rw [BitVec.slt_eq_decide, decide_eq_true_eq]
    exact lt_of_lt_of_le (by decide) hsize
  refine ⟨_, by rw [rtRingbufferInit, hpos]; rfl, toNat_alignDown size, ?_⟩
  have halign := toNat_alignDown size
  rw [rtAlignSize] at hnat halign
  have hlt : (size &&& ~~~(3 : BitVec 16)).toNat < 2 ^ 15 := by omega
  have hn : 0 < (size &&& ~~~(3 : BitVec 16)).toNat := by omega
  exact ⟨hlt, hn, Nat.zero_le _, (Nat.zero_mod _).symm, iff_of_true rfl hn, rfl⟩

/-- Whatever the pool is, the ring buffer evolves like a queue of as many bytes as its aligned
size. -/
theorem ringbuffer_fifo (pool : Nat → Byte) (size : BitVec 16)
    (hsize : (rtAlignSize : Int) ≤ size.toInt) (ops : List Op) :
    ∃ rb, rtRingbufferInit pool size = .ok rb ∧
      Evolves (size.toNat / rtAlignSize * rtAlignSize) rb [] ops := by
  obtain ⟨rb, hinit, hn, hholds⟩ := holds_init pool hsize
  have hrun := hholds.run ops
  rw [hn] at hrun
  exact ⟨rb, hinit, hrun⟩

/-- A ring buffer of eight bytes, one write that goes around and one that overwrites. -/
theorem ringbuffer_fifo_eight :
    ∃ rb, rtRingbufferInit (fun _ => 0) 10 = .ok rb ∧
      Evolves 8 rb []
        [.put (BitVec.ofNat 8) 6, .get 4, .put (BitVec.ofNat 8) 5, .putForce (BitVec.ofNat 8) 9,
          .peak, .reset] :=
  ringbuffer_fifo (fun _ => 0) 10 (by decide) _

end RtHypervisor.Ports.RingBuffer
