import Mathlib.Data.BitVec
import RtHypervisor.Ports.Pipe

/-!
# Transfers through a pipe device

`rt_pipe_read` and `rt_pipe_write` hand what is left of a count of 64 bits to the ring buffer,
whose length has 16, and stop at the first call that moves nothing.  A call whose length has been
cut to 0 moves nothing, so that it looks to them as if the buffer were empty or full.

The lock is held all along, and a transfer is one step.  The states of the ring buffer are those
that `Holds` describes, which every operation on it keeps.
-/

namespace RtHypervisor.Ports.Pipe

open RtHypervisor.Verified
open RtHypervisor.Verified.Run
open RtHypervisor.Ports.RingBuffer

/-- The loop of `rt_pipe_read`, with the bytes it has copied to `pbuf`. -/
def pipeReadLoop (count : BitVec 64) :
    Nat → RtRingbuffer → BitVec 64 → List Byte → Except Fault (RtRingbuffer × BitVec 64 × List Byte)
  | 0, _, _, _ => throw .fuel
  | k + 1, rb, readBytes, pbuf =>
      if readBytes < count then
        let (rb, bytes) := rtRingbufferGet rb ((count - readBytes).setWidth 16)
        let len := BitVec.ofNat 32 bytes.length
        if len.sle 0 then pure (rb, readBytes, pbuf)
        else pipeReadLoop count k rb (readBytes + len.signExtend 64) (pbuf ++ bytes)
      else pure (rb, readBytes, pbuf)

/-- `rt_pipe_read` of a pipe that is open. -/
def rtPipeRead (rb : RtRingbuffer) (count : BitVec 64) :
    Except Fault (RtRingbuffer × BitVec 64 × List Byte) :=
  if count = 0 then pure (rb, 0, [])
  else pipeReadLoop count (rb.bufferSize.toNat + 2) rb 0 []

/-- The loop of `rt_pipe_write`. -/
def pipeWriteLoop (pbuf : Nat → Byte) (count : BitVec 64) :
    Nat → RtRingbuffer → BitVec 64 → Except Fault (RtRingbuffer × BitVec 64)
  | 0, _, _ => throw .fuel
  | k + 1, rb, writeBytes =>
      if writeBytes < count then
        let (rb, n) := rtRingbufferPut rb (fun i => pbuf (writeBytes.toNat + i))
          ((count - writeBytes).setWidth 16)
        let len := BitVec.ofNat 32 n
        if len.sle 0 then pure (rb, writeBytes)
        else pipeWriteLoop pbuf count k rb (writeBytes + len.signExtend 64)
      else pure (rb, writeBytes)

/-- `rt_pipe_write` of a pipe that is open. -/
def rtPipeWrite (rb : RtRingbuffer) (pbuf : Nat → Byte) (count : BitVec 64) :
    Except Fault (RtRingbuffer × BitVec 64) :=
  if count = 0 then pure (rb, 0)
  else pipeWriteLoop pbuf count (rb.bufferSize.toNat + 2) rb 0

/-- A read returns the first bytes of the buffer, as many as there are. -/
def ReadRight (rb : RtRingbuffer) (count : BitVec 64) : Prop :=
  let n := min count.toNat (contents rb).length
  ∃ rb', rtPipeRead rb count = .ok (rb', BitVec.ofNat 64 n, (contents rb).take n) ∧
    contents rb' = (contents rb).drop n

/-- A write stores the first bytes it is given, as many as there is room for. -/
def WriteRight (rb : RtRingbuffer) (pbuf : Nat → Byte) (count : BitVec 64) : Prop :=
  let n := min count.toNat (rb.bufferSize.toNat - (contents rb).length)
  ∃ rb', rtPipeWrite rb pbuf count = .ok (rb', BitVec.ofNat 64 n) ∧
    contents rb' = contents rb ++ (List.range n).map pbuf

/-- What is left of a count in 16 bits does for `avail` bytes. -/
def Enough (count : BitVec 64) (avail : Nat) : Prop :=
  count.toNat < 2 ^ 16 ∨ avail ≤ count.toNat % 2 ^ 16

section Transfers

variable {rb : RtRingbuffer} {q : List Byte} {count : BitVec 64} {n : Nat}

/-- `len <= 0`, of a length the ring buffer returns. -/
theorem sle_zero_iff (h : n < 2 ^ 15) : (BitVec.ofNat 32 n).sle 0 = true ↔ n = 0 := by
  have hzero : (0 : BitVec 32).toInt = 0 := rfl
  have hn : (BitVec.ofNat 32 n).toInt = n := by
    rw [BitVec.toInt_eq_toNat_cond, BitVec.toNat_ofNat, Nat.mod_eq_of_lt (by omega),
      if_pos (by omega)]
  rw [BitVec.sle_eq_decide, decide_eq_true_eq, hzero, hn]
  omega

private theorem len_signExtend (h : n < 2 ^ 15) :
    (BitVec.ofNat 32 n).signExtend 64 = BitVec.ofNat 64 n := by
  rw [BitVec.signExtend_eq_setWidth_of_msb_false]
  · apply BitVec.eq_of_toNat_eq
    rw [BitVec.toNat_setWidth, BitVec.toNat_ofNat, BitVec.toNat_ofNat,
      Nat.mod_eq_of_lt (by omega : n < 2 ^ 32)]
  · rw [BitVec.msb_eq_decide, BitVec.toNat_ofNat, Nat.mod_eq_of_lt (by omega),
      decide_eq_false_iff_not]
    omega

/-- Without the part that fits in 16 bits, there is nothing left of the count in them. -/
theorem cut_rest (count : BitVec 64) :
    (count - BitVec.ofNat 64 (count.toNat % 2 ^ 16)).setWidth 16 = (0 : BitVec 16) := by
  apply BitVec.eq_of_toNat_eq
  have hlt := count.isLt
  rw [BitVec.toNat_setWidth, BitVec.toNat_sub, BitVec.toNat_ofNat,
    Nat.mod_eq_of_lt (by omega : count.toNat % 2 ^ 16 < 2 ^ 64)]
  show _ = 0
  omega

/-- What a call of `rt_ringbuffer_get` takes out. -/
theorem get_holds (h : Holds rb q) (length : BitVec 16) :
    Holds (rtRingbufferGet rb length).1 (q.drop length.toNat) ∧
      (rtRingbufferGet rb length).2 = q.take length.toNat := by
  obtain ⟨-, hholds, hbytes⟩ := h.get length
  exact ⟨hholds, Result.bytes.inj hbytes⟩

/-- What a call of `rt_ringbuffer_put` stores. -/
theorem put_holds (h : Holds rb q) (ptr : Nat → Byte) (length : BitVec 16) :
    Holds (rtRingbufferPut rb ptr length).1
        (q ++ (List.range (min (rb.bufferSize.toNat - q.length) length.toNat)).map ptr) ∧
      (rtRingbufferPut rb ptr length).2 =
        min (rb.bufferSize.toNat - q.length) length.toNat ∧
      (rtRingbufferPut rb ptr length).1.bufferSize = rb.bufferSize := by
  obtain ⟨hsize, hholds, hcount⟩ := h.put ptr length
  rw [enqueue_eq] at hholds hcount
  exact ⟨hholds, Result.count.inj hcount, hsize⟩

/-! ## Reads -/

/-- A read stops where the buffer is empty or the length is cut to 0. -/
theorem pipeReadLoop_stops (h : Holds rb q) {readBytes : BitVec 64} (pbuf : List Byte) (k : Nat)
    (hstop : q = [] ∨ (count - readBytes).setWidth 16 = (0 : BitVec 16)) :
    ∃ rb', pipeReadLoop count (k + 1) rb readBytes pbuf = .ok (rb', readBytes, pbuf) ∧
      Holds rb' q := by
  rw [pipeReadLoop]
  by_cases hlt : readBytes < count
  · obtain ⟨hholds, hbytes⟩ := get_holds h ((count - readBytes).setWidth 16)
    have hnil : q.take ((count - readBytes).setWidth 16 : BitVec 16).toNat = [] ∧
        q.drop ((count - readBytes).setWidth 16 : BitVec 16).toNat = q := by
      rcases hstop with rfl | hzero
      · simp
      · rw [hzero]
        exact ⟨rfl, rfl⟩
    rw [hnil.1] at hbytes
    rw [hnil.2] at hholds
    refine ⟨_, ?_, hholds⟩
    rw [if_pos hlt]
    simp only [hbytes, List.length_nil]
    rfl
  · rw [if_neg hlt]
    exact ⟨rb, rfl, h⟩

/-- **A read** takes the bytes that are there, but no more than is left of the count in 16 bits. -/
theorem rtPipeRead_eq (h : Holds rb q) (count : BitVec 64) :
    ∃ rb', rtPipeRead rb count =
        .ok (rb', BitVec.ofNat 64 (min q.length (count.toNat % 2 ^ 16)),
          q.take (count.toNat % 2 ^ 16)) ∧
      Holds rb' (q.drop (count.toNat % 2 ^ 16)) := by
  rw [rtPipeRead]
  by_cases hzero : count = 0
  · rw [if_pos hzero, hzero]
    refine ⟨rb, ?_, h⟩
    simp only [BitVec.ofNat_eq_ofNat, BitVec.toNat_ofNat, Nat.zero_mod, Nat.min_zero,
      List.take_zero]
    rfl
  · have hsmall := h.le.trans_lt h.size_lt
    have hpos : (0 : BitVec 64) < count := by
      rw [BitVec.lt_def]
      exact Nat.pos_of_ne_zero fun heq => hzero (BitVec.eq_of_toNat_eq heq)
    have hcut : ((count - 0).setWidth 16 : BitVec 16).toNat = count.toNat % 2 ^ 16 := by
      rw [BitVec.toNat_setWidth, sub_zero]
    obtain ⟨hholds, hbytes⟩ := get_holds h ((count - 0).setWidth 16)
    rw [hcut] at hholds hbytes
    rw [if_neg hzero, pipeReadLoop, if_pos hpos]
    generalize rtRingbufferGet rb ((count - 0).setWidth 16) = out at hholds hbytes
    obtain ⟨rb₁, bytes⟩ := out
    simp only at hholds hbytes ⊢
    subst hbytes
    have hlen : (q.take (count.toNat % 2 ^ 16)).length = min q.length (count.toNat % 2 ^ 16) := by
      rw [List.length_take, Nat.min_comm]
    rw [hlen]
    by_cases hnone : min q.length (count.toNat % 2 ^ 16) = 0
    · rw [if_pos ((sle_zero_iff (by omega)).mpr hnone), hnone]
      have hnil : q.take (count.toNat % 2 ^ 16) = [] := by
        rw [← List.length_eq_zero_iff, hlen, hnone]
      exact ⟨rb₁, by rw [hnil]; rfl, hholds⟩
    · -- the next call moves nothing
      rw [if_neg (mt (sle_zero_iff (by omega)).mp hnone), len_signExtend (by omega)]
      have hstop : q.drop (count.toNat % 2 ^ 16) = [] ∨
          (count - (0 + BitVec.ofNat 64 (min q.length (count.toNat % 2 ^ 16)))).setWidth 16 =
            (0 : BitVec 16) := by
        by_cases hall : q.length ≤ count.toNat % 2 ^ 16
        · exact Or.inl (List.drop_eq_nil_of_le hall)
        · right
          rw [Nat.min_eq_right (by omega), zero_add]
          exact cut_rest count
      obtain ⟨rb', hloop, hholds'⟩ := pipeReadLoop_stops hholds ([] ++ _) rb.bufferSize.toNat hstop
      refine ⟨rb', ?_, hholds'⟩
      rw [hloop, zero_add, List.nil_append]

/-! ## Writes -/

/-- A write stops where the buffer is full or the length is cut to 0. -/
theorem pipeWriteLoop_stops (h : Holds rb q) {writeBytes : BitVec 64} (pbuf : Nat → Byte) (k : Nat)
    (hstop : q.length = rb.bufferSize.toNat ∨
      (count - writeBytes).setWidth 16 = (0 : BitVec 16)) :
    ∃ rb', pipeWriteLoop pbuf count (k + 1) rb writeBytes = .ok (rb', writeBytes) ∧
      Holds rb' q := by
  rw [pipeWriteLoop]
  by_cases hlt : writeBytes < count
  · obtain ⟨hholds, hcount, -⟩ := put_holds h (fun i => pbuf (writeBytes.toNat + i))
      ((count - writeBytes).setWidth 16)
    have hnil : min (rb.bufferSize.toNat - q.length)
        ((count - writeBytes).setWidth 16 : BitVec 16).toNat = 0 := by
      rcases hstop with hfull | hzero
      · rw [hfull, Nat.sub_self, Nat.zero_min]
      · rw [hzero]
        exact Nat.min_zero _
    rw [hnil] at hcount hholds
    rw [List.range_zero, List.map_nil, List.append_nil] at hholds
    refine ⟨_, ?_, hholds⟩
    rw [if_pos hlt]
    simp only [hcount]
    rfl
  · rw [if_neg hlt]
    exact ⟨rb, rfl, h⟩

/-- **A write** stores what there is room for, but no more than is left of the count in 16
bits. -/
theorem rtPipeWrite_eq (h : Holds rb q) (pbuf : Nat → Byte) (count : BitVec 64) :
    ∃ rb', rtPipeWrite rb pbuf count = .ok (rb',
        BitVec.ofNat 64 (min (rb.bufferSize.toNat - q.length) (count.toNat % 2 ^ 16))) ∧
      Holds rb' (q ++ (List.range
        (min (rb.bufferSize.toNat - q.length) (count.toNat % 2 ^ 16))).map pbuf) := by
  rw [rtPipeWrite]
  by_cases hzero : count = 0
  · rw [if_pos hzero, hzero]
    refine ⟨rb, ?_, ?_⟩
    · simp only [BitVec.ofNat_eq_ofNat, BitVec.toNat_ofNat, Nat.zero_mod, Nat.min_zero]
      rfl
    · simpa using h
  · have hsmall := h.size_lt
    have hpos : (0 : BitVec 64) < count := by
      rw [BitVec.lt_def]
      exact Nat.pos_of_ne_zero fun heq => hzero (BitVec.eq_of_toNat_eq heq)
    have hcut : ((count - 0).setWidth 16 : BitVec 16).toNat = count.toNat % 2 ^ 16 := by
      rw [BitVec.toNat_setWidth, sub_zero]
    obtain ⟨hholds, hcount, hsize⟩ := put_holds h (fun i => pbuf ((0 : BitVec 64).toNat + i))
      ((count - 0).setWidth 16)
    have hptr : (fun i => pbuf ((0 : BitVec 64).toNat + i)) = pbuf := by
      funext i
      exact congrArg pbuf (Nat.zero_add i)
    rw [hcut, hptr] at hholds hcount
    rw [if_neg hzero, pipeWriteLoop, if_pos hpos, hptr]
    rw [hptr] at hsize
    generalize rtRingbufferPut rb pbuf ((count - 0).setWidth 16) = out at hholds hcount hsize
    obtain ⟨rb₁, n⟩ := out
    simp only at hholds hcount hsize ⊢
    subst hcount
    by_cases hnone : min (rb.bufferSize.toNat - q.length) (count.toNat % 2 ^ 16) = 0
    · rw [if_pos ((sle_zero_iff (by omega)).mpr hnone)]
      exact ⟨rb₁, by rw [hnone]; rfl, hholds⟩
    · -- the next call moves nothing
      rw [if_neg (mt (sle_zero_iff (by omega)).mp hnone), len_signExtend (by omega)]
      have hle := h.le
      have hstop : (q ++ (List.range
          (min (rb.bufferSize.toNat - q.length) (count.toNat % 2 ^ 16))).map pbuf).length =
            rb₁.bufferSize.toNat ∨
          (count - (0 + BitVec.ofNat 64
            (min (rb.bufferSize.toNat - q.length) (count.toNat % 2 ^ 16)))).setWidth 16 =
            (0 : BitVec 16) := by
        by_cases hall : rb.bufferSize.toNat - q.length ≤ count.toNat % 2 ^ 16
        · left
          rw [List.length_append, List.length_map, List.length_range, hsize]
          omega
        · right
          rw [Nat.min_eq_right (by omega), zero_add]
          exact cut_rest count
      obtain ⟨rb', hloop, hholds'⟩ := pipeWriteLoop_stops hholds pbuf rb.bufferSize.toNat hstop
      exact ⟨rb', by rw [hloop, zero_add], hholds'⟩

/-! ## When a transfer moves as much as possible -/

private theorem enough_iff (count : BitVec 64) (avail : Nat) :
    Enough count avail ↔ min avail (count.toNat % 2 ^ 16) = min count.toNat avail := by
  have hle := Nat.mod_le count.toNat (2 ^ 16)
  rw [Enough]
  constructor
  · rintro (hsmall | henough)
    · rw [Nat.mod_eq_of_lt hsmall, Nat.min_comm]
    · omega
  · intro hmin
    by_cases hsmall : count.toNat < 2 ^ 16
    · exact Or.inl hsmall
    · right
      have hlt := Nat.mod_lt count.toNat (by decide : 0 < 2 ^ 16)
      omega

private theorem ofNat_inj {m n : Nat} (hm : m < 2 ^ 15) (hn : n < 2 ^ 15)
    (h : BitVec.ofNat 64 m = BitVec.ofNat 64 n) : m = n := by
  have hnat := congrArg BitVec.toNat h
  rw [BitVec.toNat_ofNat, BitVec.toNat_ofNat, Nat.mod_eq_of_lt (by omega),
    Nat.mod_eq_of_lt (by omega)] at hnat
  exact hnat

private theorem readRight_iff (h : Holds rb q) (count : BitVec 64) :
    ReadRight rb count ↔ Enough count q.length := by
  obtain ⟨rb', hread, hholds⟩ := rtPipeRead_eq h count
  have hsmall := h.le.trans_lt h.size_lt
  rw [enough_iff, ReadRight, contents_eq h]
  constructor
  · rintro ⟨rb₂, hread₂, -⟩
    obtain ⟨-, hsame⟩ := Prod.mk.inj (Except.ok.inj (hread.symm.trans hread₂))
    exact ofNat_inj (by omega) (by omega) (Prod.mk.inj hsame).1
  · intro hmin
    have htake : q.take (count.toNat % 2 ^ 16) = q.take (min count.toNat q.length) := by
      rw [← hmin, Nat.min_comm, ← List.take_eq_take_min]
    have hdrop : q.drop (count.toNat % 2 ^ 16) = q.drop (min count.toNat q.length) := by
      rw [← hmin]
      by_cases hall : q.length ≤ count.toNat % 2 ^ 16
      · rw [Nat.min_eq_left hall, List.drop_eq_nil_of_le hall, List.drop_length]
      · rw [Nat.min_eq_right (by omega)]
    rw [hmin, htake] at hread
    rw [hdrop] at hholds
    exact ⟨rb', hread, contents_eq hholds⟩

private theorem writeRight_iff (h : Holds rb q) (pbuf : Nat → Byte) (count : BitVec 64) :
    WriteRight rb pbuf count ↔ Enough count (rb.bufferSize.toNat - q.length) := by
  obtain ⟨rb', hwrite, hholds⟩ := rtPipeWrite_eq h pbuf count
  have hsmall := h.size_lt
  rw [enough_iff, WriteRight, contents_eq h]
  constructor
  · rintro ⟨rb₂, hwrite₂, -⟩
    obtain ⟨-, hsame⟩ := Prod.mk.inj (Except.ok.inj (hwrite.symm.trans hwrite₂))
    exact ofNat_inj (by omega) (by omega) hsame
  · intro hmin
    rw [hmin] at hwrite hholds
    exact ⟨rb', hwrite, contents_eq hholds⟩

/-- **When a transfer moves as much as possible**: the count fits in 16 bits, or what is left of
it in 16 bits is at least what the buffer holds or has room for. -/
theorem pipe_transfer_iff (h : Holds rb q) (pbuf : Nat → Byte) (count : BitVec 64) :
    (ReadRight rb count ↔ Enough count q.length) ∧
      (WriteRight rb pbuf count ↔ Enough count (rb.bufferSize.toNat - q.length)) :=
  ⟨readRight_iff h count, writeRight_iff h pbuf count⟩

end Transfers

/-- An empty ring buffer of eight bytes. -/
def eight : RtRingbuffer := ⟨fun _ => 0, 0, 0, 0, 0, 8⟩

private theorem eight_holds : Holds eight [] :=
  ⟨by decide, by decide, by decide, by decide, by decide, rfl⟩

/-- The same after five bytes were put, four got and six put, across the end of the pool. -/
def wrapped : RtRingbuffer :=
  (rtRingbufferPut (rtRingbufferGet (rtRingbufferPut eight (BitVec.ofNat 8) 5).1 4).1
    (BitVec.ofNat 8) 6).1

private theorem wrapped_holds : Holds wrapped [4, 0, 1, 2, 3, 4, 5] := by
  have hput := (put_holds eight_holds (BitVec.ofNat 8) 5).1
  have hget := (get_holds hput 4).1
  exact (put_holds hget (BitVec.ofNat 8) 6).1

/-- A read of 65544 bytes returns the seven there are, and a write stores the one there is room
for. -/
theorem pipe_transfer_iff_wrapped :
    ReadRight wrapped 0x10008 ∧ WriteRight wrapped (BitVec.ofNat 8) 0x10008 ∧
      contents wrapped = [4, 0, 1, 2, 3, 4, 5] := by
  have hboth := pipe_transfer_iff wrapped_holds (BitVec.ofNat 8) 0x10008
  exact ⟨hboth.1.mpr (Or.inr (by decide)), hboth.2.mpr (Or.inr (by decide)),
    contents_eq wrapped_holds⟩

/-- Of 65536 bytes, nothing is written to an empty pipe. -/
theorem write_moves_nothing :
    (∃ rb', rtPipeWrite eight (BitVec.ofNat 8) 0x10000 = .ok (rb', 0)) ∧
      ¬WriteRight eight (BitVec.ofNat 8) 0x10000 := by
  obtain ⟨rb', hwrite, -⟩ := rtPipeWrite_eq eight_holds (BitVec.ofNat 8) 0x10000
  refine ⟨⟨rb', hwrite⟩, fun hright => ?_⟩
  have henough := (writeRight_iff eight_holds (BitVec.ofNat 8) 0x10000).mp hright
  revert henough
  unfold Enough
  decide

end RtHypervisor.Ports.Pipe
