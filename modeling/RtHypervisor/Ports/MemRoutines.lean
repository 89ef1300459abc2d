import RtHypervisor.Verified.AddressSpace

/-!
# `rt_memset`, `rt_memcpy` and `rt_memmove`

The routines of `kservice.c` as they are built without `RT_KSERVICE_USING_TINY_SIZE`, where a `long`
has eight bytes.  `rt_memcpy` counts in an `int`: `none` is the overflow of `len--` below
`INT_MIN`, while `len -= BIGBLOCKSIZE` is unsigned arithmetic whose result is cut to 32 bits.
-/

namespace RtHypervisor.Ports.MemRoutines

open RtHypervisor.Verified.AddressSpace

/-- `((long)X & (sizeof (long) - 1))`. -/
def unaligned (p : Addr) : Bool := p &&& 7 != 0

/-! ## `rt_memset` -/

/-- `buffer = (buffer << 8) | d`, for each byte of a `long`. -/
def fillWord (d : BitVec 32) : BitVec 64 :=
  (List.range 8).foldl (fun buffer _ => (buffer <<< 8) ||| d.setWidth 64) 0

/-- `while (count >= LBLOCKSIZE * 4)` -/
def setBlocks (mem : Mem) (p : Addr) (buffer : BitVec 64) (count : Nat) : Mem × Addr × Nat :=
  if 32 ≤ count then
    let mem := store64 mem p buffer
    let mem := store64 mem (p.plus 8) buffer
    let mem := store64 mem (p.plus 16) buffer
    let mem := store64 mem (p.plus 24) buffer
    setBlocks mem (p.plus 32) buffer (count - 32)
  else (mem, p, count)

/-- `while (count >= LBLOCKSIZE)` -/
def setWords (mem : Mem) (p : Addr) (buffer : BitVec 64) (count : Nat) : Mem × Addr × Nat :=
  if 8 ≤ count then setWords (store64 mem p buffer) (p.plus 8) buffer (count - 8)
  else (mem, p, count)

/-- `while (count--) *m++ = (char)d` -/
def setBytes (mem : Mem) (p : Addr) (c : BitVec 8) : Nat → Mem
  | 0 => mem
  | count + 1 => setBytes (Function.update mem p c) (p.plus 1) c count

/-- `rt_memset`. -/
def rtMemset (mem : Mem) (s : Addr) (c : BitVec 32) (count : BitVec 64) : Mem :=
  let d := c &&& 0xff
  if ¬count.toNat < 8 ∧ unaligned s = false then
    let (mem, p, count) := setBlocks mem s (fillWord d) count.toNat
    let (mem, p, count) := setWords mem p (fillWord d) count
    setBytes mem p (d.setWidth 8) count
  else setBytes mem s (d.setWidth 8) count.toNat

/-! ## `rt_memcpy` -/

/-- An `int` that is compared with a `size_t`. -/
def asSize (len : BitVec 32) : Nat := (len.signExtend 64).toNat

/-- `len -= k`, for a `size_t` that is assigned to an `int`. -/
def shorten (len : BitVec 32) (k : BitVec 64) : BitVec 32 := (len.signExtend 64 - k).setWidth 32

private theorem asSize_eq (len : BitVec 32) :
    asSize len = len.toNat + if len.msb then 2 ^ 64 - 2 ^ 32 else 0 := by
  have hlen := len.isLt
  have hkeep : len.toNat % 2 ^ 64 = len.toNat := Nat.mod_eq_of_lt (by omega)
  unfold asSize
  rw [BitVec.toNat_signExtend, BitVec.toNat_setWidth, hkeep]

private theorem asSize_of_nonneg {len : BitVec 32} (h : len.toNat < 2 ^ 31) :
    asSize len = len.toNat := by
  have hmsb : len.msb = false := by
    rw [BitVec.msb_eq_false_iff_two_mul_lt]
    omega
  rw [asSize_eq, hmsb]
  rfl

private theorem toNat_shorten (len : BitVec 32) {k : Nat} (hk : k ≤ len.toNat) :
    (shorten len (BitVec.ofNat 64 k)).toNat = len.toNat - k := by
  have hlen := len.isLt
  have hext := asSize_eq len
  have hk64 : (BitVec.ofNat 64 k).toNat = k := by
    rw [BitVec.toNat_ofNat]
    exact Nat.mod_eq_of_lt (by omega)
  unfold asSize at hext
  unfold shorten
  rw [BitVec.toNat_setWidth, BitVec.toNat_sub, hk64, hext]
  cases len.msb with
  | false =>
      simp only [Bool.false_eq_true, if_false]
      omega
  | true =>
      simp only [if_true]
      omega

private theorem le_of_le_asSize {len : BitVec 32} {k : Nat} (hk : k ≤ 32) (h : k ≤ asSize len) :
    k ≤ len.toNat := by
  by_contra hlt
  rw [asSize_of_nonneg (by omega)] at h
  omega

/-- `while (len >= BIGBLOCKSIZE)` -/
def copyBlocks (mem : Mem) (dst src : Addr) (len : BitVec 32) : Mem × Addr × Addr × BitVec 32 :=
  if 32 ≤ asSize len then
    let mem := store64 mem dst (load64 mem src)
    let mem := store64 mem (dst.plus 8) (load64 mem (src.plus 8))
    let mem := store64 mem (dst.plus 16) (load64 mem (src.plus 16))
    let mem := store64 mem (dst.plus 24) (load64 mem (src.plus 24))
    copyBlocks mem (dst.plus 32) (src.plus 32) (shorten len 32)
  else (mem, dst, src, len)
termination_by len.toNat
decreasing_by
  have hle : 32 ≤ len.toNat := le_of_le_asSize le_rfl ‹_›
  have hlen : (shorten len 32).toNat = len.toNat - 32 := toNat_shorten len hle
  omega

/-- `while (len >= LITTLEBLOCKSIZE)` -/
def copyWords (mem : Mem) (dst src : Addr) (len : BitVec 32) : Mem × Addr × Addr × BitVec 32 :=
  if 8 ≤ asSize len then
    copyWords (store64 mem dst (load64 mem src)) (dst.plus 8) (src.plus 8) (shorten len 8)
  else (mem, dst, src, len)
termination_by len.toNat
decreasing_by
  have hle : 8 ≤ len.toNat := le_of_le_asSize (by decide) ‹_›
  have hlen : (shorten len 8).toNat = len.toNat - 8 := toNat_shorten len hle
  omega

private theorem toNat_pred {len : BitVec 32} (h : len ≠ 0) : (len - 1).toNat = len.toNat - 1 := by
  have hpos : len.toNat ≠ 0 := fun hz => h (BitVec.eq_of_toNat_eq hz)
  have hlt := len.isLt
  have hone : (1 : BitVec 32).toNat = 1 := rfl
  rw [BitVec.toNat_sub, hone]
  omega

/-- `while (len--) *dst_ptr++ = *src_ptr++` -/
def copyTail (mem : Mem) (dst src : Addr) (len : BitVec 32) : Option Mem :=
  if len = 0 then some mem
  else if len = BitVec.intMin 32 then none
  else copyTail (Function.update mem dst (mem src)) (dst.plus 1) (src.plus 1) (len - 1)
termination_by len.toNat
decreasing_by
  have hne : len ≠ 0 := ‹_›
  have hpos : len.toNat ≠ 0 := fun hz => hne (BitVec.eq_of_toNat_eq hz)
  rw [toNat_pred hne]
  omega

/-- `rt_memcpy`. -/
def rtMemcpy (mem : Mem) (dst src : Addr) (count : BitVec 64) : Option Mem :=
  let len : BitVec 32 := count.setWidth 32
  if ¬asSize len < 32 ∧ (unaligned src || unaligned dst) = false then
    let (mem, dst, src, len) := copyBlocks mem dst src len
    let (mem, dst, src, len) := copyWords mem dst src len
    copyTail mem dst src len
  else copyTail mem dst src len

/-! ## `rt_memmove` -/

/-- `while (n--) *(--tmp) = *(--s)` -/
def moveDown (mem : Mem) (tmp s : Addr) : Nat → Mem
  | 0 => mem
  | n + 1 => moveDown (Function.update mem (tmp - 1) (mem (s - 1))) (tmp - 1) (s - 1) n

/-- `while (n--) *tmp++ = *s++` -/
def moveUp (mem : Mem) (tmp s : Addr) : Nat → Mem
  | 0 => mem
  | n + 1 => moveUp (Function.update mem tmp (mem s)) (tmp.plus 1) (s.plus 1) n

/-- `rt_memmove`. -/
def rtMemmove (mem : Mem) (dest src : Addr) (n : BitVec 64) : Mem :=
  if src < dest ∧ dest < src + n then moveDown mem (dest + n) (src + n) n.toNat
  else moveUp mem dest src n.toNat

/-! ## Filling -/

section Fill

variable {mem : Mem} {s : Addr} {v : BitVec 8} {k : Nat} {buffer : BitVec 64}

/-- Every byte of the word is the low byte of `d`. -/
theorem extractLsb'_fillWord (c : BitVec 32) {i : Nat} (hi : i < 8) :
    (fillWord (c &&& 0xff)).extractLsb' (8 * i) 8 = (c &&& 0xff).setWidth 8 := by
  have hcases : i = 0 ∨ i = 1 ∨ i = 2 ∨ i = 3 ∨ i = 4 ∨ i = 5 ∨ i = 6 ∨ i = 7 := by omega
  have hrange : List.range 8 = [0, 1, 2, 3, 4, 5, 6, 7] := rfl
  have hmask : ∀ j, 8 ≤ j → (c &&& 0xff).getLsbD j = false := by
    intro j hj
    have hlt : (c &&& 0xff).toNat < 2 ^ j := by
      have hle : (c &&& 0xff).toNat ≤ 0xff := Nat.and_le_right
      have hpow : 2 ^ 8 ≤ 2 ^ j := Nat.pow_le_pow_right (by decide) hj
      omega
    exact Nat.testBit_lt_two_pow hlt
  unfold fillWord
  rw [hrange]
  generalize c &&& 0xff = d at hmask
  ext j hj
  rcases hcases with rfl | rfl | rfl | rfl | rfl | rfl | rfl | rfl <;>
    simp only [List.foldl_cons, List.foldl_nil, BitVec.getElem_extractLsb', BitVec.getLsbD_or,
      BitVec.getLsbD_shiftLeft, BitVec.getLsbD_setWidth, BitVec.getElem_setWidth] <;> grind

private theorem setBytes_filled {n : Nat} (hn : k + n < 2 ^ 64) :
    setBytes (filled mem s v k) (s.plus k) v n = filled mem s v (k + n) := by
  induction n generalizing k with
  | zero => rfl
  | succ n ih =>
      rw [setBytes, filled_update (by omega), plus_plus, ih (by omega)]
      congr 1
      omega

private theorem setWords_filled {n : Nat} (hn : k + n < 2 ^ 64)
    (hword : ∀ i, i < 8 → buffer.extractLsb' (8 * i) 8 = v) :
    ∃ j, j ≤ n ∧ setWords (filled mem s v k) (s.plus k) buffer n =
      (filled mem s v (k + j), s.plus (k + j), n - j) := by
  induction n using Nat.strongRecOn generalizing k with
  | _ n ih =>
      unfold setWords
      by_cases hgo : 8 ≤ n
      · rw [if_pos hgo, filled_store64 (by omega) hword, plus_plus]
        obtain ⟨j, hj, heq⟩ := @ih (n - 8) (by omega) (k + 8) (by omega)
        refine ⟨8 + j, by omega, ?_⟩
        rw [heq, ← Nat.add_assoc, ← Nat.sub_sub]
      · exact ⟨0, Nat.zero_le n, if_neg hgo⟩

private theorem setBlocks_filled {n : Nat} (hn : k + n < 2 ^ 64)
    (hword : ∀ i, i < 8 → buffer.extractLsb' (8 * i) 8 = v) :
    ∃ j, j ≤ n ∧ setBlocks (filled mem s v k) (s.plus k) buffer n =
      (filled mem s v (k + j), s.plus (k + j), n - j) := by
  induction n using Nat.strongRecOn generalizing k with
  | _ n ih =>
      unfold setBlocks
      by_cases hgo : 32 ≤ n
      · rw [if_pos hgo]
        simp only [plus_plus]
        rw [filled_store64 (by omega) hword, filled_store64 (by omega) hword,
          filled_store64 (by omega) hword, filled_store64 (by omega) hword]
        obtain ⟨j, hj, heq⟩ := @ih (n - 32) (by omega) (k + 32) (by omega)
        refine ⟨32 + j, by omega, ?_⟩
        rw [heq, ← Nat.add_assoc, ← Nat.sub_sub]
      · exact ⟨0, Nat.zero_le n, if_neg hgo⟩

private theorem rtMemset_filled (mem : Mem) (s : Addr) (c : BitVec 32) (count : BitVec 64) :
    rtMemset mem s c count = filled mem s ((c &&& 0xff).setWidth 8) count.toNat := by
  have hcount := count.isLt
  have hword := fun i (hi : i < 8) => @extractLsb'_fillWord c i hi
  have hzero : (0 : Nat) + count.toNat < 2 ^ 64 := by omega
  unfold rtMemset
  generalize hv : (c &&& 0xff).setWidth 8 = v at hword
  have hstart : filled mem s v 0 = mem := filled_zero
  by_cases hbig : ¬count.toNat < 8 ∧ unaligned s = false
  · obtain ⟨i, hi, hblocks⟩ := @setBlocks_filled mem s v 0 _ _ hzero hword
    obtain ⟨j, hj, hwords⟩ := @setWords_filled mem s v (0 + i) _ (count.toNat - i) (by omega) hword
    rw [hstart, plus_zero] at hblocks
    dsimp only
    rw [if_pos hbig, hblocks]
    dsimp only
    rw [hwords, hv]
    dsimp only
    rw [setBytes_filled (by omega)]
    congr 1
    omega
  · have hbytes := @setBytes_filled mem s v 0 _ hzero
    rw [hstart, plus_zero, Nat.zero_add] at hbytes
    dsimp only
    rw [if_neg hbig, hv]
    exact hbytes

end Fill

/-! ## Copying upwards -/

section Copy

variable {mem : Mem} {dst src x : Addr} {k n : Nat} {len : BitVec 32}

/-- No byte of the first `n` is overwritten before it is read. -/
def Clear (dst src : Addr) (n : Nat) : Prop := ∀ j, j < n → j ≤ off dst (src.plus j)

private theorem moveUp_copied (hn : k + n < 2 ^ 64) (h : Clear dst src (k + n)) :
    moveUp (copied mem dst src k) (dst.plus k) (src.plus k) n = copied mem dst src (k + n) := by
  induction n generalizing k with
  | zero => rfl
  | succ n ih =>
      have hsum : k + (n + 1) = k + 1 + n := by omega
      rw [hsum] at h ⊢
      rw [moveUp, copied_update (by omega) (h k (by omega)), plus_plus, plus_plus,
        ih (by omega) h]

private theorem copyTail_eq (hlen : len.toNat < 2 ^ 31) :
    copyTail mem dst src len = some (moveUp mem dst src len.toNat) := by
  induction hn : len.toNat generalizing mem dst src len with
  | zero =>
      have hzero : len = 0 := BitVec.eq_of_toNat_eq hn
      rw [copyTail, if_pos hzero]
      rfl
  | succ n ih =>
      have hne : len ≠ 0 := by
        rintro rfl
        exact Nat.succ_ne_zero n hn.symm
      have hmin : len ≠ BitVec.intMin 32 := by
        rintro rfl
        exact absurd hlen (by decide)
      have hpred := toNat_pred hne
      rw [copyTail, if_neg hne, if_neg hmin, ih (by omega) (by omega)]
      rfl

/-- A negative length runs into the overflow. -/
theorem copyTail_none (hlen : 2 ^ 31 ≤ len.toNat) : copyTail mem dst src len = none := by
  induction hn : len.toNat generalizing mem dst src len with
  | zero => omega
  | succ n ih =>
      have hne : len ≠ 0 := by
        rintro rfl
        exact absurd hlen (by decide)
      by_cases hmin : len = BitVec.intMin 32
      · rw [copyTail, if_neg hne, if_pos hmin]
      · have hpred := toNat_pred hne
        have hgt : len.toNat ≠ 2 ^ 31 := fun h => hmin (BitVec.eq_of_toNat_eq h)
        rw [copyTail, if_neg hne, if_neg hmin]
        exact ih (by omega) (by omega)

/-- The words that are copied at `k` have not been overwritten. -/
theorem Clear.word (h : Clear dst src n) (hk : k + 8 ≤ n) :
    ∀ i, i < 8 → k + i ≤ off dst (src.plus (k + i)) :=
  fun i hi => h (k + i) (by omega)

/-- What a phase that copies whole words leaves, for the phase after it. -/
def Reaches (mem : Mem) (dst src : Addr) (k n bound : Nat)
    (r : Mem × Addr × Addr × BitVec 32) : Prop :=
  ∃ j len, j ≤ n ∧ len.toNat = n - j ∧ len.toNat < bound ∧
    r = (copied mem dst src (k + j), dst.plus (k + j), src.plus (k + j), len)

private theorem copyWords_reaches (hlen : len.toNat = n) (hn : k + n < 2 ^ 64)
    (h : Clear dst src (k + n)) : Reaches mem dst src k n 8
      (copyWords (copied mem dst src k) (dst.plus k) (src.plus k) len) := by
  induction n using Nat.strongRecOn generalizing k len with
  | _ n ih =>
      unfold copyWords
      by_cases hgo : 8 ≤ asSize len
      · have hle : 8 ≤ n := hlen ▸ le_of_le_asSize (by decide) hgo
        have hshort : (shorten len 8).toNat = n - 8 := by
          rw [← hlen]
          exact @toNat_shorten len 8 (by omega)
        have hsum : k + 8 + (n - 8) = k + n := by omega
        rw [if_pos hgo, copied_store64 (by omega) (h.word (by omega)), plus_plus, plus_plus]
        obtain ⟨j, len', hj, hlen', hbound, heq⟩ :=
          @ih (n - 8) (by omega) (k + 8) _ hshort (by omega) (by rwa [hsum])
        refine ⟨8 + j, len', by omega, by omega, hbound, ?_⟩
        rw [heq, ← Nat.add_assoc]
      · have hle := asSize_eq len
        exact ⟨0, len, Nat.zero_le n, hlen, by omega, if_neg hgo⟩

private theorem copyBlocks_reaches (hlen : len.toNat = n) (hn : k + n < 2 ^ 64)
    (h : Clear dst src (k + n)) : Reaches mem dst src k n 32
      (copyBlocks (copied mem dst src k) (dst.plus k) (src.plus k) len) := by
  induction n using Nat.strongRecOn generalizing k len with
  | _ n ih =>
      unfold copyBlocks
      by_cases hgo : 32 ≤ asSize len
      · have hle : 32 ≤ n := hlen ▸ le_of_le_asSize le_rfl hgo
        have hshort : (shorten len 32).toNat = n - 32 := by
          rw [← hlen]
          exact @toNat_shorten len 32 (by omega)
        have hsum : k + 32 + (n - 32) = k + n := by omega
        rw [if_pos hgo]
        simp only [plus_plus]
        rw [copied_store64 (by omega) (h.word (by omega)),
          copied_store64 (by omega) (h.word (by omega)),
          copied_store64 (by omega) (h.word (by omega)),
          copied_store64 (by omega) (h.word (by omega))]
        obtain ⟨j, len', hj, hlen', hbound, heq⟩ :=
          @ih (n - 32) (by omega) (k + 32) _ hshort (by omega) (by rwa [hsum])
        refine ⟨32 + j, len', by omega, by omega, hbound, ?_⟩
        rw [heq, ← Nat.add_assoc]
      · have hle := asSize_eq len
        exact ⟨0, len, Nat.zero_le n, hlen, by omega, if_neg hgo⟩

/-- `rt_memcpy` copies as many bytes as the low half of `count` says; by bytes it comes to no end
when that is a negative `int`. -/
theorem rtMemcpy_eq {count : BitVec 64} (h : Clear dst src (count.toNat % 2 ^ 32)) :
    rtMemcpy mem dst src count =
      if count.toNat % 2 ^ 32 < 2 ^ 31 ∨ (unaligned src || unaligned dst) = false then
        some (copied mem dst src (count.toNat % 2 ^ 32))
      else none := by
  have hlen : (count.setWidth 32).toNat = count.toNat % 2 ^ 32 := BitVec.toNat_setWidth ..
  have hlt : count.toNat % 2 ^ 32 < 2 ^ 32 := Nat.mod_lt _ (by decide)
  generalize count.toNat % 2 ^ 32 = n at h hlen hlt
  unfold rtMemcpy
  generalize count.setWidth 32 = len at hlen
  have hstart : copied mem dst src 0 = mem := copied_zero
  have hclear : Clear dst src (0 + n) := by rwa [Nat.zero_add]
  by_cases hwords : ¬asSize len < 32 ∧ (unaligned src || unaligned dst) = false
  · obtain ⟨i, len₁, hi, hlen₁, _, hblocks⟩ := @copyBlocks_reaches mem dst src 0 n len hlen
      (by omega) hclear
    have hsum₁ : 0 + i + (n - i) = 0 + n := by omega
    obtain ⟨j, len₂, hj, hlen₂, hbound, hwords'⟩ := @copyWords_reaches mem dst src (0 + i) (n - i)
      len₁ hlen₁ (by omega) (by rwa [hsum₁])
    have hsum₂ : 0 + i + j + len₂.toNat = n := by omega
    rw [hstart, plus_zero, plus_zero] at hblocks
    dsimp only
    rw [if_pos hwords, if_pos (Or.inr hwords.2), hblocks]
    dsimp only
    rw [hwords']
    dsimp only
    rw [copyTail_eq (by omega), moveUp_copied (by omega) (by rwa [hsum₂]), hsum₂]
  · dsimp only
    rw [if_neg hwords]
    by_cases hsmall : n < 2 ^ 31
    · have hmove := @moveUp_copied mem dst src 0 n (by omega) hclear
      rw [hstart, plus_zero, plus_zero, Nat.zero_add] at hmove
      rw [if_pos (Or.inl hsmall), copyTail_eq (by omega), hlen, hmove]
    · have hsize := asSize_eq len
      rw [if_neg, copyTail_none (by omega)]
      rintro (hlow | haligned)
      · exact hsmall hlow
      · exact hwords ⟨by omega, haligned⟩

/-- The two ranges have no byte in common. -/
def Disjoint (dst src : Addr) (n : Nat) : Prop :=
  ∀ i j, i < n → j < n → dst.plus i ≠ src.plus j

theorem Disjoint.clear (h : Disjoint dst src n) : Clear dst src n := by
  intro j hj
  by_contra hlt
  exact h (off dst (src.plus j)) j (by omega) hj (plus_off dst _)

/-- The result of `rt_memcpy` is what a copy by bytes leaves. -/
def MemcpyRight (dst src : Addr) (count : BitVec 64) : Prop :=
  ∀ mem, rtMemcpy mem dst src count = some (copied mem dst src count.toNat)

private theorem memcpyRight_iff {count : BitVec 64} (h : Disjoint dst src count.toNat) :
    MemcpyRight dst src count ↔ count.toNat < 2 ^ 31 ∨
      count.toNat < 2 ^ 32 ∧ unaligned src = false ∧ unaligned dst = false := by
  have hcount := count.isLt
  have hclear : Clear dst src (count.toNat % 2 ^ 32) := by
    intro j hj
    exact h.clear j (by omega)
  have halign : (unaligned src || unaligned dst) = false ↔
      unaligned src = false ∧ unaligned dst = false := Bool.or_eq_false_iff
  have hrun := fun mem => @rtMemcpy_eq mem dst src count hclear
  constructor
  · intro hright
    by_contra hbad
    by_cases hwide : 2 ^ 32 ≤ count.toNat
    · -- the byte behind the bytes that are counted is not copied
      have hdiff := h (count.toNat % 2 ^ 32) (count.toNat % 2 ^ 32) (by omega) (by omega)
      have hat := hright fun x => if x = src.plus (count.toNat % 2 ^ 32) then 1 else 0
      have hoff := @off_plus (count.toNat % 2 ^ 32) dst (by omega)
      rw [hrun] at hat
      split at hat
      · have hcell := congrFun (Option.some.inj hat) (dst.plus (count.toNat % 2 ^ 32))
        unfold copied at hcell
        rw [hoff, if_neg (by omega), if_pos (by omega)] at hcell
        dsimp only at hcell
        rw [if_neg hdiff, if_pos rfl] at hcell
        exact absurd hcell (by decide)
      · cases hat
    · have hat := hright fun _ => 0
      have hsame : count.toNat % 2 ^ 32 = count.toNat := Nat.mod_eq_of_lt (by omega)
      rw [hrun, if_neg] at hat
      · cases hat
      · rw [hsame, halign]
        rintro (hlow | haligned)
        · exact hbad (Or.inl hlow)
        · exact hbad (Or.inr ⟨by omega, haligned⟩)
  · intro hgood mem
    have hsame : count.toNat % 2 ^ 32 = count.toNat := Nat.mod_eq_of_lt (by omega)
    rw [hrun, hsame, if_pos]
    rcases hgood with hlow | haligned
    · exact Or.inl hlow
    · exact Or.inr (halign.mpr haligned.2)

/-! ## Moving -/

/-- The bytes from `k` on are copied, those in front of `k` are not. -/
def copiedFrom (mem : Mem) (dst src : Addr) (k n : Nat) : Mem := fun x =>
  if k ≤ off dst x ∧ off dst x < n then mem (src.plus (off dst x)) else mem x

private theorem plus_succ_sub_one (p : Addr) (k : Nat) : p.plus (k + 1) - 1 = p.plus k := by
  have hone : (1 : BitVec 64) = BitVec.ofNat 64 1 := rfl
  unfold Addr.plus
  rw [BitVec.ofNat_add, ← BitVec.add_assoc, hone, add_sub_cancel_right]

/-- No byte is overwritten, from the end on, before it is read. -/
def ClearDown (dst src : Addr) (n : Nat) : Prop :=
  ∀ j, j < n → off dst (src.plus j) ≤ j ∨ n ≤ off dst (src.plus j)

private theorem moveDown_copied (hk : k ≤ n) (hn : n < 2 ^ 64) (h : ClearDown dst src n) :
    moveDown (copiedFrom mem dst src k n) (dst.plus k) (src.plus k) k = copied mem dst src n := by
  induction k with
  | zero =>
      funext x
      unfold moveDown copiedFrom copied
      simp only [Nat.zero_le, true_and]
  | succ k ih =>
      have hread : copiedFrom mem dst src (k + 1) n (src.plus k) = mem (src.plus k) := by
        have hoff := h k (by omega)
        exact if_neg (by omega)
      have hstep : Function.update (copiedFrom mem dst src (k + 1) n) (dst.plus k)
          (mem (src.plus k)) = copiedFrom mem dst src k n := by
        funext y
        have hy := @off_eq_iff dst y k (by omega)
        unfold copiedFrom
        rw [Function.update_apply]
        by_cases hat : y = dst.plus k
        · rw [if_pos hat, hat, off_plus _ (by omega), if_pos (by omega)]
        · have hne : off dst y ≠ k := fun heq => hat (hy.mp heq)
          rw [if_neg hat]
          by_cases hin : k + 1 ≤ off dst y ∧ off dst y < n
          · rw [if_pos hin, if_pos (by omega)]
          · rw [if_neg hin, if_neg (by omega)]
      rw [moveDown, plus_succ_sub_one, plus_succ_sub_one, hread, hstep]
      exact ih (by omega)

/-! ### Copies that overtake themselves -/

/-- Bytes `k`, .., `k + n - 1` are all that is written. -/
theorem moveUp_off (hn : k + n < 2 ^ 64) (hx : off dst x < k ∨ k + n ≤ off dst x) :
    moveUp mem (dst.plus k) (src.plus k) n x = mem x := by
  induction n generalizing mem k with
  | zero => rfl
  | succ n ih =>
      have hne : x ≠ dst.plus k := by
        intro heq
        rw [heq, off_plus _ (by omega)] at hx
        omega
      rw [moveUp, plus_plus, plus_plus, ih (by omega) (by omega), Function.update_of_ne hne]

private theorem moveUp_split (i j : Nat) : moveUp mem (dst.plus k) (src.plus k) (i + j) =
    moveUp (moveUp mem (dst.plus k) (src.plus k) i) (dst.plus (k + i)) (src.plus (k + i)) j := by
  induction i generalizing mem k with
  | zero =>
      rw [Nat.zero_add]
      rfl
  | succ i ih =>
      have hsum : i + 1 + j = i + j + 1 := by omega
      have hsum' : k + (i + 1) = k + 1 + i := by omega
      rw [hsum, hsum', moveUp, moveUp, plus_plus, plus_plus, ih]

/-- The byte at a place of its own, behind what is written first. -/
theorem moveUp_at (hn : k + (n + 1) < 2 ^ 64) :
    moveUp mem (dst.plus k) (src.plus k) (n + 1) (dst.plus k) = mem (src.plus k) := by
  have hat := @off_plus k dst (by omega)
  rw [moveUp, plus_plus, plus_plus, moveUp_off (by omega) (by omega), Function.update_self]

/-- Upwards, a byte that has been overwritten by the first byte is copied as the first byte. -/
theorem moveUp_overtakes {d : Nat} (hpos : 0 < d) (hd : d < n) (hn : n < 2 ^ 64) :
    moveUp mem dst (dst.plus (2 ^ 64 - d)) n (dst.plus d) = mem (dst.plus (2 ^ 64 - d)) := by
  have hwrap : (dst.plus (2 ^ 64 - d)).plus d = dst := by
    have hsum : 2 ^ 64 - d + d = 2 ^ 64 := by omega
    rw [plus_plus, hsum]
    exact BitVec.add_zero dst
  generalize dst.plus (2 ^ 64 - d) = src at hwrap
  obtain ⟨i, rfl⟩ : ∃ i, d = i + 1 := ⟨d - 1, by omega⟩
  obtain ⟨j, rfl⟩ : ∃ j, n = i + 1 + (j + 1) := ⟨n - (i + 1) - 1, by omega⟩
  have hsplit := @moveUp_split mem dst src 0 (i + 1) (j + 1)
  have hfirst := @moveUp_at mem dst src 0 i (by omega)
  rw [plus_zero, plus_zero] at hsplit hfirst
  rw [hsplit, Nat.zero_add, moveUp_at (by omega), hwrap, hfirst]

/-- Bytes `k`, .., `k + n - 1` are all that is written. -/
theorem moveDown_off (hn : k + n < 2 ^ 64) (hx : off dst x < k ∨ k + n ≤ off dst x) :
    moveDown mem (dst.plus (k + n)) (src.plus (k + n)) n x = mem x := by
  induction n generalizing mem with
  | zero => rfl
  | succ n ih =>
      have hne : x ≠ dst.plus (k + n) := by
        intro heq
        rw [heq, off_plus _ (by omega)] at hx
        omega
      rw [moveDown, ← Nat.add_assoc, plus_succ_sub_one, plus_succ_sub_one, ih (by omega) (by omega),
        Function.update_of_ne hne]

private theorem moveDown_split (i j : Nat) :
    moveDown mem (dst.plus (j + i)) (src.plus (j + i)) (i + j) =
      moveDown (moveDown mem (dst.plus (j + i)) (src.plus (j + i)) i)
        (dst.plus j) (src.plus j) j := by
  induction i generalizing mem with
  | zero =>
      rw [Nat.zero_add]
      rfl
  | succ i ih =>
      have hsum : i + 1 + j = i + j + 1 := by omega
      rw [hsum, moveDown, moveDown, ← Nat.add_assoc, plus_succ_sub_one, plus_succ_sub_one, ih]

private theorem moveDown_at (hn : k + (n + 1) < 2 ^ 64) :
    moveDown mem (dst.plus (k + (n + 1))) (src.plus (k + (n + 1))) (n + 1) (dst.plus (k + n)) =
      mem (src.plus (k + n)) := by
  have hat := @off_plus (k + n) dst (by omega)
  rw [moveDown, ← Nat.add_assoc, plus_succ_sub_one, plus_succ_sub_one,
    moveDown_off (by omega) (by omega), Function.update_self]

/-- Downwards, a byte that has been overwritten by the last byte is copied as the last byte. -/
theorem moveDown_overtakes {e : Nat} (hpos : 0 < e) (he : e < n) (hn : n < 2 ^ 64) :
    moveDown mem (dst.plus n) ((dst.plus e).plus n) n (dst.plus (n - 1 - e)) =
      mem ((dst.plus e).plus (n - 1)) := by
  obtain ⟨i, rfl⟩ : ∃ i, e = i + 1 := ⟨e - 1, by omega⟩
  obtain ⟨j, rfl⟩ : ∃ j, n = (i + 1) + (j + 1) := ⟨n - (i + 1) - 1, by omega⟩
  have hmeet : (dst.plus (i + 1)).plus j = dst.plus (j + 1 + i) := by
    rw [plus_plus]
    congr 1
    omega
  have hplace : i + 1 + (j + 1) - 1 - (i + 1) = j := by omega
  have hlast : i + 1 + (j + 1) - 1 = j + 1 + i := by omega
  have hsum : i + 1 + (j + 1) = j + 1 + (i + 1) := by omega
  generalize dst.plus (i + 1) = src at hmeet
  have hsplit := @moveDown_split mem dst src (i + 1) (j + 1)
  have hfirst := @moveDown_at mem dst src (j + 1) i (by omega)
  have hzero := @moveDown_at
    (moveDown mem (dst.plus (j + 1 + (i + 1))) (src.plus (j + 1 + (i + 1))) (i + 1)) dst src 0 j
    (by omega)
  simp only [Nat.zero_add] at hzero
  rw [hplace, hlast, ← hfirst, ← hmeet, ← hzero, ← hsplit, ← hsum]

/-! ### The routine -/

/-- The result of `rt_memmove` is what a copy by way of a temporary leaves. -/
def MemmoveRight (dst src : Addr) (n : BitVec 64) : Prop :=
  ∀ mem, rtMemmove mem dst src n = copied mem dst src n.toNat

/-- The destination does not begin inside the source, or the source ends below the end of the
address space and does not begin inside the destination. -/
def Movable (dst src : Addr) (n : BitVec 64) : Prop :=
  ¬(0 < off src dst ∧ off src dst < n.toNat) ∨
    src.toNat + n.toNat < 2 ^ 64 ∧ n.toNat ≤ 2 ^ 64 - off src dst

private theorem off_swap (h : 0 < off src dst) : off dst src = 2 ^ 64 - off src dst := by
  unfold off at h ⊢
  rw [BitVec.toNat_sub] at h ⊢
  rw [BitVec.toNat_sub]
  omega

/-- Which way is taken. -/
theorem goesDown_iff (n : BitVec 64) : src < dst ∧ dst < src + n ↔
    src.toNat + n.toNat < 2 ^ 64 ∧ 0 < off src dst ∧ off src dst < n.toNat := by
  have hs := src.isLt
  have hd := dst.isLt
  have hn := n.isLt
  unfold off
  rw [BitVec.lt_def, BitVec.lt_def, BitVec.toNat_add, BitVec.toNat_sub]
  omega

private theorem memmoveRight_iff (dst src : Addr) (n : BitVec 64) :
    MemmoveRight dst src n ↔ Movable dst src n := by
  have hn := n.isLt
  have hd := off_lt src dst
  have hdown := @goesDown_iff dst src n
  have hbase : dst.plus (off dst src) = src := plus_off dst src
  have hread := fun j => off_plus_eq dst src j
  unfold MemmoveRight Movable rtMemmove
  by_cases hway : src < dst ∧ dst < src + n
  · have hover := hdown.mp hway
    have hswap := off_swap hover.2.1
    have hend : ∀ p : Addr, p + n = p.plus n.toNat := by
      intro p
      unfold Addr.plus
      rw [BitVec.ofNat_toNat, BitVec.setWidth_eq]
    simp only [if_pos hway]
    simp only [hend]
    constructor
    · intro hright
      right
      refine ⟨hover.1, ?_⟩
      by_contra hlt
      have hat := congrFun (hright fun y => if y = src.plus (n.toNat - 1) then 1 else 0)
        (dst.plus (n.toNat - 1 - off dst src))
      have hpast := @moveDown_overtakes (fun y => if y = src.plus (n.toNat - 1) then 1 else 0)
        dst n.toNat (off dst src) (by omega) (by omega) hn
      have hplace := @off_plus (n.toNat - 1 - off dst src) dst (by omega)
      have hother : src.plus (n.toNat - 1 - off dst src) ≠ src.plus (n.toNat - 1) := by
        intro heq
        have hoff := congrArg (off src) heq
        rw [off_plus _ (by omega), off_plus _ (by omega)] at hoff
        omega
      rw [hbase] at hpast
      have hinside : n.toNat - 1 - off dst src < n.toNat := by omega
      unfold copied at hat
      rw [hpast, hplace] at hat
      simp only [if_pos hinside, if_neg hother, if_true] at hat
      exact absurd hat (by decide)
    · intro hgood mem
      have hclear : ClearDown dst src n.toNat := by
        intro j hj
        rw [hread]
        omega
      have hnone : copiedFrom mem dst src n.toNat n.toNat = mem := by
        funext y
        exact if_neg (by omega)
      have hmove := @moveDown_copied mem dst src n.toNat n.toNat le_rfl hn hclear
      rwa [hnone] at hmove
  · simp only [if_neg hway]
    constructor
    · intro hright
      by_contra hbad
      have hover : 0 < off src dst ∧ off src dst < n.toNat := by
        by_contra hno
        exact hbad (Or.inl hno)
      have hswap := off_swap hover.1
      have hat := congrFun (hright fun y => if y = src then 1 else 0) (dst.plus (off src dst))
      have hpast := @moveUp_overtakes (fun y => if y = src then 1 else 0) dst n.toNat
        (off src dst) hover.1 hover.2 hn
      have hplace := @off_plus (off src dst) dst hd
      have hother : src.plus (off src dst) ≠ src := by
        intro heq
        have hoff := congrArg (off src) heq
        rw [off_plus _ hd, off_self] at hoff
        omega
      rw [← hswap, hbase] at hpast
      unfold copied at hat
      rw [hpast, hplace] at hat
      simp only [if_pos hover.2, if_neg hother, if_true] at hat
      exact absurd hat (by decide)
    · intro hgood mem
      have hclear : Clear dst src (0 + n.toNat) := by
        intro j hj
        rw [hread]
        by_cases hzero : 0 < off src dst
        · have hswap := off_swap hzero
          have hfar : n.toNat ≤ off src dst := by
            by_contra hlt
            rcases hgood with hout | hin
            · exact hout ⟨hzero, by omega⟩
            · exact hway (hdown.mpr ⟨hin.1, hzero, by omega⟩)
          omega
        · have heq : src = dst := by
            have hplus := plus_off src dst
            rw [show off src dst = 0 by omega, plus_zero] at hplus
            exact hplus
          rw [heq, off_self]
          omega
      have hmove := @moveUp_copied mem dst src 0 n.toNat (by omega) hclear
      rwa [show copied mem dst src 0 = mem from copied_zero, plus_zero, plus_zero,
        Nat.zero_add] at hmove

/-- A source that begins far enough behind the destination. -/
theorem disjoint_of_apart (h : n ≤ off dst src) (hend : off dst src + n ≤ 2 ^ 64) :
    Disjoint dst src n := by
  intro i j hi hj heq
  have hoff := congrArg (off dst) heq
  rw [off_plus _ (by omega), off_plus_eq] at hoff
  omega

end Copy

/-- `rt_memset` fills every range.  `rt_memcpy` copies ranges that do not overlap when their length
is an `int`, or an `unsigned int` and both addresses are aligned.  `rt_memmove` moves every range
that does not run around the address space. -/
theorem memRoutines_right (mem : Mem) (dst src : Addr) (c : BitVec 32) (count : BitVec 64) :
    rtMemset mem dst c count = filled mem dst ((c &&& 0xff).setWidth 8) count.toNat ∧
      (Disjoint dst src count.toNat →
        (MemcpyRight dst src count ↔ count.toNat < 2 ^ 31 ∨
          count.toNat < 2 ^ 32 ∧ unaligned src = false ∧ unaligned dst = false)) ∧
      (MemmoveRight dst src count ↔ Movable dst src count) :=
  ⟨rtMemset_filled .., fun h => memcpyRight_iff h, memmoveRight_iff ..⟩

theorem memRoutines_right_memcpy : Disjoint 0x1000 0x2000 100 ∧ MemcpyRight 0x1000 0x2000 100 :=
  have hapart : Disjoint 0x1000 0x2000 100 := disjoint_of_apart (by decide) (by decide)
  ⟨hapart, ((memRoutines_right (fun _ => 0) 0x1000 0x2000 0 100).2.1 hapart).mpr
    (Or.inl (by decide))⟩

/-- A length of 4 GiB is zero as an `int`, and nothing is copied. -/
theorem rtMemcpy_drops_4GiB : Disjoint 0x200000000 0x400000000 0x100000000 ∧
    ¬MemcpyRight 0x200000000 0x400000000 0x100000000 := by
  have hapart : Disjoint 0x200000000 0x400000000 0x100000000 :=
    disjoint_of_apart (by decide) (by decide)
  refine ⟨hapart, ?_⟩
  rw [memcpyRight_iff hapart]
  decide

end RtHypervisor.Ports.MemRoutines
