import RtHypervisor.Ports.SmallMem
import RtHypervisor.Verified.BitField
import RtHypervisor.Verified.ByteMem

/-!
# Aligned blocks

`rt_malloc_align` takes a block from `rt_malloc` that is larger by the alignment, returns an
aligned address in it and stores the address of the block in the word in front of the one it
returns.  `rt_malloc` aligns to 4 bytes but a pointer has 8, so that the word in front of the
address need not be in the block; and the size it asks for is added up in 64 bits.

What `rt_malloc` returns is a parameter here.
-/

namespace RtHypervisor.Ports.MallocAlign

open RtHypervisor.Verified.BitField
open RtHypervisor.Verified.ByteMem
open RtHypervisor.Verified.Run (Fault)
open RtHypervisor.Ports.SmallMem (rtAlignSize rtSmemInit rtSmemAlloc)

/-- `uintptr_size`, an `int`. -/
def uintptrSize : BitVec 32 := 8 - 1

/-- `(n + uintptr_size) & ~uintptr_size`. -/
def roundPtr (n : BitVec 64) : BitVec 64 :=
  (n + uintptrSize.signExtend 64) &&& (~~~uintptrSize).signExtend 64

/-- `align_size`: what `rt_malloc` is asked for. -/
def alignSize (size align : BitVec 64) : BitVec 64 := roundPtr size + roundPtr align

/-- `align_ptr`, of an alignment that is rounded. -/
def alignPtr (ptr align : BitVec 64) : BitVec 64 :=
  if ptr &&& (align - 1) = 0 then ptr + align else (ptr + (align - 1)) &&& ~~~(align - 1)

/-- `rt_malloc_align`, with `malloc` for `rt_malloc`. -/
def rtMallocAlign (malloc : BitVec 64 → BitVec 64) (m : Mem) (size align : BitVec 64) :
    Mem × BitVec 64 :=
  let ptr := malloc (alignSize size align)
  if ptr ≠ 0 then
    let p := alignPtr ptr (roundPtr align)
    (store64 m (p - 8).toNat ptr, p)
  else (m, ptr)

/-- `rt_free_align`: what it passes to `rt_free`. -/
def rtFreeAlign (m : Mem) (ptr : BitVec 64) : BitVec 64 := load64 m (ptr - 8).toNat

/-- The address is aligned, it and the word in front of it are in the block of `align_size` bytes
at `p`, and whatever is stored in the `size` bytes, the block that is freed is `p`. -/
structure StaysInside (m : Mem) (size align p : BitVec 64) : Prop where
  aligned : align.toNat ∣ (rtMallocAlign (fun _ => p) m size align).2.toNat
  hidden : p.toNat + 8 ≤ (rtMallocAlign (fun _ => p) m size align).2.toNat
  data : (rtMallocAlign (fun _ => p) m size align).2.toNat + size.toNat ≤
    p.toNat + (alignSize size align).toNat
  freed : ∀ m' : Mem, UnchangedOff (fun x =>
      (rtMallocAlign (fun _ => p) m size align).2.toNat ≤ x ∧
        x < (rtMallocAlign (fun _ => p) m size align).2.toNat + size.toNat)
      (rtMallocAlign (fun _ => p) m size align).1 m' →
    rtFreeAlign m' (rtMallocAlign (fun _ => p) m size align).2 = p

/-- The size and the alignment add up, and the block does not start four bytes in front of an
aligned address. -/
def Slack (size p : BitVec 64) (k : Nat) : Prop :=
  (size.toNat + 7) / 8 * 8 + 2 ^ max k 3 < 2 ^ 64 ∧ ¬2 ^ max k 3 ∣ p.toNat + 4

section Arithmetic

variable {size p n : BitVec 64} {k : Nat}

private theorem toNat_roundPtr (n : BitVec 64) :
    (roundPtr n).toNat = (n.toNat + 7) % 2 ^ 64 / 8 * 8 := by
  have hmask : (~~~uintptrSize).signExtend 64 = bits 3 64 := by decide
  have hadd : (n + uintptrSize.signExtend 64).toNat = (n.toNat + 7) % 2 ^ 64 := by
    rw [BitVec.toNat_add]
    rfl
  rw [roundPtr, hmask, toNat_and_bits _ (by decide) (by decide), hadd, Nat.mod_mod]
  rfl

private theorem two_pow_lt (hk : k < 64) : 2 ^ k < 2 ^ 64 := Nat.pow_lt_pow_right (by decide) hk

/-- The alignment is rounded to that of a pointer. -/
theorem roundPtr_two_pow (hk : k < 64) :
    roundPtr (BitVec.ofNat 64 (2 ^ k)) = BitVec.ofNat 64 (2 ^ max k 3) := by
  apply BitVec.eq_of_toNat_eq
  have hk' : max k 3 < 64 := by omega
  rw [toNat_roundPtr, BitVec.toNat_ofNat, BitVec.toNat_ofNat, Nat.mod_eq_of_lt (two_pow_lt hk),
    Nat.mod_eq_of_lt (two_pow_lt hk')]
  by_cases hsmall : k < 3
  · interval_cases k <;> rfl
  · rw [Nat.max_eq_left (by omega)]
    obtain ⟨j, rfl⟩ : ∃ j, k = j + 3 := ⟨k - 3, by omega⟩
    have hle : 2 ^ (j + 3) ≤ 2 ^ 63 := Nat.pow_le_pow_right (by decide) (by omega)
    rw [pow_add] at hle ⊢
    omega

private theorem toNat_alignSize (size : BitVec 64) (hk : k < 64) :
    (alignSize size (BitVec.ofNat 64 (2 ^ k))).toNat =
      ((size.toNat + 7) % 2 ^ 64 / 8 * 8 + 2 ^ max k 3) % 2 ^ 64 := by
  have hk' : max k 3 < 64 := by omega
  rw [alignSize, roundPtr_two_pow hk, BitVec.toNat_add, toNat_roundPtr, BitVec.toNat_ofNat,
    Nat.mod_eq_of_lt (two_pow_lt hk')]

/-- Aligned or not, the address is the first aligned one behind `p`. -/
theorem toNat_alignPtr (hk : k < 64) (hp : p.toNat + 2 ^ k < 2 ^ 64) :
    (alignPtr p (BitVec.ofNat 64 (2 ^ k))).toNat = (p.toNat / 2 ^ k + 1) * 2 ^ k := by
  have hpos := Nat.two_pow_pos k
  have hlow : BitVec.ofNat 64 (2 ^ k) - 1 = BitVec.ofNat 64 (2 ^ k - 1) := by
    apply BitVec.eq_of_toNat_eq
    have hlt := two_pow_lt hk
    rw [BitVec.toNat_sub, BitVec.toNat_ofNat, BitVec.toNat_ofNat, Nat.mod_eq_of_lt hlt,
      Nat.mod_eq_of_lt (by omega : 2 ^ k - 1 < 2 ^ 64)]
    show (2 ^ 64 - 1 + 2 ^ k) % 2 ^ 64 = _
    omega
  rw [alignPtr, hlow, not_low hk]
  have hand := toNat_and_low p (k := k) (by omega)
  have hdiv := Nat.div_add_mod p.toNat (2 ^ k)
  have hmod := Nat.mod_lt p.toNat hpos
  by_cases hzero : p &&& BitVec.ofNat 64 (2 ^ k - 1) = 0
  · rw [hzero] at hand
    have hzero' : p.toNat % 2 ^ k = 0 := hand.symm
    rw [if_pos hzero, BitVec.toNat_add, BitVec.toNat_ofNat, Nat.mod_eq_of_lt (two_pow_lt hk),
      Nat.mod_eq_of_lt hp, Nat.add_mul, Nat.one_mul, Nat.mul_comm]
    omega
  · have hne : p.toNat % 2 ^ k ≠ 0 := by
      intro heq
      exact hzero (BitVec.eq_of_toNat_eq (hand.trans heq))
    have hadd : (p + BitVec.ofNat 64 (2 ^ k - 1)).toNat = p.toNat + (2 ^ k - 1) := by
      rw [BitVec.toNat_add, BitVec.toNat_ofNat, Nat.mod_eq_of_lt (by omega : 2 ^ k - 1 < 2 ^ 64)]
      exact Nat.mod_eq_of_lt (by omega)
    rw [if_neg hzero, toNat_and_bits _ (by omega) (by decide), hadd,
      Nat.mod_eq_of_lt (by omega)]
    congr 1
    have hsplit : p.toNat + (2 ^ k - 1) = p.toNat % 2 ^ k - 1 + 2 ^ k * (p.toNat / 2 ^ k + 1) := by
      rw [Nat.mul_add, Nat.mul_one]
      omega
    rw [hsplit, Nat.add_mul_div_left _ _ hpos, Nat.div_eq_of_lt (by omega), Nat.zero_add]

end Arithmetic

section Blocks

variable {m : Mem} {size p : BitVec 64} {k : Nat}

private theorem rtMallocAlign_eq (hp : p ≠ 0) (hk : k < 64) :
    rtMallocAlign (fun _ => p) m size (BitVec.ofNat 64 (2 ^ k)) =
      (store64 m (alignPtr p (BitVec.ofNat 64 (2 ^ max k 3)) - 8).toNat p,
        alignPtr p (BitVec.ofNat 64 (2 ^ max k 3))) := by
  simp only [rtMallocAlign, hp, ne_eq, not_false_eq_true, if_true, roundPtr_two_pow hk]

private theorem alignSize_eq (hk : k < 64)
    (hsum : (size.toNat + 7) / 8 * 8 + 2 ^ max k 3 < 2 ^ 64) :
    (alignSize size (BitVec.ofNat 64 (2 ^ k))).toNat =
      (size.toNat + 7) / 8 * 8 + 2 ^ max k 3 := by
  have hpow := Nat.two_pow_pos (max k 3)
  rw [toNat_alignSize size hk, Nat.mod_eq_of_lt (by omega : size.toNat + 7 < 2 ^ 64),
    Nat.mod_eq_of_lt hsum]

private theorem eight_dvd_align (k : Nat) : ∃ a, 2 ^ max k 3 = 8 * a :=
  Nat.pow_dvd_pow 2 (by omega : 3 ≤ max k 3)

/-- The first aligned address behind `p` is eight bytes further, or four. -/
theorem align_far_iff (hp : p.toNat % rtAlignSize = 0) :
    p.toNat + 8 ≤ (p.toNat / 2 ^ max k 3 + 1) * 2 ^ max k 3 ↔ ¬2 ^ max k 3 ∣ p.toNat + 4 := by
  obtain ⟨a, ha⟩ := eight_dvd_align k
  have hpow := Nat.two_pow_pos (max k 3)
  have hdiv := Nat.div_add_mod p.toNat (2 ^ max k 3)
  have hmod := Nat.mod_lt p.toNat hpow
  have hnext : (p.toNat / 2 ^ max k 3 + 1) * 2 ^ max k 3 =
      2 ^ max k 3 * (p.toNat / 2 ^ max k 3) + 2 ^ max k 3 := by
    rw [Nat.mul_comm, Nat.mul_add, Nat.mul_one]
  have hmult : 2 ^ max k 3 * (p.toNat / 2 ^ max k 3) = 8 * (a * (p.toNat / 2 ^ max k 3)) := by
    rw [ha, Nat.mul_assoc]
  rw [rtAlignSize] at hp
  constructor
  · intro hfar hdvd
    obtain ⟨c, hc⟩ : 2 ^ max k 3 ∣ (p.toNat / 2 ^ max k 3 + 1) * 2 ^ max k 3 - (p.toNat + 4) :=
      Nat.dvd_sub (Dvd.intro_left _ rfl) hdvd
    cases c with
    | zero => omega
    | succ c =>
        rw [Nat.mul_add, Nat.mul_one] at hc
        omega
  · intro hgap
    by_contra hnear
    refine hgap ⟨p.toNat / 2 ^ max k 3 + 1, ?_⟩
    rw [Nat.mul_comm]
    omega

/-- With slack, everything is inside. -/
theorem Slack.inside (hp : p.toNat % rtAlignSize = 0) (hpos : p ≠ 0) (hk : k < 64)
    (hfit : p.toNat + (alignSize size (BitVec.ofNat 64 (2 ^ k))).toNat < 2 ^ 64)
    (h : Slack size p k) : StaysInside m size (BitVec.ofNat 64 (2 ^ k)) p := by
  obtain ⟨hsum, hgap⟩ := h
  have hK : max k 3 < 64 := by omega
  have hsize := alignSize_eq hk hsum
  rw [hsize] at hfit
  have hq := toNat_alignPtr (p := p) hK (by omega)
  have hfar := (align_far_iff hp).mpr hgap
  have hend : (p.toNat / 2 ^ max k 3 + 1) * 2 ^ max k 3 ≤ p.toNat + 2 ^ max k 3 := by
    have hle := Nat.div_mul_le_self p.toNat (2 ^ max k 3)
    rw [Nat.add_mul, Nat.one_mul]
    omega
  refine ⟨?_, ?_, ?_, fun m' hm' => ?_⟩
  · rw [rtMallocAlign_eq hpos hk, BitVec.toNat_ofNat, Nat.mod_eq_of_lt (two_pow_lt hk)]
    simp only [hq]
    exact (Nat.pow_dvd_pow 2 (Nat.le_max_left k 3)).mul_left _
  · rw [rtMallocAlign_eq hpos hk]
    simp only [hq]
    exact hfar
  · rw [rtMallocAlign_eq hpos hk, hsize]
    simp only [hq]
    omega
  · rw [rtMallocAlign_eq hpos hk] at hm' ⊢
    simp only [hq] at hm'
    have hword : (alignPtr p (BitVec.ofNat 64 (2 ^ max k 3)) - 8).toNat =
        (p.toNat / 2 ^ max k 3 + 1) * 2 ^ max k 3 - 8 := by
      rw [BitVec.toNat_sub_of_le (by rw [BitVec.le_def, hq]; show 8 ≤ _; omega), hq]
      rfl
    rw [rtFreeAlign, hm'.load64_eq, load64_store64_self]
    intro i hi
    rw [hword]
    omega

/-- What stays inside has slack. -/
theorem StaysInside.slack (hp : p.toNat % rtAlignSize = 0) (hpos : p ≠ 0) (hk : k < 64)
    (hfit : p.toNat + (alignSize size (BitVec.ofNat 64 (2 ^ k))).toNat < 2 ^ 64)
    (h : StaysInside m size (BitVec.ofNat 64 (2 ^ k)) p) : Slack size p k := by
  have hK : max k 3 < 64 := by omega
  have hle : 2 ^ max k 3 ≤ 2 ^ 63 := Nat.pow_le_pow_right (by decide) (by omega)
  have hhidden := h.hidden
  have hdata := h.data
  have hlt := size.isLt
  -- a sum that goes around leaves no room for the size
  have hsum : (size.toNat + 7) / 8 * 8 + 2 ^ max k 3 < 2 ^ 64 := by
    rw [toNat_alignSize size hk] at hdata
    omega
  refine ⟨hsum, ?_⟩
  rw [alignSize_eq hk hsum] at hfit
  have hq := toNat_alignPtr (p := p) hK (by omega)
  rw [rtMallocAlign_eq hpos hk] at hhidden
  simp only [hq] at hhidden
  exact (align_far_iff hp).mp hhidden

/-- **When an aligned block stays inside**: for every size, every alignment that is a power of
two and every block that `rt_malloc` may return. -/
theorem malloc_align_iff (hk : k < 64) (hp : p.toNat % rtAlignSize = 0) (hpos : p ≠ 0)
    (hfit : p.toNat + (alignSize size (BitVec.ofNat 64 (2 ^ k))).toNat < 2 ^ 64) :
    StaysInside m size (BitVec.ofNat 64 (2 ^ k)) p ↔ Slack size p k :=
  ⟨fun h => h.slack hp hpos hk hfit, fun h => h.inside hp hpos hk hfit⟩

end Blocks

/-- Eight bytes aligned to eight, from a block at an aligned address. -/
theorem malloc_align_iff_eight :
    StaysInside (fun _ => 0) 8 (BitVec.ofNat 64 (2 ^ 3)) 0x1000 :=
  (malloc_align_iff (by decide) (by decide) (by decide) (by decide)).mpr
    ⟨by decide, by decide⟩

/-- Behind a block of 28 bytes, the next one is four bytes in front of an aligned address. -/
def secondBlock : Option (Except Fault Nat) :=
  (rtSmemInit (fun _ => ⟨0, 0, 0⟩) 0x1000 0x1000).map fun heap => do
    let (heap, _) ← rtSmemAlloc heap 28
    let (_, p) ← rtSmemAlloc heap (alignSize 8 8).toNat
    pure p

/-- The word with the address of that block is stored in front of the block. -/
theorem hidden_word_outside :
    secondBlock = some (.ok 0x10cc) ∧
      (rtMallocAlign (fun _ => 0x10cc) (fun _ => 0) 8 8).2 = 0x10d0 ∧
      ¬StaysInside (fun _ => 0) 8 8 0x10cc := by
  have hblock : secondBlock = some (.ok 0x10cc) := by decide
  refine ⟨hblock, by decide, fun h => ?_⟩
  have hhidden := h.hidden
  revert hhidden
  decide

end RtHypervisor.Ports.MallocAlign
