import Mathlib.Data.List.Chain
import Mathlib.Tactic
import RtHypervisor.Ports.SmallMem
import RtHypervisor.Verified.Tiling

/-!
# The heap as a list of blocks

What `mem.c` maintains, without the headers: a list of blocks, each used or free, in the
order of their addresses.  `Tiled m bs` says that the headers of `m` spell out `bs`;
`firstFree` and `usedTotal` are what `lfree` and `used` stand for.

Every operation replaces a few neighbouring blocks by others of the same total size.
`Tiled.replace` is the one lemma about headers this needs.
-/

namespace RtHypervisor.Ports.SmallMem

open RtHypervisor.Verified.Run
open RtHypervisor.Verified.Tiling

/-- An item, its header included. -/
structure Block where
  size : Nat
  used : Bool
deriving DecidableEq, Repr

/-- The header of a block. -/
def headOf (addr : Nat) (b : Block) (next prev : Nat) : Item :=
  ⟨if b.used then memUsed addr else memFreed addr, next, prev⟩

/-- The items linked by `next` from the start of the heap to `heap_end`, with `prev` the
way back. -/
structure Tiled (m : RtSmallMem) (bs : List Block) : Prop where
  seg : ∃ p, Seg Block.size (headOf m.addr) m.items bs 0 0 p m.heapEnd
  last : (m.items m.heapEnd).poolPtr = memUsed m.addr
  sizes : ∀ b ∈ bs, sizeofStructMem < b.size ∧ b.size % rtAlignSize = 0

/-- No two neighbours are both free. -/
def Coalesced (bs : List Block) : Prop :=
  bs.IsChain fun a b => a.used = true ∨ b.used = true

/-- The offset of the lowest free block, or the end. -/
def firstFree : Nat → List Block → Nat
  | o, [] => o
  | o, b :: bs => if b.used then firstFree (o + b.size) bs else o

/-- The size of the used blocks, headers included. -/
def usedTotal (bs : List Block) : Nat := total Block.size (bs.filter (·.used))

/-- The used blocks, as offset and size. -/
def usedBlocks : Nat → List Block → List (Nat × Nat)
  | _, [] => []
  | o, b :: bs =>
      if b.used then (o, b.size) :: usedBlocks (o + b.size) bs else usedBlocks (o + b.size) bs

/-! ## Lists of blocks -/

section Blocks

variable {bs cs : List Block} {b c : Block} {o : Nat}

theorem firstFree_used (h : ∀ b ∈ bs, b.used = true) :
    firstFree o (bs ++ cs) = firstFree (o + total Block.size bs) cs := by
  induction bs generalizing o with
  | nil => simp
  | cons b bs ih =>
      have hb := h b (List.mem_cons_self ..)
      rw [List.cons_append, firstFree, if_pos hb,
        ih fun c hc => h c (List.mem_cons_of_mem b hc), total_cons, Nat.add_assoc]

theorem firstFree_append_of_free (h : ∃ b ∈ bs, b.used = false) :
    firstFree o (bs ++ cs) = firstFree o bs := by
  induction bs generalizing o with
  | nil => simp at h
  | cons b bs ih =>
      rw [List.cons_append, firstFree, firstFree]
      by_cases hb : b.used = true
      · obtain ⟨c, hc, hfree⟩ := h
        have hc' : c ∈ bs := by
          rcases List.mem_cons.mp hc with rfl | hc
          · rw [hb] at hfree
            cases hfree
          · exact hc
        rw [if_pos hb, if_pos hb, ih ⟨c, hc', hfree⟩]
      · rw [if_neg hb, if_neg hb]

theorem le_firstFree : o ≤ firstFree o bs := by
  induction bs generalizing o with
  | nil => exact Nat.le_refl o
  | cons b bs ih =>
      rw [firstFree]
      split
      · exact Nat.le_trans (Nat.le_add_right o b.size) ih
      · exact Nat.le_refl o

theorem firstFree_le : firstFree o bs ≤ o + total Block.size bs := by
  induction bs generalizing o with
  | nil => exact Nat.le_refl o
  | cons b bs ih =>
      rw [firstFree, total_cons]
      split
      · have h := ih (o := o + b.size)
        omega
      · omega

/-- The blocks before the lowest free one are used. -/
theorem firstFree_split (bs : List Block) (o : Nat) :
    ∃ pre rest, bs = pre ++ rest ∧ (∀ b ∈ pre, b.used = true) ∧
      firstFree o bs = o + total Block.size pre ∧ ∀ b ∈ rest.head?, b.used = false := by
  induction bs generalizing o with
  | nil => exact ⟨[], [], rfl, by simp, rfl, by simp⟩
  | cons b bs ih =>
      by_cases hb : b.used = true
      · obtain ⟨pre, rest, heq, hused, hfirst, hhead⟩ := ih (o + b.size)
        refine ⟨b :: pre, rest, by rw [heq]; rfl, ?_, ?_, hhead⟩
        · intro c hc
          rcases List.mem_cons.mp hc with rfl | hc
          · exact hb
          · exact hused c hc
        · rw [firstFree, if_pos hb, hfirst, total_cons]
          omega
      · refine ⟨[], b :: bs, rfl, by simp, ?_, ?_⟩
        · rw [firstFree, if_neg hb]
          rfl
        · intro c hc
          rw [List.head?_cons, Option.mem_some_iff] at hc
          rw [← hc]
          simpa using hb

theorem usedTotal_append : usedTotal (bs ++ cs) = usedTotal bs + usedTotal cs := by
  simp [usedTotal]

@[simp] theorem usedTotal_nil : usedTotal [] = 0 := rfl

theorem usedTotal_cons :
    usedTotal (b :: bs) = (if b.used then b.size else 0) + usedTotal bs := by
  unfold usedTotal
  cases hb : b.used with
  | true => simp [hb]
  | false => simp [hb]

theorem usedTotal_le : usedTotal bs ≤ total Block.size bs := by
  induction bs with
  | nil => exact Nat.le_refl 0
  | cons b bs ih =>
      rw [usedTotal_cons, total_cons]
      split
      · omega
      · omega

theorem usedBlocks_append : usedBlocks o (bs ++ cs) =
    usedBlocks o bs ++ usedBlocks (o + total Block.size bs) cs := by
  induction bs generalizing o with
  | nil => rfl
  | cons b bs ih =>
      rw [List.cons_append, usedBlocks, usedBlocks, ih, total_cons, Nat.add_assoc]
      split
      · rfl
      · rfl

/-- A used block starts at or after `o` and ends with the interval. -/
theorem usedBlocks_bounds {r : Nat × Nat} (h : r ∈ usedBlocks o bs) :
    o ≤ r.1 ∧ r.1 + r.2 ≤ o + total Block.size bs := by
  induction bs generalizing o with
  | nil => simp [usedBlocks] at h
  | cons b bs ih =>
      rw [total_cons]
      rw [usedBlocks] at h
      split at h
      · rcases List.mem_cons.mp h with rfl | h
        · exact ⟨Nat.le_refl o, by simp only; omega⟩
        · have hb := ih h
          omega
      · have hb := ih h
        omega

/-- The used blocks come in the order of their addresses. -/
theorem usedBlocks_pairwise : (usedBlocks o bs).Pairwise fun r s => r.1 + r.2 ≤ s.1 := by
  induction bs generalizing o with
  | nil => exact List.Pairwise.nil
  | cons b bs ih =>
      rw [usedBlocks]
      split
      · refine List.pairwise_cons.mpr ⟨?_, ih⟩
        intro s hs
        exact (usedBlocks_bounds hs).1
      · exact ih

/-- Where a used block lies in the list. -/
theorem usedBlocks_split {r : Nat × Nat} (h : r ∈ usedBlocks o bs) :
    ∃ pre b post, bs = pre ++ b :: post ∧ b.used = true ∧ b.size = r.2 ∧
      r.1 = o + total Block.size pre := by
  induction bs generalizing o with
  | nil => simp [usedBlocks] at h
  | cons b bs ih =>
      rw [usedBlocks] at h
      have hlater : r ∈ usedBlocks (o + b.size) bs →
          ∃ pre c post, b :: bs = pre ++ c :: post ∧ c.used = true ∧ c.size = r.2 ∧
            r.1 = o + total Block.size pre := by
        intro h
        obtain ⟨pre, c, post, heq, hc, hsize, hoff⟩ := ih h
        refine ⟨b :: pre, c, post, by rw [heq]; rfl, hc, hsize, ?_⟩
        rw [hoff, total_cons]
        omega
      split at h
      · rename_i hb
        rcases List.mem_cons.mp h with rfl | h
        · exact ⟨[], b, bs, rfl, hb, rfl, rfl⟩
        · exact hlater h
      · exact hlater h

end Blocks

/-! ## `pool_ptr` -/

@[simp] theorem memIsUsed_used (addr next prev : Nat) :
    memIsUsed ⟨memUsed addr, next, prev⟩ = true := by
  have hbit : (memUsed addr &&& 1).getLsbD 0 = true := by simp [memUsed]
  have hne : memUsed addr &&& 1 ≠ 0 := by
    intro heq
    rw [heq] at hbit
    simp at hbit
  simpa [memIsUsed] using hne

private theorem memFreed_eq (addr : Nat) : memFreed addr = BitVec.ofNat 64 addr &&& memMask :=
  BitVec.or_zero

@[simp] theorem memIsUsed_freed (addr next prev : Nat) :
    memIsUsed ⟨memFreed addr, next, prev⟩ = false := by
  have hzero : memFreed addr &&& 1#64 = 0#64 := by
    have hmask : memMask &&& 1#64 = 0#64 := by decide
    rw [memFreed_eq, BitVec.and_assoc, hmask, BitVec.and_zero]
  simp [memIsUsed, hzero]

theorem memIsUsed_of_pool {item : Item} {addr : Nat} (h : item.poolPtr = memUsed addr) :
    memIsUsed item = true := by
  rw [← memIsUsed_used addr item.next item.prev]
  simp only [memIsUsed, h]

@[simp] theorem memIsUsed_headOf (addr : Nat) (b : Block) (next prev : Nat) :
    memIsUsed (headOf addr b next prev) = b.used := by
  cases hb : b.used with
  | true => simp [headOf, hb]
  | false => simp [headOf, hb]

/-- Below 4 GB the mask keeps an even address. -/
theorem addr_and_memMask {addr : Nat} (hlt : addr < 2 ^ 32) (heven : addr % rtAlignSize = 0) :
    BitVec.ofNat 64 addr &&& memMask = BitVec.ofNat 64 addr := by
  apply BitVec.eq_of_getLsbD_eq
  intro i hi
  have hmask : memMask.getLsbD i = (decide (0 < i) && decide (i < 32)) := by
    show (BitVec.ofNat 64 0xfffffffe).getLsbD i = _
    interval_cases i <;> decide
  rw [BitVec.getLsbD_and, hmask, BitVec.getLsbD_ofNat]
  by_cases h0 : i = 0
  · have hbit : addr.testBit 0 = false := by
      rw [Nat.testBit_zero]
      have hmod : addr % 4 = 0 := heven
      have : addr % 2 = 0 := by omega
      simp [this]
    simp [h0, hbit]
  · by_cases h32 : i < 32
    · have hpos : 0 < i := Nat.pos_of_ne_zero h0
      simp [hpos, h32]
    · have hbit : addr.testBit i = false := by
        apply Nat.testBit_lt_two_pow
        exact Nat.lt_of_lt_of_le hlt (Nat.pow_le_pow_right (by decide) (by omega))
      simp [hbit]

theorem memPool_of_pool {item : Item} {addr : Nat} (hlt : addr < 2 ^ 32)
    (heven : addr % rtAlignSize = 0)
    (h : item.poolPtr = memUsed addr ∨ item.poolPtr = memFreed addr) :
    memPool item = BitVec.ofNat 64 addr := by
  have haddr := addr_and_memMask hlt heven
  rcases h with h | h
  · have hone : (1 : BitVec 64) &&& memMask = 0#64 := by decide
    rw [memPool, h, memUsed, haddr, BitVec.and_or_distrib_right, haddr, hone, BitVec.or_zero]
  · rw [memPool, h, memFreed_eq, haddr, haddr]

/-! ## Headers -/

section Headers

variable {m m' : RtSmallMem} {pre mid mid' post bs : List Block} {b : Block}

theorem getItem_ok {off : Nat} (h : off ≤ m.heapEnd) : getItem m off = .ok (m.items off) := by
  simp only [getItem, h, decide_true, check_true, ok_bind]
  rfl

theorem modifyItem_ok {off : Nat} (h : off ≤ m.heapEnd) (f : Item → Item) :
    modifyItem m off f =
      .ok { m with items := Function.update m.items off (f (m.items off)) } := by
  simp only [modifyItem, h, decide_true, check_true, ok_bind]
  rfl

theorem Tiled.pos (h : Tiled m bs) : ∀ b ∈ bs, 0 < b.size := by
  intro b hb
  have hsize := (h.sizes b hb).1
  omega

theorem Tiled.heapEnd_eq (h : Tiled m bs) : m.heapEnd = total Block.size bs := by
  obtain ⟨p, hseg⟩ := h.seg
  rw [hseg.end_eq, Nat.zero_add]

/-- The pieces of a tiled heap around some of its blocks. -/
theorem Tiled.cut (h : Tiled m (pre ++ mid ++ post)) :
    ∃ p q r, Seg Block.size (headOf m.addr) m.items pre 0 0 p (total Block.size pre) ∧
      Seg Block.size (headOf m.addr) m.items mid p (total Block.size pre) q
        (total Block.size pre + total Block.size mid) ∧
      Seg Block.size (headOf m.addr) m.items post q
        (total Block.size pre + total Block.size mid) r m.heapEnd := by
  obtain ⟨r, hseg⟩ := h.seg
  rw [seg_append] at hseg
  obtain ⟨q, o₂, hleft, hpost⟩ := hseg
  rw [seg_append] at hleft
  obtain ⟨p, o₁, hpre, hmid⟩ := hleft
  have ho₁ := hpre.end_eq
  have ho₂ := hmid.end_eq
  rw [Nat.zero_add] at ho₁
  rw [ho₁] at ho₂ hmid hpre
  rw [ho₂] at hmid hpost
  exact ⟨p, q, r, hpre, hmid, hpost⟩

/-- Replace some neighbouring blocks.  Below them nothing changes, and after them only the
way back from the block that follows, if there is one. -/
theorem Tiled.replace (h : Tiled m (pre ++ mid ++ post)) (haddr : m'.addr = m.addr)
    (hend : m'.heapEnd = m.heapEnd) {p q : Nat}
    (hpre : Seg Block.size (headOf m.addr) m.items pre 0 0 p (total Block.size pre))
    (hmid : Seg Block.size (headOf m.addr) m'.items mid' p (total Block.size pre) q
      (total Block.size pre + total Block.size mid))
    (hsizes : ∀ b ∈ mid', sizeofStructMem < b.size ∧ b.size % rtAlignSize = 0)
    (hlow : ∀ x, x < total Block.size pre → m'.items x = m.items x)
    (hseam : post ≠ [] → m'.items (total Block.size pre + total Block.size mid) =
      { m.items (total Block.size pre + total Block.size mid) with prev := q })
    (hlast : (m'.items m.heapEnd).poolPtr = (m.items m.heapEnd).poolPtr)
    (hhigh : ∀ x, total Block.size pre + total Block.size mid < x → x < m.heapEnd →
      m'.items x = m.items x) :
    Tiled m' (pre ++ mid' ++ post) := by
  obtain ⟨_, qold, r, -, -, hpost⟩ := h.cut
  have hpos := h.pos
  have hpre' : Seg Block.size (headOf m.addr) m'.items pre 0 0 p (total Block.size pre) :=
    hpre.frame (fun b hb => hpos b (by simp [hb])) fun x _ hx => hlow x hx
  have hpost' : ∃ r', Seg Block.size (headOf m.addr) m'.items post q
      (total Block.size pre + total Block.size mid) r' m.heapEnd := by
    cases post with
    | nil => exact ⟨q, rfl, hpost.2⟩
    | cons c post =>
        refine ⟨r, hpost.relink (fun b hb => hpos b ?_) ?_ hhigh⟩
        · exact List.mem_append_right _ hb
        · rw [hseam (by simp), hpost.1]
          rfl
  obtain ⟨r', hpost'⟩ := hpost'
  refine ⟨⟨r', ?_⟩, ?_, ?_⟩
  · rw [haddr, hend, seg_append]
    refine ⟨q, _, ?_, hpost'⟩
    rw [seg_append]
    exact ⟨p, _, hpre', hmid⟩
  · rw [hend, haddr, hlast]
    exact h.last
  · intro b hb
    rcases List.mem_append.mp hb with hb | hb
    · rcases List.mem_append.mp hb with hb | hb
      · exact h.sizes b (by simp [hb])
      · exact hsizes b hb
    · exact h.sizes b (by simp [hb])

/-- The header of a block. -/
theorem Tiled.header (h : Tiled m (pre ++ b :: post)) :
    ∃ p, m.items (total Block.size pre) =
        headOf m.addr b (total Block.size pre + b.size) p ∧
      Seg Block.size (headOf m.addr) m.items pre 0 0 p (total Block.size pre) := by
  have h' : Tiled m (pre ++ [b] ++ post) := by simpa using h
  obtain ⟨p, q, r, hpre, hmid, -⟩ := h'.cut
  exact ⟨p, hmid.1, hpre⟩

theorem Tiled.offset_lt (h : Tiled m (pre ++ b :: post)) :
    total Block.size pre + b.size ≤ m.heapEnd := by
  rw [h.heapEnd_eq, total_append, total_cons]
  omega

/-- The successor of a block leads back to it. -/
theorem Tiled.next_prev (h : Tiled m (pre ++ b :: post)) (hpost : post ≠ []) :
    (m.items (total Block.size pre + b.size)).prev = total Block.size pre := by
  have h' : Tiled m (pre ++ [b] ++ post) := by simpa using h
  obtain ⟨p, q, r, -, hmid, hseg⟩ := h'.cut
  obtain ⟨rfl, -⟩ := hmid.2
  cases post with
  | nil => exact absurd rfl hpost
  | cons c post =>
      have hhead := hseg.1
      simp only [total_cons, total_nil, Nat.add_zero] at hhead
      rw [hhead]
      rfl

/-- The header after a block: of its successor, or the last one. -/
theorem Tiled.next_used (h : Tiled m (pre ++ b :: post)) :
    memIsUsed (m.items (total Block.size pre + b.size)) =
      match post with
      | [] => true
      | c :: _ => c.used := by
  cases post with
  | nil =>
      have hend := h.heapEnd_eq
      simp only [total_append, total_cons, total_nil, Nat.add_zero] at hend
      rw [← hend]
      exact memIsUsed_of_pool h.last
  | cons c post =>
      have h' : Tiled m ((pre ++ [b]) ++ c :: post) := by simpa using h
      obtain ⟨p, hc, -⟩ := h'.header
      simp only [total_append, total_cons, total_nil, Nat.add_zero] at hc
      rw [hc, memIsUsed_headOf]

end Headers

end RtHypervisor.Ports.SmallMem
