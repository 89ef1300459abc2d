import RtHypervisor.Ports.MemheapInv

/-!
# When `rt_memheap_alloc` finds no block

It compares the request with `available_size` before it searches, and this test is strict: what
asks for the whole of the last free block is refused.  `memheapAlloc_complete_iff` says when the
answer is that of the blocks.
-/

namespace RtHypervisor.Ports.Memheap

open RtHypervisor.Verified.Run
open RtHypervisor.Ports.SmallMem (rtAlign rtAlignSize)

/-- The requested size rounded up to the alignment, and to the least size. -/
def rounded (size : Nat) : Nat :=
  max ((size + (rtAlignSize - 1)) / rtAlignSize * rtAlignSize) memheapMinialloc

/-- `rt_memheap_alloc` returns `RT_NULL` if and only if no free block is large enough, and then the
heap is as before. -/
def Complete (m : RtMemheap) (bs : List Block) (size : Nat) : Prop :=
  ∃ m' p, rtMemheapAlloc m size = .ok (m', p) ∧
    (p = 0 ↔ ∀ b ∈ bs, b.used = false → b.size < rounded size) ∧ (p = 0 → m' = m)

section Fit

variable {m : RtMemheap} {bs : List Block} {fl : List Nat} {b : Block} {tail size : Nat}

private theorem requested_eq (h : size ≤ 2 ^ 64 - rtAlignSize) : requested size = rounded size := by
  have halign : rtAlign size = (size + (rtAlignSize - 1)) / rtAlignSize * rtAlignSize := by
    simp only [rtAlign, rtAlignSize] at *
    omega
  unfold requested rounded
  simp only
  rw [halign]
  split
  · omega
  · omega

/-- At the end of `rt_size_t` the sum in `RT_ALIGN` wraps around. -/
theorem requested_wrapped (h : 2 ^ 64 - rtAlignSize < size) (hlt : size < 2 ^ 64) :
    requested size = memheapMinialloc := by
  have halign : rtAlign size = 0 := by
    simp only [rtAlign, rtAlignSize] at *
    omega
  unfold requested
  simp only
  rw [halign]
  rfl

private theorem lt_rounded (h : 2 ^ 64 - rtAlignSize < size) : 2 ^ 63 < rounded size := by
  unfold rounded rtAlignSize at *
  omega

/-- A free block is part of what is free. -/
theorem Layout.size_le (h : Layout m bs fl tail) (hb : b ∈ bs) (hfree : b.used = false) :
    b.size ≤ m.availableSize := by
  rw [h.available]
  apply List.single_le_sum (fun _ _ => Nat.zero_le _)
  exact List.mem_map_of_mem (List.mem_filter.mpr ⟨hb, by rw [hfree]; rfl⟩)

/-- What the answer of `rt_memheap_alloc` depends on. -/
theorem Layout.complete_iff (h : Layout m bs fl tail) :
    Complete m bs size ↔
      (Grants m bs size ↔ ∃ b ∈ bs, b.used = false ∧ rounded size ≤ b.size) := by
  obtain ⟨m', p, hok, hcases⟩ := h.alloc size
  have hanswer : p = 0 ↔ ¬Grants m bs size := by
    cases hcases with
    | inl hnone => exact ⟨fun _ => hnone.1, fun _ => hnone.2.2⟩
    | inr hsome =>
        obtain ⟨hgrants, -, c, -, -, rfl, -⟩ := hsome
        exact ⟨fun hnull => absurd hnull c.data_ne, fun hnot => absurd hgrants hnot⟩
  have hsame : p = 0 → m' = m := by
    intro hnull
    cases hcases with
    | inl hnone => exact hnone.2.1
    | inr hsome => exact absurd hsome.1 (hanswer.mp hnull)
  have hblocks : (∀ b ∈ bs, b.used = false → b.size < rounded size) ↔
      ¬∃ b ∈ bs, b.used = false ∧ rounded size ≤ b.size := by
    simp only [not_exists, not_and, Nat.not_le]
  constructor
  · rintro ⟨m₁, p₁, hok₁, hiff, -⟩
    cases hok.symm.trans hok₁
    rw [hanswer, hblocks] at hiff
    exact not_iff_not.mp hiff
  · intro hiff
    refine ⟨m', p, hok, ?_, hsame⟩
    rw [hanswer, hblocks]
    exact not_congr hiff

/-- **When `rt_memheap_alloc` is complete.**  A size that can be rounded up must not be that of a
free block which is all that is available.  One that cannot is taken for the least size: then there
must be no block of this size, or nothing else. -/
theorem memheapAlloc_complete_iff (h : Layout m bs fl tail) (hsize : size < 2 ^ 64) :
    Complete m bs size ↔
      if size ≤ 2 ^ 64 - rtAlignSize then
        ∀ b ∈ bs, b.used = false → b.size = m.availableSize → rounded size ≠ b.size
      else m.availableSize ≤ memheapMinialloc ∨
        ∀ b ∈ bs, b.used = false → b.size < memheapMinialloc := by
  rw [h.complete_iff]
  unfold Grants
  by_cases hfits : size ≤ 2 ^ 64 - rtAlignSize
  · rw [if_pos hfits, requested_eq hfits]
    constructor
    · intro hiff b hb hfree hall heq
      have hgrants := hiff.mpr ⟨b, hb, hfree, heq.le⟩
      omega
    · intro hnot
      refine ⟨fun hgrants => hgrants.2, fun ⟨b, hb, hfree, hle⟩ => ⟨?_, b, hb, hfree, hle⟩⟩
      have hpart := h.size_le hb hfree
      have hother : b.size = m.availableSize → rounded size ≠ b.size := hnot b hb hfree
      omega
  · have hhigh : 2 ^ 64 - rtAlignSize < size := Nat.lt_of_not_le hfits
    have hnone : ¬∃ b ∈ bs, b.used = false ∧ rounded size ≤ b.size := by
      rintro ⟨b, hb, -, hle⟩
      obtain ⟨-, -, hsmall, -⟩ := h.place.block h.blocks hb
      have hlarge := lt_rounded hhigh
      omega
    rw [if_neg hfits, requested_wrapped hhigh hsize, iff_false_right hnone, not_and_or, Nat.not_lt]
    simp only [not_exists, not_and, Nat.not_le]

end Fit

/-- The first free block is too small for 150 bytes and the second is not.  In the smallest pool
there is nothing for a size that cannot be rounded up. -/
theorem memheapAlloc_complete_iff_second :
    (∃ t bs, run step (opened zeros 0x1000 0x1000) [.alloc 100, .alloc 200, .free 0x1030] = .ok t ∧
      Complete t.heap bs 150 ∧ (rtMemheapAlloc t.heap 150).map Prod.snd = .ok 0x11bc) ∧
    Complete (rtMemheapInit zeros 0x1000 108) [wholePool 0x1000 108] (2 ^ 64 - 1) := by
  have hsmall : Pool zeros 0x1000 108 := ⟨by decide, by decide, by decide, by decide, by decide⟩
  constructor
  · have hcalled : Guarded step Called (opened zeros 0x1000 0x1000)
        [.alloc 100, .alloc 200, .free 0x1030] := by decide +kernel
    have hlow : Guarded step NoWrap (opened zeros 0x1000 0x1000)
        [.alloc 100, .alloc 200, .free 0x1030] := by decide +kernel
    have hgiven : (run step (opened zeros 0x1000 0x1000) [.alloc 100, .alloc 200, .free 0x1030]).map
        (fun t => (t.heap.availableSize, (rtMemheapAlloc t.heap 150).map Prod.snd)) =
          .ok (3704, .ok 0x11bc) := by decide +kernel
    obtain ⟨t, hrun, ht⟩ := exists_of_map_eq_ok hgiven
    obtain ⟨havailable, hpointer⟩ := Prod.mk.inj ht
    obtain ⟨t', hrun', bs, fl, hlayout, -, -⟩ := zeros_pool.run (Called.caller hcalled) hlow
    cases hrun.symm.trans hrun'
    refine ⟨t, bs, hrun, (memheapAlloc_complete_iff hlayout (by decide)).mpr ?_, hpointer⟩
    intro b _ _ hall
    rw [hall, havailable]
    decide
  · exact (memheapAlloc_complete_iff hsmall.layout (by decide)).mpr (Or.inl (by decide))

/-- The only free block has 4000 bytes, and a request for them is refused. -/
theorem whole_refused : ∃ bs fl, Layout (rtMemheapInit zeros 0x1000 0x1000) bs fl 0x1fd0 ∧
    ¬Complete (rtMemheapInit zeros 0x1000 0x1000) bs 4000 := by
  refine ⟨_, _, zeros_pool.layout, ?_⟩
  rw [zeros_pool.layout.complete_iff]
  intro hiff
  have hgrants : Grants (rtMemheapInit zeros 0x1000 0x1000) [wholePool 0x1000 0x1000] 4000 :=
    hiff.mpr ⟨wholePool 0x1000 0x1000, List.mem_singleton_self _, rfl, by decide⟩
  exact absurd hgrants.1 (by decide)

end RtHypervisor.Ports.Memheap
