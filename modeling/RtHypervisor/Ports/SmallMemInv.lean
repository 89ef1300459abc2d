import RtHypervisor.Ports.SmallMemAlloc

/-!
# The heap over a whole run

A run takes the calls of `rt_smem_alloc`, `rt_smem_realloc` and `rt_smem_free` one after the
other, on pointers that were handed out and not given back.  Between two calls the callers
may store what they like where no header is linked.  `HeapOk` is what every state of such a
run satisfies, and no step of it faults: `smem_run` is the run lemma, over `step_ok`.
-/

namespace RtHypervisor.Ports.SmallMem

open RtHypervisor.Verified.Run
open RtHypervisor.Verified.Tiling

/-! ## Runs -/

/-- The heap, and the pointers its callers hold with the sizes they asked for. -/
structure State where
  mem : RtSmallMem
  live : List (Nat × Nat)

/-- One call, or a store of the callers into the memory of the heap. -/
inductive Op
  | alloc (size : Nat)
  | realloc (rmem newsize : Nat)
  | free (rmem : Nat)
  | store (items : Nat → Item)

/-- One event.  A `rt_smem_realloc` that returns `RT_NULL` has freed the block when the
aligned size is 0, and kept it otherwise. -/
def step (s : State) : Op → Except Fault State
  | .alloc size => do
      let (m, p) ← rtSmemAlloc s.mem size
      pure ⟨m, if p = 0 then s.live else (p, size) :: s.live⟩
  | .realloc rmem newsize => do
      let (m, p) ← rtSmemRealloc s.mem rmem newsize
      let others := s.live.filter fun a => a.1 ≠ rmem
      pure ⟨m, if p ≠ 0 then (p, newsize) :: others
        else if rtAlign newsize = 0 then others else s.live⟩
  | .free rmem => do
      let m ← rtSmemFree s.mem rmem
      pure ⟨m, s.live.filter fun a => a.1 ≠ rmem⟩
  | .store items => pure { s with mem := { s.mem with items := items } }

/-- The headers `next` leads to from the start of the heap. -/
inductive Linked (m : RtSmallMem) : Nat → Prop
  | first : Linked m 0
  | next {off : Nat} : Linked m off → off < m.heapEnd → Linked m (m.items off).next

/-- What the callers keep to: they pass pointers they hold, or `RT_NULL`, and do not write
over a header. -/
def Caller (s : State) : Op → Prop
  | .alloc _ => True
  | .realloc rmem _ => rmem = 0 ∨ ∃ a ∈ s.live, a.1 = rmem
  | .free rmem => rmem = 0 ∨ ∃ a ∈ s.live, a.1 = rmem
  | .store items => ∀ off, Linked s.mem off → items off = s.mem.items off

/-- The end of the data of an allocation, from its header. -/
def dataEnd (m : RtSmallMem) (p : Nat) : Nat :=
  m.heapPtr + (m.items (p - sizeofStructMem - m.heapPtr)).next

/-- The state of the heap between two calls. -/
structure HeapOk (s : State) : Prop where
  heap : ∃ bs, Tiled s.mem bs ∧ Coalesced bs ∧ s.mem.lfree = firstFree 0 bs ∧
    s.mem.used = usedTotal bs
  disjoint : s.live.Pairwise fun a b =>
    dataEnd s.mem a.1 ≤ b.1 ∨ dataEnd s.mem b.1 ≤ a.1
  inside : ∀ a ∈ s.live, s.mem.heapPtr ≤ a.1 ∧ a.1 < dataEnd s.mem a.1 ∧
    dataEnd s.mem a.1 ≤ s.mem.heapPtr + s.mem.heapEnd
  fits : ∀ a ∈ s.live, a.2 ≤ 2 ^ 64 - rtAlignSize → a.1 + a.2 ≤ dataEnd s.mem a.1

/-! ## The pointers held -/

/-- The pointer of a used block. -/
def pointer (base : Nat) (r : Nat × Nat) : Nat := base + r.1 + sizeofStructMem

/-- The pointers held are those of the used blocks, each with room for what was asked. -/
structure Live (base : Nat) (live blocks : List (Nat × Nat)) : Prop where
  pointers : (live.map Prod.fst).Perm (blocks.map (pointer base))
  nodup : (blocks.map Prod.fst).Nodup
  room : ∀ a ∈ live, ∀ r ∈ blocks, a.1 = pointer base r →
    a.2 ≤ 2 ^ 64 - rtAlignSize → a.2 + sizeofStructMem ≤ r.2

section Live

variable {base o n size : Nat} {live blocks blocks' rest : List (Nat × Nat)}

private theorem pointer_inj {r r' : Nat × Nat} (h : pointer base r = pointer base r') :
    r.1 = r'.1 := by
  unfold pointer at h
  omega

theorem Live.mem (h : Live base live blocks) {a : Nat × Nat} (ha : a ∈ live) :
    ∃ r ∈ blocks, pointer base r = a.1 := by
  have hmem := h.pointers.mem_iff.mp (List.mem_map_of_mem ha)
  obtain ⟨r, hr, heq⟩ := List.mem_map.mp hmem
  exact ⟨r, hr, heq⟩

/-- A new block. -/
theorem Live.add (h : Live base live rest) (hperm : blocks.Perm ((o, n) :: rest))
    (hnodup : (blocks.map Prod.fst).Nodup)
    (hfit : size ≤ 2 ^ 64 - rtAlignSize → size + sizeofStructMem ≤ n) :
    Live base ((pointer base (o, n), size) :: live) blocks := by
  have hfresh : ∀ r ∈ rest, r.1 ≠ o := by
    have hcons := (hperm.map Prod.fst).nodup_iff.mp hnodup
    rw [List.map_cons, List.nodup_cons] at hcons
    intro r hr heq
    exact hcons.1 (List.mem_map.mpr ⟨r, hr, heq⟩)
  refine ⟨?_, hnodup, ?_⟩
  · have hnew := hperm.map (pointer base)
    exact (h.pointers.cons _).trans hnew.symm
  · intro a ha r hr heq
    rcases List.mem_cons.mp ha with rfl | ha
    · rcases List.mem_cons.mp (hperm.mem_iff.mp hr) with rfl | hr
      · exact hfit
      · exact absurd (pointer_inj heq).symm (hfresh r hr)
    · rcases List.mem_cons.mp (hperm.mem_iff.mp hr) with rfl | hr
      · obtain ⟨r', hr', heq'⟩ := h.mem ha
        exact absurd (pointer_inj (heq'.trans heq)) (hfresh r' hr')
      · exact h.room a ha r hr heq

/-- A block that is given back. -/
theorem Live.remove (h : Live base live blocks) (hperm : blocks.Perm ((o, n) :: rest)) :
    Live base (live.filter fun a => a.1 ≠ pointer base (o, n)) rest := by
  have hcons := (hperm.map Prod.fst).nodup_iff.mp h.nodup
  rw [List.map_cons, List.nodup_cons] at hcons
  have hfresh : ∀ r ∈ rest, pointer base r ≠ pointer base (o, n) := by
    intro r hr heq
    exact hcons.1 (List.mem_map.mpr ⟨r, hr, pointer_inj heq⟩)
  refine ⟨?_, hcons.2, ?_⟩
  · have hfilter := (h.pointers.trans (hperm.map _)).filter fun p => p ≠ pointer base (o, n)
    have hrest : (rest.map (pointer base)).filter (fun p => p ≠ pointer base (o, n)) =
        rest.map (pointer base) := by
      refine List.filter_eq_self.mpr ?_
      intro p hp
      obtain ⟨r, hr, rfl⟩ := List.mem_map.mp hp
      simpa using hfresh r hr
    rw [List.filter_map, List.map_cons, List.filter_cons_of_neg (by simp), hrest] at hfilter
    exact hfilter
  · intro a ha r hr
    exact h.room a (List.mem_filter.mp ha).1 r (hperm.mem_iff.mpr (List.mem_cons_of_mem _ hr))

end Live

/-! ## The invariant -/

/-- What one step needs of the state before it and gives of the state after it. -/
def Inv (s : State) : Prop :=
  Based s.mem ∧ ∃ bs, HeapInv s.mem bs ∧ Live s.mem.heapPtr s.live (usedBlocks 0 bs)

variable {m m' : RtSmallMem} {s : State} {bs bs' : List Block} {r : Nat × Nat}

/-- The header of a used block. -/
theorem Tiled.dataEnd_pointer (h : Tiled m bs) (hr : r ∈ usedBlocks 0 bs) :
    dataEnd m (pointer m.heapPtr r) = m.heapPtr + (r.1 + r.2) := by
  obtain ⟨pre, b, post, rfl, -, hsize, hoff⟩ := usedBlocks_split hr
  obtain ⟨p, hhead, -⟩ := h.header
  have hsub : m.heapPtr + r.1 + sizeofStructMem - sizeofStructMem - m.heapPtr =
      total Block.size pre := by
    omega
  rw [dataEnd, pointer, hsub, hhead, headOf, hsize, hoff, Nat.zero_add]

theorem Tiled.used_size (h : Tiled m bs) (hr : r ∈ usedBlocks 0 bs) :
    sizeofStructMem < r.2 ∧ r.1 + r.2 ≤ m.heapEnd := by
  have hbounds := usedBlocks_bounds hr
  rw [Nat.zero_add, ← h.heapEnd_eq] at hbounds
  obtain ⟨pre, b, post, rfl, -, hsize, -⟩ := usedBlocks_split hr
  have hb := h.size_of_mem.1
  omega

theorem Tiled.used_nodup (h : Tiled m bs) : ((usedBlocks 0 bs).map Prod.fst).Nodup := by
  refine List.pairwise_map.mpr (List.Pairwise.imp_of_mem ?_ usedBlocks_pairwise)
  intro r r' hr _ hle heq
  have hsize := (h.used_size hr).1
  omega

theorem Inv.heapOk (h : Inv s) : HeapOk s := by
  obtain ⟨hm, bs, hinv, hlive⟩ := h
  have hsize := fun r hr => (hinv.tiled).used_size (r := r) hr
  refine ⟨⟨bs, hinv.tiled, hinv.coalesced, hinv.lfree_eq, hinv.used_eq⟩, ?_, ?_, ?_⟩
  · -- the regions of the pointers, in the order of the blocks
    have hblocks : ((usedBlocks 0 bs).map (pointer s.mem.heapPtr)).Pairwise fun p q =>
        dataEnd s.mem p ≤ q ∨ dataEnd s.mem q ≤ p := by
      refine List.pairwise_map.mpr (List.Pairwise.imp_of_mem ?_ usedBlocks_pairwise)
      intro r r' hr _ hle
      left
      rw [hinv.tiled.dataEnd_pointer hr, pointer]
      omega
    have hperm := (hlive.pointers.pairwise_iff fun h => Or.symm h).mpr hblocks
    exact List.pairwise_map.mp hperm
  · intro a ha
    obtain ⟨r, hr, heq⟩ := hlive.mem ha
    have hr' := hsize r hr
    rw [← heq, hinv.tiled.dataEnd_pointer hr, pointer]
    omega
  · intro a ha hfit
    obtain ⟨r, hr, heq⟩ := hlive.mem ha
    have hroom := hlive.room a ha r hr heq.symm hfit
    rw [← heq, hinv.tiled.dataEnd_pointer hr, pointer]
    omega

/-! ## One step -/

theorem Seg.linked {pre : List Block} {p o p' o' : Nat}
    (h : Seg Block.size (headOf m.addr) m.items pre p o p' o') (ho : Linked m o)
    (hpos : ∀ b ∈ pre, 0 < b.size) (hend : o' ≤ m.heapEnd) {items : Nat → Item}
    (hagree : ∀ off, Linked m off → items off = m.items off) :
    Seg Block.size (headOf m.addr) items pre p o p' o' ∧ Linked m o' := by
  induction pre generalizing p o with
  | nil =>
      obtain ⟨rfl, rfl⟩ := h
      exact ⟨⟨rfl, rfl⟩, ho⟩
  | cons b pre ih =>
      have hb := hpos b (List.mem_cons_self ..)
      have hlast := h.2.end_eq
      have hnext : (m.items o).next = o + b.size := by
        rw [h.1]
        rfl
      have ho' : Linked m (o + b.size) := by
        rw [← hnext]
        exact ho.next (by omega)
      obtain ⟨hseg, hlinked⟩ := ih h.2 ho' fun c hc => hpos c (List.mem_cons_of_mem b hc)
      refine ⟨⟨?_, hseg⟩, hlinked⟩
      rw [hagree o ho]
      exact h.1

/-- Stores outside the headers leave the blocks as they are. -/
theorem Tiled.store (h : Tiled m bs) {items : Nat → Item}
    (hagree : ∀ off, Linked m off → items off = m.items off) :
    Tiled { m with items := items } bs := by
  obtain ⟨p, hseg⟩ := h.seg
  obtain ⟨hseg', hend⟩ := Seg.linked hseg .first h.pos (Nat.le_refl _) hagree
  refine ⟨⟨p, hseg'⟩, ?_, h.sizes⟩
  show (items m.heapEnd).poolPtr = memUsed m.addr
  rw [hagree _ hend]
  exact h.last

theorem step_alloc (h : Inv s) (size : Nat) : ∃ t, step s (.alloc size) = .ok t ∧ Inv t := by
  obtain ⟨hm, bs, hinv, hlive⟩ := h
  rcases rtSmemAlloc_spec hm hinv size with hnone | ⟨m', o, n, bs', hrun, hs, hinv', hfit, hperm⟩
  · refine ⟨s, ?_, hm, bs, hinv, hlive⟩
    simp only [step, hnone, ok_bind]
    rfl
  · have hne : ¬s.mem.heapPtr + o + sizeofStructMem = 0 := by
      have hpos := hm.ptr_pos
      omega
    refine ⟨⟨m', (pointer s.mem.heapPtr (o, n), size) :: s.live⟩, ?_, hm.same hs, bs', hinv', ?_⟩
    · simp only [step, hrun, ok_bind, if_neg hne]
      rfl
    · rw [hs.heapPtr]
      refine hlive.add hperm hinv'.tiled.used_nodup ?_
      intro hsize
      have hle := le_rtAlign hsize
      omega

/-- The block of a pointer that is held. -/
theorem Live.block {base : Nat} {live blocks : List (Nat × Nat)} (h : Live base live blocks)
    {rmem : Nat} (hheld : ∃ a ∈ live, a.1 = rmem) :
    ∃ o n, (o, n) ∈ blocks ∧ rmem = base + o + sizeofStructMem := by
  obtain ⟨a, ha, rfl⟩ := hheld
  obtain ⟨⟨o, n⟩, hr, heq⟩ := h.mem ha
  exact ⟨o, n, hr, heq.symm⟩

/-- Nobody holds `RT_NULL`. -/
theorem Live.filter_null {base : Nat} {live blocks : List (Nat × Nat)} (h : Live base live blocks)
    (hpos : 0 < base) : (live.filter fun a => a.1 ≠ 0) = live := by
  refine List.filter_eq_self.mpr ?_
  intro a ha
  obtain ⟨r, -, heq⟩ := h.mem ha
  have hne : a.1 ≠ 0 := by
    rw [← heq, pointer]
    omega
  simpa using hne

theorem step_free (h : Inv s) {rmem : Nat} (hheld : rmem = 0 ∨ ∃ a ∈ s.live, a.1 = rmem) :
    ∃ t, step s (.free rmem) = .ok t ∧ Inv t := by
  obtain ⟨hm, bs, hinv, hlive⟩ := h
  rcases hheld with rfl | hheld
  · refine ⟨s, ?_, hm, bs, hinv, hlive⟩
    simp only [step, rtSmemFree, if_true, hlive.filter_null hm.ptr_pos]
    rfl
  · obtain ⟨o, n, hmem, rfl⟩ := hlive.block hheld
    obtain ⟨m', bs', hrun, hs, hinv', hperm⟩ := rtSmemFree_spec hm hinv hmem
    refine ⟨⟨m', s.live.filter fun a => a.1 ≠ pointer s.mem.heapPtr (o, n)⟩, ?_, hm.same hs, bs',
      hinv', ?_⟩
    · simp only [step, hrun, ok_bind]
      rfl
    · rw [hs.heapPtr]
      exact hlive.remove hperm

/-- `rt_smem_realloc` of `RT_NULL` allocates. -/
theorem rtSmemRealloc_null (hm : Sized m) (newsize : Nat) :
    rtSmemRealloc m 0 newsize =
      if rtAlign newsize > m.memSizeAligned ∨ rtAlign newsize = 0 then .ok (m, 0)
      else rtSmemAlloc m (rtAlign newsize) := by
  simp only [rtSmemRealloc, hm.object, check_true, ok_bind]
  by_cases hbig : rtAlign newsize > m.memSizeAligned
  · rw [if_pos hbig, if_pos (Or.inl hbig)]
    rfl
  by_cases hzero : rtAlign newsize = 0
  · rw [if_neg hbig, if_pos hzero, if_pos (Or.inr hzero)]
    rfl
  · rw [if_neg hbig, if_neg hzero, if_pos trivial, if_neg (not_or.mpr ⟨hbig, hzero⟩)]

/-- The state after a `rt_smem_realloc` that returned. -/
theorem step_realloc_eq {rmem newsize p : Nat} (h : rtSmemRealloc s.mem rmem newsize = .ok (m, p)) :
    step s (.realloc rmem newsize) =
      .ok ⟨m, if p ≠ 0 then (p, newsize) :: s.live.filter fun a => a.1 ≠ rmem
        else if rtAlign newsize = 0 then s.live.filter fun a => a.1 ≠ rmem else s.live⟩ := by
  simp only [step, h, ok_bind]
  rfl

theorem step_realloc_null (h : Inv s) (newsize : Nat) :
    ∃ t, step s (.realloc 0 newsize) = .ok t ∧ Inv t := by
  obtain ⟨hm, bs, hinv, hlive⟩ := h
  have hnull := hlive.filter_null hm.ptr_pos
  have hkept : rtSmemRealloc s.mem 0 newsize = .ok (s.mem, 0) →
      ∃ t, step s (.realloc 0 newsize) = .ok t ∧ Inv t := by
    intro hrun
    refine ⟨_, step_realloc_eq hrun, ?_⟩
    rw [hnull, if_neg (by simp), ite_self]
    exact ⟨hm, bs, hinv, hlive⟩
  have hrun := rtSmemRealloc_null hm.toSized newsize
  by_cases hnone : rtAlign newsize > s.mem.memSizeAligned ∨ rtAlign newsize = 0
  · rw [if_pos hnone] at hrun
    exact hkept hrun
  rw [if_neg hnone] at hrun
  have halign : rtAlign (rtAlign newsize) = rtAlign newsize := by
    have htop := hm.below
    have hend := hm.heapEnd_eq
    exact rtAlign_of_aligned (rtAlign_mod newsize) (by omega)
  rcases rtSmemAlloc_spec hm hinv (rtAlign newsize) with hfail |
    ⟨m', o, n, bs', halloc, hs, hinv', hfit, hperm⟩
  · exact hkept (hrun.trans hfail)
  · have hne : s.mem.heapPtr + o + sizeofStructMem ≠ 0 := by
      have hpos := hm.ptr_pos
      omega
    refine ⟨_, step_realloc_eq (hrun.trans halloc), ?_⟩
    rw [hnull, if_pos hne]
    refine ⟨hm.same hs, bs', hinv', ?_⟩
    show Live m'.heapPtr _ _
    rw [hs.heapPtr]
    refine hlive.add hperm hinv'.tiled.used_nodup ?_
    intro hsize
    have hle := le_rtAlign hsize
    omega

private theorem step_realloc_live (h : Inv s) {rmem : Nat} (hheld : ∃ a ∈ s.live, a.1 = rmem)
    (newsize : Nat) : ∃ t, step s (.realloc rmem newsize) = .ok t ∧ Inv t := by
  obtain ⟨hm, bs, hinv, hlive⟩ := h
  obtain ⟨o, n, hmem, rfl⟩ := hlive.block hheld
  obtain ⟨m', bs', p, hrun, hs, hinv', hcase⟩ := rtSmemRealloc_spec hm hinv hmem newsize
  refine ⟨_, step_realloc_eq hrun, hm.same hs, bs', hinv', ?_⟩
  show Live m'.heapPtr _ _
  rw [hs.heapPtr]
  cases hcase with
  | refused hne hsame =>
      rw [if_neg (by simp), if_neg hne, hsame]
      exact hlive
  | freed hzero hperm =>
      rw [if_neg (by simp), if_pos hzero]
      exact hlive.remove hperm
  | moved hfit hold hnew =>
      have hpos := hm.ptr_pos
      rw [if_pos (by omega)]
      refine (hlive.remove hold).add hnew hinv'.tiled.used_nodup ?_
      intro hsize
      have hle := le_rtAlign hsize
      omega

/-- **One step.**  An event the callers may cause returns and keeps the invariant. -/
theorem step_ok (s : State) (e : Op) (h : Inv s) (hc : Caller s e) :
    ∃ t, step s e = .ok t ∧ Inv t := by
  cases e with
  | alloc size => exact step_alloc h size
  | realloc rmem newsize =>
      rcases hc with rfl | hheld
      · exact step_realloc_null h newsize
      · exact step_realloc_live h hheld newsize
  | free rmem => exact step_free h hc
  | store items =>
      obtain ⟨hm, bs, hinv, hlive⟩ := h
      exact ⟨_, rfl, hm.same ⟨rfl, rfl, rfl, rfl, rfl⟩, bs,
        ⟨hinv.tiled.store hc, hinv.coalesced, hinv.lfree_eq, hinv.used_eq⟩, hlive⟩

/-! ## The whole run -/

/-- Where `rt_smem_init` puts an accepted heap, and its two headers. -/
structure Laid (m : RtSmallMem) (beginAddr size : Nat) : Prop where
  addr_le : beginAddr ≤ m.addr
  addr_aligned : m.addr % rtAlignSize = 0
  heapPtr_eq : m.heapPtr = m.addr + sizeofSmallMem
  heapEnd_eq : m.heapEnd = m.memSizeAligned + sizeofStructMem
  top : m.heapPtr + m.heapEnd + sizeofStructMem ≤ beginAddr + size
  aligned : m.memSizeAligned % rtAlignSize = 0
  first : m.items 0 = ⟨memFreed m.addr, m.heapEnd, 0⟩
  last : m.items m.heapEnd = ⟨memUsed m.addr, m.heapEnd, m.heapEnd⟩
  fields : m.lfree = 0 ∧ m.used = 0 ∧ isMemoryObject m = true

/-- Memory that ends with the address space is refused: its end is taken for 0. -/
theorem rtSmemInit_end_lt {items : Nat → Item} {beginAddr size : Nat}
    (hinit : rtSmemInit items beginAddr size = some m) (hfits : beginAddr + size ≤ 2 ^ 64) :
    beginAddr + size < 2 ^ 64 := by
  rcases Nat.lt_or_eq_of_le hfits with hlt | heq
  · exact hlt
  · simp only [rtSmemInit, heq, Nat.mod_self, rtAlignDown, Nat.zero_mod, Nat.sub_zero,
      Nat.not_lt_zero, gt_iff_lt, false_and, if_false] at hinit
    cases hinit

theorem rtSmemInit_laid {items : Nat → Item} {beginAddr size : Nat}
    (hinit : rtSmemInit items beginAddr size = some m) (hlow : beginAddr < 2 ^ 63)
    (hfits : beginAddr + size ≤ 2 ^ 64) : Laid m beginAddr size := by
  have hlt := rtSmemInit_end_lt hinit hfits
  have hle := le_rtAlign (show beginAddr ≤ 2 ^ 64 - rtAlignSize by simp only [rtAlignSize]; omega)
  have haligned := rtAlign_mod beginAddr
  have hbelow : rtAlign beginAddr < 2 ^ 63 + 4 := by
    simp only [rtAlign, rtAlignSize]
    omega
  simp only [rtSmemInit] at hinit
  generalize rtAlign beginAddr = a at *
  have hstart : (a + sizeofSmallMem) % 2 ^ 64 = a + sizeofSmallMem :=
    Nat.mod_eq_of_lt (by simp only [sizeofSmallMem]; omega)
  have hbegin : rtAlign (a + sizeofSmallMem) = a + sizeofSmallMem := by
    refine rtAlign_of_aligned ?_ ?_
    · simp only [sizeofSmallMem, rtAlignSize] at *
      omega
    · simp only [sizeofSmallMem]
      omega
  have hend : (beginAddr + size) % 2 ^ 64 = beginAddr + size := Nat.mod_eq_of_lt (by omega)
  have hdown : rtAlignDown (beginAddr + size) ≤ beginAddr + size ∧
      rtAlignDown (beginAddr + size) % rtAlignSize = 0 := by
    simp only [rtAlignDown, rtAlignSize]
    omega
  rw [hstart, hend, hbegin] at hinit
  generalize rtAlignDown (beginAddr + size) = e at *
  split at hinit
  · rename_i hcond
    have hsub : sub64 e (2 * sizeofStructMem) = e - 2 * sizeofStructMem :=
      sub64_of_le (by omega) (by omega)
    rw [hsub] at hcond
    have hsize : sub64 (sub64 e (a + sizeofSmallMem)) (2 * sizeofStructMem) =
        e - (a + sizeofSmallMem) - 2 * sizeofStructMem := by
      rw [sub64_of_le (show a + sizeofSmallMem ≤ e by omega) (by omega),
        sub64_of_le (by omega) (by omega)]
    rw [hsize] at hinit
    obtain rfl := Option.some.inj hinit
    have hheader : sizeofStructMem = 32 := rfl
    refine ⟨hle, haligned, rfl, rfl, ?_, ?_, ?_, ?_, rfl, rfl, ?_⟩
    · simp only
      omega
    · simp only [sizeofSmallMem, sizeofStructMem, rtAlignSize] at *
      omega
    · simp only
      rw [Function.update_of_ne (by omega), Function.update_self]
    · simp only
      rw [Function.update_self]
    · show isMemoryObject _ = true
      simp only [isMemoryObject, classMemory, classStatic]
      decide
  · cases hinit

/-- A heap as `rt_smem_init` leaves it: one free block. -/
theorem Laid.heapInv {beginAddr size : Nat} (hlaid : Laid m beginAddr size)
    (hpos : 0 < m.memSizeAligned) : HeapInv m [⟨m.heapEnd, false⟩] := by
  obtain ⟨hlfree, hused, -⟩ := hlaid.fields
  have hend := hlaid.heapEnd_eq
  have hsize := hlaid.aligned
  refine ⟨⟨⟨0, ?_, rfl, ?_⟩, ?_, ?_⟩, List.isChain_singleton _, hlfree, hused⟩
  · rw [hlaid.first, Nat.zero_add]
    rfl
  · rw [Nat.zero_add]
  · rw [hlaid.last]
  · intro b hb
    rw [List.mem_singleton] at hb
    rw [hb]
    simp only [hend, sizeofStructMem, rtAlignSize] at *
    omega

theorem Laid.sized {beginAddr size : Nat} (hlaid : Laid m beginAddr size)
    (hfits : beginAddr + size ≤ 2 ^ 64) : Sized m := by
  have htop := hlaid.top
  have hptr := hlaid.heapPtr_eq
  have haddr := hlaid.addr_aligned
  refine ⟨hlaid.heapEnd_eq, ?_, ?_, by omega, hlaid.fields.2.2⟩
  · simp only [hptr, sizeofSmallMem, rtAlignSize] at *
    omega
  · simp only [hptr, sizeofSmallMem]
    omega

theorem Laid.placed {beginAddr size : Nat} (hlaid : Laid m beginAddr size) (hnull : m.addr ≠ 0)
    (hlow : beginAddr + size ≤ 2 ^ 32) (hroom : minSizeAligned ≤ m.memSizeAligned) :
    Placed m := by
  have hsized := hlaid.sized (Nat.le_trans hlow (by decide))
  have htop := hlaid.top
  have hptr := hlaid.heapPtr_eq
  have hhdr : sizeofStructMem = 32 := rfl
  exact ⟨hsized.heapEnd_eq, hroom, hsized.ptr_aligned, hsized.ptr_pos, by omega, by omega,
    hlaid.addr_aligned, by omega, hsized.object⟩

/-- The heap may reach beyond 4 GB, as long as it does not start there. -/
theorem Laid.inv {beginAddr size : Nat} (hlaid : Laid m beginAddr size) (hnull : m.addr ≠ 0)
    (hlow : m.addr < 2 ^ 32) (hfits : beginAddr + size < 2 ^ 64)
    (hroom : minSizeAligned ≤ m.memSizeAligned) : Inv ⟨m, []⟩ := by
  have hsized := hlaid.sized (Nat.le_of_lt hfits)
  have hmin : minSizeAligned = 24 := rfl
  have hbelow := Nat.lt_of_le_of_lt hlaid.top hfits
  refine ⟨⟨hsized, hbelow, hroom, hlow, hlaid.addr_aligned, Nat.pos_of_ne_zero hnull⟩,
    [⟨m.heapEnd, false⟩], hlaid.heapInv (by omega), ?_⟩
  exact ⟨List.Perm.refl _, List.nodup_nil, by simp⟩

private theorem rtSmemInit_inv {items : Nat → Item} {beginAddr size : Nat}
    (hinit : rtSmemInit items beginAddr size = some m) (hnull : m.addr ≠ 0)
    (hlow : beginAddr + size ≤ 2 ^ 32) (hroom : minSizeAligned ≤ m.memSizeAligned) :
    Inv ⟨m, []⟩ := by
  have hlaid := rtSmemInit_laid hinit (by omega) (Nat.le_trans hlow (by decide))
  have hplaced := hlaid.placed hnull hlow hroom
  exact hlaid.inv hnull hplaced.addr_lt (by omega) hroom

/-- **Every run of the heap.**  In a heap that `rt_smem_init` has accepted below 4 GB with
room for a block, no sequence of calls on pointers handed out fails an assertion, and every
state it passes through is `HeapOk`. -/
theorem smem_run {items : Nat → Item} {beginAddr size : Nat}
    (hinit : rtSmemInit items beginAddr size = some m) (hnull : m.addr ≠ 0)
    (hlow : beginAddr + size ≤ 2 ^ 32) (hroom : minSizeAligned ≤ m.memSizeAligned)
    {ops : List Op} (hcaller : Guarded step Caller ⟨m, []⟩ ops) :
    ∃ t, run step ⟨m, []⟩ ops = .ok t ∧ HeapOk t := by
  have hinv := rtSmemInit_inv hinit hnull hlow hroom
  obtain ⟨t, hrun, ht⟩ := run_inv_of_guarded step_ok hinv hcaller
  exact ⟨t, hrun, ht.heapOk⟩

/-- A heap of one page, and a block that is taken and given back. -/
theorem smem_run_page : ∃ m t, rtSmemInit (fun _ => ⟨0, 0, 0⟩) 0x1000 0x1000 = some m ∧
    run step ⟨m, []⟩ [.alloc 100, .free 0x1090] = .ok t ∧ HeapOk t := by
  have hlive : ∀ m, rtSmemInit (fun _ => ⟨0, 0, 0⟩) 0x1000 0x1000 = some m →
      (step ⟨m, []⟩ (.alloc 100)).map State.live = .ok [(0x1090, 100)] := by
    rintro m hm
    obtain rfl := Option.some.inj hm
    decide
  obtain ⟨m, hinit⟩ : ∃ m, rtSmemInit (fun _ => ⟨0, 0, 0⟩) 0x1000 0x1000 = some m := ⟨_, rfl⟩
  have hnull : m.addr ≠ 0 := by
    obtain rfl := Option.some.inj hinit
    decide
  have hroom : minSizeAligned ≤ m.memSizeAligned := by
    obtain rfl := Option.some.inj hinit
    decide
  have hcaller : Guarded step Caller ⟨m, []⟩ [.alloc 100, .free 0x1090] := by
    refine ⟨trivial, fun t ht => ⟨Or.inr ?_, fun _ _ => trivial⟩⟩
    have hheld := hlive m hinit
    rw [ht] at hheld
    have heq : t.live = [(0x1090, 100)] := Except.ok.inj hheld
    rw [heq]
    exact ⟨(0x1090, 100), by simp, rfl⟩
  obtain ⟨t, hrun, hok⟩ := smem_run hinit hnull (by decide) hroom hcaller
  exact ⟨m, t, hinit, hrun, hok⟩

end RtHypervisor.Ports.SmallMem
