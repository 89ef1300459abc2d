import RtHypervisor.Ports.MemheapRealloc

/-!
# Steps of a memory heap

The calls on pointers that are held, and the writes of their owners between the headers.  `Inv` is
what a step keeps (`step_ok`), as long as the test for room in `rt_memheap_realloc` does not wrap
around (`NoWrap`).
-/

namespace RtHypervisor.Ports.Memheap

open RtHypervisor.Verified
open RtHypervisor.Verified.LinkedRing
open RtHypervisor.Verified.Run
open RtHypervisor.Ports.SmallMem (rtAlign rtAlignSize rtAlignDown sub64)

/-- The heap, and the pointers that are held with the sizes that were asked for. -/
structure State where
  heap : RtMemheap
  live : List (Nat × Nat)

/-- A call, or something that is written to the memory of the pool. -/
inductive Op
  | alloc (size : Nat)
  | realloc (ptr newsize : Nat)
  | free (ptr : Nat)
  | store (heap : RtMemheap)

/-- One event.  A `rt_memheap_realloc` that returns `RT_NULL` has freed the block when the size is
0, and kept it otherwise. -/
def step (s : State) : Op → Except Fault State
  | .alloc size => do
      let (m, p) ← rtMemheapAlloc s.heap size
      pure ⟨m, if p = 0 then s.live else (p, size) :: s.live⟩
  | .realloc ptr newsize => do
      let (m, p) ← rtMemheapRealloc s.heap ptr newsize
      let others := s.live.filter fun a => a.1 ≠ ptr
      pure ⟨m, if p ≠ 0 then (p, newsize) :: others else if newsize = 0 then others else s.live⟩
  | .free ptr => do
      let m ← rtMemheapFree s.heap ptr
      pure ⟨m, s.live.filter fun a => a.1 ≠ ptr⟩
  | .store heap => pure { s with heap }

/-- The headers `next` leads to from the first one. -/
inductive Reached (m : RtMemheap) : Nat → Prop
  | first : Reached m m.blockList
  | next {a : Nat} : Reached m a → Reached m (m.next a)

/-- The heap object and the headers are the same. -/
structure SameHeaders (m m' : RtMemheap) : Prop where
  self : m'.self = m.self
  startAddr : m'.startAddr = m.startAddr
  poolSize : m'.poolSize = m.poolSize
  availableSize : m'.availableSize = m.availableSize
  blockList : m'.blockList = m.blockList
  freeList : m'.freeList = m.freeList
  block : ∀ a, Reached m a → m'.magic a = m.magic a ∧ m'.poolPtr a = m.poolPtr a ∧
    m'.next a = m.next a ∧ m'.prev a = m.prev a
  free : ∀ a, Reached m a ∨ a = m.freeList →
    m'.nextFree a = m.nextFree a ∧ m'.prevFree a = m.prevFree a

def Held (s : State) (ptr : Nat) : Prop := ptr = 0 ∨ ∃ a ∈ s.live, a.1 = ptr

/-- What the callers keep to: they pass pointers they hold, or `RT_NULL`, and do not write over a
header. -/
def Caller (s : State) : Op → Prop
  | .alloc _ => True
  | .realloc ptr _ => Held s ptr
  | .free ptr => Held s ptr
  | .store heap => SameHeaders s.heap heap

/-- Where `rt_memheap_realloc` looks for room behind a block, `newsize + RT_MEMHEAP_MINIALLOC` does
not wrap around. -/
def NoWrap (s : State) : Op → Prop
  | .realloc ptr newsize =>
      ptr = 0 ∨ requested newsize + memheapMinialloc < 2 ^ 64 ∨
        isUsed s.heap (s.heap.next (sub64 ptr memheapSize)) = true
  | _ => True

/-! ## The pointers held -/

/-- The pointer to the data of a block. -/
def Block.data (b : Block) : Nat := b.addr + memheapSize

theorem Block.data_ne (b : Block) : b.addr + memheapSize ≠ 0 := by
  have hpos : memheapSize = 48 := rfl
  omega

/-- The pointers held are those of the used blocks, each with room for what was asked. -/
structure Live (live : List (Nat × Nat)) (blocks : List Block) : Prop where
  pointers : (live.map Prod.fst).Perm (blocks.map Block.data)
  room : ∀ a ∈ live, ∃ b ∈ blocks, a.1 = b.data ∧ requested a.2 ≤ b.size

section Live

variable {live : List (Nat × Nat)} {blocks blocks' : List Block} {b c : Block} {n : Nat}

theorem Live.add (h : Live live blocks) (hperm : blocks'.Perm (c :: blocks))
    (hroom : requested n ≤ c.size) : Live ((c.data, n) :: live) blocks' := by
  constructor
  · exact (h.pointers.cons c.data).trans (hperm.map Block.data).symm
  · intro a ha
    cases List.mem_cons.mp ha with
    | inl heq =>
        rw [heq]
        exact ⟨c, hperm.mem_iff.mpr (List.mem_cons_self ..), rfl, hroom⟩
    | inr ha =>
        obtain ⟨d, hd, heq, hsize⟩ := h.room a ha
        exact ⟨d, hperm.mem_iff.mpr (List.mem_cons_of_mem c hd), heq, hsize⟩

theorem Live.remove (h : Live live blocks) (hnodup : (blocks.map Block.data).Nodup)
    (hperm : blocks.Perm (b :: blocks')) :
    Live (live.filter fun a => a.1 ≠ b.data) blocks' := by
  have hdata : (blocks.map Block.data).Perm (b.data :: blocks'.map Block.data) :=
    hperm.map Block.data
  have hnot : b.data ∉ blocks'.map Block.data :=
    (List.nodup_cons.mp (hdata.nodup_iff.mp hnodup)).1
  constructor
  · have hfilter : (live.filter fun a => a.1 ≠ b.data).map Prod.fst =
        (live.map Prod.fst).filter fun p => p ≠ b.data := by
      rw [List.filter_map]
      rfl
    have hkept : (blocks'.map Block.data).filter (fun p => p ≠ b.data) =
        blocks'.map Block.data := by
      apply List.filter_eq_self.mpr
      intro p hp
      exact decide_eq_true (ne_of_mem_of_not_mem hp hnot)
    rw [hfilter]
    refine ((h.pointers.trans hdata).filter _).trans ?_
    rw [List.filter_cons_of_neg (by simp), hkept]
  · intro a ha
    obtain ⟨ha, hne⟩ := List.mem_filter.mp ha
    obtain ⟨d, hd, heq, hsize⟩ := h.room a ha
    cases List.mem_cons.mp (hperm.mem_iff.mp hd) with
    | inl hdb =>
        rw [heq, hdb] at hne
        simp at hne
    | inr hd => exact ⟨d, hd, heq, hsize⟩

/-- No pointer that is held is null. -/
theorem Live.filter_null (h : Live live blocks) : live.filter (fun a => a.1 ≠ 0) = live := by
  apply List.filter_eq_self.mpr
  intro a ha
  obtain ⟨b, -, heq, -⟩ := h.room a ha
  exact decide_eq_true (heq ▸ b.data_ne)

/-- A pointer that is held is that of a used block. -/
theorem Live.block (h : Live live blocks) {ptr : Nat} (hheld : ∃ a ∈ live, a.1 = ptr) :
    ∃ b ∈ blocks, b.data = ptr := by
  obtain ⟨a, ha, rfl⟩ := hheld
  obtain ⟨b, hb, heq, -⟩ := h.room a ha
  exact ⟨b, hb, heq.symm⟩

end Live

/-! ## Writes between the headers -/

section Store

variable {m m' : RtMemheap} {bs : List Block} {fl : List Nat} {tail : Nat}

private theorem reached_chain {l : List Nat} {a : Nat} (h : (a :: l).IsChain (Linked m.next m.prev))
    (ha : Reached m a) : ∀ x ∈ a :: l, Reached m x := by
  induction l generalizing a with
  | nil =>
      intro x hx
      rw [List.mem_singleton.mp hx]
      exact ha
  | cons b l ih =>
      obtain ⟨hlink, hrest⟩ := List.isChain_cons_cons.mp h
      have hb : Reached m b := hlink.1 ▸ ha.next
      intro x hx
      cases List.mem_cons.mp hx with
      | inl heq =>
          rw [heq]
          exact ha
      | inr hx => exact ih hrest hb x hx

/-- Every header is reached. -/
theorem Layout.reached (h : Layout m bs fl tail) : ∀ a ∈ addrs bs tail, Reached m a := by
  obtain ⟨rest, hrest⟩ := h.blocks.tiles.first
  have hring := h.blocks.ring
  rw [hrest] at hring ⊢
  have hstart : Reached m m.startAddr := h.place.blockList ▸ Reached.first
  intro a ha
  apply reached_chain hring.2 hstart a
  rw [← List.cons_append]
  exact List.mem_append_left _ ha

theorem Layout.store (h : Layout m bs fl tail) (hsame : SameHeaders m m') :
    Layout m' bs fl tail := by
  have hblock : ∀ a ∈ addrs bs tail, m'.magic a = m.magic a ∧ m'.poolPtr a = m.poolPtr a ∧
      m'.next a = m.next a ∧ m'.prev a = m.prev a := fun a ha => hsame.block a (h.reached a ha)
  have haddr : ∀ b ∈ bs, b.addr ∈ addrs bs tail := fun b hb =>
    List.mem_append_left _ (List.mem_map_of_mem hb)
  have hfree : ∀ a ∈ m.freeList :: fl,
      m'.nextFree a = m.nextFree a ∧ m'.prevFree a = m.prevFree a := by
    intro a ha
    apply hsame.free
    cases List.mem_cons.mp ha with
    | inl heq => exact Or.inr heq
    | inr ha =>
        obtain ⟨b, hb, -, rfl⟩ := mem_freeAddrs.mp (h.free.mem_iff.mp ha)
        exact Or.inl (h.reached _ (haddr b hb))
  constructor
  · have hplace := h.place
    constructor
    · rw [hsame.startAddr]
      exact hplace.start_pos
    · rw [hsame.startAddr, hsame.poolSize]
      exact hplace.tail_eq
    · rw [hsame.poolSize]
      exact hplace.small
    · rw [hsame.startAddr, hsame.poolSize]
      exact hplace.fits
    · rw [hsame.startAddr, hsame.poolSize, hsame.freeList]
      exact hplace.header
    · rw [hsame.startAddr, hsame.blockList]
      exact hplace.blockList
  · constructor
    · rw [hsame.startAddr]
      exact h.blocks.tiles
    · exact h.blocks.ring.congr (fun a ha => (hblock a ha).2.2.1) fun a ha => (hblock a ha).2.2.2
    · intro b hb
      rw [(hblock _ (haddr b hb)).1]
      exact h.blocks.tags b hb
    · rw [(hblock tail (List.mem_append_right _ (List.mem_singleton_self tail))).1]
      exact h.blocks.tailTag
    · intro b hb
      rw [(hblock _ (haddr b hb)).2.1, hsame.self]
      exact h.blocks.pools b hb
  · unfold FreeRing
    rw [hsame.freeList]
    exact Ring.congr h.ring (fun a ha => (hfree a ha).1) fun a ha => (hfree a ha).2
  · exact h.free
  · exact h.apart
  · rw [hsame.availableSize]
    exact h.available

end Store

/-! ## The invariant -/

/-- The state of the heap between two calls, for a pool from `start` to `tail`. -/
def Inv (start tail : Nat) (s : State) : Prop :=
  ∃ bs fl, Layout s.heap bs fl tail ∧ s.heap.startAddr = start ∧ Live s.live (usedBlocks bs)

section Steps

variable {s : State} {bs : List Block} {fl : List Nat} {start tail : Nat}

theorem Layout.data_nodup {m : RtMemheap} (h : Layout m bs fl tail) :
    ((usedBlocks bs).map Block.data).Nodup := by
  have haddrs : (bs.map Block.addr).Nodup := (List.nodup_append.mp h.blocks.nodup).1
  have hused : ((usedBlocks bs).map Block.addr).Nodup :=
    haddrs.sublist (List.filter_sublist.map Block.addr)
  have hmap : (usedBlocks bs).map Block.data =
      ((usedBlocks bs).map Block.addr).map (· + memheapSize) := by
    rw [List.map_map]
    rfl
  rw [hmap]
  exact hused.map fun a b hab => Nat.add_right_cancel hab

/-- The header of a pointer that is held. -/
theorem Layout.data_header {m : RtMemheap} {b : Block} (h : Layout m bs fl tail)
    (hb : b ∈ usedBlocks bs) : sub64 b.data memheapSize = b.addr := by
  obtain ⟨-, -, -, hfits⟩ := h.place.block h.blocks (mem_usedBlocks.mp hb).1
  have hpos : memheapSize = 48 := rfl
  rw [Block.data, sub64_eq (by omega) (by omega), Nat.add_sub_cancel]

theorem step_alloc (h : Inv start tail s) (size : Nat) :
    ∃ t, step s (.alloc size) = .ok t ∧ Inv start tail t := by
  obtain ⟨bs, fl, hlayout, hstart, hlive⟩ := h
  obtain ⟨m, p, hok, hcases⟩ := hlayout.alloc size
  have hstep : step s (.alloc size) = .ok ⟨m, if p = 0 then s.live else (p, size) :: s.live⟩ := by
    simp only [step, hok, ok_bind]
    rfl
  refine ⟨_, hstep, ?_⟩
  cases hcases with
  | inl hnone =>
      obtain ⟨-, rfl, rfl⟩ := hnone
      exact ⟨bs, fl, hlayout, hstart, hlive⟩
  | inr hsome =>
      obtain ⟨-, hstart', c, bs', fl', rfl, hroom, hlayout', hperm⟩ := hsome
      rw [if_neg c.data_ne]
      exact ⟨bs', fl', hlayout', hstart'.trans hstart, hlive.add hperm hroom⟩

theorem step_free (h : Inv start tail s) {ptr : Nat} (hheld : Held s ptr) :
    ∃ t, step s (.free ptr) = .ok t ∧ Inv start tail t := by
  obtain ⟨bs, fl, hlayout, hstart, hlive⟩ := h
  cases hheld with
  | inl hnull =>
      have hstep : step s (.free ptr) = .ok ⟨s.heap, s.live.filter fun a => a.1 ≠ ptr⟩ := by
        simp only [step, rtMemheapFree, hnull, if_true]
        rfl
      refine ⟨_, hstep, bs, fl, hlayout, hstart, ?_⟩
      rw [hnull, hlive.filter_null]
      exact hlive
  | inr hheld =>
      obtain ⟨b, hb, rfl⟩ := hlive.block hheld
      obtain ⟨m, bs', fl', hok, hstart', hlayout', hperm⟩ := hlayout.release hb
      have hstep : step s (.free b.data) = .ok ⟨m, s.live.filter fun a => a.1 ≠ b.data⟩ := by
        simp only [step, Block.data, hok, ok_bind]
        rfl
      exact ⟨_, hstep, bs', fl', hlayout', hstart'.trans hstart,
        hlive.remove hlayout.data_nodup hperm⟩

theorem step_realloc_eq {m : RtMemheap} {ptr newsize p : Nat}
    (hok : rtMemheapRealloc s.heap ptr newsize = .ok (m, p)) :
    step s (.realloc ptr newsize) = .ok ⟨m,
      if p ≠ 0 then (p, newsize) :: s.live.filter fun a => a.1 ≠ ptr
      else if newsize = 0 then s.live.filter fun a => a.1 ≠ ptr else s.live⟩ := by
  simp only [step, hok, ok_bind]
  rfl

/-- With size 0 `rt_memheap_realloc` releases the block. -/
theorem step_realloc_zero (h : Inv start tail s) {ptr : Nat} (hheld : Held s ptr) :
    ∃ t, step s (.realloc ptr 0) = .ok t ∧ Inv start tail t := by
  obtain ⟨t, hfree, ht⟩ := step_free h hheld
  obtain ⟨m, hok, hpure⟩ := bind_eq_ok.mp hfree
  cases hpure
  have hrealloc : rtMemheapRealloc s.heap ptr 0 = .ok (m, 0) := by
    unfold rtMemheapRealloc
    rw [if_pos rfl, hok]
    rfl
  exact ⟨_, step_realloc_eq hrealloc, ht⟩

/-- Without a block `rt_memheap_realloc` takes one. -/
theorem step_realloc_null (h : Inv start tail s) {newsize : Nat} (hne : newsize ≠ 0) :
    ∃ t, step s (.realloc 0 newsize) = .ok t ∧ Inv start tail t := by
  obtain ⟨bs, fl, hlayout, hstart, hlive⟩ := h
  obtain ⟨m, p, hok, hcases⟩ := hlayout.alloc (requested newsize)
  have hrealloc : rtMemheapRealloc s.heap 0 newsize = .ok (m, p) := by
    unfold rtMemheapRealloc
    rw [if_neg hne, if_pos rfl, hok]
  refine ⟨_, step_realloc_eq hrealloc, ?_⟩
  rw [hlive.filter_null, ite_not]
  cases hcases with
  | inl hnone =>
      obtain ⟨-, rfl, rfl⟩ := hnone
      rw [if_pos rfl, if_neg hne]
      exact ⟨bs, fl, hlayout, hstart, hlive⟩
  | inr hsome =>
      obtain ⟨-, hstart', c, bs', fl', rfl, hroom, hlayout', hperm⟩ := hsome
      rw [requested_requested] at hroom
      rw [if_neg c.data_ne]
      exact ⟨bs', fl', hlayout', hstart'.trans hstart, hlive.add hperm hroom⟩

private theorem step_realloc (h : Inv start tail s) {ptr newsize : Nat} (hheld : Held s ptr)
    (hlow : NoWrap s (.realloc ptr newsize)) :
    ∃ t, step s (.realloc ptr newsize) = .ok t ∧ Inv start tail t := by
  by_cases hzero : newsize = 0
  · rw [hzero]
    exact step_realloc_zero h hheld
  · cases hheld with
    | inl hnull =>
        rw [hnull]
        exact step_realloc_null h hzero
    | inr hheld =>
        obtain ⟨bs, fl, hlayout, hstart, hlive⟩ := h
        obtain ⟨b, hb, rfl⟩ := hlive.block hheld
        have hroom : requested newsize + memheapMinialloc < 2 ^ 64 ∨
            isUsed s.heap (s.heap.next b.addr) = true := by
          rw [← hlayout.data_header hb]
          exact hlow.resolve_left b.data_ne
        obtain ⟨m, p, hok, hcases⟩ := hlayout.realloc hb hzero hroom
        refine ⟨_, step_realloc_eq hok, ?_⟩
        rw [ite_not]
        cases hcases with
        | inl hnone =>
            obtain ⟨rfl, rfl⟩ := hnone
            rw [if_pos rfl, if_neg hzero]
            exact ⟨bs, fl, hlayout, hstart, hlive⟩
        | inr hsome =>
            obtain ⟨hstart', c, bs', fl', rfl, hroom, hlayout', hperm⟩ := hsome
            obtain ⟨pre, post, hsplit⟩ := List.append_of_mem hb
            have hrest : (usedBlocks bs).Perm (b :: (pre ++ post)) := by
              rw [hsplit]
              exact List.perm_middle
            have hnew : (usedBlocks bs').Perm (c :: (pre ++ post)) :=
              List.Perm.cons_inv
                ((hperm.trans (hrest.cons c)).trans (List.Perm.swap b c _))
            rw [if_neg c.data_ne]
            exact ⟨bs', fl', hlayout', hstart'.trans hstart,
              (hlive.remove hlayout.data_nodup hrest).add hnew hroom⟩

/-- Every call keeps the invariant, and fails no assertion. -/
theorem step_ok (s : State) (e : Op) (h : Inv start tail s) (hc : Caller s e)
    (hlow : NoWrap s e) : ∃ t, step s e = .ok t ∧ Inv start tail t := by
  cases e with
  | alloc size => exact step_alloc h size
  | realloc ptr newsize => exact step_realloc h hc hlow
  | free ptr => exact step_free h hc
  | store heap =>
      obtain ⟨bs, fl, hlayout, hstart, hlive⟩ := h
      have hsame : SameHeaders s.heap heap := hc
      exact ⟨_, rfl, bs, fl, hlayout.store hsame, hsame.startAddr.trans hstart, hlive⟩

end Steps

end RtHypervisor.Ports.Memheap
