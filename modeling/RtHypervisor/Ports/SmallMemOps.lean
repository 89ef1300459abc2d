import RtHypervisor.Ports.SmallMemBlocks

/-!
# What the heap functions do to the blocks

One specification for each function of `mem.c`, in terms of the list of blocks: marking
changes one block, splitting cuts one in two, `plug_holes` combines a free block with its
free neighbours, and the search of `rt_smem_alloc` finds the first free block with room.
-/

namespace RtHypervisor.Ports.SmallMem

open RtHypervisor.Verified.Run
open RtHypervisor.Verified.Tiling

/-- The parts of the heap object no operation changes. -/
structure SameHeap (m m' : RtSmallMem) : Prop where
  addr : m'.addr = m.addr
  type : m'.type = m.type
  heapPtr : m'.heapPtr = m.heapPtr
  heapEnd : m'.heapEnd = m.heapEnd
  memSizeAligned : m'.memSizeAligned = m.memSizeAligned

theorem SameHeap.refl (m : RtSmallMem) : SameHeap m m := ⟨rfl, rfl, rfl, rfl, rfl⟩

theorem SameHeap.trans {m m' m'' : RtSmallMem} (h : SameHeap m m') (h' : SameHeap m' m'') :
    SameHeap m m'' :=
  ⟨h'.addr.trans h.addr, h'.type.trans h.type, h'.heapPtr.trans h.heapPtr,
    h'.heapEnd.trans h.heapEnd, h'.memSizeAligned.trans h.memSizeAligned⟩

/-- Where `rt_smem_init` has put the heap. -/
structure Placed (m : RtSmallMem) : Prop where
  heapEnd_eq : m.heapEnd = m.memSizeAligned + sizeofStructMem
  room : minSizeAligned ≤ m.memSizeAligned
  ptr_aligned : m.heapPtr % rtAlignSize = 0
  ptr_pos : 0 < m.heapPtr
  top : m.heapPtr + m.heapEnd + sizeofStructMem ≤ 2 ^ 32
  addr_lt : m.addr < 2 ^ 32
  addr_aligned : m.addr % rtAlignSize = 0
  addr_pos : 0 < m.addr
  object : isMemoryObject m = true

theorem Placed.same {m m' : RtSmallMem} (h : Placed m) (hs : SameHeap m m') : Placed m' where
  heapEnd_eq := by rw [hs.heapEnd, hs.memSizeAligned]; exact h.heapEnd_eq
  room := by rw [hs.memSizeAligned]; exact h.room
  ptr_aligned := by rw [hs.heapPtr]; exact h.ptr_aligned
  ptr_pos := by rw [hs.heapPtr]; exact h.ptr_pos
  top := by rw [hs.heapPtr, hs.heapEnd]; exact h.top
  addr_lt := by rw [hs.addr]; exact h.addr_lt
  addr_aligned := by rw [hs.addr]; exact h.addr_aligned
  addr_pos := by rw [hs.addr]; exact h.addr_pos
  object := by
    unfold isMemoryObject
    rw [hs.type]
    exact h.object

/-- The part of this that bounds the offsets, wherever the heap lies. -/
structure Sized (m : RtSmallMem) : Prop where
  heapEnd_eq : m.heapEnd = m.memSizeAligned + sizeofStructMem
  ptr_aligned : m.heapPtr % rtAlignSize = 0
  ptr_pos : 0 < m.heapPtr
  top : m.heapPtr + m.heapEnd + sizeofStructMem ≤ 2 ^ 64
  object : isMemoryObject m = true

theorem Placed.sized {m : RtSmallMem} (h : Placed m) : Sized m :=
  ⟨h.heapEnd_eq, h.ptr_aligned, h.ptr_pos, Nat.le_trans h.top (by decide), h.object⟩

theorem Sized.same {m m' : RtSmallMem} (h : Sized m) (hs : SameHeap m m') : Sized m' where
  heapEnd_eq := by rw [hs.heapEnd, hs.memSizeAligned]; exact h.heapEnd_eq
  ptr_aligned := by rw [hs.heapPtr]; exact h.ptr_aligned
  ptr_pos := by rw [hs.heapPtr]; exact h.ptr_pos
  top := by rw [hs.heapPtr, hs.heapEnd]; exact h.top
  object := by
    unfold isMemoryObject
    rw [hs.type]
    exact h.object

/-- What the operations need: a heap anywhere, as long as its own address passes the mask. -/
structure Based (m : RtSmallMem) : Prop extends Sized m where
  below : m.heapPtr + m.heapEnd + sizeofStructMem < 2 ^ 64
  room : minSizeAligned ≤ m.memSizeAligned
  addr_lt : m.addr < 2 ^ 32
  addr_aligned : m.addr % rtAlignSize = 0
  addr_pos : 0 < m.addr

theorem Placed.based {m : RtSmallMem} (h : Placed m) : Based m :=
  ⟨h.sized, Nat.lt_of_le_of_lt h.top (by decide), h.room, h.addr_lt, h.addr_aligned, h.addr_pos⟩

theorem Based.same {m m' : RtSmallMem} (h : Based m) (hs : SameHeap m m') : Based m' where
  toSized := h.toSized.same hs
  below := by rw [hs.heapPtr, hs.heapEnd]; exact h.below
  room := by rw [hs.memSizeAligned]; exact h.room
  addr_lt := by rw [hs.addr]; exact h.addr_lt
  addr_aligned := by rw [hs.addr]; exact h.addr_aligned
  addr_pos := by rw [hs.addr]; exact h.addr_pos

theorem Sized.heapEnd_lt {m : RtSmallMem} (h : Sized m) : m.heapEnd < 2 ^ 64 := by
  have htop := h.top
  have hpos := h.ptr_pos
  omega

theorem sub64_of_le {a b : Nat} (h : b ≤ a) (ha : a < 2 ^ 64) : sub64 a b = a - b := by
  unfold sub64
  omega

variable {m m' : RtSmallMem} {pre post bs : List Block} {a b c : Block} {o : Nat}

/-! ## Lists again -/

theorem firstFree_append_free (hb : b.used = false) :
    firstFree o (pre ++ b :: post) = firstFree o pre := by
  induction pre generalizing o with
  | nil => simp [firstFree, hb]
  | cons c pre ih =>
      rw [List.cons_append, firstFree, firstFree, ih]

theorem firstFree_eq_of_used (h : ∀ b ∈ bs, b.used = true) :
    firstFree o bs = o + total Block.size bs := by
  have hsplit : firstFree o (bs ++ []) = firstFree (o + total Block.size bs) [] :=
    firstFree_used h
  rw [List.append_nil] at hsplit
  exact hsplit

private theorem total_aligned (h : ∀ b ∈ bs, b.size % rtAlignSize = 0) :
    total Block.size bs % rtAlignSize = 0 := by
  induction bs with
  | nil => rfl
  | cons b bs ih =>
      have hb := h b (List.mem_cons_self ..)
      have hbs := ih fun c hc => h c (List.mem_cons_of_mem b hc)
      rw [total_cons]
      simp only [rtAlignSize] at hb hbs ⊢
      omega

theorem Tiled.offset_aligned (h : Tiled m (pre ++ b :: post)) :
    total Block.size pre % rtAlignSize = 0 :=
  total_aligned fun c hc => (h.sizes c (List.mem_append_left _ hc)).2

theorem Tiled.size_of_mem (h : Tiled m (pre ++ b :: post)) :
    sizeofStructMem < b.size ∧ b.size % rtAlignSize = 0 :=
  h.sizes b (by simp)

/-! ## Changing one block -/

/-- Marking the block at the end of `pre` used or free. -/
theorem Tiled.mark (h : Tiled m (pre ++ b :: post)) {u : Bool}
    (hs : SameHeap m m') (hitems : m'.items = Function.update m.items (total Block.size pre)
      { m.items (total Block.size pre) with
        poolPtr := if u then memUsed m.addr else memFreed m.addr }) :
    Tiled m' (pre ++ { b with used := u } :: post) := by
  have hsize := h.size_of_mem.1
  have hlt := h.offset_lt
  obtain ⟨p, hhead, hpre⟩ := h.header
  have h' : Tiled m (pre ++ [b] ++ post) := by simpa using h
  have hres : Tiled m' (pre ++ [{ b with used := u }] ++ post) := by
    refine h'.replace hs.addr hs.heapEnd hpre (q := total Block.size pre) ?_ ?_ ?_ ?_ ?_ ?_
    · refine ⟨?_, rfl, by simp⟩
      rw [hitems, Function.update_self, hhead]
      rfl
    · intro c hc
      rw [List.mem_singleton] at hc
      rw [hc]
      exact h.size_of_mem
    · intro x hx
      rw [hitems, Function.update_of_ne (by omega)]
    · intro hpost
      have hprev := h.next_prev hpost
      simp only [total_cons, total_nil, Nat.add_zero]
      rw [hitems, Function.update_of_ne (by omega)]
      generalize hnext : m.items (total Block.size pre + b.size) = item at hprev ⊢
      rw [← hprev]
    · rw [hitems, Function.update_of_ne (by omega)]
    · intro x hx _
      simp only [total_cons, total_nil, Nat.add_zero] at hx
      rw [hitems, Function.update_of_ne (by omega)]
  simpa using hres

/-! ## `plug_holes` -/

/-- A free block and the blocks after it, combined with its successor if that is free. -/
def mergeNext (b : Block) : List Block → List Block
  | [] => [b]
  | c :: post => if c.used then b :: c :: post else ⟨b.size + c.size, false⟩ :: post

theorem Tiled.merge (h : Tiled m (pre ++ b :: c :: post)) (hb : b.used = false)
    (hs : SameHeap m m')
    (hhead : m'.items (total Block.size pre) =
      { m.items (total Block.size pre) with
        next := total Block.size pre + b.size + c.size })
    (hseam : m'.items (total Block.size pre + b.size + c.size) =
      { m.items (total Block.size pre + b.size + c.size) with prev := total Block.size pre })
    (hothers : ∀ x, x ≠ total Block.size pre → x ≠ total Block.size pre + b.size →
      x ≠ total Block.size pre + b.size + c.size → m'.items x = m.items x) :
    Tiled m' (pre ++ ⟨b.size + c.size, false⟩ :: post) := by
  have hbsize := (h.sizes b (by simp)).1
  have hcsize := (h.sizes c (by simp)).1
  obtain ⟨p, hfirst, hpre⟩ := h.header
  have h' : Tiled m (pre ++ [b, c] ++ post) := by simpa using h
  have hend := h'.heapEnd_eq
  have htot : total Block.size [b, c] = b.size + c.size := by simp
  simp only [total_append, htot] at hend
  have hres : Tiled m' (pre ++ [⟨b.size + c.size, false⟩] ++ post) := by
    refine h'.replace hs.addr hs.heapEnd hpre (q := total Block.size pre) ?_ ?_ ?_ ?_ ?_ ?_
    · refine ⟨?_, rfl, by simp⟩
      rw [hhead, hfirst]
      simp only [headOf, hb, Nat.add_assoc]
    · intro d hd
      rw [List.mem_singleton] at hd
      have hb4 := (h.sizes b (by simp)).2
      have hc4 := (h.sizes c (by simp)).2
      rw [hd]
      simp only [sizeofStructMem, rtAlignSize] at *
      omega
    · intro x hx
      exact hothers x (by omega) (by omega) (by omega)
    · intro _
      rw [htot, ← Nat.add_assoc]
      exact hseam
    · by_cases hlast : m.heapEnd = total Block.size pre + b.size + c.size
      · rw [hlast, hseam]
      · rw [hothers m.heapEnd (by omega) (by omega) hlast]
    · intro x hx _
      rw [htot] at hx
      exact hothers x (by omega) (by omega) (by omega)
  simpa using hres

/-- The headers after the block at `gone` has been joined to the one at `kept`. -/
def combined (items : Nat → Item) (gone kept next : Nat) : Nat → Item :=
  let items := Function.update items gone { items gone with poolPtr := 0 }
  let items := Function.update items kept { items kept with next := next }
  Function.update items next { items next with prev := kept }

/-- The heap with these headers. -/
def joined (m : RtSmallMem) (gone kept next : Nat) : RtSmallMem :=
  { m with items := combined m.items gone kept next }

private theorem combine_ok {gone kept next : Nat} (hg : gone ≤ m.heapEnd) (hk : kept ≤ m.heapEnd)
    (hn : next ≤ m.heapEnd) :
    (do
      let m ← modifyItem m gone fun it => { it with poolPtr := 0 }
      let m ← modifyItem m kept fun it => { it with next := next }
      modifyItem m next fun it => { it with prev := kept }) =
      .ok (joined m gone kept next) := by
  rw [modifyItem_ok hg, ok_bind, modifyItem_ok (by exact hk), ok_bind,
    modifyItem_ok (by exact hn)]
  rfl

/-- The blocks after a combination. -/
theorem Tiled.combine (h : Tiled m (pre ++ b :: c :: post)) (hb : b.used = false) :
    Tiled (joined m (total Block.size pre + b.size) (total Block.size pre)
      (total Block.size pre + b.size + c.size)) (pre ++ ⟨b.size + c.size, false⟩ :: post) := by
  have hbsize := (h.sizes b (by simp)).1
  have hcsize := (h.sizes c (by simp)).1
  refine h.merge hb ⟨rfl, rfl, rfl, rfl, rfl⟩ ?_ ?_ ?_
  · show combined _ _ _ _ (total Block.size pre) = _
    simp only [combined]
    rw [Function.update_of_ne (by omega), Function.update_self, Function.update_of_ne (by omega)]
  · show combined _ _ _ _ (total Block.size pre + b.size + c.size) = _
    simp only [combined]
    rw [Function.update_self, Function.update_of_ne (by omega), Function.update_of_ne (by omega)]
  · intro x hx₁ hx₂ hx₃
    show combined _ _ _ _ x = _
    simp only [combined]
    rw [Function.update_of_ne hx₃, Function.update_of_ne hx₁, Function.update_of_ne hx₂]

private theorem plugForward_spec (h : Tiled m (pre ++ b :: post)) (hb : b.used = false)
    (hl : m.lfree ≤ total Block.size pre) :
    ∃ m', plugForward m (total Block.size pre) = .ok m' ∧ SameHeap m m' ∧
      m'.lfree = m.lfree ∧ m'.used = m.used ∧ Tiled m' (pre ++ mergeNext b post) := by
  have hsize := h.size_of_mem.1
  have hlt := h.offset_lt
  have hget : getItem m (total Block.size pre) = .ok (m.items (total Block.size pre)) :=
    getItem_ok (by omega)
  obtain ⟨p, hhead, -⟩ := h.header
  have hnext : (m.items (total Block.size pre)).next = total Block.size pre + b.size := by
    rw [hhead]
    rfl
  have hused := h.next_used
  cases post with
  | nil =>
      refine ⟨m, ?_, SameHeap.refl m, rfl, rfl, h⟩
      simp only [plugForward, hget, ok_bind, hnext, getItem_ok hlt, hused]
      simp
      rfl
  | cons c post =>
      cases hc : c.used with
      | true =>
          refine ⟨m, ?_, SameHeap.refl m, rfl, rfl, ?_⟩
          · simp only [hc] at hused
            simp only [plugForward, hget, ok_bind, hnext, getItem_ok hlt, hused]
            simp
            rfl
          · simpa only [mergeNext, hc, if_true] using h
      | false =>
          have h' : Tiled m ((pre ++ [b]) ++ c :: post) := by simpa using h
          have hclt := h'.offset_lt
          have hcsize := h'.size_of_mem.1
          obtain ⟨pc, hchead, -⟩ := h'.header
          simp only [total_append, total_cons, total_nil, Nat.add_zero] at hclt hchead
          have hcnext : (m.items (total Block.size pre + b.size)).next =
              total Block.size pre + b.size + c.size := by
            rw [hchead]
            rfl
          simp only [hc] at hused
          have hcond : total Block.size pre ≠ total Block.size pre + b.size ∧
              ¬memIsUsed (m.items (total Block.size pre + b.size)) = true ∧
              total Block.size pre + b.size ≠ m.heapEnd := by
            refine ⟨by omega, by simp [hused], by omega⟩
          have hlfree : ¬m.lfree = total Block.size pre + b.size := by omega
          refine ⟨joined m (total Block.size pre + b.size) (total Block.size pre)
              (total Block.size pre + b.size + c.size), ?_,
            ⟨rfl, rfl, rfl, rfl, rfl⟩, rfl, rfl, ?_⟩
          · simp only [plugForward, hget, ok_bind, hnext, getItem_ok hlt, if_pos hcond,
              if_neg hlfree, hcnext]
            exact combine_ok hlt (by omega) hclt
          · simp only [mergeNext, hc]
            exact h.combine hb

/-- The backward half.  A free predecessor is below `lfree` or is it, so `lfree` stays. -/
theorem plugBackward_spec (h : Tiled m (pre ++ b :: post))
    (hl : m.lfree = firstFree 0 (pre ++ b :: post)) :
    ∃ m' bs', plugBackward m (total Block.size pre) = .ok m' ∧ SameHeap m m' ∧
      m'.lfree = m.lfree ∧ m'.used = m.used ∧ Tiled m' bs' ∧
      ((bs' = pre ++ b :: post ∧ ∀ a ∈ pre.getLast?, a.used = true) ∨
        ∃ pre' a, pre = pre' ++ [a] ∧ a.used = false ∧
          bs' = pre' ++ ⟨a.size + b.size, false⟩ :: post) := by
  have hsize := h.size_of_mem.1
  have hlt := h.offset_lt
  obtain ⟨p, hhead, hpre⟩ := h.header
  have hprev : (m.items (total Block.size pre)).prev = p := by
    rw [hhead]
    rfl
  rcases List.eq_nil_or_concat pre with rfl | ⟨pre', a, rfl⟩
  · -- the first block is its own predecessor
    obtain ⟨rfl, -⟩ := hpre
    rw [total_nil] at hprev
    refine ⟨m, _, ?_, SameHeap.refl m, rfl, rfl, h, Or.inl ⟨rfl, by simp⟩⟩
    have hget : getItem m 0 = .ok (m.items 0) := getItem_ok (Nat.zero_le _)
    simp only [plugBackward, total_nil, hget, ok_bind, hprev]
    simp
    rfl
  · rw [List.concat_eq_append] at *
    have h' : Tiled m (pre' ++ a :: b :: post) := by simpa using h
    have htot : total Block.size (pre' ++ [a]) = total Block.size pre' + a.size := by simp
    have hasize := h'.size_of_mem.1
    have halt := h'.offset_lt
    obtain ⟨pa, hahead, -⟩ := h'.header
    have hp : p = total Block.size pre' := by
      rw [seg_append] at hpre
      obtain ⟨p', o', hleft, hright⟩ := hpre
      have ho' := hleft.end_eq
      rw [hright.2.1, ho', Nat.zero_add]
    rw [htot] at hprev hlt hhead ⊢
    have hget : getItem m (total Block.size pre' + a.size) =
        .ok (m.items (total Block.size pre' + a.size)) := getItem_ok (by omega)
    have hgetp : getItem m (total Block.size pre') = .ok (m.items (total Block.size pre')) :=
      getItem_ok (by omega)
    have haused : memIsUsed (m.items (total Block.size pre')) = a.used := by
      rw [hahead, memIsUsed_headOf]
    cases ha : a.used with
    | true =>
        refine ⟨m, _, ?_, SameHeap.refl m, rfl, rfl, h, Or.inl ⟨rfl, ?_⟩⟩
        · simp only [plugBackward, hget, ok_bind, hprev, hp, hgetp, haused, ha]
          simp
          rfl
        · simp [ha]
    | false =>
        have hcond : total Block.size pre' ≠ total Block.size pre' + a.size ∧
            ¬memIsUsed (m.items (total Block.size pre')) = true := by
          refine ⟨by omega, by simp [haused, ha]⟩
        have hnext : (m.items (total Block.size pre' + a.size)).next =
            total Block.size pre' + a.size + b.size := by
          rw [hhead]
          rfl
        have hlfree : ¬m.lfree = total Block.size pre' + a.size := by
          have hle : firstFree 0 pre' ≤ 0 + total Block.size pre' := firstFree_le
          rw [hl, List.append_assoc, List.singleton_append, firstFree_append_free ha]
          omega
        refine ⟨joined m (total Block.size pre' + a.size) (total Block.size pre')
          (total Block.size pre' + a.size + b.size), _, ?_, ⟨rfl, rfl, rfl, rfl, rfl⟩, rfl, rfl,
          h'.combine ha, Or.inr ⟨pre', a, rfl, ha, rfl⟩⟩
        simp only [plugBackward, hget, ok_bind, hprev, hp, hgetp, if_pos hcond, if_neg hlfree,
          hnext]
        exact combine_ok (by omega) (by omega) hlt

/-- The blocks `bs'` are `bs` up to the way the free ones are cut. -/
structure SameUsed (bs bs' : List Block) : Prop where
  blocks : usedBlocks 0 bs' = usedBlocks 0 bs
  total_eq : usedTotal bs' = usedTotal bs
  first : firstFree 0 bs' = firstFree 0 bs

theorem SameUsed.merge (hb : b.used = false) (hc : c.used = false) :
    SameUsed (pre ++ b :: c :: post) (pre ++ ⟨b.size + c.size, false⟩ :: post) where
  blocks := by
    rw [usedBlocks_append, usedBlocks_append]
    simp [usedBlocks, hb, hc, Nat.add_assoc]
  total_eq := by
    rw [usedTotal_append, usedTotal_append]
    simp [usedTotal_cons, hb, hc]
  first := by
    rw [firstFree_append_free hb, firstFree_append_free rfl]

theorem SameUsed.trans {bs' bs'' : List Block} (h : SameUsed bs bs') (h' : SameUsed bs' bs'') :
    SameUsed bs bs'' :=
  ⟨h'.blocks.trans h.blocks, h'.total_eq.trans h.total_eq, h'.first.trans h.first⟩

theorem SameUsed.refl (bs : List Block) : SameUsed bs bs := ⟨rfl, rfl, rfl⟩

/-- Put a free block between two coalesced lists whose neighbours to it are used. -/
theorem coalesced_insert (hpre : Coalesced pre) (hpost : Coalesced post)
    (hleft : ∀ a ∈ pre.getLast?, a.used = true) (hright : ∀ c ∈ post.head?, c.used = true)
    (b : Block) : Coalesced (pre ++ b :: post) := by
  refine List.isChain_append.mpr ⟨hpre, ?_, ?_⟩
  · refine hpost.cons ?_
    intro c hc
    exact Or.inr (hright c hc)
  · intro a ha d hd
    exact Or.inl (hleft a ha)

/-- In a coalesced list the neighbours of a free block are used. -/
theorem Coalesced.neighbours (h : Coalesced (pre ++ b :: post)) (hb : b.used = false) :
    Coalesced pre ∧ Coalesced post ∧ (∀ a ∈ pre.getLast?, a.used = true) ∧
      ∀ c ∈ post.head?, c.used = true := by
  obtain ⟨hpre, hrest, hseam⟩ := List.isChain_append.mp h
  refine ⟨hpre, hrest.tail, ?_, ?_⟩
  · intro a ha
    rcases hseam a ha b (by simp) with hu | hu
    · exact hu
    · rw [hb] at hu
      cases hu
  · intro c hc
    rcases hrest.rel_head? hc with hu | hu
    · rw [hb] at hu
      cases hu
    · exact hu

theorem plugHoles_spec (h : Tiled m (pre ++ b :: post)) (hb : b.used = false)
    (hl : m.lfree = firstFree 0 (pre ++ b :: post)) (hpre : Coalesced pre)
    (hpost : Coalesced post) :
    ∃ m' bs', plugHoles m (total Block.size pre) = .ok m' ∧ SameHeap m m' ∧
      m'.lfree = m.lfree ∧ m'.used = m.used ∧ Tiled m' bs' ∧ Coalesced bs' ∧
      SameUsed (pre ++ b :: post) bs' := by
  have hsize := h.size_of_mem.1
  have hlt := h.offset_lt
  have hle : m.lfree ≤ total Block.size pre := by
    have hbound : firstFree 0 pre ≤ 0 + total Block.size pre := firstFree_le
    rw [hl, firstFree_append_free hb]
    omega
  obtain ⟨m₁, hrun₁, hs₁, hl₁, hu₁, ht₁⟩ := plugForward_spec h hb hle
  -- after the forward half the successor is used
  have hforward : ∃ b' post', mergeNext b post = b' :: post' ∧ b'.used = false ∧
      Coalesced post' ∧ (∀ c ∈ post'.head?, c.used = true) ∧
      SameUsed (pre ++ b :: post) (pre ++ b' :: post') := by
    cases post with
    | nil => exact ⟨b, [], rfl, hb, hpost, by simp, SameUsed.refl _⟩
    | cons c post =>
        cases hc : c.used with
        | true =>
            refine ⟨b, c :: post, by simp [mergeNext, hc], hb, hpost, ?_, SameUsed.refl _⟩
            intro d hd
            rw [List.head?_cons, Option.mem_some_iff] at hd
            rw [← hd, hc]
        | false =>
            have hnb := @Coalesced.neighbours [] post c hpost hc
            exact ⟨⟨b.size + c.size, false⟩, post, by simp [mergeNext, hc], rfl, hnb.2.1,
              hnb.2.2.2, SameUsed.merge hb hc⟩
  obtain ⟨b', post', hmerge, hb', hpost', hright, hsame⟩ := hforward
  rw [hmerge] at ht₁
  have hl₁' : m₁.lfree = firstFree 0 (pre ++ b' :: post') := by
    rw [hl₁, hl, hsame.first]
  obtain ⟨m₂, bs₂, hrun₂, hs₂, hl₂, hu₂, ht₂, hcase⟩ := plugBackward_spec ht₁ hl₁'
  refine ⟨m₂, bs₂, ?_, hs₁.trans hs₂, hl₂.trans hl₁, hu₂.trans hu₁, ht₂, ?_, ?_⟩
  · have hlt' : total Block.size pre < m.heapEnd := by omega
    simp only [plugHoles, hlt', decide_true, check_true, ok_bind, hrun₁, hrun₂]
  · rcases hcase with ⟨rfl, hleft⟩ | ⟨pre', a, rfl, ha, rfl⟩
    · exact coalesced_insert hpre hpost' hleft hright b'
    · have hnb := @Coalesced.neighbours pre' [] a hpre ha
      exact coalesced_insert hnb.1 hpost' hnb.2.2.1 hright _
  · rcases hcase with ⟨rfl, -⟩ | ⟨pre', a, rfl, ha, rfl⟩
    · exact hsame
    · have hagain : SameUsed (pre' ++ a :: b' :: post')
          (pre' ++ ⟨a.size + b'.size, false⟩ :: post') := SameUsed.merge ha hb'
      refine hsame.trans ?_
      rw [List.append_assoc, List.singleton_append]
      exact hagain

end RtHypervisor.Ports.SmallMem
