import RtHypervisor.Ports.MemheapAlloc

/-!
# Release into a memory heap

`rt_memheap_free` merges the block with the free blocks at its sides.  `Opened` is the state on the
way: one free block that may not be in the free list yet, and may lie beside free ones.
`Opened.mergeLeft`, `Opened.mergeRight` and `Opened.close` lead back to `Layout`.
-/

namespace RtHypervisor.Ports.Memheap

open RtHypervisor.Verified
open RtHypervisor.Verified.LinkedRing
open RtHypervisor.Verified.Run
open RtHypervisor.Ports.SmallMem (sub64)

section Neighbours

variable {m : RtMemheap} {pre post : List Block} {b c : Block} {tail : Nat}

/-- The header in front of the first block is the tail header. -/
theorem Blocks.prev_first (h : Blocks m (b :: post) tail) : m.prev b.addr = tail := by
  have hring : Ring m.next m.prev ((b.addr :: post.map Block.addr) ++ [tail]) := h.ring
  exact hring.rotate.prev_eq

theorem Blocks.beside (h : Blocks m (pre ++ b :: c :: post) tail) :
    m.next b.addr = c.addr ∧ m.prev c.addr = b.addr := by
  have hring : Ring m.next m.prev
      (b.addr :: c.addr :: (addrs post tail ++ pre.map Block.addr)) := h.ring_at
  exact ⟨hring.next_eq, hring.prev_eq⟩

/-- The header behind the last block is the tail header. -/
theorem Blocks.next_last (h : Blocks m (pre ++ [b]) tail) : m.next b.addr = tail := by
  have hring : Ring m.next m.prev (b.addr :: tail :: pre.map Block.addr) := h.ring_at
  exact hring.next_eq

theorem Blocks.addr_ne (h : Blocks m (pre ++ b :: c :: post) tail) : b.addr ≠ c.addr := by
  have hring : Ring m.next m.prev
      (b.addr :: c.addr :: (addrs post tail ++ pre.map Block.addr)) := h.ring_at
  intro heq
  exact (List.nodup_cons.mp hring.nodup).1 (heq ▸ List.mem_cons_self ..)

/-- The left neighbour takes the block in. -/
theorem mergeLeft_free (h : Blocks m (pre ++ b :: c :: post) tail) (hb : b.used = false) :
    mergeLeft m c.addr =
      (unlinkBlock (recount m (add64 m.availableSize memheapSize)) c.addr, b.addr, false) := by
  have hne := h.addr_ne
  have hunused : isUsed m b.addr = false :=
    (h.isUsed_eq List.mem_append_cons_self).trans hb
  have hnext : Function.update m.next b.addr (m.next c.addr) c.addr = m.next c.addr :=
    Function.update_of_ne hne.symm ..
  have hprev : Function.update m.prev (m.next c.addr) b.addr c.addr = b.addr := by
    by_cases heq : c.addr = m.next c.addr
    · rw [← heq, Function.update_self]
    · rw [Function.update_of_ne heq, h.beside.2]
  unfold mergeLeft unlinkBlock recount
  simp only [h.beside.2, hunused, Bool.not_false, if_true, hnext, hprev]

private theorem mergeLeft_used {a : Nat} (h : isUsed m (m.prev a) = true) :
    mergeLeft m a = (m, a, true) := by
  unfold mergeLeft
  rw [h]
  rfl

/-- The block takes its right neighbour in. -/
theorem mergeRight_free (h : Blocks m (pre ++ b :: c :: post) tail) (hc : c.used = false) :
    mergeRight m b.addr =
      unlinkFree (unlinkBlock (recount m (add64 m.availableSize memheapSize)) c.addr) c.addr := by
  have hunused : isUsed m c.addr = false :=
    (h.isUsed_eq mem_behind).trans hc
  have hprev : Function.update m.prev (m.next c.addr) b.addr c.addr = b.addr := by
    by_cases heq : c.addr = m.next c.addr
    · rw [← heq, Function.update_self]
    · rw [Function.update_of_ne heq, h.beside.2]
  unfold mergeRight unlinkBlock recount
  simp only [h.beside.1, h.beside.2, hunused, Bool.not_false, if_true, hprev]

private theorem mergeRight_used {a : Nat} (h : isUsed m (m.next a) = true) :
    mergeRight m a = m := by
  unfold mergeRight
  rw [h]
  rfl

end Neighbours

/-! ## A block that is being released -/

/-- The block `d` is free; with `out` it is not in the free list. -/
structure Opened (m : RtMemheap) (pre : List Block) (d : Block) (post : List Block) (fl : List Nat)
    (tail : Nat) (out : Bool) : Prop where
  loose : Loose m (pre ++ d :: post) fl tail (freeBytes (pre ++ d :: post))
  unused : d.used = false
  free : fl.Perm ((if out then [] else [d.addr]) ++ (freeAddrs pre ++ freeAddrs post))
  before : Apart pre
  behind : Apart post

section Opened

variable {m : RtMemheap} {pre post : List Block} {c d : Block} {fl : List Nat} {tail : Nat}
  {out : Bool}

theorem Loose.available_lt {bs : List Block} (h : Loose m bs fl tail (freeBytes bs)) :
    m.availableSize < 2 ^ 31 := by
  have hle := h.blocks.tiles.freeBytes_le
  have htail := h.place.tail_eq
  have hsmall := h.place.small
  rw [h.available]
  omega

theorem Loose.of_eq {bs : List Block} {available available' : Nat}
    (h : Loose m bs fl tail available) (heq : available = available') :
    Loose m bs fl tail available' := heq ▸ h

@[simp] theorem freeAddrs_nil : freeAddrs [] = [] := rfl

@[simp] theorem freeBytes_nil : freeBytes [] = 0 := rfl

theorem Loose.recount {bs : List Block} {available v : Nat} (h : Loose m bs fl tail available) :
    Loose (recount m v) bs fl tail v := h.count v

theorem freeBytes_opened (h : d.used = false) :
    freeBytes (pre ++ d :: post) = freeBytes pre + (d.size + freeBytes post) := by
  rw [freeBytes_append, freeBytes_free h]

/-- The counter of free bytes when a header goes. -/
theorem Opened.count (h : Opened m pre d post fl tail out) :
    add64 m.availableSize memheapSize = freeBytes (pre ++ d :: post) + memheapSize := by
  have hlt := h.loose.available_lt
  have hsize : memheapSize = 48 := rfl
  rw [add64_eq (by omega), h.loose.available]

/-- A header is not in a free list that has those of other blocks. -/
theorem Loose.not_free {available : Nat} (h : Loose m (pre ++ d :: post) fl tail available)
    (hfree : fl.Perm (freeAddrs pre ++ freeAddrs post)) : d.addr ∉ m.freeList :: fl := by
  have hmem : d ∈ pre ++ d :: post := List.mem_append_cons_self
  obtain ⟨hstart, hend, -, -⟩ := h.place.block h.blocks hmem
  intro hx
  cases List.mem_cons.mp hx with
  | inl heq => exact h.place.freeList_ne hstart (by omega) heq
  | inr hx =>
      have hnodup := h.blocks.ring_at.nodup
      apply (List.nodup_cons.mp hnodup).1
      have hother := hfree.mem_iff.mp hx
      simp only [List.mem_append, mem_freeAddrs] at hother
      simp only [addrs, List.mem_append, List.mem_map]
      obtain ⟨c, hc, -, haddr⟩ | ⟨c, hc, -, haddr⟩ := hother
      · exact Or.inr ⟨c, hc, haddr⟩
      · exact Or.inl (Or.inl ⟨c, hc, haddr⟩)

theorem Opened.mergeLeft (h : Opened m pre d post fl tail true) :
    ∃ m' pre' d' out, mergeLeft m d.addr = (m', d'.addr, out) ∧ m'.startAddr = m.startAddr ∧
      Opened m' pre' d' post fl tail out ∧ (∀ c ∈ pre'.getLast?, c.used = true) ∧
      usedBlocks pre' = usedBlocks pre := by
  rcases List.eq_nil_or_concat' pre with rfl | ⟨front, b, rfl⟩
  · refine ⟨m, [], d, true, mergeLeft_used ?_, rfl, h, ?_, rfl⟩
    · rw [h.loose.blocks.prev_first]
      exact h.loose.blocks.isUsed_tail
    · intro c hc
      cases hc
  · have hblocks : Blocks m (front ++ b :: d :: post) tail := by
      have hblocks := h.loose.blocks
      rwa [List.append_assoc] at hblocks
    have hapart := apart_around.mp h.before
    cases hb : b.used with
    | true =>
        refine ⟨m, front ++ [b], d, true, mergeLeft_used ?_, rfl, h, ?_, rfl⟩
        · rw [hblocks.beside.2]
          exact (hblocks.isUsed_eq List.mem_append_cons_self).trans hb
        · intro c hc
          rw [List.getLast?_concat] at hc
          cases hc
          exact hb
    | false =>
        have hcount := h.count
        have hloose := h.loose
        rw [List.append_assoc] at hloose
        have hmerge := mergeLeft_free hblocks hb
        refine ⟨_, front, { b with size := b.size + memheapSize + d.size }, false, hmerge, rfl,
          ?_, ?_, ?_⟩
        · constructor
          · have hgrown : Block.used { b with size := b.size + memheapSize + d.size } = false := hb
            apply hloose.recount.unlink.of_eq
            rw [hcount, freeBytes_opened h.unused, freeBytes_opened hgrown, freeBytes_append,
              freeBytes_free hb, freeBytes_nil]
            simp only
            omega
          · exact hb
          · have hfree : fl.Perm (freeAddrs front ++ b.addr :: freeAddrs post) := by
              simpa [freeAddrs_free hb] using h.free
            exact hfree.trans List.perm_middle
          · exact hapart.1
          · exact h.behind
        · intro c hc
          exact (hapart.2.2.1 c hc).resolve_right (by rw [hb]; decide)
        · rw [usedBlocks_append, usedBlocks_free hb]
          simp [usedBlocks]

theorem Opened.mergeRight (h : Opened m pre d post fl tail out) :
    ∃ d' post' fl', d'.addr = d.addr ∧ (mergeRight m d.addr).startAddr = m.startAddr ∧
      Opened (mergeRight m d.addr) pre d' post' fl' tail out ∧
      (∀ c ∈ post'.head?, c.used = true) ∧ usedBlocks post' = usedBlocks post := by
  cases post with
  | nil =>
      have hlast : isUsed m (m.next d.addr) = true := by
        rw [h.loose.blocks.next_last]
        exact h.loose.blocks.isUsed_tail
      rw [mergeRight_used hlast]
      refine ⟨d, [], fl, rfl, rfl, h, ?_, rfl⟩
      intro c hc
      cases hc
  | cons e post =>
      cases he : e.used with
      | true =>
          have hused : isUsed m (m.next d.addr) = true := by
            rw [h.loose.blocks.beside.1]
            exact (h.loose.blocks.isUsed_eq mem_behind).trans he
          rw [mergeRight_used hused]
          refine ⟨d, e :: post, fl, rfl, rfl, h, ?_, rfl⟩
          intro c hc
          cases hc
          exact he
      | false =>
          have hmerge := mergeRight_free h.loose.blocks he
          have hapart := List.isChain_cons.mp h.behind
          -- the neighbour is somewhere in the free list
          have hfree : fl.Perm (e.addr ::
              ((if out then [] else [d.addr]) ++ (freeAddrs pre ++ freeAddrs post))) := by
            refine h.free.trans ?_
            rw [freeAddrs_free he, ← List.append_assoc, ← List.append_assoc]
            exact List.perm_middle
          obtain ⟨fpre, fpost, rfl⟩ :=
            List.append_of_mem (hfree.mem_iff.mpr (List.mem_cons_self ..))
          have hrest := List.Perm.cons_inv (List.perm_middle.symm.trans hfree)
          rw [hmerge]
          refine ⟨{ d with size := d.size + memheapSize + e.size }, post, fpre ++ fpost, rfl, rfl,
            ?_, ?_, ?_⟩
          · constructor
            · have hgrown : Block.used { d with size := d.size + memheapSize + e.size } = false :=
                h.unused
              apply h.loose.recount.unlink.unlinkFree.of_eq
              rw [h.count, freeBytes_opened h.unused, freeBytes_opened hgrown, freeBytes_free he]
              simp only
              omega
            · exact h.unused
            · exact hrest
            · exact h.before
            · exact hapart.2
          · intro c hc
            exact (hapart.1 c hc).resolve_left (by rw [he]; decide)
          · rw [usedBlocks_free he]

/-- Between used blocks, the block is put into the free list if it is not there. -/
theorem Opened.close (h : Opened m pre d post fl tail out)
    (hbefore : ∀ c ∈ pre.getLast?, c.used = true) (hbehind : ∀ c ∈ post.head?, c.used = true) :
    ∃ fl', Layout (if out then insertHeader m d.addr else m) (pre ++ d :: post) fl' tail := by
  have hapart : Apart (pre ++ d :: post) := apart_around.mpr
    ⟨h.before, h.behind, fun c hc => Or.inl (hbefore c hc), fun c hc => Or.inr (hbehind c hc)⟩
  have hperm : (freeAddrs (pre ++ d :: post)).Perm
      (d.addr :: (freeAddrs pre ++ freeAddrs post)) := by
    rw [freeAddrs_append, freeAddrs_free h.unused]
    exact List.perm_middle
  cases out with
  | false => exact ⟨fl, h.loose.layout (h.free.trans hperm.symm) hapart rfl⟩
  | true =>
      have hfree : fl.Perm (freeAddrs pre ++ freeAddrs post) := h.free
      have hnew := h.loose.not_free hfree
      rw [if_pos rfl, h.loose.ring.insertHeader_eq hnew]
      exact ⟨d.addr :: fl, (h.loose.linkFree hnew).layout ((hfree.cons _).trans hperm.symm) hapart
        rfl⟩

end Opened

/-! ## `rt_memheap_free` -/

section Free

variable {m : RtMemheap} {bs pre post : List Block} {b : Block} {fl : List Nat} {tail : Nat}

@[simp] theorem insertHeader_startAddr {a : Nat} : (insertHeader m a).startAddr = m.startAddr := rfl

/-- The header behind a block carries the mark of the heap. -/
theorem Blocks.next_magic (h : Blocks m (pre ++ b :: post) tail) :
    m.magic (m.next b.addr) &&& memheapMask = memheapMagic := by
  have htag : ∀ used, tag used &&& memheapMask = memheapMagic := by decide
  cases post with
  | nil => rw [h.next_last, h.tailTag, htag]
  | cons c post =>
      rw [h.beside.1, h.tags c mem_behind, htag]

/-- The block is marked as free, and its bytes are counted. -/
theorem Layout.opened (h : Layout m (pre ++ b :: post) fl tail) (hb : b.used = true) :
    Opened (recount (setMagic m b.addr memheapFreed)
        (add64 m.availableSize (memitemSize (setMagic m b.addr memheapFreed) b.addr)))
      pre { b with used := false } post fl tail true := by
  have hmarked : Loose (setMagic m b.addr memheapFreed)
      (pre ++ { b with used := false } :: post) fl tail (freeBytes (pre ++ b :: post)) :=
    h.loose.mark false
  have hlt := h.available_lt
  obtain ⟨-, -, hsmall, -⟩ := h.place.block h.blocks List.mem_append_cons_self
  have hsize : memitemSize (setMagic m b.addr memheapFreed) b.addr = b.size :=
    memitemSize_eq (b := { b with used := false }) hmarked.place hmarked.blocks
  have hapart := apart_around.mp h.apart
  have hfree := h.free
  rw [freeAddrs_append, freeAddrs_used hb] at hfree
  constructor
  · apply hmarked.recount.of_eq
    rw [hsize, add64_eq (by omega), h.available, freeBytes_append, freeBytes_used hb,
      freeBytes_opened rfl]
    simp only
    omega
  · rfl
  · exact hfree
  · exact hapart.1
  · exact hapart.2.1

/-- What `rt_memheap_free` does to a block in use. -/
theorem Layout.release (h : Layout m bs fl tail) (hb : b ∈ usedBlocks bs) :
    ∃ m' bs' fl', rtMemheapFree m (b.addr + memheapSize) = .ok m' ∧
      m'.startAddr = m.startAddr ∧ Layout m' bs' fl' tail ∧
      (usedBlocks bs).Perm (b :: usedBlocks bs') := by
  obtain ⟨hmem, hused⟩ := mem_usedBlocks.mp hb
  obtain ⟨pre, post, rfl⟩ := List.append_of_mem hmem
  obtain ⟨-, -, -, hfits⟩ := h.place.block h.blocks hmem
  have hpos : memheapSize = 48 := rfl
  have hheader : sub64 (b.addr + memheapSize) memheapSize = b.addr := by
    rw [sub64_eq (by omega) (by omega), Nat.add_sub_cancel]
  have htag : m.magic b.addr = memheapMagic ||| memheapUsed := by
    rw [h.blocks.tags b hmem, hused]
    rfl
  obtain ⟨m₁, pre', d, out, hleft, hstart₁, hopened₁, hbefore, hpre⟩ :=
    (h.opened hused).mergeLeft
  obtain ⟨d', post', fl₂, haddr, hstart₂, hopened₂, hbehind, hpost⟩ := hopened₁.mergeRight
  obtain ⟨fl', hlayout⟩ := hopened₂.close hbefore hbehind
  rw [haddr] at hlayout
  refine ⟨_, pre' ++ d' :: post', fl', ?_, ?_, hlayout, ?_⟩
  · unfold rtMemheapFree
    rw [if_neg (by omega)]
    simp only [hheader, htag, h.blocks.next_magic, h.blocks.pools b hmem, beq_self_eq_true,
      check_true, ok_bind]
    have hstate : mergeLeft { setMagic m b.addr memheapFreed with
        availableSize := add64 (setMagic m b.addr memheapFreed).availableSize
          (memitemSize (setMagic m b.addr memheapFreed) b.addr) } b.addr =
          (m₁, d.addr, out) := hleft
    rw [hstate]
    rfl
  · have hlast : (if out = true then insertHeader (mergeRight m₁ d.addr) d.addr
        else mergeRight m₁ d.addr).startAddr = (mergeRight m₁ d.addr).startAddr := by
      split
      · exact insertHeader_startAddr
      · rfl
    rw [hlast, hstart₂, hstart₁, recount_startAddr, setMagic_startAddr]
  · rw [usedBlocks_append, usedBlocks_append, usedBlocks_used hused,
      usedBlocks_free hopened₂.unused, hpre, hpost]
    exact List.perm_middle

end Free

end RtHypervisor.Ports.Memheap
