import RtHypervisor.Ports.MemheapFree

/-!
# Another size for a block of a memory heap

`rt_memheap_realloc` lets a block grow into the free one behind it (`Layout.grow`), splits a block
(`Layout.shrink`), leaves it as it is, or takes another one and releases the first.
-/

namespace RtHypervisor.Ports.Memheap

open RtHypervisor.Verified
open RtHypervisor.Verified.LinkedRing
open RtHypervisor.Verified.Run
open RtHypervisor.Ports.SmallMem (rtAlign rtAlignSize rtAlign_mod rtAlign_of_aligned sub64)

section Realloc

variable {m : RtMemheap} {bs pre post : List Block} {b c : Block} {fl fpre fpost : List Nat}
  {tail n x : Nat}

/-- An address in the data of a block is no header, nor the free list header. -/
theorem Loose.fresh {available : Nat} (h : Loose m (pre ++ b :: post) fl tail available)
    (hfree : ∀ a ∈ fl, a ∈ freeAddrs (pre ++ b :: post)) (hlo : b.addr < x)
    (hhi : x < b.addr + memheapSize + b.size) : x ∉ m.freeList :: fl := by
  have hmem : b ∈ pre ++ b :: post := List.mem_append_cons_self
  obtain ⟨hstart, hend, -, -⟩ := h.place.block h.blocks hmem
  intro hx
  cases List.mem_cons.mp hx with
  | inl heq => exact h.place.freeList_ne (by omega) (by omega) heq
  | inr hx =>
      obtain ⟨d, hd, -, rfl⟩ := mem_freeAddrs.mp (hfree x hx)
      exact h.blocks.tiles.not_mem hlo hhi (List.mem_append_left _ (List.mem_map_of_mem hd))

private theorem linkBlock_freeList {a : Nat} : (linkBlock m a x).freeList = m.freeList := rfl

private theorem growInto_startAddr {ptr a next old : Nat} :
    (growInto m ptr a next n old).startAddr = m.startAddr := by
  obtain ⟨v, new, h⟩ : ∃ v new, growInto m ptr a next n old = linkFree
      (linkBlock (unlinkBlock (unlinkFree (noteUsed (recount m v)) next) next) a new) new :=
    ⟨_, _, rfl⟩
  rw [h, linkFree_startAddr, linkBlock_startAddr, unlinkBlock_startAddr, unlinkFree_startAddr,
    noteUsed_startAddr, recount_startAddr]

theorem growInto_next {ptr a next old : Nat} :
    (growInto m ptr a next n old).next a = add64 ptr n := by
  obtain ⟨m', h⟩ : ∃ m', growInto m ptr a next n old =
      linkFree (linkBlock m' a (add64 ptr n)) (add64 ptr n) := ⟨_, rfl⟩
  rw [h]
  exact Function.update_self ..

/-- A block grows into the free one behind it. -/
theorem Layout.grow (h : Layout m (pre ++ b :: c :: post) fl tail) (hb : b.used = true)
    (hc : c.used = false) (hlarger : b.size < n) (hroom : n + memheapMinialloc < c.size + b.size) :
    ∃ fl', Layout (growInto m (b.addr + memheapSize) b.addr c.addr n b.size)
      (pre ++ { b with size := n } ::
        ⟨b.addr + memheapSize + n, b.size + c.size - n, false⟩ :: post) fl' tail := by
  obtain ⟨-, hend, -, hfits⟩ := h.place.block h.blocks mem_behind
  have haddr : c.addr = b.addr + memheapSize + b.size := h.blocks.tiles.around.2.1
  have hpos : memheapSize = 48 := rfl
  have hmini : memheapMinialloc = 12 := rfl
  have hsplit : pre ++ b :: c :: post = (pre ++ [b]) ++ c :: post := by simp
  have hbehind : Layout m ((pre ++ [b]) ++ c :: post) fl tail := hsplit ▸ h
  obtain ⟨fpre, fpost, rfl, hperm⟩ := hbehind.split_free hc
  have hlt := h.available_lt
  have havailable := h.available
  rw [freeBytes_append, freeBytes_used hb, freeBytes_free hc] at havailable
  have hleft : sub64 m.availableSize (sub64 n b.size) =
      freeBytes pre + (b.size + c.size - n + freeBytes post) := by
    have hfirst : sub64 n b.size = n - b.size := sub64_eq (by omega) (by omega)
    rw [hfirst, sub64_eq (by omega) (by omega)]
    omega
  have hloose :=
    ((h.loose.recount (v := sub64 m.availableSize (sub64 n b.size))).noteUsed).unlinkFree
  have hmerged := hloose.unlink
  have hlinked := hmerged.link (n := n) (by simp only; omega)
  have hgrown : Block.used { b with size := b.size + memheapSize + c.size } = true := hb
  have hkept : Block.used { b with size := n } = true := hb
  have hrest : (fpre ++ fpost).Perm (freeAddrs pre ++ freeAddrs post) := by
    simpa [freeAddrs_used hb] using hperm
  have hfresh := hmerged.fresh (x := b.addr + memheapSize + n)
    (fun a ha => by rw [freeAddrs_append, freeAddrs_used hgrown]; exact hrest.mem_iff.mp ha)
    (by simp only; omega) (by simp only; omega)
  have hlast := hlinked.linkFree (show b.addr + memheapSize + n ∉ _ by
    rw [linkBlock_freeList]
    exact hfresh)
  have hptr : add64 (b.addr + memheapSize) n = b.addr + memheapSize + n := add64_eq (by omega)
  have hstate : growInto m (b.addr + memheapSize) b.addr c.addr n b.size =
      linkFree (linkBlock (unlinkBlock (unlinkFree (noteUsed (recount m
          (sub64 m.availableSize (sub64 n b.size)))) c.addr) c.addr) b.addr
        (add64 (b.addr + memheapSize) n)) (add64 (b.addr + memheapSize) n) := rfl
  have hsize : b.size + memheapSize + c.size - memheapSize - n = b.size + c.size - n := by omega
  rw [hstate, hptr]
  simp only [hsize] at hlast
  refine ⟨(b.addr + memheapSize + n) :: (fpre ++ fpost), hlast.layout ?_ ?_ ?_⟩
  · rw [freeAddrs_append, freeAddrs_used hkept, freeAddrs_free rfl]
    exact (hrest.cons _).trans List.perm_middle.symm
  · obtain ⟨hpre, hpost, -, -⟩ := apart_around.mp h.apart
    obtain ⟨hnext, hrestApart⟩ := List.isChain_cons.mp hpost
    have hafter : Apart (⟨b.addr + memheapSize + n, b.size + c.size - n, false⟩ :: post) :=
      List.isChain_cons.mpr
        ⟨fun d hd => Or.inr ((hnext d hd).resolve_left (by rw [hc]; decide)), hrestApart⟩
    exact apart_around.mpr ⟨hpre, hafter, fun _ _ => Or.inr hkept, fun _ _ => Or.inl hkept⟩
  · rw [freeBytes_append, freeBytes_used hkept, freeBytes_free rfl, hleft]

/-! ### A block that shrinks -/

private theorem mergeSplit_used {a : Nat} (h : isUsed m (m.next a) = true) :
    mergeSplit m a = m := by
  unfold mergeSplit
  rw [h]
  rfl

private theorem mergeSplit_free (h : Blocks m (pre ++ b :: c :: post) tail) (hc : c.used = false) :
    mergeSplit m b.addr = unlinkFree
      (unlinkBlock (recount m (sub64 m.availableSize (memitemSize m c.addr))) c.addr) c.addr := by
  have hunused : isUsed m c.addr = false :=
    (h.isUsed_eq mem_behind).trans hc
  have hprev : Function.update m.prev (m.next c.addr) b.addr c.addr = b.addr := by
    by_cases heq : c.addr = m.next c.addr
    · rw [← heq, Function.update_self]
    · rw [Function.update_of_ne heq, h.beside.2]
  unfold mergeSplit unlinkBlock recount
  simp only [h.beside.1, h.beside.2, hunused, Bool.not_false, if_true, hprev]

private theorem mergeSplit_startAddr {a : Nat} : (mergeSplit m a).startAddr = m.startAddr := by
  unfold mergeSplit
  split
  · rw [unlinkFree_startAddr]
  · rfl

/-- The block `d` has been split off: it is in no free list, and its bytes are not counted. -/
structure Split (m : RtMemheap) (pre : List Block) (d : Block) (post : List Block) (fl : List Nat)
    (tail : Nat) : Prop where
  loose : Loose m (pre ++ d :: post) fl tail (freeBytes pre + freeBytes post)
  unused : d.used = false
  free : fl.Perm (freeAddrs pre ++ freeAddrs post)
  behind : Apart post

/-- A free block behind it is merged into it. -/
theorem Split.merge {d : Block} (h : Split m pre d post fl tail) :
    ∃ d' post' fl', d'.addr = d.addr ∧ Split (mergeSplit m d.addr) pre d' post' fl' tail ∧
      (∀ c ∈ post'.head?, c.used = true) ∧ usedBlocks post' = usedBlocks post := by
  cases post with
  | nil =>
      have hused : isUsed m (m.next d.addr) = true := by
        rw [h.loose.blocks.next_last]
        exact h.loose.blocks.isUsed_tail
      rw [mergeSplit_used hused]
      exact ⟨d, [], fl, rfl, h, fun c hc => (by cases hc), rfl⟩
  | cons e post =>
      cases he : e.used with
      | true =>
          have hused : isUsed m (m.next d.addr) = true := by
            rw [h.loose.blocks.beside.1]
            exact (h.loose.blocks.isUsed_eq mem_behind).trans he
          rw [mergeSplit_used hused]
          refine ⟨d, e :: post, fl, rfl, h, ?_, rfl⟩
          intro c hc
          cases hc
          exact he
      | false =>
          have hapart := List.isChain_cons.mp h.behind
          have hsplit : pre ++ d :: e :: post = (pre ++ [d]) ++ e :: post := by simp
          have hblocks := h.loose.blocks
          rw [hsplit] at hblocks
          have hsize : memitemSize m e.addr = e.size := memitemSize_eq h.loose.place hblocks
          have hcount := h.loose.available
          rw [freeBytes_free he] at hcount
          have hlt : m.availableSize < 2 ^ 64 := by
            have hle := h.loose.blocks.tiles.freeBytes_le
            have htail := h.loose.place.tail_eq
            have hsmall := h.loose.place.small
            rw [freeBytes_opened h.unused, freeBytes_free he] at hle
            omega
          have hperm : fl.Perm (e.addr :: (freeAddrs pre ++ freeAddrs post)) := by
            have hfree := h.free
            rw [freeAddrs_free he] at hfree
            exact hfree.trans List.perm_middle
          obtain ⟨fpre, fpost, rfl⟩ :=
            List.append_of_mem (hperm.mem_iff.mpr (List.mem_cons_self ..))
          rw [mergeSplit_free h.loose.blocks he]
          refine ⟨{ d with size := d.size + memheapSize + e.size }, post, fpre ++ fpost,
            rfl, ?_, ?_, ?_⟩
          · constructor
            · apply h.loose.recount.unlink.unlinkFree.of_eq
              rw [hsize, sub64_eq (by omega) (by omega)]
              omega
            · exact h.unused
            · exact List.Perm.cons_inv (List.perm_middle.symm.trans hperm)
            · exact hapart.2
          · intro c hc
            exact (hapart.1 c hc).resolve_left (by rw [he]; decide)
          · rw [usedBlocks_free he]

private theorem shrink_eq {a : Nat} : shrink m a n =
    let new := add64 (add64 a n) memheapSize
    recount (linkFree (mergeSplit (linkBlock m a new) new) new)
      (add64 (linkFree (mergeSplit (linkBlock m a new) new) new).availableSize
        (memitemSize (linkFree (mergeSplit (linkBlock m a new) new) new) new)) := rfl

/-- A block shrinks. -/
theorem Layout.shrink (h : Layout m (pre ++ b :: post) fl tail) (hb : b.used = true)
    (hroom : n + memheapSize + memheapMinialloc < b.size) :
    (shrink m b.addr n).startAddr = m.startAddr ∧ ∃ bs' fl',
      Layout (shrink m b.addr n) bs' fl' tail ∧
      usedBlocks bs' = usedBlocks pre ++ { b with size := n } :: usedBlocks post := by
  obtain ⟨-, hend, hsmall, hfits⟩ := h.place.block h.blocks List.mem_append_cons_self
  have hpos : memheapSize = 48 := rfl
  have hkept : Block.used { b with size := n } = true := hb
  obtain ⟨hpre, hpost, -, -⟩ := apart_around.mp h.apart
  have hfree := h.free
  rw [freeAddrs_append, freeAddrs_used hb] at hfree
  have havailable := h.available
  rw [freeBytes_append, freeBytes_used hb] at havailable
  have hlinked := h.loose.link (n := n) (by omega)
  have hassoc : pre ++ { b with size := n } ::
      ⟨b.addr + memheapSize + n, b.size - memheapSize - n, false⟩ :: post =
        (pre ++ [{ b with size := n }]) ++
          ⟨b.addr + memheapSize + n, b.size - memheapSize - n, false⟩ :: post := by simp
  rw [hassoc] at hlinked
  have hsplit : Split (linkBlock m b.addr (b.addr + memheapSize + n))
      (pre ++ [{ b with size := n }])
      ⟨b.addr + memheapSize + n, b.size - memheapSize - n, false⟩ post fl tail := by
    constructor
    · apply hlinked.of_eq
      rw [freeBytes_append, freeBytes_used hb, freeBytes_append, freeBytes_used hkept,
        freeBytes_nil, Nat.add_zero]
    · rfl
    · rw [freeAddrs_append, freeAddrs_used hkept, freeAddrs_nil, List.append_nil]
      exact hfree
    · exact hpost
  obtain ⟨d, post', fl', haddr, hmerged, hbehind, hused⟩ := hsplit.merge
  have hnew := hmerged.loose.not_free hmerged.free
  have hput := hmerged.loose.linkFree hnew
  have hitem := memitemSize_eq hput.place hput.blocks
  rw [haddr] at hitem hput
  simp only at hitem hput
  rw [shrink_eq]
  simp only
  rw [new_addr (by omega), hitem]
  refine ⟨?_, _, _, hput.recount.layout ?_ ?_ ?_, ?_⟩
  · rw [recount_startAddr, linkFree_startAddr, mergeSplit_startAddr, linkBlock_startAddr]
  · rw [freeAddrs_append, freeAddrs_free hmerged.unused, haddr]
    exact (hmerged.free.cons _).trans List.perm_middle.symm
  · have hfront : Apart (pre ++ [{ b with size := n }]) := apart_around.mpr
      ⟨hpre, List.isChain_nil, fun _ _ => Or.inr hkept, fun c hc => by cases hc⟩
    apply apart_around.mpr
    refine ⟨hfront, hmerged.behind, fun c hc => Or.inl ?_, fun c hc => Or.inr (hbehind c hc)⟩
    rw [List.getLast?_concat] at hc
    cases hc
    exact hkept
  · have hcount := hput.available
    have hlt : freeBytes (pre ++ [{ b with size := n }]) + d.size + freeBytes post' < 2 ^ 64 := by
      have hle := hput.blocks.tiles.freeBytes_le
      have htail := hput.place.tail_eq
      have hfit := hput.place.fits
      rw [freeBytes_opened hmerged.unused] at hle
      omega
    rw [hcount, add64_eq (by omega), freeBytes_opened hmerged.unused]
    omega
  · rw [usedBlocks_append, usedBlocks_append, usedBlocks_used hkept, usedBlocks_free hmerged.unused,
      hused]
    simp [usedBlocks]

/-! ### `rt_memheap_realloc` -/

theorem throughInt32_eq {k : Nat} (h : k < 2 ^ 31) : throughInt32 k = k := by
  have hlt : k < 2 ^ 32 := by omega
  have hmsb : (BitVec.ofNat 32 k).msb = false := by
    rw [BitVec.msb_eq_false_iff_two_mul_lt, BitVec.toNat_ofNat, Nat.mod_eq_of_lt hlt]
    omega
  unfold throughInt32
  rw [BitVec.signExtend_eq_setWidth_of_msb_false hmsb, BitVec.toNat_setWidth, BitVec.toNat_ofNat,
    Nat.mod_eq_of_lt hlt, Nat.mod_eq_of_lt (by omega)]

theorem requested_aligned (size : Nat) :
    requested size % rtAlignSize = 0 ∧ requested size < 2 ^ 64 := by
  have hmod := rtAlign_mod size
  have hlt : rtAlign size < 2 ^ 64 := by
    unfold rtAlign
    simp only
    omega
  unfold requested
  simp only
  split
  · exact ⟨by decide, by decide⟩
  · exact ⟨hmod, hlt⟩

theorem requested_requested (size : Nat) : requested (requested size) = requested size := by
  obtain ⟨haligned, hlt⟩ := requested_aligned size
  have hmin := minialloc_le_requested size
  generalize requested size = k at *
  unfold requested
  simp only
  rw [rtAlign_of_aligned haligned hlt, if_neg (by omega)]

/-- What is behind a block and not in use is a block. -/
theorem Layout.behind (h : Layout m (pre ++ b :: post) fl tail)
    (hfree : isUsed m (m.next b.addr) = false) :
    ∃ c rest, post = c :: rest ∧ c.used = false ∧ m.next b.addr = c.addr := by
  cases post with
  | nil =>
      rw [h.blocks.next_last, h.blocks.isUsed_tail] at hfree
      cases hfree
  | cons c rest =>
      rw [h.blocks.beside.1, h.blocks.isUsed_eq mem_behind] at hfree
      exact ⟨c, rest, rfl, hfree, h.blocks.beside.1⟩

/-- The sizes of a block and of the one behind it are added without loss. -/
theorem Layout.room_behind (h : Layout m (pre ++ b :: c :: post) fl tail) :
    add64 (throughInt32 (memitemSize m c.addr)) b.size = c.size + b.size := by
  obtain ⟨-, -, hc, -⟩ := h.place.block h.blocks mem_behind
  obtain ⟨-, -, hb, -⟩ := h.place.block h.blocks List.mem_append_cons_self
  rw [memitemSize_of_mem h.place h.blocks mem_behind, throughInt32_eq hc, add64_eq (by omega)]

/-- Whether a block can grow where it is.  The sum does not wrap around when `n` is below the end
of `rt_size_t`; when it does, the block behind has to be in use. -/
theorem canGrow_cases (h : Layout m (pre ++ b :: post) fl tail)
    (hlow : n + memheapMinialloc < 2 ^ 64 ∨ isUsed m (m.next b.addr) = true)
    (hgrow : canGrow m (m.next b.addr) n b.size = true) :
    ∃ c rest, post = c :: rest ∧ c.used = false ∧ m.next b.addr = c.addr ∧
      n + memheapMinialloc < c.size + b.size := by
  unfold canGrow at hgrow
  rw [Bool.and_eq_true, Bool.not_eq_true', decide_eq_true_iff] at hgrow
  obtain ⟨hfree, hroom⟩ := hgrow
  have hsum : n + memheapMinialloc < 2 ^ 64 := hlow.resolve_right (by rw [hfree]; decide)
  obtain ⟨c, rest, rfl, hc, hnext⟩ := h.behind hfree
  rw [hnext, h.room_behind, add64_eq hsum] at hroom
  exact ⟨c, rest, rfl, hc, hnext, hroom⟩

/-- What `rt_memheap_realloc` does to a block in use: nothing, or the block `c` takes its place. -/
theorem Layout.realloc (h : Layout m bs fl tail) (hb : b ∈ usedBlocks bs) {newsize : Nat}
    (hne : newsize ≠ 0) (hlow : requested newsize + memheapMinialloc < 2 ^ 64 ∨
      isUsed m (m.next b.addr) = true) :
    ∃ m' p, rtMemheapRealloc m (b.addr + memheapSize) newsize = .ok (m', p) ∧
      (m' = m ∧ p = 0 ∨
        m'.startAddr = m.startAddr ∧ ∃ c bs' fl', p = c.addr + memheapSize ∧
          requested newsize ≤ c.size ∧ Layout m' bs' fl' tail ∧
          (b :: usedBlocks bs').Perm (c :: usedBlocks bs)) := by
  obtain ⟨hmem, hused⟩ := mem_usedBlocks.mp hb
  obtain ⟨pre, post, rfl⟩ := List.append_of_mem hmem
  obtain ⟨-, -, hsmall, hfits⟩ := h.place.block h.blocks hmem
  have hpos : memheapSize = 48 := rfl
  have hmini : memheapMinialloc = 12 := rfl
  have hmin := minialloc_le_requested newsize
  have hheader : sub64 (b.addr + memheapSize) memheapSize = b.addr := by
    rw [sub64_eq (by omega) (by omega), Nat.add_sub_cancel]
  have hold : memitemSize m b.addr = b.size := memitemSize_eq h.place h.blocks
  have hswap : ∀ {c : Block}, c.used = true → ∀ {bs' : List Block},
      usedBlocks bs' = usedBlocks pre ++ c :: usedBlocks post →
        (b :: usedBlocks bs').Perm (c :: usedBlocks (pre ++ b :: post)) := by
    intro c hc bs' hbs'
    rw [hbs', usedBlocks_append, usedBlocks_used hused]
    exact ((List.perm_middle.cons b).trans (List.Perm.swap ..)).trans
      (List.perm_middle.symm.cons c)
  unfold rtMemheapRealloc
  rw [if_neg hne, if_neg (by omega)]
  simp only [hheader, hold]
  by_cases hgrow : b.size < requested newsize
  · rw [if_pos hgrow]
    have hnext : b.addr < m.next b.addr := by
      rw [h.blocks.next_eq]
      omega
    simp only [hnext, decide_true, check_true, ok_bind]
    by_cases hcan : canGrow m (m.next b.addr) (requested newsize) b.size = true
    · rw [if_pos hcan]
      obtain ⟨c, rest, rfl, hc, hnextEq, hroom⟩ := canGrow_cases h hlow hcan
      obtain ⟨fl', hlayout⟩ := h.grow hused hc hgrow hroom
      rw [hnextEq]
      refine ⟨_, _, rfl, Or.inr ⟨growInto_startAddr, { b with size := requested newsize }, _, fl',
        rfl, le_refl _, hlayout, hswap (c := { b with size := requested newsize }) hused ?_⟩⟩
      rw [usedBlocks_append, usedBlocks_used (b := { b with size := requested newsize }) hused,
        usedBlocks_free rfl, usedBlocks_free hc]
    · rw [if_neg hcan]
      obtain ⟨m₁, p, hok, hcases⟩ := h.alloc (requested newsize)
      simp only [hok, ok_bind]
      cases hcases with
      | inl hnone =>
          obtain ⟨-, rfl, rfl⟩ := hnone
          exact ⟨_, _, rfl, Or.inl ⟨rfl, rfl⟩⟩
      | inr hsome =>
          obtain ⟨-, hstart, c, bs₁, fl₁, rfl, hsize, hlayout, hperm⟩ := hsome
          rw [requested_requested] at hsize
          have hb₁ : b ∈ usedBlocks bs₁ := hperm.mem_iff.mpr (List.mem_cons_of_mem c hb)
          obtain ⟨m', bs', fl', hfree, hstart', hlayout', hperm'⟩ := hlayout.release hb₁
          rw [if_neg (by omega)]
          simp only [hfree, ok_bind]
          exact ⟨_, _, rfl, Or.inr ⟨hstart'.trans hstart, c, bs', fl', rfl, hsize, hlayout',
            hperm'.symm.trans hperm⟩⟩
  · rw [if_neg hgrow]
    have hfirst : add64 (requested newsize) memheapSize = requested newsize + memheapSize :=
      add64_eq (by omega)
    have hsum : add64 (add64 (requested newsize) memheapSize) memheapMinialloc =
        requested newsize + memheapSize + memheapMinialloc := by
      rw [hfirst, add64_eq (by omega)]
    rw [hsum]
    by_cases hkeep : b.size ≤ requested newsize + memheapSize + memheapMinialloc
    · rw [if_pos hkeep]
      exact ⟨_, _, rfl, Or.inr ⟨rfl, b, _, fl, rfl, Nat.le_of_not_lt hgrow, h, List.Perm.refl _⟩⟩
    · rw [if_neg hkeep]
      obtain ⟨hstart, bs', fl', hlayout, hbs'⟩ := h.shrink hused (Nat.lt_of_not_le hkeep)
      exact ⟨_, _, rfl, Or.inr ⟨hstart, { b with size := requested newsize }, bs', fl', rfl,
        le_refl _, hlayout, hswap (c := { b with size := requested newsize }) hused hbs'⟩⟩

end Realloc

end RtHypervisor.Ports.Memheap
