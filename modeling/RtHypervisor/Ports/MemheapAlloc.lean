import RtHypervisor.Ports.MemheapBlocks
import RtHypervisor.Ports.SmallMemAlloc

/-!
# Allocation from a memory heap

`Layout m bs fl tail` is the invariant: the two rings, the free list that has exactly the free
blocks, no two of them side by side, and `available_size` their sum.  `Layout.findFit` says what
the search finds and `Layout.alloc` what `rt_memheap_alloc` makes of it.
-/

namespace RtHypervisor.Ports.Memheap

open RtHypervisor.Verified
open RtHypervisor.Verified.LinkedRing
open RtHypervisor.Verified.Run
open RtHypervisor.Ports.SmallMem (rtAlign rtAlignSize sub64 le_rtAlign)

/-! ## Free and used blocks -/

def freeAddrs (bs : List Block) : List Nat := (bs.filter fun b => !b.used).map Block.addr

def freeBytes (bs : List Block) : Nat := ((bs.filter fun b => !b.used).map Block.size).sum

/-- No two free blocks are side by side. -/
def Apart (bs : List Block) : Prop := bs.IsChain fun b c => b.used = true ∨ c.used = true

section Lists

variable {bs cs pre post : List Block} {b : Block}

@[simp] theorem freeAddrs_append : freeAddrs (bs ++ cs) = freeAddrs bs ++ freeAddrs cs := by
  simp [freeAddrs]

@[simp] theorem freeBytes_append : freeBytes (bs ++ cs) = freeBytes bs + freeBytes cs := by
  simp [freeBytes]

theorem freeAddrs_free (h : b.used = false) : freeAddrs (b :: bs) = b.addr :: freeAddrs bs := by
  simp [freeAddrs, h]

theorem freeAddrs_used (h : b.used = true) : freeAddrs (b :: bs) = freeAddrs bs := by
  simp [freeAddrs, h]

theorem freeBytes_free (h : b.used = false) : freeBytes (b :: bs) = b.size + freeBytes bs := by
  simp [freeBytes, h]

theorem freeBytes_used (h : b.used = true) : freeBytes (b :: bs) = freeBytes bs := by
  simp [freeBytes, h]

theorem mem_freeAddrs {a : Nat} : a ∈ freeAddrs bs ↔ ∃ b ∈ bs, b.used = false ∧ b.addr = a := by
  simp [freeAddrs, and_assoc]

/-- What lies around a block. -/
theorem apart_around : Apart (pre ++ b :: post) ↔ Apart pre ∧ Apart post ∧
    (∀ c ∈ pre.getLast?, c.used = true ∨ b.used = true) ∧
      ∀ c ∈ post.head?, b.used = true ∨ c.used = true := by
  unfold Apart
  rw [List.isChain_append, List.isChain_cons]
  constructor
  · rintro ⟨hpre, ⟨hnext, hpost⟩, hlast⟩
    exact ⟨hpre, hpost, fun c hc => hlast c hc b rfl, hnext⟩
  · rintro ⟨hpre, hpost, hlast, hnext⟩
    refine ⟨hpre, ⟨hnext, hpost⟩, fun c hc d hd => ?_⟩
    cases hd
    exact hlast c hc

end Lists

/-! ## The invariant -/

/-- Where the pool and the free list header lie. -/
structure Place (m : RtMemheap) (tail : Nat) : Prop where
  start_pos : 0 < m.startAddr
  tail_eq : tail + memheapSize = m.startAddr + m.poolSize
  small : m.poolSize < 2 ^ 31
  fits : m.startAddr + m.poolSize ≤ 2 ^ 64
  header : m.freeList + memheapSize ≤ m.startAddr ∨ m.startAddr + m.poolSize ≤ m.freeList
  blockList : m.blockList = m.startAddr

structure Layout (m : RtMemheap) (bs : List Block) (fl : List Nat) (tail : Nat) : Prop where
  place : Place m tail
  blocks : Blocks m bs tail
  ring : FreeRing m fl
  free : fl.Perm (freeAddrs bs)
  apart : Apart bs
  available : m.availableSize = freeBytes bs

section Layout

variable {m : RtMemheap} {bs pre post : List Block} {b : Block} {fl : List Nat} {tail a x : Nat}

theorem sub64_eq {a b : Nat} (h : b ≤ a) (ha : a < 2 ^ 64) : sub64 a b = a - b := by
  unfold sub64
  omega

theorem add64_eq {a b : Nat} (h : a + b < 2 ^ 64) : add64 a b = a + b := Nat.mod_eq_of_lt h

/-- The data of a block lie in the pool. -/
theorem Place.block (h : Place m tail) (hblocks : Blocks m bs tail) (hb : b ∈ bs) :
    m.startAddr ≤ b.addr ∧ b.addr + memheapSize + b.size ≤ tail ∧ b.size < 2 ^ 31 ∧
      b.addr + memheapSize + b.size + memheapSize ≤ 2 ^ 64 := by
  have hbounds := hblocks.tiles.bounds hb
  have htail := h.tail_eq
  have hsmall := h.small
  have hfits := h.fits
  exact ⟨hbounds.1, hbounds.2, by omega, by omega⟩

theorem memitemSize_eq (h : Place m tail) (hblocks : Blocks m (pre ++ b :: post) tail) :
    memitemSize m b.addr = b.size := by
  obtain ⟨-, -, -, hend⟩ := h.block hblocks List.mem_append_cons_self
  have hpos : 0 < memheapSize := by decide
  have hdiff : sub64 (b.addr + memheapSize + b.size) b.addr = memheapSize + b.size := by
    rw [sub64_eq (by omega) (by omega)]
    omega
  rw [memitemSize, hblocks.next_eq, hdiff, sub64_eq (by omega) (by omega), Nat.add_sub_cancel_left]

theorem memitemSize_of_mem (h : Place m tail) (hblocks : Blocks m bs tail) (hb : b ∈ bs) :
    memitemSize m b.addr = b.size := by
  obtain ⟨pre, post, rfl⟩ := List.append_of_mem hb
  exact memitemSize_eq h hblocks

/-- The free list header is no header of the pool, nor is an address in the pool. -/
theorem Place.freeList_ne (h : Place m tail) (hlo : m.startAddr ≤ x) (hhi : x ≤ tail) :
    x ≠ m.freeList := by
  have hheader := h.header
  have htail := h.tail_eq
  have hpos : 0 < memheapSize := by decide
  omega

/-- A block and its place in the free list. -/
theorem Layout.split_free (h : Layout m (pre ++ b :: post) fl tail) (hb : b.used = false) :
    ∃ fpre fpost, fl = fpre ++ b.addr :: fpost ∧
      (fpre ++ fpost).Perm (freeAddrs pre ++ freeAddrs post) := by
  have hperm := h.free
  rw [freeAddrs_append, freeAddrs_free hb] at hperm
  have hmem : b.addr ∈ fl :=
    hperm.mem_iff.mpr List.mem_append_cons_self
  obtain ⟨fpre, fpost, rfl⟩ := List.append_of_mem hmem
  refine ⟨fpre, fpost, rfl, ?_⟩
  have hmoved := (List.perm_middle.symm.trans hperm).trans List.perm_middle
  exact List.Perm.cons_inv hmoved

/-- An address in the data of a block is in no ring. -/
theorem Layout.fresh (h : Layout m (pre ++ b :: post) fl tail) (hlo : b.addr < x)
    (hhi : x < b.addr + memheapSize + b.size) : x ∉ m.freeList :: fl := by
  have hmem : b ∈ pre ++ b :: post := List.mem_append_cons_self
  obtain ⟨hstart, hend, -, -⟩ := h.place.block h.blocks hmem
  intro hx
  rcases List.mem_cons.mp hx with heq | hx
  · exact h.place.freeList_ne (by omega) (by omega) heq
  · have hfree := h.free.mem_iff.mp hx
    obtain ⟨c, hc, -, rfl⟩ := mem_freeAddrs.mp hfree
    exact h.blocks.tiles.not_mem hlo hhi (List.mem_append_left _ (List.mem_map_of_mem hc))

/-! ## The search -/

/-- What the search on a part of the free list finds. -/
theorem findFit_spec {size k freeSize : Nat} (hring : (fl ++ [m.freeList]).IsChain
      (Linked m.nextFree m.prevFree)) (hx : (fl ++ [m.freeList]).head? = some x)
    (hfl : m.freeList ∉ fl) (hfuel : fl.length + 2 ≤ k) (hsmall : freeSize < size) :
    ∃ r, findFit m size k x freeSize = .ok r ∧
      (r.1 ∈ fl ∧ r.2 = memitemSize m r.1 ∧ size ≤ r.2 ∨
        (∀ a ∈ fl, memitemSize m a < size) ∧ r.2 < size) := by
  induction fl generalizing x k freeSize with
  | nil =>
      cases hx
      obtain ⟨k, rfl⟩ : ∃ j, k = j + 1 := ⟨k - 1, by simp only [List.length_nil] at hfuel; omega⟩
      refine ⟨_, if_neg fun hc => hc.1 rfl, Or.inr ⟨fun a ha => (by cases ha), hsmall⟩⟩
  | cons a fl ih =>
      cases hx
      have hne : a ≠ m.freeList := fun heq => hfl (heq ▸ List.mem_cons_self ..)
      rw [List.length_cons] at hfuel
      obtain ⟨k, rfl⟩ : ∃ j, k = j + 2 := ⟨k - 2, by omega⟩
      have hstep : findFit m size (k + 2) a freeSize =
          findFit m size (k + 1)
            (if memitemSize m a < size then m.nextFree a else a) (memitemSize m a) :=
        if_pos ⟨hne, hsmall⟩
      rw [hstep]
      by_cases hfit : memitemSize m a < size
      · rw [if_pos hfit]
        obtain ⟨y, rest, hy⟩ : ∃ y rest, fl ++ [m.freeList] = y :: rest := exists_next
        rw [List.cons_append, hy] at hring
        have hlink := List.isChain_cons_cons.mp hring
        have hhead : (fl ++ [m.freeList]).head? = some (m.nextFree a) := by
          rw [hy, hlink.1.1]
          rfl
        rw [← hy] at hlink
        obtain ⟨r, hok, hr⟩ := ih (k := k + 1) hlink.2 hhead
          (fun hmem => hfl (List.mem_cons_of_mem a hmem)) (by omega) hfit
        refine ⟨r, hok, ?_⟩
        rcases hr with ⟨hmem, hrest⟩ | ⟨hall, hr⟩
        · exact Or.inl ⟨List.mem_cons_of_mem a hmem, hrest⟩
        · refine Or.inr ⟨fun c hc => ?_, hr⟩
          rcases List.mem_cons.mp hc with rfl | hc
          · exact hfit
          · exact hall c hc
      · rw [if_neg hfit]
        refine ⟨(a, memitemSize m a), if_neg fun hc => hfit hc.2, Or.inl ?_⟩
        exact ⟨List.mem_cons_self .., rfl, Nat.not_lt.mp hfit⟩

/-- There are fewer free blocks than bytes. -/
theorem Tiles.length_le {o : Nat} (h : Tiles o bs tail) : o + bs.length ≤ tail := by
  induction bs generalizing o with
  | nil => exact h.le
  | cons b bs ih =>
      have hle := ih h.2
      have hpos : 0 < memheapSize := by decide
      rw [List.length_cons]
      omega

theorem Layout.length_le (h : Layout m bs fl tail) : fl.length + 2 ≤ m.poolSize + 2 := by
  have hlen := h.free.length_eq
  have hfilter : (freeAddrs bs).length ≤ bs.length := by
    rw [freeAddrs, List.length_map]
    exact List.length_filter_le ..
  have htiles := h.blocks.tiles.length_le
  have htail := h.place.tail_eq
  omega

/-- The search finds a free block that is large enough, or there is none. -/
theorem Layout.findFit (h : Layout m bs fl tail) {size : Nat} (hsize : 0 < size) :
    ∃ r, findFit m size (m.poolSize + 2) (m.nextFree m.freeList) 0 = .ok r ∧
      ((∃ b ∈ bs, b.used = false ∧ r = (b.addr, b.size) ∧ size ≤ b.size) ∨
        (∀ b ∈ bs, b.used = false → b.size < size) ∧ r.2 < size) := by
  obtain ⟨hnodup, hchain⟩ := h.ring
  obtain ⟨y, rest, hy⟩ : ∃ y rest, fl ++ [m.freeList] = y :: rest := exists_next
  rw [hy] at hchain
  have hlink := List.isChain_cons_cons.mp hchain
  have hhead : (fl ++ [m.freeList]).head? = some (m.nextFree m.freeList) := by
    rw [hy, hlink.1.1]
    rfl
  rw [← hy] at hlink
  obtain ⟨r, hok, hr⟩ := findFit_spec hlink.2 hhead (List.nodup_cons.mp hnodup).1 h.length_le hsize
  refine ⟨r, hok, ?_⟩
  rcases hr with ⟨hmem, hsnd, hle⟩ | ⟨hall, hlt⟩
  · obtain ⟨b, hb, hfree, haddr⟩ := mem_freeAddrs.mp (h.free.mem_iff.mp hmem)
    have hitem := memitemSize_of_mem h.place h.blocks hb
    rw [← haddr, hitem] at hsnd
    exact Or.inl ⟨b, hb, hfree, Prod.ext haddr.symm hsnd, hsnd ▸ hle⟩
  · refine Or.inr ⟨fun b hb hfree => ?_, hlt⟩
    have hmem : b.addr ∈ fl := h.free.mem_iff.mpr (mem_freeAddrs.mpr ⟨b, hb, hfree, rfl⟩)
    rw [← memitemSize_of_mem h.place h.blocks hb]
    exact hall _ hmem

/-! ## Allocation -/

theorem Tiles.freeBytes_le {o : Nat} (h : Tiles o bs tail) : o + freeBytes bs ≤ tail := by
  induction bs generalizing o with
  | nil => exact h.le
  | cons b bs ih =>
      have hle := ih h.2
      cases hb : b.used with
      | false =>
          rw [freeBytes_free hb]
          omega
      | true =>
          rw [freeBytes_used hb]
          omega

theorem Layout.available_lt (h : Layout m bs fl tail) : m.availableSize < 2 ^ 31 := by
  have hle := h.blocks.tiles.freeBytes_le
  have htail := h.place.tail_eq
  have hsmall := h.place.small
  rw [h.available]
  omega

/-! ## One step at a time -/

/-- The rings and the counter, which need not yet agree. -/
structure Loose (m : RtMemheap) (bs : List Block) (fl : List Nat) (tail available : Nat) :
    Prop where
  place : Place m tail
  blocks : Blocks m bs tail
  ring : FreeRing m fl
  available : m.availableSize = available

section Loose

variable {c : Block} {fpre fpost : List Nat} {available new n : Nat}

theorem Layout.loose (h : Layout m bs fl tail) : Loose m bs fl tail (freeBytes bs) :=
  ⟨h.place, h.blocks, h.ring, h.available⟩

theorem Loose.layout (h : Loose m bs fl tail available) (hfree : fl.Perm (freeAddrs bs))
    (hapart : Apart bs) (havailable : available = freeBytes bs) : Layout m bs fl tail :=
  ⟨h.place, h.blocks, h.ring, hfree, hapart, h.available.trans havailable⟩

theorem Loose.mark (h : Loose m (pre ++ b :: post) fl tail available) (used : Bool) :
    Loose (setMagic m b.addr (if used then memheapUsed else memheapFreed))
      (pre ++ { b with used } :: post) fl tail available :=
  ⟨{ h.place with }, h.blocks.mark used, h.ring.congr rfl rfl rfl, h.available⟩

theorem Loose.link (h : Loose m (pre ++ b :: post) fl tail available)
    (hroom : n + memheapSize ≤ b.size) :
    Loose (linkBlock m b.addr (b.addr + memheapSize + n))
      (pre ++ { b with size := n } ::
        ⟨b.addr + memheapSize + n, b.size - memheapSize - n, false⟩ :: post) fl tail available :=
  ⟨{ h.place with }, h.blocks.link hroom, h.ring.congr rfl rfl rfl, h.available⟩

theorem Loose.unlink (h : Loose m (pre ++ b :: c :: post) fl tail available) :
    Loose (unlinkBlock m c.addr)
      (pre ++ { b with size := b.size + memheapSize + c.size } :: post) fl tail available :=
  ⟨{ h.place with }, h.blocks.unlink, h.ring.congr rfl rfl rfl, h.available⟩

theorem Loose.linkFree (h : Loose m bs fl tail available) (hnew : new ∉ m.freeList :: fl) :
    Loose (linkFree m new) bs (new :: fl) tail available :=
  ⟨{ h.place with }, h.blocks.congr rfl rfl rfl rfl rfl rfl, h.ring.link hnew, h.available⟩

theorem Loose.unlinkFree (h : Loose m bs (fpre ++ a :: fpost) tail available) :
    Loose (unlinkFree m a) bs (fpre ++ fpost) tail available :=
  ⟨{ h.place with }, h.blocks.congr rfl rfl rfl rfl rfl rfl, h.ring.unlink, h.available⟩

theorem Loose.clearFree (h : Loose m bs fl tail available) (ha : a ∉ m.freeList :: fl) :
    Loose (clearFree m a) bs fl tail available :=
  ⟨{ h.place with }, h.blocks.congr rfl rfl rfl rfl rfl rfl, h.ring.clear ha, h.available⟩

theorem Loose.count (h : Loose m bs fl tail available) (v : Nat) :
    Loose { m with availableSize := v } bs fl tail v :=
  ⟨{ h.place with }, h.blocks.congr rfl rfl rfl rfl rfl rfl, h.ring.congr rfl rfl rfl, rfl⟩

theorem Loose.noteUsed (h : Loose m bs fl tail available) :
    Loose (noteUsed m) bs fl tail available := by
  unfold Memheap.noteUsed
  split
  · generalize sub64 m.poolSize m.availableSize = v
    exact ⟨{ h.place with }, h.blocks.congr rfl rfl rfl rfl rfl rfl, h.ring.congr rfl rfl rfl,
      h.available⟩
  · exact h

end Loose

/-- A header in the free list is not there twice. -/
theorem FreeRing.not_mem {fpre fpost : List Nat} (h : FreeRing m (fpre ++ a :: fpost)) :
    a ∉ m.freeList :: (fpre ++ fpost) := by
  have hnodup : (m.freeList :: (fpre ++ a :: fpost)).Nodup := h.nodup
  have hmoved : (a :: m.freeList :: (fpre ++ fpost)).Perm
      (m.freeList :: (fpre ++ a :: fpost)) :=
    (List.Perm.swap ..).trans (List.perm_middle.symm.cons _)
  exact (List.nodup_cons.mp (hmoved.nodup_iff.mpr hnodup)).1

/-- The header of a new block. -/
theorem new_addr {n : Nat} (h : b.addr + memheapSize + n < 2 ^ 64) :
    add64 (add64 b.addr n) memheapSize = b.addr + memheapSize + n := by
  have hfirst : add64 b.addr n = b.addr + n := add64_eq (by omega)
  rw [hfirst, add64_eq (by omega)]
  omega

@[simp] theorem unlinkFree_freeList (m : RtMemheap) (a : Nat) :
    (unlinkFree m a).freeList = m.freeList := rfl

theorem Layout.allocWhole (h : Layout m (pre ++ b :: post) fl tail) (hb : b.used = false) :
    ∃ fl', Layout (setMagic (allocWhole m b.addr b.size) b.addr memheapUsed)
      (pre ++ { b with used := true } :: post) fl' tail := by
  obtain ⟨fpre, fpost, rfl, hperm⟩ := h.split_free hb
  have hlt := h.available_lt
  have havailable := h.available
  rw [freeBytes_append, freeBytes_free hb] at havailable
  have hleft : sub64 m.availableSize b.size = freeBytes pre + freeBytes post := by
    rw [sub64_eq (by omega) (by omega)]
    omega
  have hcount := (h.loose.count (sub64 m.availableSize b.size)).noteUsed
  have hnot := hcount.ring.not_mem
  rw [← unlinkFree_freeList] at hnot
  have hlast := (hcount.unlinkFree.clearFree hnot).mark true
  rw [if_pos rfl] at hlast
  simp only [Memheap.allocWhole]
  refine ⟨fpre ++ fpost, hlast.layout ?_ ?_ ?_⟩
  · rwa [freeAddrs_append, freeAddrs_used rfl]
  · obtain ⟨hpre, hpost, -, -⟩ := apart_around.mp h.apart
    exact apart_around.mpr ⟨hpre, hpost, fun _ _ => Or.inr rfl, fun _ _ => Or.inl rfl⟩
  · rw [freeBytes_append, freeBytes_used rfl, hleft]

/-- The free blocks other than one. -/
theorem Layout.not_mem_rest {fpre fpost : List Nat} (_ : Layout m bs (fpre ++ a :: fpost) tail)
    (hx : x ∉ m.freeList :: (fpre ++ a :: fpost)) : x ∉ m.freeList :: (fpre ++ fpost) := by
  intro hmem
  apply hx
  simp only [List.mem_cons, List.mem_append] at hmem ⊢
  tauto

theorem Layout.allocSplit (h : Layout m (pre ++ b :: post) fl tail) (hb : b.used = false)
    {n : Nat} (hroom : n + memheapSize + memheapMinialloc ≤ b.size) :
    ∃ fl', Layout (setMagic (allocSplit m b.addr n) b.addr memheapUsed)
      (pre ++ ⟨b.addr, n, true⟩ ::
        ⟨b.addr + memheapSize + n, b.size - memheapSize - n, false⟩ :: post) fl' tail := by
  obtain ⟨-, hend, -, hfits⟩ := h.place.block h.blocks List.mem_append_cons_self
  have hpos : 0 < memheapSize := by decide
  have hfresh : b.addr + memheapSize + n ∉ m.freeList :: fl := h.fresh (by omega) (by omega)
  obtain ⟨fpre, fpost, rfl, hperm⟩ := h.split_free hb
  have hnew := h.not_mem_rest hfresh
  have hlt := h.available_lt
  have havailable := h.available
  rw [freeBytes_append, freeBytes_free hb] at havailable
  have hleft : sub64 (sub64 m.availableSize n) memheapSize =
      freeBytes pre + (b.size - memheapSize - n + freeBytes post) := by
    have hfirst : sub64 m.availableSize n = m.availableSize - n := sub64_eq (by omega) (by omega)
    rw [hfirst, sub64_eq (by omega) (by omega)]
    omega
  have hlinked := h.loose.link (n := n) (by omega)
  have hnot := hlinked.ring.not_mem
  have htaken := (hlinked.unlinkFree.clearFree hnot).linkFree hnew
  have hlast := ((htaken.count (sub64 (sub64 m.availableSize n) memheapSize)).noteUsed).mark true
  rw [if_pos rfl] at hlast
  simp only [Memheap.allocSplit]
  rw [new_addr (by omega)]
  refine ⟨(b.addr + memheapSize + n) :: (fpre ++ fpost), hlast.layout ?_ ?_ ?_⟩
  · rw [freeAddrs_append, freeAddrs_used rfl, freeAddrs_free rfl]
    exact (hperm.cons _).trans List.perm_middle.symm
  · obtain ⟨hpre, hpost, -, hnext⟩ := apart_around.mp h.apart
    have hafter : Apart (⟨b.addr + memheapSize + n, b.size - memheapSize - n, false⟩ :: post) :=
      List.isChain_cons.mpr
        ⟨fun c hc => Or.inr ((hnext c hc).resolve_left (by rw [hb]; nofun)), hpost⟩
    exact apart_around.mpr ⟨hpre, hafter, fun _ _ => Or.inr rfl, fun _ _ => Or.inl rfl⟩
  · rw [freeBytes_append, freeBytes_used rfl, freeBytes_free rfl, hleft]

/-- The blocks in use. -/
def usedBlocks (bs : List Block) : List Block := bs.filter Block.used

@[simp] theorem usedBlocks_append {cs : List Block} :
    usedBlocks (bs ++ cs) = usedBlocks bs ++ usedBlocks cs := List.filter_append ..

theorem usedBlocks_free (hb : b.used = false) : usedBlocks (b :: bs) = usedBlocks bs :=
  List.filter_cons_of_neg (by rw [hb]; decide)

theorem usedBlocks_used (hb : b.used = true) : usedBlocks (b :: bs) = b :: usedBlocks bs :=
  List.filter_cons_of_pos hb

theorem mem_usedBlocks : b ∈ usedBlocks bs ↔ b ∈ bs ∧ b.used = true := List.mem_filter

/-! ### The pool stays where it is -/

@[simp] theorem setMagic_startAddr {v : BitVec 32} : (setMagic m a v).startAddr = m.startAddr := rfl

@[simp] theorem linkBlock_startAddr : (linkBlock m a x).startAddr = m.startAddr := rfl

@[simp] theorem unlinkBlock_startAddr : (unlinkBlock m a).startAddr = m.startAddr := rfl

@[simp] theorem linkFree_startAddr : (linkFree m a).startAddr = m.startAddr := rfl

@[simp] theorem unlinkFree_startAddr : (unlinkFree m a).startAddr = m.startAddr := rfl

@[simp] theorem clearFree_startAddr : (clearFree m a).startAddr = m.startAddr := rfl

@[simp] theorem noteUsed_startAddr : (noteUsed m).startAddr = m.startAddr := by
  unfold noteUsed
  split <;> rfl

def recount (m : RtMemheap) (v : Nat) : RtMemheap := { m with availableSize := v }

@[simp] theorem recount_startAddr {v : Nat} : (recount m v).startAddr = m.startAddr := rfl

private theorem allocSplit_startAddr {n : Nat} :
    (Memheap.allocSplit m a n).startAddr = m.startAddr := by
  obtain ⟨new, v, h⟩ : ∃ new v, Memheap.allocSplit m a n = noteUsed (recount
      (linkFree (clearFree (unlinkFree (linkBlock m a new) a) a) new) v) := ⟨_, _, rfl⟩
  rw [h, noteUsed_startAddr, recount_startAddr, linkFree_startAddr, clearFree_startAddr,
    unlinkFree_startAddr, linkBlock_startAddr]

private theorem allocWhole_startAddr {n : Nat} :
    (Memheap.allocWhole m a n).startAddr = m.startAddr := by
  obtain ⟨v, h⟩ : ∃ v, Memheap.allocWhole m a n =
      clearFree (unlinkFree (noteUsed (recount m v)) a) a := ⟨_, rfl⟩
  rw [h, clearFree_startAddr, unlinkFree_startAddr, noteUsed_startAddr, recount_startAddr]

theorem le_requested {size : Nat} (h : size ≤ 2 ^ 64 - rtAlignSize) : size ≤ requested size := by
  have hle := le_rtAlign h
  unfold requested
  simp only
  split
  · omega
  · exact hle

theorem minialloc_le_requested (size : Nat) : memheapMinialloc ≤ requested size := by
  unfold requested
  simp only
  split
  · exact le_refl _
  · omega

/-- What a request needs: a free block that is large enough, and more free bytes than it asks. -/
def Grants (m : RtMemheap) (bs : List Block) (size : Nat) : Prop :=
  requested size < m.availableSize ∧ ∃ b ∈ bs, b.used = false ∧ requested size ≤ b.size

/-- What `rt_memheap_alloc` does. -/
theorem Layout.alloc (h : Layout m bs fl tail) (size : Nat) :
    ∃ m' p, rtMemheapAlloc m size = .ok (m', p) ∧
      (¬Grants m bs size ∧ m' = m ∧ p = 0 ∨
        Grants m bs size ∧ m'.startAddr = m.startAddr ∧
          ∃ c bs' fl', p = c.addr + memheapSize ∧ requested size ≤ c.size ∧
            Layout m' bs' fl' tail ∧ (usedBlocks bs').Perm (c :: usedBlocks bs)) := by
  have hmin := minialloc_le_requested size
  have hpos : 0 < memheapMinialloc := by decide
  unfold rtMemheapAlloc
  simp only
  by_cases hcheck : requested size < m.availableSize
  · rw [if_pos hcheck]
    have hsize : 0 < requested size := by omega
    obtain ⟨r, hfind, hr⟩ := h.findFit hsize
    simp only [hfind, ok_bind]
    cases hr with
    | inl hfit =>
        obtain ⟨b, hb, hfree, rfl, hle⟩ := hfit
        obtain ⟨pre, post, rfl⟩ := List.append_of_mem hb
        obtain ⟨-, hend, hsmall, hfits⟩ := h.place.block h.blocks hb
        have hsize : memheapSize = 48 := rfl
        have hmini : memheapMinialloc = 12 := rfl
        have hgrants : Grants m (pre ++ b :: post) size := ⟨hcheck, b, hb, hfree, hle⟩
        have hptr : add64 b.addr memheapSize = b.addr + memheapSize := add64_eq (by omega)
        have hfirst : add64 (requested size) memheapSize = requested size + memheapSize :=
          add64_eq (by omega)
        have hsum : add64 (add64 (requested size) memheapSize) memheapMinialloc =
            requested size + memheapSize + memheapMinialloc := by
          rw [hfirst, add64_eq (by omega)]
        simp only [if_pos hle, hptr, hsum]
        refine ⟨_, _, rfl, Or.inr ⟨hgrants, ?_, ?_⟩⟩
        · rw [setMagic_startAddr]
          split
          · exact allocSplit_startAddr
          · exact allocWhole_startAddr
        · by_cases hsplit : requested size + memheapSize + memheapMinialloc ≤ b.size
          · rw [if_pos hsplit]
            obtain ⟨fl', hlayout⟩ := h.allocSplit hfree hsplit
            refine ⟨⟨b.addr, requested size, true⟩, _, fl', rfl, le_refl _, hlayout, ?_⟩
            rw [usedBlocks_append, usedBlocks_append, usedBlocks_used rfl, usedBlocks_free rfl,
              usedBlocks_free hfree]
            exact List.perm_middle
          · rw [if_neg hsplit]
            obtain ⟨fl', hlayout⟩ := h.allocWhole hfree
            refine ⟨{ b with used := true }, _, fl', rfl, hle, hlayout, ?_⟩
            rw [usedBlocks_append, usedBlocks_append, usedBlocks_used rfl, usedBlocks_free hfree]
            exact List.perm_middle
    | inr hnone =>
        rw [if_neg (Nat.not_le.mpr hnone.2)]
        refine ⟨m, 0, rfl, Or.inl ⟨?_, rfl, rfl⟩⟩
        rintro ⟨-, b, hb, hfree, hle⟩
        exact absurd (hnone.1 b hb hfree) (Nat.not_lt.mpr hle)
  · rw [if_neg hcheck]
    exact ⟨m, 0, rfl, Or.inl ⟨fun hgrants => hcheck hgrants.1, rfl, rfl⟩⟩

end Layout

end RtHypervisor.Ports.Memheap
