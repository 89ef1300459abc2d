import RtHypervisor.Ports.MemheapRun

/-!
# Runs of a memory heap

From the heap that `rt_memheap_init` makes (`Pool.layout`), the two lists agree in every state of a
run, and the data of the pointers held are apart (`HeapOk`), exactly when no
`rt_memheap_realloc` takes a wrapped sum for room behind a block.
-/

namespace RtHypervisor.Ports.Memheap

open RtHypervisor.Verified
open RtHypervisor.Verified.LinkedRing
open RtHypervisor.Verified.Run
open RtHypervisor.Ports.SmallMem (rtAlignSize rtAlignDown sub64)

/-- Where the data of a pointer end: at the header behind them. -/
def dataEnd (m : RtMemheap) (ptr : Nat) : Nat := m.next (sub64 ptr memheapSize)

/-- The two lists of a heap, with the blocks `bs` from the first header to the tail header, and the
headers `fl` of the free list. -/
structure Lists (m : RtMemheap) (bs : List Block) (fl : List Nat) (start tail : Nat) : Prop where
  first : m.blockList = start
  tiles : Tiles start bs tail
  ring : Ring m.next m.prev (addrs bs tail)
  marks : ∀ b ∈ bs, isUsed m b.addr = b.used
  tailMark : isUsed m tail = true
  sizes : ∀ b ∈ bs, memitemSize m b.addr = b.size
  freeRing : FreeRing m fl
  free : fl.Perm (freeAddrs bs)
  apart : Apart bs
  available : m.availableSize = freeBytes bs

/-- The lists agree, and the data of the pointers held are in the pool, have the size that was
asked for, if it can be rounded up, and are apart. -/
structure HeapOk (start tail : Nat) (s : State) : Prop where
  lists : ∃ bs fl, Lists s.heap bs fl start tail
  inside : ∀ a ∈ s.live,
    start + memheapSize ≤ a.1 ∧ a.1 < dataEnd s.heap a.1 ∧ dataEnd s.heap a.1 ≤ tail
  fits : ∀ a ∈ s.live, a.2 ≤ 2 ^ 64 - rtAlignSize → a.1 + a.2 ≤ dataEnd s.heap a.1
  disjoint : s.live.Pairwise fun a b =>
    dataEnd s.heap a.1 ≤ b.1 ∨ dataEnd s.heap b.1 ≤ a.1

/-! ## Between two steps -/

section Ok

variable {s : State} {m : RtMemheap} {bs : List Block} {fl : List Nat} {b : Block}
  {start tail o : Nat}

theorem Layout.lists (h : Layout m bs fl tail) : Lists m bs fl m.startAddr tail where
  first := h.place.blockList
  tiles := h.blocks.tiles
  ring := h.blocks.ring
  marks := fun _ hb => h.blocks.isUsed_eq hb
  tailMark := h.blocks.isUsed_tail
  sizes := fun _ hb => memitemSize_of_mem h.place h.blocks hb
  freeRing := h.ring
  free := h.free
  apart := h.apart
  available := h.available

/-- The data of a used block end with the block. -/
theorem Layout.dataEnd_eq (h : Layout m bs fl tail) (hb : b ∈ usedBlocks bs) :
    dataEnd m b.data = b.data + b.size := by
  rw [dataEnd, h.data_header hb]
  obtain ⟨pre, post, rfl⟩ := List.append_of_mem (mem_usedBlocks.mp hb).1
  exact h.blocks.next_eq

/-- A block ends before the next one begins. -/
theorem Tiles.ordered (h : Tiles o bs tail) :
    bs.Pairwise fun b c => b.addr + memheapSize + b.size ≤ c.addr := by
  induction bs generalizing o with
  | nil => exact List.Pairwise.nil
  | cons b bs ih =>
      refine List.pairwise_cons.mpr ⟨fun c hc => ?_, ih h.2⟩
      have hbounds := h.2.bounds hc
      rw [h.1]
      exact hbounds.1

/-- The data of two used blocks are apart. -/
theorem Layout.data_apart (h : Layout m bs fl tail) :
    ((usedBlocks bs).map Block.data).Pairwise fun p q => dataEnd m p ≤ q ∨ dataEnd m q ≤ p := by
  have hordered : (usedBlocks bs).Pairwise fun b c => b.addr + memheapSize + b.size ≤ c.addr :=
    h.blocks.tiles.ordered.sublist List.filter_sublist
  refine List.pairwise_map.mpr (hordered.imp_of_mem fun hb _ hle => Or.inl ?_)
  rw [h.dataEnd_eq hb, Block.data, Block.data]
  omega

theorem Inv.heapOk (h : Inv start tail s) : HeapOk start tail s := by
  obtain ⟨bs, fl, hlayout, rfl, hlive⟩ := h
  constructor
  · exact ⟨bs, fl, hlayout.lists⟩
  · intro a ha
    obtain ⟨b, hb, heq, hsize⟩ := hlive.room a ha
    obtain ⟨hstart, hend, -, -⟩ := hlayout.place.block hlayout.blocks (mem_usedBlocks.mp hb).1
    have hmin := minialloc_le_requested a.2
    have hpos : 0 < memheapMinialloc := by decide
    rw [heq, hlayout.dataEnd_eq hb, Block.data]
    omega
  · intro a ha hfit
    obtain ⟨b, hb, heq, hsize⟩ := hlive.room a ha
    have hle := le_requested hfit
    rw [heq, hlayout.dataEnd_eq hb]
    omega
  · have hapart : (s.live.map Prod.fst).Pairwise fun p q =>
        dataEnd s.heap p ≤ q ∨ dataEnd s.heap q ≤ p :=
      (hlive.pointers.pairwise_iff Or.symm).mpr hlayout.data_apart
    exact List.pairwise_map.mp hapart

/-- Where the sum wraps around, the room behind the block seems to be enough. -/
theorem Layout.canGrow_wrapped (h : Layout m bs fl tail) (hb : b ∈ bs) {n : Nat}
    (hmin : memheapMinialloc ≤ b.size) (hn : n < 2 ^ 64) (hwrap : 2 ^ 64 ≤ n + memheapMinialloc)
    (hfree : isUsed m (m.next b.addr) = false) : canGrow m (m.next b.addr) n b.size = true := by
  obtain ⟨pre, post, rfl⟩ := List.append_of_mem hb
  obtain ⟨c, rest, rfl, -, hnext⟩ := h.behind hfree
  have hmini : memheapMinialloc = 12 := rfl
  have hsum : add64 n memheapMinialloc = n + memheapMinialloc - 2 ^ 64 := by
    unfold add64
    omega
  rw [canGrow, hfree, hnext, h.room_behind, hsum, Bool.not_false, Bool.true_and, decide_eq_true_iff]
  omega

/-- Where the sum wraps around, a block grows to an end in front of its data. -/
theorem Inv.realloc_wrapped (h : Inv start tail s) {ptr newsize : Nat} (hheld : Held s ptr)
    (hwrap : ¬NoWrap s (.realloc ptr newsize)) {t : State}
    (hstep : step s (.realloc ptr newsize) = .ok t) :
    (ptr, newsize) ∈ t.live ∧ dataEnd t.heap ptr < ptr := by
  obtain ⟨bs, fl, hlayout, rfl, hlive⟩ := h
  simp only [NoWrap, not_or, Nat.not_lt, Bool.not_eq_true] at hwrap
  obtain ⟨hnull, hhigh, hfree⟩ := hwrap
  obtain ⟨a, ha, rfl⟩ := hheld.resolve_left hnull
  obtain ⟨b, hb, heq, hroom⟩ := hlive.room a ha
  rw [heq] at hnull hfree hstep ⊢
  have hheader := hlayout.data_header hb
  rw [hheader] at hfree
  have hmem := (mem_usedBlocks.mp hb).1
  have hsize : memitemSize s.heap b.addr = b.size :=
    memitemSize_of_mem hlayout.place hlayout.blocks hmem
  obtain ⟨-, -, hsmall, -⟩ := hlayout.place.block hlayout.blocks hmem
  have hmin := minialloc_le_requested a.2
  have hlt := (requested_aligned newsize).2
  have hmini : memheapMinialloc = 12 := rfl
  have hne : newsize ≠ 0 := by
    rintro rfl
    revert hhigh
    decide
  have hnext : b.addr < s.heap.next b.addr := by
    obtain ⟨pre, post, rfl⟩ := List.append_of_mem hmem
    have hpos : 0 < memheapSize := by decide
    rw [hlayout.blocks.next_eq]
    omega
  have hcan := hlayout.canGrow_wrapped hmem (by omega) hlt hhigh hfree
  have hok : rtMemheapRealloc s.heap b.data newsize = .ok
      (growInto s.heap b.data b.addr (s.heap.next b.addr) (requested newsize) b.size, b.data) := by
    unfold rtMemheapRealloc
    rw [if_neg hne, if_neg hnull]
    simp only [hheader, hsize]
    rw [if_pos (by omega)]
    simp only [hnext, decide_true, check_true, ok_bind, if_pos hcan]
    rfl
  cases (step_realloc_eq hok).symm.trans hstep
  rw [if_pos hnull]
  refine ⟨List.mem_cons_self .., ?_⟩
  rw [dataEnd, hheader, growInto_next]
  have hdata : b.data = b.addr + memheapSize := rfl
  have hpos : memheapSize = 48 := rfl
  unfold add64
  omega

end Ok

/-! ## The first state -/

/-- The memory that `rt_memheap_init` is given: room for two headers and a smallest block, less than
2 GB, and not the heap object itself. -/
structure Pool (m : RtMemheap) (startAddr size : Nat) : Prop where
  start_pos : 0 < startAddr
  room : 2 * memheapSize + memheapMinialloc ≤ size
  small : size < 2 ^ 31
  fits : startAddr + size ≤ 2 ^ 64
  header : m.freeList + memheapSize ≤ startAddr ∨ startAddr + size ≤ m.freeList

/-- The tail header. -/
def poolTail (startAddr size : Nat) : Nat := startAddr + rtAlignDown size - memheapSize

/-- The block between the first header and the tail header. -/
def wholePool (startAddr size : Nat) : Block :=
  ⟨startAddr, rtAlignDown size - 2 * memheapSize, false⟩

section Init

variable {m : RtMemheap} {startAddr size tail : Nat}

theorem Pool.aligned (h : Pool m startAddr size) :
    2 * memheapSize + memheapMinialloc ≤ rtAlignDown size ∧ rtAlignDown size ≤ size := by
  have hroom := h.room
  simp only [memheapSize, memheapMinialloc, rtAlignDown, rtAlignSize] at *
  omega

private theorem initFreeHeader_ring : FreeRing (initFreeHeader m) [] := by
  refine ⟨List.nodup_singleton _, List.isChain_cons_cons.mpr ⟨⟨?_, ?_⟩, List.isChain_singleton _⟩⟩
  · exact Function.update_self ..
  · exact Function.update_self ..

/-- The two headers of the pool are a ring. -/
theorem initTail_blocks {b : Block} (hstart : m.startAddr = b.addr) (hfree : b.used = false)
    (htail : b.addr + memheapSize + b.size = tail) :
    Blocks (initTail (initBlock m b.addr tail) b.addr tail) [b] tail := by
  have hpos : 0 < memheapSize := by decide
  have hne : b.addr ≠ tail := by omega
  constructor
  · exact ⟨hstart.symm, hstart ▸ htail⟩
  · have hnodup : [b.addr, tail].Nodup := by simpa using hne
    refine ⟨hnodup, List.isChain_cons_cons.mpr ⟨⟨?_, ?_⟩,
      List.isChain_cons_cons.mpr ⟨⟨?_, ?_⟩, List.isChain_singleton _⟩⟩⟩
    · simp [initTail, initBlock, linkFree, setMagic, Function.update_of_ne hne]
    · simp [initTail, initBlock, linkFree, setMagic]
    · simp [initTail, initBlock, linkFree, setMagic]
    · simp [initTail, initBlock, linkFree, setMagic, Function.update_of_ne hne]
  · intro c hc
    rw [List.mem_singleton.mp hc, hfree]
    exact (Function.update_of_ne hne ..).trans (Function.update_self ..)
  · exact Function.update_self ..
  · intro c hc
    rw [List.mem_singleton.mp hc]
    exact (Function.update_of_ne hne ..).trans (Function.update_self ..)

private theorem initTail_free (hring : FreeRing m []) (hstart : startAddr ≠ m.freeList)
    (htail : tail ≠ m.freeList) (hne : startAddr ≠ tail) :
    FreeRing (initTail (initBlock m startAddr tail) startAddr tail) [startAddr] := by
  have hput : FreeRing (initBlock m startAddr tail) [startAddr] :=
    FreeRing.link (hring.congr rfl rfl rfl) (by simpa [setMagic] using hstart)
  have hother : ∀ c ∈ [m.freeList, startAddr], c ≠ tail := by
    simpa using ⟨htail.symm, hne⟩
  exact Ring.congr hput (fun c hc => Function.update_of_ne (hother c hc) ..)
    fun c hc => Function.update_of_ne (hother c hc) ..

theorem Pool.layout (h : Pool m startAddr size) :
    Layout (rtMemheapInit m startAddr size) [wholePool startAddr size] [startAddr]
      (poolTail startAddr size) := by
  obtain ⟨hroom, hle⟩ := h.aligned
  have hsmall := h.small
  have hfits := h.fits
  have hheader := h.header
  have hstart := h.start_pos
  have hpos : memheapSize = 48 := rfl
  have hmini : memheapMinialloc = 12 := rfl
  have hfirst : sub64 (rtAlignDown size) (2 * memheapSize) = rtAlignDown size - 2 * memheapSize :=
    sub64_eq (by omega) (by omega)
  have hsum : add64 startAddr (rtAlignDown size - 2 * memheapSize) =
      startAddr + (rtAlignDown size - 2 * memheapSize) := add64_eq (by omega)
  have htail : add64 (add64 startAddr (rtAlignDown size - 2 * memheapSize)) memheapSize =
      poolTail startAddr size := by
    rw [hsum, add64_eq (by omega), poolTail]
    omega
  have hend : startAddr + memheapSize + (wholePool startAddr size).size =
      poolTail startAddr size := by
    simp only [wholePool, poolTail]
    omega
  have htailEq : poolTail startAddr size + memheapSize = startAddr + rtAlignDown size := by
    unfold poolTail
    omega
  simp only [rtMemheapInit]
  rw [hfirst, htail]
  constructor
  · constructor
    · exact hstart
    · exact htailEq
    · exact Nat.lt_of_le_of_lt hle hsmall
    · exact Nat.le_trans (Nat.add_le_add_left hle _) hfits
    · exact hheader.imp_right (Nat.le_trans (Nat.add_le_add_left hle _))
    · rfl
  · exact initTail_blocks (b := wholePool startAddr size) rfl rfl hend
  · refine initTail_free initFreeHeader_ring ?_ ?_ ?_
    · show startAddr ≠ m.freeList
      omega
    · show poolTail startAddr size ≠ m.freeList
      omega
    · omega
  · exact List.Perm.refl _
  · exact List.isChain_singleton _
  · show rtAlignDown size - 2 * memheapSize = freeBytes [wholePool startAddr size]
    rw [freeBytes_free rfl]
    rfl

/-- The heap before the first call. -/
def opened (m : RtMemheap) (startAddr size : Nat) : State := ⟨rtMemheapInit m startAddr size, []⟩

theorem Pool.inv (h : Pool m startAddr size) :
    Inv startAddr (poolTail startAddr size) (opened m startAddr size) :=
  ⟨_, _, h.layout, rfl, List.Perm.refl _, fun _ ha => by cases ha⟩

/-- A run in which nothing wraps around ends in a heap that a call can work on. -/
theorem Pool.run (h : Pool m startAddr size) {ops : List Op}
    (hcaller : Guarded step Caller (opened m startAddr size) ops)
    (hlow : Guarded step NoWrap (opened m startAddr size) ops) :
    ∃ t, run step (opened m startAddr size) ops = .ok t ∧
      Inv startAddr (poolTail startAddr size) t :=
  run_inv_of_guarded (fun s e hinv hg => step_ok s e hinv hg.1 hg.2) h.inv (hcaller.and hlow)

/-- **Every run of a memory heap.**  The calls return, and in every state the lists agree and the
data of the pointers held are apart, if and only if no `rt_memheap_realloc` of the run wraps
around where it looks for room behind a block that is followed by a free one. -/
theorem memheap_run_iff (h : Pool m startAddr size) {ops : List Op}
    (hcaller : Guarded step Caller (opened m startAddr size) ops) :
    ((∃ t, run step (opened m startAddr size) ops = .ok t) ∧
      Always step (HeapOk startAddr (poolTail startAddr size)) (opened m startAddr size) ops) ↔
      Guarded step NoWrap (opened m startAddr size) ops := by
  have hgood : ∀ s e, Inv startAddr (poolTail startAddr size) s →
      HeapOk startAddr (poolTail startAddr size) s → Caller s e → NoWrap s e →
      ∃ s', step s e = .ok s' ∧ HeapOk startAddr (poolTail startAddr size) s' ∧
        Inv startAddr (poolTail startAddr size) s' := by
    intro s e hinv _ hc hlow
    obtain ⟨s', hstep, hinv'⟩ := step_ok s e hinv hc hlow
    exact ⟨s', hstep, hinv'.heapOk, hinv'⟩
  refine returns_iff_guarded hgood ?_ h.inv h.inv.heapOk hcaller
  intro s e s' hinv _ hc hstep hok
  by_contra hwrap
  cases e with
  | alloc size => exact hwrap trivial
  | free ptr => exact hwrap trivial
  | store heap => exact hwrap trivial
  | realloc ptr newsize =>
      obtain ⟨hheld, hlt⟩ := hinv.realloc_wrapped hc hwrap hstep
      have hinside := hok.inside _ hheld
      simp only at hinside
      omega

end Init

/-! ## Runs of fixed calls -/

/-- Calls alone, without writes. -/
def Called (s : State) : Op → Prop
  | .alloc _ => True
  | .realloc ptr _ => Held s ptr
  | .free ptr => Held s ptr
  | .store _ => False

instance (s : State) (ptr : Nat) : Decidable (Held s ptr) :=
  inferInstanceAs (Decidable (ptr = 0 ∨ ∃ a ∈ s.live, a.1 = ptr))

instance (s : State) : ∀ e, Decidable (Called s e)
  | .alloc _ => isTrue trivial
  | .realloc ptr _ => inferInstanceAs (Decidable (Held s ptr))
  | .free ptr => inferInstanceAs (Decidable (Held s ptr))
  | .store _ => isFalse id

instance (s : State) : ∀ e, Decidable (NoWrap s e)
  | .alloc _ => isTrue trivial
  | .realloc ptr newsize =>
      inferInstanceAs (Decidable (ptr = 0 ∨ requested newsize + memheapMinialloc < 2 ^ 64 ∨
        isUsed s.heap (s.heap.next (sub64 ptr memheapSize)) = true))
  | .free _ => isTrue trivial
  | .store _ => isTrue trivial

theorem Called.caller {s : State} {ops : List Op} (h : Guarded step Called s ops) :
    Guarded step Caller s ops := by
  refine Guarded.of_inv (fun _ _ _ _ _ _ => trivial) (fun s e _ he => ?_) (trivial : True) h
  cases e with
  | alloc size => exact trivial
  | realloc ptr newsize => exact he
  | free ptr => exact he
  | store heap => exact he.elim

/-- Memory of zeros, with the heap object at `0x100`. -/
def zeros : RtMemheap where
  self := 0x100
  startAddr := 0
  poolSize := 0
  availableSize := 0
  maxUsedSize := 0
  blockList := 0
  freeList := 0x128
  magic := fun _ => 0
  poolPtr := fun _ => 0
  next := fun _ => 0
  prev := fun _ => 0
  nextFree := fun _ => 0
  prevFree := fun _ => 0

theorem zeros_pool : Pool zeros 0x1000 0x1000 :=
  ⟨by decide, by decide, by decide, by decide, by decide⟩

/-- Three blocks; the second is released, the first grows into its place, and the third becomes
smaller. -/
theorem memheap_run_three :
    (∃ t, run step (opened zeros 0x1000 0x1000) [.alloc 100, .alloc 200, .alloc 300,
        .free 0x10c4, .realloc 0x1030 250, .realloc 0x11bc 40] = .ok t ∧
      t.live = [(0x11bc, 40), (0x1030, 250)]) ∧
    Always step (HeapOk 0x1000 0x1fd0) (opened zeros 0x1000 0x1000) [.alloc 100, .alloc 200,
      .alloc 300, .free 0x10c4, .realloc 0x1030 250, .realloc 0x11bc 40] := by
  have hcalled : Guarded step Called (opened zeros 0x1000 0x1000) [.alloc 100, .alloc 200,
      .alloc 300, .free 0x10c4, .realloc 0x1030 250, .realloc 0x11bc 40] := by decide +kernel
  have hlow : Guarded step NoWrap (opened zeros 0x1000 0x1000) [.alloc 100, .alloc 200,
      .alloc 300, .free 0x10c4, .realloc 0x1030 250, .realloc 0x11bc 40] := by decide +kernel
  have hlive : (run step (opened zeros 0x1000 0x1000) [.alloc 100, .alloc 200, .alloc 300,
      .free 0x10c4, .realloc 0x1030 250, .realloc 0x11bc 40]).map State.live =
      .ok [(0x11bc, 40), (0x1030, 250)] := by decide +kernel
  obtain ⟨t, hrun, ht⟩ := exists_of_map_eq_ok hlive
  exact ⟨⟨t, hrun, ht⟩, ((memheap_run_iff zeros_pool (Called.caller hcalled)).mpr hlow).2⟩

/-- With a size near the end of `rt_size_t` the sum is 4, and the free block behind seems to have
room: the block is made to end in its own header. -/
theorem realloc_wraps : ∃ t, Pool zeros 0x1000 0x1000 ∧
    Guarded step Caller (opened zeros 0x1000 0x1000) [.alloc 100, .realloc 0x1030 (2 ^ 64 - 8)] ∧
    run step (opened zeros 0x1000 0x1000) [.alloc 100, .realloc 0x1030 (2 ^ 64 - 8)] = .ok t ∧
    ¬HeapOk 0x1000 0x1fd0 t := by
  have hcalled : Guarded step Called (opened zeros 0x1000 0x1000)
      [.alloc 100, .realloc 0x1030 (2 ^ 64 - 8)] := by decide +kernel
  have hend : (run step (opened zeros 0x1000 0x1000)
      [.alloc 100, .realloc 0x1030 (2 ^ 64 - 8)]).map
        (fun t => (t.live, dataEnd t.heap 0x1030)) = .ok ([(0x1030, 2 ^ 64 - 8)], 0x1028) := by
    decide +kernel
  obtain ⟨t, hrun, ht⟩ := exists_of_map_eq_ok hend
  obtain ⟨hlive, hdata⟩ := Prod.mk.inj ht
  refine ⟨t, zeros_pool, Called.caller hcalled, hrun, fun hok => ?_⟩
  have hinside := hok.inside (0x1030, 2 ^ 64 - 8) (hlive ▸ List.mem_cons_self ..)
  simp only [hdata] at hinside
  omega

end RtHypervisor.Ports.Memheap
