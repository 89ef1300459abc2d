import RtHypervisor.Ports.SmallMemFit

/-!
# The heap named in a header

`pool_ptr` holds the address of the heap with the used bit in its lowest bit.  `MEM_MASK` is
a 32-bit constant: on a 64-bit machine `MEM_USED` and `MEM_FREED` cut the address off at
4 GB, and the address `MEM_POOL` reads back is that of the heap only below that boundary.

`Tagged` is what the headers are for: they name the heap, they tell which items are in use,
and so `rt_smem_free` takes back what `rt_smem_alloc` has handed out.
-/

namespace RtHypervisor.Ports.SmallMem

open RtHypervisor.Verified.Run
open RtHypervisor.Verified.Tiling

variable {m m' : RtSmallMem} {s t : State} {bs : List Block} {off : Nat}

/-- Every linked header names the heap, whether it is in use or not; the ones in use are the
last one and those of the pointers held; and every pointer held can be given back. -/
structure Tagged (s : State) : Prop where
  pool : ∀ off, Linked s.mem off → memPool (s.mem.items off) = BitVec.ofNat 64 s.mem.addr
  used : ∀ off, Linked s.mem off → (memIsUsed (s.mem.items off) = true ↔
    off = s.mem.heapEnd ∨ ∃ a ∈ s.live, a.1 = s.mem.heapPtr + off + sizeofStructMem)
  accepted : ∀ a ∈ s.live, ∃ m, rtSmemFree s.mem a.1 = .ok m

/-! ## Linked headers -/

/-- The linked headers are those of the blocks and the last one. -/
theorem Tiled.linked_cases (h : Tiled m bs) (hl : Linked m off) :
    off = m.heapEnd ∨ ∃ pre b post, bs = pre ++ b :: post ∧ off = total Block.size pre := by
  induction hl with
  | first =>
      cases bs with
      | nil => exact Or.inl h.heapEnd_eq.symm
      | cons b bs => exact Or.inr ⟨[], b, bs, rfl, rfl⟩
  | next hl hlt ih =>
      rcases ih with rfl | ⟨pre, b, post, rfl, rfl⟩
      · exact absurd hlt (Nat.lt_irrefl _)
      · obtain ⟨p, hhead, -⟩ := h.header
        have hnext : (m.items (total Block.size pre)).next = total Block.size (pre ++ [b]) := by
          rw [hhead, total_append, total_cons, total_nil]
          rfl
        rw [hnext]
        cases post with
        | nil => exact Or.inl h.heapEnd_eq.symm
        | cons c post => exact Or.inr ⟨pre ++ [b], c, post, by simp, rfl⟩

/-- A block is in use exactly when its pointer is held. -/
theorem Live.used_iff {base : Nat} {live : List (Nat × Nat)} {pre post : List Block} {b : Block}
    (h : Live base live (usedBlocks 0 (pre ++ b :: post)))
    (hpos : ∀ c ∈ pre ++ b :: post, 0 < c.size) :
    b.used = true ↔ ∃ a ∈ live, a.1 = base + total Block.size pre + sizeofStructMem := by
  constructor
  · intro hb
    have hmem : (total Block.size pre, b.size) ∈ usedBlocks 0 (pre ++ b :: post) := by
      rw [usedBlocks_append, usedBlocks, if_pos hb, Nat.zero_add]
      simp
    have hpointer := h.pointers.mem_iff.mpr (List.mem_map_of_mem (f := pointer base) hmem)
    obtain ⟨a, ha, heq⟩ := List.mem_map.mp hpointer
    exact ⟨a, ha, heq⟩
  · rintro ⟨a, ha, heq⟩
    obtain ⟨r, hr, hpointer⟩ := h.mem ha
    have hoff : r.1 = total Block.size pre := by
      unfold pointer at hpointer
      omega
    rw [usedBlocks_append, List.mem_append, Nat.zero_add] at hr
    rcases hr with hr | hr
    · have hbounds := usedBlocks_bounds hr
      obtain ⟨pre', c, post', hsplit, -, hsize, -⟩ := usedBlocks_split hr
      have hc := hpos c (by rw [hsplit]; simp)
      omega
    · rw [usedBlocks] at hr
      by_contra hb
      rw [if_neg hb] at hr
      have hbounds := (usedBlocks_bounds hr).1
      have hb' := hpos b (by simp)
      omega

/-! ## Heaps with room for a block -/

/-- Below 4 GB the headers name the heap. -/
theorem Inv.tagged (h : Inv s) : Tagged s := by
  obtain ⟨hm, bs, hinv, hlive⟩ := h
  constructor
  · intro off hl
    rcases hinv.tiled.linked_cases hl with rfl | ⟨pre, b, post, rfl, rfl⟩
    · exact memPool_of_pool hm.addr_lt hm.addr_aligned (Or.inl hinv.tiled.last)
    · exact hinv.tiled.memPool_head hm
  · intro off hl
    rcases hinv.tiled.linked_cases hl with rfl | ⟨pre, b, post, rfl, rfl⟩
    · exact iff_of_true (memIsUsed_of_pool hinv.tiled.last) (Or.inl rfl)
    · have hlt := hinv.tiled.offset_lt
      have hsize := hinv.tiled.size_of_mem.1
      obtain ⟨p, hhead, -⟩ := hinv.tiled.header
      have hne : total Block.size pre ≠ s.mem.heapEnd := by omega
      rw [hhead, memIsUsed_headOf, hlive.used_iff hinv.tiled.pos]
      exact ⟨Or.inr, fun hor => hor.resolve_left hne⟩
  · intro a ha
    obtain ⟨o, n, hmem, hptr⟩ := hlive.block ⟨a, ha, rfl⟩
    obtain ⟨m', bs', hfree, -⟩ := rtSmemFree_spec hm hinv hmem
    exact ⟨m', by rw [hptr]; exact hfree⟩

/-! ## Heaps without -/

/-- A heap too small for a block keeps the two headers `rt_smem_init` has written, and hands
out nothing. -/
structure Bare (s : State) : Prop where
  sized : Sized s.mem
  small : s.mem.memSizeAligned < minSizeAligned
  addr_lt : s.mem.addr < 2 ^ 32
  addr_aligned : s.mem.addr % rtAlignSize = 0
  lfree : s.mem.lfree = 0
  first : s.mem.items 0 = ⟨memFreed s.mem.addr, s.mem.heapEnd, 0⟩
  last : s.mem.items s.mem.heapEnd = ⟨memUsed s.mem.addr, s.mem.heapEnd, s.mem.heapEnd⟩
  none_held : s.live = []

/-- The search does not end. -/
theorem Bare.findFit (h : Bare s) (fuel : Nat) :
    findFit s.mem minSizeAligned 0 fuel = .error .fuel := by
  have hend := h.sized.heapEnd_eq
  have hsmall := h.small
  have hmin : minSizeAligned = 24 := rfl
  have hhdr : sizeofStructMem = 32 := rfl
  have hlast : (s.mem.items s.mem.heapEnd).next = s.mem.heapEnd := by rw [h.last]
  have hused : memIsUsed (s.mem.items s.mem.heapEnd) = true := by
    rw [h.last]
    exact memIsUsed_used ..
  have hshort : ¬sub64 s.mem.heapEnd (0 + sizeofStructMem) ≥ minSizeAligned := by
    rw [sub64_of_le (by omega) h.sized.heapEnd_lt]
    omega
  cases fuel with
  | zero => rfl
  | succ fuel =>
      rw [SmallMem.findFit, if_pos (Nat.zero_le _), getItem_ok (Nat.zero_le _), ok_bind, h.first,
        if_neg (fun hc => hshort hc.2)]
      exact findFit_last h.sized hused hlast h.small fuel

theorem Bare.rtSmemAlloc (h : Bare s) {size p : Nat} (hrun : rtSmemAlloc s.mem size = .ok (m, p)) :
    m = s.mem ∧ p = 0 := by
  by_cases hzero : size = 0
  · rw [SmallMem.rtSmemAlloc, if_pos hzero] at hrun
    cases hrun
    exact ⟨rfl, rfl⟩
  by_cases hbig : s.mem.memSizeAligned < rtAlign size
  · rw [rtSmemAlloc_refused h.sized hbig] at hrun
    cases hrun
    exact ⟨rfl, rfl⟩
  · have hle := Nat.not_lt.mp hbig
    have hsearch := h.findFit (s.mem.heapEnd + 1)
    simp only [SmallMem.rtSmemAlloc, if_neg hzero, h.sized.object, check_true, ok_bind,
      if_neg hbig, if_pos (Nat.lt_of_le_of_lt hle h.small), h.lfree, hsearch] at hrun
    cases hrun

theorem Bare.step (h : Bare s) {e : Op} (hc : Caller s e) (hrun : step s e = .ok t) : Bare t := by
  have hheld : ∀ p, (p = 0 ∨ ∃ a ∈ s.live, a.1 = p) → p = 0 := by
    intro p hp
    rcases hp with hp | ⟨a, ha, -⟩
    · exact hp
    · rw [h.none_held] at ha
      cases ha
  cases e with
  | alloc size =>
      obtain ⟨⟨m, p⟩, halloc, hret⟩ := bind_eq_ok.mp hrun
      obtain ⟨rfl, rfl⟩ := h.rtSmemAlloc halloc
      cases hret
      exact h
  | realloc rmem newsize =>
      obtain rfl := hheld rmem hc
      obtain ⟨⟨m, p⟩, hrealloc, hret⟩ := bind_eq_ok.mp hrun
      have hsame : m = s.mem ∧ p = 0 := by
        rw [rtSmemRealloc_null h.sized] at hrealloc
        by_cases hno : rtAlign newsize > s.mem.memSizeAligned ∨ rtAlign newsize = 0
        · rw [if_pos hno] at hrealloc
          cases hrealloc
          exact ⟨rfl, rfl⟩
        · rw [if_neg hno] at hrealloc
          exact h.rtSmemAlloc hrealloc
      obtain ⟨rfl, rfl⟩ := hsame
      cases hret
      have hlive := h.none_held
      exact { h with none_held := by simp [hlive] }
  | free rmem =>
      obtain rfl := hheld rmem hc
      have hlive := h.none_held
      cases hrun
      exact { h with none_held := by simp [hlive] }
  | store items =>
      cases hrun
      have hnext : (s.mem.items 0).next = s.mem.heapEnd := by rw [h.first]
      have hpos : 0 < s.mem.heapEnd := by
        have hend := h.sized.heapEnd_eq
        have hhdr : sizeofStructMem = 32 := rfl
        omega
      have hfirst : items 0 = s.mem.items 0 := hc 0 .first
      have hlast : items s.mem.heapEnd = s.mem.items s.mem.heapEnd :=
        hc _ (hnext ▸ Linked.next .first hpos)
      exact { h with
        sized := h.sized.same ⟨rfl, rfl, rfl, rfl, rfl⟩
        first := hfirst.trans h.first
        last := hlast.trans h.last }

theorem Bare.tagged (h : Bare s) : Tagged s := by
  have hend := h.sized.heapEnd_eq
  have hhdr : sizeofStructMem = 32 := rfl
  have hnext : (s.mem.items 0).next = s.mem.heapEnd := by rw [h.first]
  have hcases : ∀ off, Linked s.mem off → off = s.mem.heapEnd ∨ off = 0 := by
    intro off hl
    induction hl with
    | first => exact Or.inr rfl
    | next hl hlt ih =>
        rcases ih with rfl | rfl
        · exact absurd hlt (Nat.lt_irrefl _)
        · exact Or.inl hnext
  constructor
  · intro off hl
    rcases hcases off hl with rfl | rfl
    · exact memPool_of_pool h.addr_lt h.addr_aligned (Or.inl (by rw [h.last]))
    · exact memPool_of_pool h.addr_lt h.addr_aligned (Or.inr (by rw [h.first]))
  · intro off hl
    rw [h.none_held]
    rcases hcases off hl with rfl | rfl
    · rw [h.last]
      simp
    · have hne : ¬0 = s.mem.heapEnd := by omega
      rw [h.first]
      simp [hne]
  · intro a ha
    rw [h.none_held] at ha
    cases ha

/-! ## Every run -/

private theorem rtSmemInit_first {items : Nat → Item} {beginAddr size : Nat}
    (hinit : rtSmemInit items beginAddr size = some m) :
    m.addr = rtAlign beginAddr ∧ (m.items 0).poolPtr = memFreed m.addr := by
  simp only [rtSmemInit] at hinit
  split at hinit
  · obtain rfl := Option.some.inj hinit
    refine ⟨rfl, ?_⟩
    simp only
    rw [Function.update_of_ne (by simp only [sizeofStructMem]; omega), Function.update_self]
  · cases hinit

/-- What `MEM_POOL` reads is below 4 GB. -/
theorem memPool_lt (item : Item) : (memPool item).toNat < 2 ^ 32 := by
  rw [memPool, BitVec.toNat_and]
  exact Nat.lt_of_le_of_lt Nat.and_le_right (by decide)

/-- **When the tags work.**  In every run of a heap, all headers name the heap and all
pointers can be given back, if and only if the heap starts below 4 GB. -/
theorem pool_tags_iff {items : Nat → Item} {beginAddr size : Nat} (haligned : beginAddr % 8 = 0)
    (hnull : beginAddr ≠ 0) (hfits : beginAddr + size ≤ 2 ^ 64)
    (hinit : rtSmemInit items beginAddr size = some m) {ops : List Op}
    (hcaller : Guarded step Caller ⟨m, []⟩ ops) :
    Always step Tagged ⟨m, []⟩ ops ↔ beginAddr < 2 ^ 32 := by
  obtain ⟨haddr, hfirst⟩ := rtSmemInit_first hinit
  have hend := rtSmemInit_end_lt hinit hfits
  have hmod : beginAddr % rtAlignSize = 0 := by
    simp only [rtAlignSize]
    omega
  rw [rtAlign_of_aligned hmod (by omega)] at haddr
  constructor
  · intro halways
    have hpool := halways.of_start.pool 0 .first
    have hlt := memPool_lt (m.items 0)
    rw [hpool, BitVec.toNat_ofNat] at hlt
    simp only [haddr] at hlt
    omega
  · intro hlow
    have hlaid := rtSmemInit_laid hinit (by omega) hfits
    by_cases hroom : minSizeAligned ≤ m.memSizeAligned
    · have hinv : Inv ⟨m, []⟩ := hlaid.inv (by omega) (by omega) hend hroom
      exact always_of_guarded step_ok (fun s hs => hs.tagged) hinv hcaller
    · have hbare : Bare ⟨m, []⟩ :=
        { sized := hlaid.sized hfits
          small := Nat.not_le.mp hroom
          addr_lt := by simp only; omega
          addr_aligned := hlaid.addr_aligned
          lfree := hlaid.fields.1
          first := hlaid.first
          last := hlaid.last
          none_held := rfl }
      exact always_of_returns (fun s e s' hs hc hrun => hs.step hc hrun) (fun s hs => hs.tagged)
        hbare hcaller

/-- A heap of one page below 4 GB: two blocks are taken, and the first is given back. -/
theorem pool_tags_page : ∃ m, rtSmemInit (fun _ => ⟨0, 0, 0⟩) 0x1000 0x1000 = some m ∧
    Always step Tagged ⟨m, []⟩ [.alloc 100, .alloc 40, .free 0x1090] := by
  obtain ⟨m, hinit⟩ : ∃ m, rtSmemInit (fun _ => ⟨0, 0, 0⟩) 0x1000 0x1000 = some m := ⟨_, rfl⟩
  have hheld : (run step ⟨m, []⟩ [.alloc 100, .alloc 40]).map State.live =
      .ok [(0x1114, 40), (0x1090, 100)] := by
    obtain rfl := Option.some.inj hinit
    decide
  have hcaller : Guarded step Caller ⟨m, []⟩ [.alloc 100, .alloc 40, .free 0x1090] := by
    refine ⟨trivial, fun t₁ h₁ => ⟨trivial, fun t₂ h₂ => ⟨Or.inr ?_, fun _ _ => trivial⟩⟩⟩
    have hlive : t₂.live = [(0x1114, 40), (0x1090, 100)] := by
      rw [run_cons_ok h₁, run_cons_ok h₂] at hheld
      exact Except.ok.inj hheld
    exact ⟨(0x1090, 100), by simp [hlive], rfl⟩
  exact ⟨m, hinit,
    (pool_tags_iff (by decide) (by decide) (by decide) hinit hcaller).mpr (by decide)⟩

/-- A heap at 4 GB: the block it hands out cannot be given back. -/
theorem high_heap_refuses : ∃ m t, rtSmemInit (fun _ => ⟨0, 0, 0⟩) 0x100000000 0x1000 = some m ∧
    run step ⟨m, []⟩ [.alloc 100] = .ok t ∧ ¬ Tagged t ∧
    rtSmemFree t.mem 0x100000090 = .error .assertion := by
  have hends : ∀ m, rtSmemInit (fun _ => ⟨0, 0, 0⟩) 0x100000000 0x1000 = some m →
      (run step ⟨m, []⟩ [.alloc 100]).map
        (fun t => (t.live, (rtSmemFree t.mem 0x100000090).map fun _ => ())) =
          .ok ([(0x100000090, 100)], .error .assertion) := by
    rintro m hm
    obtain rfl := Option.some.inj hm
    decide
  obtain ⟨m, hinit⟩ : ∃ m, rtSmemInit (fun _ => ⟨0, 0, 0⟩) 0x100000000 0x1000 = some m := ⟨_, rfl⟩
  obtain ⟨t, hrun, hread⟩ := exists_of_map_eq_ok (hends m hinit)
  obtain ⟨hlive, hfree⟩ := Prod.mk.inj hread
  have hrefused : rtSmemFree t.mem 0x100000090 = .error .assertion := by
    cases hf : rtSmemFree t.mem 0x100000090 with
    | error f =>
        rw [hf] at hfree
        exact congrArg Except.error (Except.error.inj hfree)
    | ok m' =>
        rw [hf] at hfree
        cases hfree
  refine ⟨m, t, hinit, hrun, fun htagged => ?_, hrefused⟩
  obtain ⟨m', hok⟩ := htagged.accepted (0x100000090, 100) (by rw [hlive]; simp)
  rw [hrefused] at hok
  cases hok

end RtHypervisor.Ports.SmallMem
