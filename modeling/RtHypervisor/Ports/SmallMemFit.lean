import RtHypervisor.Ports.SmallMemInv

/-!
# Which requests the heap serves

`rt_smem_alloc` walks from `lfree` as long as the offset is at most `mem_size_aligned - size`.
Below that bound it misses nothing: an item above it is too near the end to have room, and an
item below `lfree` is in use.  So a request fails only when no free item has room, and the
item taken is the lowest.

The bound is an unsigned difference, and `size` is raised to `MIN_SIZE_ALIGNED` after it has
been compared with `mem_size_aligned`.  In a heap of less than `MIN_SIZE_ALIGNED` bytes the
difference wraps, and the search runs onto the last header, whose `next` is itself.

`rt_smem_realloc` relies on the search also for a size below the current one, when the
difference is too small to be split off.
-/

namespace RtHypervisor.Ports.SmallMem

open RtHypervisor.Verified.Run
open RtHypervisor.Verified.Tiling

variable {m m' : RtSmallMem} {pre rest post bs : List Block} {b : Block} {o n size newsize : Nat}

/-- A heap between two calls, with the last header as `rt_smem_init` leaves it.  A heap without
any data is one item that has no room. -/
inductive Heap (m : RtSmallMem) : List Block → Prop
  | blocks {bs : List Block} (h : HeapInv m bs) (hlast : (m.items m.heapEnd).next = m.heapEnd) :
      Heap m bs
  | bare (h : m.memSizeAligned = 0) : Heap m [⟨m.heapEnd, false⟩]

/-- What `rt_smem_alloc` is to answer: `RT_NULL` when no free item has room, and the data of
the lowest one that has otherwise. -/
structure Answer (m : RtSmallMem) (bs : List Block) (size : Nat) (m' : RtSmallMem) (p : Nat) :
    Prop where
  null : p = 0 ↔ ∀ b ∈ bs, ¬HasRoom (needed size) b
  unchanged : p = 0 → m' = m
  lowest : p ≠ 0 → ∃ pre b post, bs = pre ++ b :: post ∧ HasRoom (needed size) b ∧
    (∀ c ∈ pre, ¬HasRoom (needed size) c) ∧
    p = m.heapPtr + total Block.size pre + sizeofStructMem

/-- `rt_smem_alloc` returns, with that answer. -/
def Complete (m : RtSmallMem) (bs : List Block) (size : Nat) : Prop :=
  ∃ m' p, rtSmemAlloc m size = .ok (m', p) ∧ Answer m bs size m' p

/-! ## Large enough heaps -/

private theorem complete_of_null (h : rtSmemAlloc m size = .ok (m, 0))
    (hall : ∀ b ∈ bs, ¬HasRoom (needed size) b) : Complete m bs size :=
  ⟨m, 0, h, ⟨fun _ => hall, fun _ => rfl⟩, fun _ => rfl, fun hne => absurd rfl hne⟩

private theorem complete_of_room (hm : Sized m) (hroom : minSizeAligned ≤ m.memSizeAligned)
    (h : HeapInv m bs) (hpos : 0 < size) : Complete m bs size := by
  rcases rtSmemAlloc_fit hm hroom h (Nat.ne_of_gt hpos) with ⟨hnone, hall⟩ |
    ⟨pre, b, post, m', n, bs', rfl, hb, hpre, halloc, -⟩
  · exact complete_of_null hnone hall
  · have hptr := hm.ptr_pos
    refine ⟨m', _, halloc, ⟨?_, ?_⟩, ?_, ?_⟩
    · intro hzero
      omega
    · intro hall
      exact absurd hb (hall b (by simp))
    · intro hzero
      omega
    · intro _
      exact ⟨pre, b, post, rfl, hb, hpre, rfl⟩

/-- A request above the size of the heap is refused. -/
theorem rtSmemAlloc_refused (hm : Sized m) (hbig : m.memSizeAligned < rtAlign size) :
    rtSmemAlloc m size = .ok (m, 0) := by
  by_cases hzero : size = 0
  · rw [rtSmemAlloc, if_pos hzero]
    rfl
  · simp only [rtSmemAlloc, if_neg hzero, hm.object, check_true, ok_bind, if_pos hbig]
    rfl

theorem Heap.no_room (hm : Sized m) (h : Heap m bs) (hbig : m.memSizeAligned < size)
    (hb : b ∈ bs) : ¬HasRoom size b := by
  cases h with
  | blocks h hlast => exact h.tiled.no_room hm hbig hb
  | bare h =>
      have hend := hm.heapEnd_eq
      rw [List.mem_singleton] at hb
      rintro ⟨-, hle⟩
      rw [hb] at hle
      simp only at hle
      omega

/-! ## Heaps of less than `MIN_SIZE_ALIGNED` bytes -/

/-- With the bound wrapped, the search goes round the last header. -/
theorem findFit_last (hm : Sized m) (hused : memIsUsed (m.items m.heapEnd) = true)
    (hlast : (m.items m.heapEnd).next = m.heapEnd) (htiny : m.memSizeAligned < minSizeAligned)
    (fuel : Nat) : findFit m minSizeAligned m.heapEnd fuel = .error .fuel := by
  have hend := hm.heapEnd_eq
  have hmin : minSizeAligned = 24 := rfl
  have hhdr : sizeofStructMem = 32 := rfl
  have hbound : m.heapEnd ≤ sub64 m.memSizeAligned minSizeAligned := by
    unfold sub64
    omega
  induction fuel with
  | zero => rfl
  | succ fuel ih =>
      rw [findFit, if_pos hbound, getItem_ok (Nat.le_refl _), ok_bind, hused, if_neg (by simp),
        hlast, ih]

/-- A heap that small is one block. -/
theorem HeapInv.one_block (hm : Sized m) (h : HeapInv m bs)
    (htiny : m.memSizeAligned < minSizeAligned) : ∃ b, bs = [b] ∧ b.size = m.heapEnd := by
  have hend := hm.heapEnd_eq
  have htotal := h.tiled.heapEnd_eq
  have hmin : minSizeAligned = 24 := rfl
  have hhdr : sizeofStructMem = 32 := rfl
  cases bs with
  | nil =>
      rw [total_nil] at htotal
      omega
  | cons b bs =>
      cases bs with
      | nil =>
          rw [total_cons, total_nil] at htotal
          exact ⟨b, rfl, by omega⟩
      | cons c bs =>
          have hb := (h.tiled.sizes b (by simp)).1
          have hc := (h.tiled.sizes c (by simp)).1
          simp only [total_cons] at htotal
          omega

/-- The search does not end, however long it runs. -/
theorem findFit_endless (hm : Sized m) (h : HeapInv m bs)
    (hlast : (m.items m.heapEnd).next = m.heapEnd) (htiny : m.memSizeAligned < minSizeAligned)
    (fuel : Nat) : findFit m minSizeAligned m.lfree fuel = .error .fuel := by
  have hend := hm.heapEnd_eq
  have hround := findFit_last hm (memIsUsed_of_pool h.tiled.last) hlast htiny
  obtain ⟨b, rfl, hsize⟩ := h.one_block hm htiny
  rw [h.lfree_eq, firstFree, firstFree]
  cases hb : b.used with
  | true =>
      rw [if_pos rfl, Nat.zero_add, hsize]
      exact hround fuel
  | false =>
      rw [if_neg (by simp)]
      have ht : Tiled m ([] ++ b :: []) := h.tiled
      obtain ⟨p, hitem, -⟩ := ht.header
      rw [total_nil, Nat.zero_add, hsize] at hitem
      have hnext : (m.items 0).next = m.heapEnd := by
        rw [hitem]
        rfl
      have hmin : minSizeAligned = 24 := rfl
      have hhdr : sizeofStructMem = 32 := rfl
      have hshort : ¬sub64 m.heapEnd (0 + sizeofStructMem) ≥ minSizeAligned := by
        rw [sub64_of_le (by omega) hm.heapEnd_lt]
        omega
      cases fuel with
      | zero => rfl
      | succ fuel =>
          rw [findFit]
          by_cases hbound : 0 ≤ sub64 m.memSizeAligned minSizeAligned
          · rw [if_pos hbound, getItem_ok (Nat.zero_le _), ok_bind, hnext,
              if_neg (fun hc => hshort hc.2)]
            exact hround fuel
          · exact absurd (Nat.zero_le _) hbound

private theorem rtSmemAlloc_endless (hm : Sized m) (h : HeapInv m bs)
    (hlast : (m.items m.heapEnd).next = m.heapEnd) (htiny : m.memSizeAligned < minSizeAligned)
    (hpos : size ≠ 0) (hsize : rtAlign size ≤ m.memSizeAligned) :
    rtSmemAlloc m size = .error .fuel := by
  have hsearch := findFit_endless hm h hlast htiny (m.heapEnd + 1)
  simp only [rtSmemAlloc, if_neg hpos, hm.object, check_true, ok_bind,
    if_neg (Nat.not_lt.mpr hsize), if_pos (Nat.lt_of_le_of_lt hsize htiny), hsearch]
  rfl

/-- **When the search is complete.**  Between two calls `rt_smem_alloc` returns, takes the
lowest free item with room and fails only without one, exactly when the heap has
`MIN_SIZE_ALIGNED` bytes or the request is more than the heap has. -/
theorem alloc_complete_iff (hm : Sized m) (h : Heap m bs) (hpos : 0 < size)
    (hmax : size ≤ 2 ^ 64 - rtAlignSize) :
    Complete m bs size ↔
      minSizeAligned ≤ m.memSizeAligned ∨ m.memSizeAligned < rtAlign size := by
  have hle := le_rtAlign hmax
  have hneeded := (le_needed size).1
  constructor
  · rintro ⟨m', p, hrun, -⟩
    by_contra hnot
    rw [not_or, Nat.not_le, Nat.not_lt] at hnot
    obtain ⟨htiny, hsize⟩ := hnot
    cases h with
    | blocks h hlast =>
        rw [rtSmemAlloc_endless hm h hlast htiny (Nat.ne_of_gt hpos) hsize] at hrun
        cases hrun
    | bare h => omega
  · intro hcond
    by_cases hbig : m.memSizeAligned < rtAlign size
    · exact complete_of_null (rtSmemAlloc_refused hm hbig) fun b hb =>
        h.no_room hm (by omega) hb
    · have hroom := hcond.resolve_right hbig
      cases h with
      | blocks h hlast => exact complete_of_room hm hroom h hpos
      | bare h =>
          have hmin : minSizeAligned = 24 := rfl
          omega

/-- A heap as `rt_smem_init` leaves it. -/
theorem Laid.heap {beginAddr size : Nat} (hlaid : Laid m beginAddr size)
    (hpos : 0 < m.memSizeAligned) : Heap m [⟨m.heapEnd, false⟩] := by
  refine .blocks (hlaid.heapInv hpos) ?_
  rw [hlaid.last]

/-- In a page 100 bytes are found. -/
theorem alloc_complete_page : ∃ m, rtSmemInit (fun _ => ⟨0, 0, 0⟩) 0x1000 0x1000 = some m ∧
    Complete m [⟨m.heapEnd, false⟩] 100 := by
  obtain ⟨m, hinit⟩ : ∃ m, rtSmemInit (fun _ => ⟨0, 0, 0⟩) 0x1000 0x1000 = some m := ⟨_, rfl⟩
  have hlaid := rtSmemInit_laid hinit (by decide) (by decide)
  have hroom : minSizeAligned ≤ m.memSizeAligned := by
    obtain rfl := Option.some.inj hinit
    decide
  have hpos : 0 < m.memSizeAligned := Nat.lt_of_lt_of_le (by decide) hroom
  exact ⟨m, hinit, (alloc_complete_iff (hlaid.sized (by decide)) (hlaid.heap hpos) (by decide)
    (by decide)).mpr (Or.inl hroom)⟩

/-- `rt_smem_init` accepts a heap of four bytes, and in it a request for one byte never
returns. -/
theorem tiny_heap_endless : ∃ m, rtSmemInit (fun _ => ⟨0, 0, 0⟩) 0x1000 0xb4 = some m ∧
    m.memSizeAligned = 4 ∧ Sized m ∧ Heap m [⟨36, false⟩] ∧
    (∀ fuel, findFit m minSizeAligned m.lfree fuel = .error .fuel) ∧
    ¬Complete m [⟨36, false⟩] 1 := by
  obtain ⟨m, hinit⟩ : ∃ m, rtSmemInit (fun _ => ⟨0, 0, 0⟩) 0x1000 0xb4 = some m := ⟨_, rfl⟩
  have hlaid := rtSmemInit_laid hinit (by decide) (by decide)
  have hsized := hlaid.sized (by decide)
  have hfour : m.memSizeAligned = 4 := by
    obtain rfl := Option.some.inj hinit
    rfl
  have hend : m.heapEnd = 36 := by
    rw [hsized.heapEnd_eq, hfour]
    rfl
  have hinv := hlaid.heapInv (by rw [hfour]; decide)
  have hlast : (m.items m.heapEnd).next = m.heapEnd := by rw [hlaid.last]
  have htiny : m.memSizeAligned < minSizeAligned := by
    rw [hfour]
    decide
  rw [hend] at hinv
  refine ⟨m, hinit, hfour, hsized, .blocks hinv hlast, findFit_endless hsized hinv hlast htiny, ?_⟩
  rintro ⟨m', p, hrun, -⟩
  rw [rtSmemAlloc_endless hsized hinv hlast htiny (by decide) (by rw [hfour]; decide)] at hrun
  cases hrun

/-! ## Shrinking -/

private theorem rtAlign_le {k : Nat} (h : n ≤ k) (hk : k % rtAlignSize = 0) (hlt : k < 2 ^ 64) :
    rtAlign n ≤ k := by
  simp only [rtAlign, rtAlignSize] at *
  omega

private theorem needed_rtAlign (h : rtAlign size < 2 ^ 64) :
    needed (rtAlign size) = needed size := by
  rw [needed, needed, rtAlign_of_aligned (rtAlign_mod size) h]

/-- `rt_smem_realloc` returns a block. -/
def Served (m : RtSmallMem) (rmem newsize : Nat) : Prop :=
  ∃ m' p, rtSmemRealloc m rmem newsize = .ok (m', p) ∧ p ≠ 0

/-- **When shrinking succeeds.**  A size not above the current one is served exactly when it is
the same, when the rest is large enough to be split off, or when some free item has room for a
second copy. -/
theorem shrink_served_iff (hm : Placed m) (h : HeapInv m bs) (hmem : (o, n) ∈ usedBlocks 0 bs)
    (hpos : 0 < newsize) (hle : newsize + sizeofStructMem ≤ n) :
    Served m (m.heapPtr + o + sizeofStructMem) newsize ↔
      rtAlign newsize + sizeofStructMem = n ∨
      rtAlign newsize + sizeofStructMem + minSize + sizeofStructMem < n ∨
      ∃ b ∈ bs, HasRoom (needed newsize) b := by
  have hptr := hm.ptr_pos
  have hend := hm.heapEnd_eq
  have hlt64 := hm.sized.heapEnd_lt
  obtain ⟨pre, b, post, heq, hb, hn, ho⟩ := usedBlocks_split hmem
  rw [Nat.zero_add] at ho
  simp only at ho hn
  subst heq ho hn
  have hlt := h.tiled.offset_lt
  obtain ⟨hsize, hmod⟩ := h.tiled.size_of_mem
  obtain ⟨p, hhead, -⟩ := h.tiled.header
  have hnext : (m.items (total Block.size pre)).next = total Block.size pre + b.size := by
    rw [hhead]
    rfl
  have hhdr : sizeofStructMem = 32 := rfl
  have hdata : (b.size - sizeofStructMem) % rtAlignSize = 0 := by
    simp only [hhdr, rtAlignSize] at *
    omega
  have halign := @rtAlign_le newsize (b.size - sizeofStructMem) (by omega) hdata (by omega)
  have hge := @le_rtAlign newsize (by simp only [rtAlignSize]; omega)
  have hagain := needed_rtAlign (show rtAlign newsize < 2 ^ 64 by omega)
  have hbig : ¬rtAlign newsize > m.memSizeAligned := by omega
  have hzero : ¬rtAlign newsize = 0 := by omega
  have hrun := rtSmemRealloc_live hm.based hbig hzero hnext hlt hsize h.tiled.offset_aligned
  have hnext : b.size - sizeofStructMem = rtAlign newsize ↔
      rtAlign newsize + sizeofStructMem = b.size := by omega
  have hsplit : rtAlign newsize + sizeofStructMem + minSize < b.size - sizeofStructMem ↔
      rtAlign newsize + sizeofStructMem + minSize + sizeofStructMem < b.size := by omega
  unfold Served
  rw [hrun]
  by_cases hsame : b.size - sizeofStructMem = rtAlign newsize
  · refine iff_of_true ?_ (Or.inl (hnext.mp hsame))
    rw [if_pos hsame]
    exact ⟨m, _, rfl, by omega⟩
  rw [if_neg hsame]
  by_cases hcut : rtAlign newsize + sizeofStructMem + minSize < b.size - sizeofStructMem
  · refine iff_of_true ?_ (Or.inr (Or.inl (hsplit.mp hcut)))
    have hmin : minSize = 24 := rfl
    obtain ⟨m₁, m₂, bs', hsplit, hplug, -⟩ :=
      shrink_spec hm.based h hb (rtAlign_mod newsize) (by omega) (by omega)
    rw [if_pos hcut, hsplit, ok_bind, hplug]
    exact ⟨m₂, _, rfl, by omega⟩
  rw [if_neg hcut]
  rcases rtSmemAlloc_fit hm.sized hm.room h (show rtAlign newsize ≠ 0 by omega) with
    ⟨hnone, hall⟩ | ⟨low, c, high, m₁, k, bs₁, heq, hc, -, halloc, hs₁, hinv₁, -, hperm⟩
  · -- no room for a copy
    rw [hagain] at hall
    refine iff_of_false ?_ ?_
    · rw [hnone]
      rintro ⟨m', p, hret, hne⟩
      cases hret
      exact hne rfl
    · rintro (hsame' | hcut' | ⟨d, hd, hroom⟩)
      · exact hsame (hnext.mpr hsame')
      · exact hcut (hsplit.mpr hcut')
      · exact hall d hd hroom
  · rw [hagain] at hc
    refine iff_of_true ?_ (Or.inr (Or.inr ⟨c, by rw [heq]; simp, hc⟩))
    have hmem₁ : (total Block.size pre, b.size) ∈ usedBlocks 0 bs₁ :=
      hperm.mem_iff.mpr (List.mem_cons_of_mem _ hmem)
    obtain ⟨m₂, bs₂, hfree, -⟩ := rtSmemFree_spec (hm.same hs₁).based hinv₁ hmem₁
    rw [hs₁.heapPtr] at hfree
    have hne : m.heapPtr + total Block.size low + sizeofStructMem ≠ 0 := by omega
    rw [halloc, ok_bind, if_pos hne, hfree]
    exact ⟨m₂, _, rfl, hne⟩

/-- The blocks after the first allocation. -/
theorem Laid.first_alloc {beginAddr len : Nat} (hlaid : Laid m beginAddr len)
    (hnull : m.addr ≠ 0) (hlow : beginAddr + len ≤ 2 ^ 32)
    (hroom : minSizeAligned ≤ m.memSizeAligned) (hpos : size ≠ 0) {p : Nat} (hp : p ≠ 0)
    (halloc : rtSmemAlloc m size = .ok (m', p)) :
    Placed m' ∧ ∃ bs n, HeapInv m' bs ∧ (0, n) ∈ usedBlocks 0 bs ∧ p = m'.heapPtr + 0 + 32 ∧
      needed size + sizeofStructMem ≤ n ∧ n ≤ m.heapEnd := by
  have hm := hlaid.placed hnull hlow hroom
  have hmin : minSizeAligned = 24 := rfl
  have hinv := hlaid.heapInv (by omega)
  rcases rtSmemAlloc_fit hm.sized hroom hinv hpos with ⟨hnone, -⟩ |
    ⟨pre, b, post, m₁, n, bs₁, heq, -, -, hrun, hs, hinv₁, hn, hperm⟩
  · rw [hnone] at halloc
    cases halloc
    exact absurd rfl hp
  · rw [hrun] at halloc
    cases halloc
    have hpre : pre = [] := by
      cases pre with
      | nil => rfl
      | cons c pre =>
          have hlen := congrArg List.length heq
          simp only [List.length_cons, List.length_append, List.length_nil] at hlen
          omega
    subst hpre
    rw [total_nil] at *
    have hmem : (0, n) ∈ usedBlocks 0 bs₁ := hperm.mem_iff.mpr (List.mem_cons_self ..)
    have hbounds := (hinv₁.tiled.used_size hmem).2
    rw [hs.heapEnd] at hbounds
    refine ⟨hm.same hs, bs₁, n, hinv₁, hmem, ?_, hn, by omega⟩
    rw [hs.heapPtr]
    rfl

theorem returned {x : Except Fault (RtSmallMem × Nat)} {p : Nat} (h : x.map Prod.snd = .ok p) :
    ∃ m', x = .ok (m', p) := by
  cases x with
  | error e => cases h
  | ok r =>
      have hp : r.2 = p := Except.ok.inj h
      exact ⟨r.1, by rw [← hp]⟩

/-- A heap of one page with a block of 100 bytes, which is cut to four. -/
theorem shrink_served_page : ∃ m₀ m, rtSmemInit (fun _ => ⟨0, 0, 0⟩) 0x1000 0x1000 = some m₀ ∧
    rtSmemAlloc m₀ 100 = .ok (m, 0x1090) ∧ Served m 0x1090 4 := by
  obtain ⟨m₀, hinit⟩ : ∃ m, rtSmemInit (fun _ => ⟨0, 0, 0⟩) 0x1000 0x1000 = some m := ⟨_, rfl⟩
  have hlaid := rtSmemInit_laid hinit (by decide) (by decide)
  have hnull : m₀.addr ≠ 0 := by
    obtain rfl := Option.some.inj hinit
    decide
  have hroom : minSizeAligned ≤ m₀.memSizeAligned := by
    obtain rfl := Option.some.inj hinit
    decide
  have hret : (rtSmemAlloc m₀ 100).map Prod.snd = .ok 0x1090 := by
    obtain rfl := Option.some.inj hinit
    decide
  obtain ⟨m, halloc⟩ := returned hret
  obtain ⟨hm, bs, n, hinv, hmem, hptr, hn, -⟩ :=
    hlaid.first_alloc hnull (by decide) hroom (by decide) (by decide) halloc
  have hlarge : 132 ≤ n := hn
  have hserved := (@shrink_served_iff m bs 0 n 4 hm hinv hmem (by decide)
    (Nat.le_trans (by decide) hlarge)).mpr
    (Or.inr (Or.inl (Nat.lt_of_lt_of_le (by decide) hlarge)))
  refine ⟨m₀, m, hinit, halloc, ?_⟩
  rw [hptr]
  exact hserved

/-- In a heap of 64 bytes that are all handed out, making the block smaller by 24 fails. -/
theorem shrink_fails : ∃ m₀ m bs, rtSmemInit (fun _ => ⟨0, 0, 0⟩) 0x1000 0xf0 = some m₀ ∧
    rtSmemAlloc m₀ 64 = .ok (m, 0x1090) ∧ Placed m ∧ HeapInv m bs ∧
    (0, 96) ∈ usedBlocks 0 bs ∧ (rtSmemRealloc m 0x1090 40).map Prod.snd = .ok 0 ∧
    ¬Served m 0x1090 40 := by
  obtain ⟨m₀, hinit⟩ : ∃ m, rtSmemInit (fun _ => ⟨0, 0, 0⟩) 0x1000 0xf0 = some m := ⟨_, rfl⟩
  have hlaid := rtSmemInit_laid hinit (by decide) (by decide)
  have hnull : m₀.addr ≠ 0 := by
    obtain rfl := Option.some.inj hinit
    decide
  have hroom : minSizeAligned ≤ m₀.memSizeAligned := by
    obtain rfl := Option.some.inj hinit
    decide
  have hend : m₀.heapEnd = 96 := by
    obtain rfl := Option.some.inj hinit
    rfl
  have hret : (rtSmemAlloc m₀ 64).map Prod.snd = .ok 0x1090 := by
    obtain rfl := Option.some.inj hinit
    decide
  have hnone : (rtSmemAlloc m₀ 64 >>= fun r => rtSmemRealloc r.1 0x1090 40).map Prod.snd =
      .ok 0 := by
    obtain rfl := Option.some.inj hinit
    decide
  obtain ⟨m, halloc⟩ := returned hret
  obtain ⟨hm, bs, n, hinv, hmem, -, hn, hle⟩ :=
    hlaid.first_alloc hnull (by decide) hroom (by decide) (by decide) halloc
  have hlarge : 96 ≤ n := hn
  obtain rfl : n = 96 := by omega
  rw [halloc, ok_bind] at hnone
  refine ⟨m₀, m, bs, hinit, halloc, hm, hinv, hmem, hnone, ?_⟩
  rintro ⟨m', p, hserved, hne⟩
  rw [hserved] at hnone
  exact hne (Except.ok.inj hnone)

end RtHypervisor.Ports.SmallMem
