import RtHypervisor.Ports.SmallMemOps

/-!
# Allocating, freeing and reallocating

`HeapInv m bs` collects what holds of a heap between two calls: its headers spell out the
blocks `bs`, no two free blocks are neighbours, `lfree` is the lowest free block and `used`
the size of the used ones.  Each function of the interface keeps it, without a failed
assertion, and adds or removes one used block.
-/

namespace RtHypervisor.Ports.SmallMem

open RtHypervisor.Verified.Run
open RtHypervisor.Verified.Tiling

variable {m m' : RtSmallMem} {pre rest post bs : List Block} {a b c : Block} {o size : Nat}

/-- What holds of a heap between two calls. -/
structure HeapInv (m : RtSmallMem) (bs : List Block) : Prop where
  tiled : Tiled m bs
  coalesced : Coalesced bs
  lfree_eq : m.lfree = firstFree 0 bs
  used_eq : m.used = usedTotal bs

/-! ## `rtAlign` -/

theorem rtAlign_mod (n : Nat) : rtAlign n % rtAlignSize = 0 := by
  simp only [rtAlign, rtAlignSize]
  omega

theorem le_rtAlign {n : Nat} (h : n ≤ 2 ^ 64 - rtAlignSize) : n ≤ rtAlign n := by
  simp only [rtAlign, rtAlignSize] at h ⊢
  omega

theorem rtAlign_of_aligned {n : Nat} (h : n % rtAlignSize = 0) (hlt : n < 2 ^ 64) :
    rtAlign n = n := by
  simp only [rtAlign, rtAlignSize] at h ⊢
  omega

/-! ## Splitting -/

/-- The headers after the block at `ptr` has been cut at `ptr2`. -/
def split (m : RtSmallMem) (ptr ptr2 next : Nat) : RtSmallMem :=
  let items := Function.update m.items ptr2 ⟨memFreed m.addr, next, ptr⟩
  let items := Function.update items ptr { items ptr with next := ptr2 }
  { m with
    items := if next ≠ m.memSizeAligned + sizeofStructMem then
        Function.update items next { items next with prev := ptr2 }
      else items }

private theorem splitItem_ok {ptr next : Nat} (hnext : (m.items ptr).next = next)
    (hp : ptr ≤ m.heapEnd) (hp2 : ptr + sizeofStructMem + size ≤ m.heapEnd)
    (hn : next ≤ m.heapEnd) :
    splitItem m ptr size = .ok (split m ptr (ptr + sizeofStructMem + size) next) := by
  simp only [splitItem, getItem_ok hp, ok_bind, hnext, modifyItem_ok hp2]
  rw [modifyItem_ok (by exact hp), ok_bind]
  by_cases hlast : next ≠ m.memSizeAligned + sizeofStructMem
  · rw [if_pos (by exact hlast), modifyItem_ok (by exact hn)]
    simp only [split, if_pos hlast]
  · rw [if_neg (by exact hlast)]
    simp only [split, if_neg hlast]
    rfl

section Split

variable {ptr ptr2 next x : Nat}

private theorem split_items_ptr (h : ptr < ptr2) (h' : ptr2 < next) :
    (split m ptr ptr2 next).items ptr = { m.items ptr with next := ptr2 } := by
  simp only [split]
  split
  · rw [Function.update_of_ne (by omega), Function.update_self, Function.update_of_ne (by omega)]
  · rw [Function.update_self, Function.update_of_ne (by omega)]

private theorem split_items_ptr2 (h : ptr < ptr2) (h' : ptr2 < next) :
    (split m ptr ptr2 next).items ptr2 = ⟨memFreed m.addr, next, ptr⟩ := by
  simp only [split]
  split
  · rw [Function.update_of_ne (by omega), Function.update_of_ne (by omega), Function.update_self]
  · rw [Function.update_of_ne (by omega), Function.update_self]

private theorem split_items_next (h : ptr < ptr2) (h' : ptr2 < next)
    (hend : next ≠ m.memSizeAligned + sizeofStructMem) :
    (split m ptr ptr2 next).items next = { m.items next with prev := ptr2 } := by
  simp only [split, if_pos hend]
  rw [Function.update_self, Function.update_of_ne (by omega), Function.update_of_ne (by omega)]

private theorem split_items_other (h : x ≠ ptr) (h2 : x ≠ ptr2)
    (hn : x = next → next = m.memSizeAligned + sizeofStructMem) :
    (split m ptr ptr2 next).items x = m.items x := by
  simp only [split]
  split
  · rename_i hend
    have hne : x ≠ next := fun heq => hend (hn heq)
    rw [Function.update_of_ne hne, Function.update_of_ne h, Function.update_of_ne h2]
  · rw [Function.update_of_ne h, Function.update_of_ne h2]

end Split

theorem Tiled.split (h : Tiled m (pre ++ b :: post)) (hm : Sized m)
    (haligned : size % rtAlignSize = 0) (hpos : 0 < size)
    (hroom : size + 2 * sizeofStructMem < b.size) :
    Tiled (split m (total Block.size pre) (total Block.size pre + sizeofStructMem + size)
        (total Block.size pre + b.size))
      (pre ++ ⟨sizeofStructMem + size, b.used⟩ ::
        ⟨b.size - (sizeofStructMem + size), false⟩ :: post) := by
  have hlt := h.offset_lt
  obtain ⟨hsize, hb4⟩ := h.size_of_mem
  obtain ⟨p, hhead, hpre⟩ := h.header
  have hend := hm.heapEnd_eq
  have htot : total Block.size [b] = b.size := by simp
  have h' : Tiled m (pre ++ [b] ++ post) := by simpa using h
  have hinner : post ≠ [] → total Block.size pre + b.size < m.heapEnd := by
    intro hne
    cases post with
    | nil => exact absurd rfl hne
    | cons c post =>
        have hc := (h.sizes c (by simp)).1
        have htotal := h.heapEnd_eq
        simp only [total_append, total_cons] at htotal
        omega
  -- the three headers that change, by their distance from the first
  generalize hptr : total Block.size pre = ptr at *
  have hcut : ptr < ptr + sizeofStructMem + size := by omega
  have hnext : ptr + sizeofStructMem + size < ptr + b.size := by omega
  have hres : Tiled (SmallMem.split m ptr (ptr + sizeofStructMem + size) (ptr + b.size))
      (pre ++ [⟨sizeofStructMem + size, b.used⟩,
        ⟨b.size - (sizeofStructMem + size), false⟩] ++ post) := by
    refine h'.replace rfl rfl (p := p) (q := ptr + sizeofStructMem + size) ?_ ?_ ?_ ?_ ?_ ?_ ?_
    · rw [hptr]
      exact hpre
    · rw [hptr, htot]
      refine ⟨?_, ?_, Nat.add_assoc _ _ _, ?_⟩
      · rw [split_items_ptr hcut hnext, hhead, Nat.add_assoc]
        rfl
      · rw [← Nat.add_assoc, split_items_ptr2 hcut hnext]
        simp only [headOf]
        congr 1
        omega
      · simp only
        omega
    · intro c hc
      simp only [List.mem_cons, List.not_mem_nil, or_false] at hc
      rcases hc with rfl | rfl
      · simp only [sizeofStructMem, rtAlignSize] at *
        omega
      · simp only [sizeofStructMem, rtAlignSize] at *
        omega
    · intro x hx
      rw [hptr] at hx
      exact split_items_other (by omega) (by omega) (by omega)
    · intro hne
      have hin := hinner hne
      rw [hptr, htot, split_items_next hcut hnext (by omega)]
    · rw [split_items_other (by omega) (by omega) (by omega)]
    · intro x hx hxe
      rw [hptr, htot] at hx
      exact split_items_other (by omega) (by omega) (by omega)
  simpa using hres

/-- The blocks only depend on the headers. -/
theorem Tiled.of_items (h : Tiled m bs) (hs : SameHeap m m') (hitems : m'.items = m.items) :
    Tiled m' bs := by
  obtain ⟨p, hseg⟩ := h.seg
  refine ⟨⟨p, ?_⟩, ?_, h.sizes⟩
  · rw [hs.addr, hs.heapEnd, hitems]
    exact hseg
  · rw [hs.addr, hs.heapEnd, hitems]
    exact h.last

/-! ## Searching -/

theorem Tiled.length_lt (h : Tiled m bs) : bs.length ≤ m.heapEnd := by
  have hend := h.heapEnd_eq
  have hpos := h.pos
  rw [hend]
  clear hend h
  induction bs with
  | nil => exact Nat.le_refl 0
  | cons b bs ih =>
      have hb := hpos b (List.mem_cons_self ..)
      have hbs := ih fun c hc => hpos c (List.mem_cons_of_mem b hc)
      rw [List.length_cons, total_cons]
      omega

/-- A free block that can hold `size` bytes of data. -/
def HasRoom (size : Nat) (b : Block) : Prop :=
  b.used = false ∧ size + sizeofStructMem ≤ b.size

instance : Decidable (HasRoom size b) := inferInstanceAs (Decidable (_ ∧ _))

/-- From the bound of the search on nothing has room. -/
theorem Tiled.no_room_above (hm : Sized m) (h : Tiled m (pre ++ rest))
    (hptr : m.memSizeAligned < total Block.size pre + size) (hb : b ∈ rest) : ¬HasRoom size b := by
  have hend := hm.heapEnd_eq
  have htotal := h.heapEnd_eq
  obtain ⟨left, right, rfl⟩ := List.append_of_mem hb
  simp only [total_append, total_cons] at htotal
  intro hroom
  have hle := hroom.2
  omega

/-- The search stops at the first free block with room, or finds none. -/
theorem findFit_spec (hm : Sized m) (hsize : size ≤ m.memSizeAligned) (h : Tiled m (pre ++ rest))
    {fuel : Nat} (hfuel : rest.length < fuel) :
    (findFit m size (total Block.size pre) fuel = .ok none ∧ ∀ b ∈ rest, ¬HasRoom size b) ∨
      ∃ skipped b post, rest = skipped ++ b :: post ∧ HasRoom size b ∧
        (∀ c ∈ skipped, ¬HasRoom size c) ∧
        findFit m size (total Block.size pre) fuel =
          .ok (some (total Block.size (pre ++ skipped))) := by
  have hlt64 := hm.heapEnd_lt
  have hend := hm.heapEnd_eq
  have hsub : sub64 m.memSizeAligned size = m.memSizeAligned - size :=
    sub64_of_le hsize (by omega)
  induction rest generalizing pre fuel with
  | nil =>
      cases fuel with
      | zero => exact absurd hfuel (by simp)
      | succ fuel =>
          left
          have htotal := h.heapEnd_eq
          have hheader : 0 < sizeofStructMem := by decide
          rw [List.append_nil] at htotal
          rw [findFit, hsub, if_neg (by omega)]
          exact ⟨rfl, by simp⟩
  | cons b rest ih =>
      cases fuel with
      | zero => exact absurd hfuel (by simp)
      | succ fuel =>
          have hlt := h.offset_lt
          have hbsize := h.size_of_mem.1
          obtain ⟨p, hhead, -⟩ := h.header
          by_cases hptr : total Block.size pre ≤ m.memSizeAligned - size
          · have hnext : (m.items (total Block.size pre)).next = total Block.size pre + b.size := by
              rw [hhead]
              rfl
            have hused : memIsUsed (m.items (total Block.size pre)) = b.used := by
              rw [hhead, memIsUsed_headOf]
            have hlen : sub64 (total Block.size pre + b.size)
                (total Block.size pre + sizeofStructMem) = b.size - sizeofStructMem := by
              rw [sub64_of_le (by omega) (by omega)]
              omega
            rw [findFit, hsub, if_pos hptr, getItem_ok (by omega), ok_bind, hnext, hlen, hused]
            have hfit : (¬b.used = true ∧ b.size - sizeofStructMem ≥ size) ↔ HasRoom size b := by
              rw [HasRoom, Bool.not_eq_true]
              refine and_congr_right fun _ => ?_
              omega
            by_cases hroom : HasRoom size b
            · right
              refine ⟨[], b, rest, rfl, hroom, by simp, ?_⟩
              rw [if_pos (hfit.mpr hroom), List.append_nil]
              rfl
            · rw [if_neg (fun hc => hroom (hfit.mp hc))]
              have h' : Tiled m ((pre ++ [b]) ++ rest) := by simpa using h
              have hlen' : rest.length < fuel := by
                rw [List.length_cons] at hfuel
                omega
              have hstep := ih h' hlen'
              rw [total_append, total_cons, total_nil, Nat.add_zero] at hstep
              rcases hstep with ⟨hnone, hall⟩ | ⟨skipped, d, post, heq, hd, hskip, hfound⟩
              · left
                refine ⟨hnone, ?_⟩
                intro c hc
                rcases List.mem_cons.mp hc with rfl | hc
                · exact hroom
                · exact hall c hc
              · right
                refine ⟨b :: skipped, d, post, by rw [heq]; rfl, hd, ?_, ?_⟩
                · intro c hc
                  rcases List.mem_cons.mp hc with rfl | hc
                  · exact hroom
                  · exact hskip c hc
                · rw [hfound]
                  simp
          · left
            rw [findFit, hsub, if_neg hptr]
            exact ⟨rfl, fun c hc => h.no_room_above hm (by omega) hc⟩

/-- The loop over `lfree` ends at the lowest free block. -/
theorem nextFree_spec (h : Tiled m (pre ++ rest)) {fuel : Nat} (hfuel : rest.length < fuel) :
    nextFree m (total Block.size pre) fuel = .ok (firstFree (total Block.size pre) rest) := by
  induction rest generalizing pre fuel with
  | nil =>
      cases fuel with
      | zero => exact absurd hfuel (by simp)
      | succ fuel =>
          have htotal := h.heapEnd_eq
          rw [List.append_nil] at htotal
          rw [nextFree, ← htotal, getItem_ok (Nat.le_refl _), ok_bind, if_neg (by simp)]
          rfl
  | cons b rest ih =>
      cases fuel with
      | zero => exact absurd hfuel (by simp)
      | succ fuel =>
          have hlt := h.offset_lt
          have hbsize := h.size_of_mem.1
          obtain ⟨p, hhead, -⟩ := h.header
          have hused : memIsUsed (m.items (total Block.size pre)) = b.used := by
            rw [hhead, memIsUsed_headOf]
          have hnext : (m.items (total Block.size pre)).next = total Block.size pre + b.size := by
            rw [hhead]
            rfl
          rw [nextFree, getItem_ok (by omega), ok_bind, hused, hnext, firstFree]
          cases hb : b.used with
          | true =>
              have h' : Tiled m ((pre ++ [b]) ++ rest) := by simpa using h
              have hlen : rest.length < fuel := by
                rw [List.length_cons] at hfuel
                omega
              have hstep := ih h' hlen
              rw [total_append, total_cons, total_nil, Nat.add_zero] at hstep
              rw [if_pos ⟨rfl, by omega⟩, hstep]
              rfl
          | false =>
              rw [if_neg (by simp)]
              rfl

/-! ## `rt_smem_alloc` -/

private theorem firstFree_lt (hpos : ∀ b ∈ bs, 0 < b.size) (h : ∃ b ∈ bs, b.used = false) :
    firstFree o bs < o + total Block.size bs := by
  obtain ⟨pre, rest, heq, hused, hfirst, -⟩ := firstFree_split bs o
  cases rest with
  | nil =>
      obtain ⟨b, hb, hfree⟩ := h
      rw [List.append_nil] at heq
      rw [heq] at hb
      rw [hused b hb] at hfree
      cases hfree
  | cons c rest =>
      have hc := hpos c (by simp [heq])
      rw [hfirst, heq, total_append, total_cons]
      omega

/-- `lfree` is free unless it is the end of the heap. -/
theorem Tiled.firstFree_free (h : Tiled m bs) :
    firstFree 0 bs = m.heapEnd ∨ memIsUsed (m.items (firstFree 0 bs)) = false := by
  obtain ⟨pre, rest, rfl, -, hfirst, hhead⟩ := firstFree_split bs 0
  rw [Nat.zero_add] at hfirst
  cases rest with
  | nil =>
      left
      rw [hfirst, h.heapEnd_eq, List.append_nil]
  | cons b rest =>
      right
      obtain ⟨p, hitem, -⟩ := h.header
      rw [hfirst, hitem, memIsUsed_headOf]
      exact hhead b rfl

/-- The first half of `takeItem`: cut the item off where the rest is large enough. -/
def cutItem (m : RtSmallMem) (ptr size : Nat) : Except Fault RtSmallMem := do
  let mem ← getItem m ptr
  if sub64 mem.next (ptr + sizeofStructMem) ≥ size + sizeofStructMem + minSizeAligned then do
    let m ← splitItem m ptr size
    pure (addUsed m (size + sizeofStructMem))
  else pure (addUsed m (sub64 mem.next ptr))

/-- The second half: mark the item and move `lfree` on. -/
def markItem (m : RtSmallMem) (ptr size : Nat) : Except Fault (RtSmallMem × Nat) := do
  let m ← modifyItem m ptr fun it => { it with poolPtr := memUsed m.addr }
  let m ←
    if ptr = m.lfree then do
      let lfree ← nextFree m m.lfree (m.heapEnd + 1)
      let m := { m with lfree := lfree }
      let item ← getItem m m.lfree
      check .assertion (m.lfree = m.heapEnd || !memIsUsed item)
      pure m
    else pure m
  check .assertion (ptr + sizeofStructMem + size ≤ m.heapEnd)
  check .assertion ((m.heapPtr + ptr + sizeofStructMem) % rtAlignSize = 0)
  check .assertion ((m.heapPtr + ptr) % rtAlignSize = 0)
  pure (m, m.heapPtr + ptr + sizeofStructMem)

theorem takeItem_eq (m : RtSmallMem) (ptr size : Nat) :
    takeItem m ptr size = cutItem m ptr size >>= fun m => markItem m ptr size := by
  unfold takeItem cutItem
  rw [bind_assoc]
  congr 1
  funext mem
  split
  · rw [bind_assoc]
    congr 1
  · rw [pure_bind, pure_bind]
    rfl

/-- The two outcomes for an item of `len` bytes. -/
theorem cutItem_ok {ptr len : Nat} (hnext : (m.items ptr).next = ptr + len)
    (hlt : ptr + len ≤ m.heapEnd) (hend : m.heapEnd < 2 ^ 64)
    (hfit : size + sizeofStructMem ≤ len) :
    cutItem m ptr size = .ok
      (if len - sizeofStructMem ≥ size + sizeofStructMem + minSizeAligned then
        addUsed (split m ptr (ptr + sizeofStructMem + size) (ptr + len)) (size + sizeofStructMem)
      else addUsed m len) := by
  have hlen : sub64 (ptr + len) (ptr + sizeofStructMem) = len - sizeofStructMem := by
    rw [sub64_of_le (by omega) (by omega)]
    omega
  have hdist : sub64 (ptr + len) ptr = len := by
    rw [sub64_of_le (by omega) (by omega), Nat.add_sub_cancel_left]
  have hget : getItem m ptr = .ok (m.items ptr) := getItem_ok (by omega)
  unfold cutItem
  rw [hget, ok_bind, hnext, hlen, hdist]
  split
  · rw [splitItem_ok hnext (by omega) (by omega) (by omega)]
    rfl
  · rfl

private theorem cutItem_spec (hm : Sized m) (h : Tiled m (pre ++ b :: post)) (hb : b.used = false)
    (hused : m.used = usedTotal (pre ++ b :: post)) (haligned : size % rtAlignSize = 0)
    (hmin : minSizeAligned ≤ size) (hfit : size + sizeofStructMem ≤ b.size) :
    ∃ m' n rest, cutItem m (total Block.size pre) size = .ok m' ∧ SameHeap m m' ∧
      m'.lfree = m.lfree ∧ m'.used = m.used + n ∧ Tiled m' (pre ++ ⟨n, false⟩ :: (rest ++ post)) ∧
      size + sizeofStructMem ≤ n ∧ n + total Block.size rest = b.size ∧
      (rest = [] ∨ ∃ c, rest = [c] ∧ c.used = false) := by
  have hlt64 := hm.heapEnd_lt
  have hlt := h.offset_lt
  have hle : usedTotal (pre ++ b :: post) ≤ total Block.size (pre ++ b :: post) := usedTotal_le
  have hend := h.heapEnd_eq
  have hroom : usedTotal (pre ++ b :: post) + b.size ≤ m.heapEnd := by
    rw [hend, usedTotal_append, usedTotal_cons, hb, total_append, total_cons]
    have hpre : usedTotal pre ≤ total Block.size pre := usedTotal_le
    have hpost : usedTotal post ≤ total Block.size post := usedTotal_le
    simp
    omega
  obtain ⟨p, hhead, -⟩ := h.header
  have hnext : (m.items (total Block.size pre)).next = total Block.size pre + b.size := by
    rw [hhead]
    rfl
  have hrun := cutItem_ok hnext hlt (by omega) hfit
  have hhdr : sizeofStructMem = 32 := rfl
  have hmin24 : minSizeAligned = 24 := rfl
  by_cases hbig : b.size - sizeofStructMem ≥ size + sizeofStructMem + minSizeAligned
  · refine ⟨addUsed (split m (total Block.size pre) (total Block.size pre + sizeofStructMem + size)
        (total Block.size pre + b.size)) (size + sizeofStructMem), size + sizeofStructMem,
      [⟨b.size - (size + sizeofStructMem), false⟩], ?_, ⟨rfl, rfl, rfl, rfl, rfl⟩, rfl, ?_, ?_,
      Nat.le_refl _, ?_, Or.inr ⟨_, rfl, rfl⟩⟩
    · rw [hrun, if_pos hbig]
    · show (m.used + (size + sizeofStructMem)) % 2 ^ 64 = m.used + (size + sizeofStructMem)
      exact Nat.mod_eq_of_lt (by omega)
    · have hsplit := h.split hm haligned (by omega) (by omega)
      rw [hb, Nat.add_comm sizeofStructMem size] at hsplit
      exact hsplit.of_items ⟨rfl, rfl, rfl, rfl, rfl⟩ rfl
    · simp
      omega
  · refine ⟨addUsed m b.size, b.size, [], ?_, ⟨rfl, rfl, rfl, rfl, rfl⟩, rfl, ?_, ?_, hfit, ?_,
      Or.inl rfl⟩
    · rw [hrun, if_neg hbig]
    · show (m.used + b.size) % 2 ^ 64 = m.used + b.size
      exact Nat.mod_eq_of_lt (by omega)
    · have hsame : (⟨b.size, false⟩ : Block) = b := by rw [← hb]
      rw [hsame]
      exact h.of_items ⟨rfl, rfl, rfl, rfl, rfl⟩ rfl
    · simp

/-- The heap with another `pool_ptr` in the header at `ptr`. -/
def marked (m : RtSmallMem) (ptr : Nat) (pool : BitVec 64) : RtSmallMem :=
  { m with items := Function.update m.items ptr { m.items ptr with poolPtr := pool } }

private theorem markItem_spec (hm : Sized m) (h : Tiled m (pre ++ b :: post)) (hb : b.used = false)
    (hl : m.lfree = firstFree 0 (pre ++ b :: post)) (hfit : size + sizeofStructMem ≤ b.size) :
    ∃ m', markItem m (total Block.size pre) size =
        .ok (m', m.heapPtr + total Block.size pre + sizeofStructMem) ∧ SameHeap m m' ∧
      m'.used = m.used ∧ Tiled m' (pre ++ ⟨b.size, true⟩ :: post) ∧
      m'.lfree = firstFree 0 (pre ++ ⟨b.size, true⟩ :: post) := by
  have hlt := h.offset_lt
  have haligned := h.offset_aligned
  have hptr := hm.ptr_aligned
  have hcheck₁ : total Block.size pre + sizeofStructMem + size ≤ m.heapEnd := by omega
  have hcheck₂ : (m.heapPtr + total Block.size pre + sizeofStructMem) % rtAlignSize = 0 := by
    simp only [sizeofStructMem, rtAlignSize] at *
    omega
  have hcheck₃ : (m.heapPtr + total Block.size pre) % rtAlignSize = 0 := by
    simp only [rtAlignSize] at *
    omega
  generalize hmarked : marked m (total Block.size pre) (memUsed m.addr) = m₁
  have hs₁ : SameHeap m m₁ := by
    rw [← hmarked]
    exact ⟨rfl, rfl, rfl, rfl, rfl⟩
  have hl₁ : m₁.lfree = m.lfree := by
    rw [← hmarked]
    rfl
  have hu₁ : m₁.used = m.used := by
    rw [← hmarked]
    rfl
  have ht₁ : Tiled m₁ (pre ++ ⟨b.size, true⟩ :: post) :=
    h.mark hs₁ (u := true) (by rw [← hmarked]; rfl)
  have hmodify : modifyItem m (total Block.size pre)
      (fun it => { it with poolPtr := memUsed m.addr }) = .ok m₁ := by
    rw [modifyItem_ok (by omega), ← hmarked]
    rfl
  by_cases hfree : ∃ d ∈ pre, d.used = false
  · -- a lower block is free, and stays the lowest
    have hpos : ∀ d ∈ pre, 0 < d.size := fun d hd => h.pos d (by simp [hd])
    have hbelow : firstFree 0 pre < 0 + total Block.size pre := firstFree_lt hpos hfree
    have hne : ¬total Block.size pre = m₁.lfree := by
      rw [hl₁, hl, firstFree_append_of_free hfree]
      omega
    refine ⟨m₁, ?_, hs₁, hu₁, ht₁, ?_⟩
    · simp only [markItem, hmodify, ok_bind, if_neg hne, pure_bind, hs₁.heapEnd, hs₁.heapPtr,
        hcheck₁, hcheck₂, hcheck₃, decide_true, check_true]
      rfl
    · rw [hl₁, hl, firstFree_append_of_free hfree, firstFree_append_of_free hfree]
  · have hused : ∀ d ∈ pre, d.used = true := by
      intro d hd
      by_contra hd'
      exact hfree ⟨d, hd, by simpa using hd'⟩
    have heq : total Block.size pre = m₁.lfree := by
      rw [hl₁, hl, firstFree_used hused, firstFree, hb]
      simp
    have hfirst : firstFree 0 (pre ++ ⟨b.size, true⟩ :: post) =
        firstFree (total Block.size pre) (⟨b.size, true⟩ :: post) := by
      rw [firstFree_used hused, Nat.zero_add]
    have hnext : nextFree m₁ m₁.lfree (m₁.heapEnd + 1) =
        .ok (firstFree 0 (pre ++ ⟨b.size, true⟩ :: post)) := by
      have hlen := ht₁.length_lt
      rw [List.length_append] at hlen
      rw [← heq, hfirst]
      exact nextFree_spec ht₁ (by omega)
    have hle : firstFree 0 (pre ++ ⟨b.size, true⟩ :: post) ≤ m₁.heapEnd := by
      have hbound : firstFree 0 (pre ++ ⟨b.size, true⟩ :: post) ≤ _ := firstFree_le
      rw [ht₁.heapEnd_eq]
      omega
    have hassert : (decide (firstFree 0 (pre ++ ⟨b.size, true⟩ :: post) = m₁.heapEnd) ||
        !memIsUsed (m₁.items (firstFree 0 (pre ++ ⟨b.size, true⟩ :: post)))) = true := by
      rcases ht₁.firstFree_free with hend | hnot
      · simp [hend]
      · simp [hnot]
    generalize firstFree 0 (pre ++ ⟨b.size, true⟩ :: post) = lfree at hnext hle hassert ⊢
    refine ⟨{ m₁ with lfree := lfree }, ?_, hs₁.trans ⟨rfl, rfl, rfl, rfl, rfl⟩, hu₁,
      ht₁.of_items ⟨rfl, rfl, rfl, rfl, rfl⟩ rfl, rfl⟩
    simp only [markItem, hmodify, ok_bind, if_pos heq, hnext]
    rw [getItem_ok (by exact hle)]
    simp only [ok_bind, hassert, check_true, pure_bind]
    simp only [hs₁.heapEnd, hs₁.heapPtr, hcheck₁, hcheck₂, hcheck₃, decide_true, check_true,
      ok_bind]
    rfl

/-- Taking a free block that has room. -/
theorem takeItem_spec (hm : Sized m) (h : HeapInv m (pre ++ b :: post)) (hb : b.used = false)
    (haligned : size % rtAlignSize = 0) (hmin : minSizeAligned ≤ size)
    (hfit : size + sizeofStructMem ≤ b.size) :
    ∃ m' n bs', takeItem m (total Block.size pre) size =
        .ok (m', m.heapPtr + total Block.size pre + sizeofStructMem) ∧ SameHeap m m' ∧
      HeapInv m' bs' ∧ size + sizeofStructMem ≤ n ∧
      (usedBlocks 0 bs').Perm ((total Block.size pre, n) :: usedBlocks 0 (pre ++ b :: post)) := by
  obtain ⟨m₁, n, rest, hcut, hs₁, hl₁, hu₁, ht₁, hn, htot, hrest⟩ :=
    cutItem_spec hm h.tiled hb h.used_eq haligned hmin hfit
  obtain ⟨hpre, hpost, hleft, hright⟩ := h.coalesced.neighbours hb
  have hl₁' : m₁.lfree = firstFree 0 (pre ++ ⟨n, false⟩ :: (rest ++ post)) := by
    rw [hl₁, h.lfree_eq, firstFree_append_free hb, firstFree_append_free rfl]
  obtain ⟨m₂, hmark, hs₂, hu₂, ht₂, hl₂⟩ := markItem_spec (hm.same hs₁) ht₁ rfl hl₁' hn
  have hcoalesced : Coalesced (rest ++ post) := by
    rcases hrest with rfl | ⟨c, rfl, hc⟩
    · exact hpost
    · exact hpost.cons fun d hd => Or.inr (hright d hd)
  have hfreed : usedTotal (rest ++ post) = usedTotal post := by
    rcases hrest with rfl | ⟨c, rfl, hc⟩
    · rfl
    · rw [List.singleton_append, usedTotal_cons, hc]
      simp
  have hblocks : usedBlocks (total Block.size pre + n) (rest ++ post) =
      usedBlocks (total Block.size pre + b.size) post := by
    rcases hrest with rfl | ⟨c, rfl, hc⟩
    · rw [← htot]
      rfl
    · rw [List.singleton_append, usedBlocks, hc, ← htot]
      simp [Nat.add_assoc]
  refine ⟨m₂, n, pre ++ ⟨n, true⟩ :: (rest ++ post), ?_, hs₁.trans hs₂, ⟨ht₂, ?_, hl₂, ?_⟩, hn, ?_⟩
  · rw [takeItem_eq, hcut, ok_bind, hmark, hs₁.heapPtr]
  · refine List.isChain_append.mpr ⟨hpre, hcoalesced.cons ?_, ?_⟩
    · intro d _
      exact Or.inl rfl
    · intro a ha d _
      exact Or.inl (hleft a ha)
  · rw [hu₂, hu₁, h.used_eq]
    simp only [usedTotal_append, usedTotal_cons, hb, hfreed] at *
    simp
    omega
  · rw [usedBlocks_append, usedBlocks_append, usedBlocks, usedBlocks, hb, Nat.zero_add]
    simp only [if_true, hblocks]
    exact List.perm_middle

/-- The size the search is for. -/
def needed (size : Nat) : Nat :=
  if rtAlign size < minSizeAligned then minSizeAligned else rtAlign size

theorem le_needed (size : Nat) : rtAlign size ≤ needed size ∧ minSizeAligned ≤ needed size := by
  unfold needed
  split
  · omega
  · omega

theorem needed_mod (size : Nat) : needed size % rtAlignSize = 0 := by
  unfold needed
  split
  · rfl
  · exact rtAlign_mod size

/-- A request that fits no heap of this size fits no block of it. -/
theorem Tiled.no_room (hm : Sized m) (h : Tiled m bs) (hbig : m.memSizeAligned < size)
    (hb : b ∈ bs) : ¬HasRoom size b := by
  have h' : Tiled m ([] ++ bs) := h
  refine h'.no_room_above hm ?_ hb
  rw [total_nil]
  omega

/-- `rt_smem_alloc` takes the lowest free block with room for the request, or leaves the heap
alone when there is none. -/
theorem rtSmemAlloc_fit (hm : Sized m) (hroom : minSizeAligned ≤ m.memSizeAligned)
    (h : HeapInv m bs) (hpos : size ≠ 0) :
    (rtSmemAlloc m size = .ok (m, 0) ∧ ∀ b ∈ bs, ¬HasRoom (needed size) b) ∨
      ∃ pre b post m' n bs', bs = pre ++ b :: post ∧ HasRoom (needed size) b ∧
        (∀ c ∈ pre, ¬HasRoom (needed size) c) ∧
        rtSmemAlloc m size = .ok (m', m.heapPtr + total Block.size pre + sizeofStructMem) ∧
        SameHeap m m' ∧ HeapInv m' bs' ∧ needed size + sizeofStructMem ≤ n ∧
        (usedBlocks 0 bs').Perm ((total Block.size pre, n) :: usedBlocks 0 bs) := by
  obtain ⟨hle, hmin⟩ := le_needed size
  by_cases hbig : rtAlign size > m.memSizeAligned
  · left
    refine ⟨?_, fun b hb => h.tiled.no_room hm (by omega) hb⟩
    simp only [rtSmemAlloc, if_neg hpos, hm.object, check_true, ok_bind, if_pos hbig]
    rfl
  have hfits : needed size ≤ m.memSizeAligned := by
    unfold needed
    split
    · exact hroom
    · omega
  obtain ⟨low, rest, rfl, hlow, hfirst, -⟩ := firstFree_split bs 0
  have hl : m.lfree = total Block.size low := by
    rw [h.lfree_eq, hfirst, Nat.zero_add]
  have hlowroom : ∀ c ∈ low, ¬HasRoom (needed size) c := by
    intro c hc hroom
    rw [HasRoom, hlow c hc] at hroom
    exact absurd hroom.1 (by simp)
  have hlen := h.tiled.length_lt
  rw [List.length_append] at hlen
  have hsearch := findFit_spec hm hfits h.tiled (show rest.length < m.heapEnd + 1 by omega)
  rcases hsearch with ⟨hnone, hall⟩ | ⟨skipped, b, post, rfl, hb, hskip, hfound⟩
  · left
    constructor
    · simp only [rtSmemAlloc, if_neg hpos, hm.object, check_true, ok_bind, if_neg hbig, hl]
      rw [show findFit m (if rtAlign size < minSizeAligned then minSizeAligned else rtAlign size)
        (total Block.size low) (m.heapEnd + 1) = .ok none from hnone]
      rfl
    · intro c hc
      rcases List.mem_append.mp hc with hc | hc
      · exact hlowroom c hc
      · exact hall c hc
  · right
    rw [← List.append_assoc] at h ⊢
    obtain ⟨m', n, bs', htake, hs, hinv, hn, hperm⟩ :=
      takeItem_spec hm h hb.1 (needed_mod size) hmin hb.2
    refine ⟨low ++ skipped, b, post, m', n, bs', rfl, hb, ?_, ?_, hs, hinv, hn, hperm⟩
    · intro c hc
      rcases List.mem_append.mp hc with hc | hc
      · exact hlowroom c hc
      · exact hskip c hc
    · simp only [rtSmemAlloc, if_neg hpos, hm.object, check_true, ok_bind, if_neg hbig, hl]
      rw [show findFit m (if rtAlign size < minSizeAligned then minSizeAligned else rtAlign size)
        (total Block.size low) (m.heapEnd + 1) = .ok (some _) from hfound]
      exact htake

/-- `rt_smem_alloc` adds one used block with room for the request, or leaves the heap alone. -/
theorem rtSmemAlloc_spec (hm : Based m) (h : HeapInv m bs) (size : Nat) :
    rtSmemAlloc m size = .ok (m, 0) ∨
      ∃ m' o n bs', rtSmemAlloc m size = .ok (m', m.heapPtr + o + sizeofStructMem) ∧
        SameHeap m m' ∧ HeapInv m' bs' ∧ rtAlign size + sizeofStructMem ≤ n ∧
        (usedBlocks 0 bs').Perm ((o, n) :: usedBlocks 0 bs) := by
  by_cases hzero : size = 0
  · left
    rw [rtSmemAlloc, if_pos hzero]
    rfl
  rcases rtSmemAlloc_fit hm.toSized hm.room h hzero with ⟨hnone, -⟩ |
    ⟨pre, b, post, m', n, bs', -, -, -, halloc, hs, hinv, hn, hperm⟩
  · exact Or.inl hnone
  · right
    have hle := (le_needed size).1
    exact ⟨m', _, n, bs', halloc, hs, hinv, by omega, hperm⟩

/-! ## `rt_smem_free` -/

/-- Every linked header names the heap. -/
theorem Tiled.memPool_head (h : Tiled m (pre ++ b :: post)) (hm : Based m) :
    memPool (m.items (total Block.size pre)) = BitVec.ofNat 64 m.addr := by
  obtain ⟨p, hhead, -⟩ := h.header
  refine memPool_of_pool hm.addr_lt hm.addr_aligned ?_
  rw [hhead, headOf]
  cases b.used with
  | true => exact Or.inl rfl
  | false => exact Or.inr rfl

theorem Tiled.memPool_next (h : Tiled m (pre ++ b :: post)) (hm : Based m) :
    memPool (m.items (total Block.size pre + b.size)) = BitVec.ofNat 64 m.addr := by
  cases post with
  | nil =>
      have hend := h.heapEnd_eq
      simp only [total_append, total_cons, total_nil, Nat.add_zero] at hend
      rw [← hend]
      exact memPool_of_pool hm.addr_lt hm.addr_aligned (Or.inl h.last)
  | cons c post =>
      have h' : Tiled m ((pre ++ [b]) ++ c :: post) := by simpa using h
      have hpool := h'.memPool_head hm
      simpa using hpool

theorem Based.addr_ne_zero (hm : Based m) : (BitVec.ofNat 64 m.addr != 0) = true := by
  have hpos := hm.addr_pos
  have hlt := hm.addr_lt
  rw [bne_iff_ne]
  intro heq
  have hnat := congrArg BitVec.toNat heq
  rw [BitVec.toNat_ofNat, Nat.mod_eq_of_lt (by omega)] at hnat
  exact absurd hnat (by simp; omega)

/-- The offset `rt_smem_free` computes from the pointer. -/
theorem Based.offset_of_pointer (hm : Based m) (h : o ≤ m.heapEnd) :
    sub64 (sub64 (m.heapPtr + o + sizeofStructMem) sizeofStructMem) m.heapPtr = o := by
  have htop := hm.below
  rw [sub64_of_le (Nat.le_add_left _ _) (by omega), Nat.add_sub_cancel,
    sub64_of_le (Nat.le_add_right _ _) (by omega), Nat.add_sub_cancel_left]

/-- `lfree` after a block has become free. -/
theorem firstFree_min (hpos : ∀ d ∈ pre ++ b :: post, 0 < d.size) (hb : b.used = true) :
    (if total Block.size pre < firstFree 0 (pre ++ b :: post) then total Block.size pre
      else firstFree 0 (pre ++ b :: post)) = firstFree 0 pre := by
  by_cases hfree : ∃ d ∈ pre, d.used = false
  · have hbelow : firstFree 0 pre < 0 + total Block.size pre :=
      firstFree_lt (fun d hd => hpos d (by simp [hd])) hfree
    rw [firstFree_append_of_free hfree, if_neg (by omega)]
  · have hused : ∀ d ∈ pre, d.used = true := by
      intro d hd
      by_contra hd'
      exact hfree ⟨d, hd, by simpa using hd'⟩
    have habove : total Block.size pre + b.size ≤
        firstFree (total Block.size pre + b.size) post := le_firstFree
    have hbpos := hpos b (by simp)
    rw [firstFree_used hused, firstFree, if_pos hb, firstFree_eq_of_used hused, Nat.zero_add,
      if_pos (by omega)]

/-- `rt_smem_free` removes one used block. -/
theorem rtSmemFree_spec (hm : Based m) (h : HeapInv m bs) {o n : Nat}
    (hmem : (o, n) ∈ usedBlocks 0 bs) :
    ∃ m' bs', rtSmemFree m (m.heapPtr + o + sizeofStructMem) = .ok m' ∧ SameHeap m m' ∧
      HeapInv m' bs' ∧ (usedBlocks 0 bs).Perm ((o, n) :: usedBlocks 0 bs') := by
  obtain ⟨pre, b, post, rfl, hb, rfl, ho⟩ := usedBlocks_split hmem
  rw [Nat.zero_add] at ho
  simp only at ho
  subst ho
  have htop := hm.below
  have hlt := h.tiled.offset_lt
  obtain ⟨hsize, -⟩ := h.tiled.size_of_mem
  have haligned := h.tiled.offset_aligned
  have hptr := hm.ptr_aligned
  obtain ⟨p, hhead, -⟩ := h.tiled.header
  have hnext : (m.items (total Block.size pre)).next = total Block.size pre + b.size := by
    rw [hhead]
    rfl
  have hisused : memIsUsed (m.items (total Block.size pre)) = true := by
    rw [hhead, memIsUsed_headOf, hb]
  have hpool := h.tiled.memPool_head hm
  have hpool' := h.tiled.memPool_next hm
  have hoff := hm.offset_of_pointer (show total Block.size pre ≤ m.heapEnd by omega)
  have hmod : (m.heapPtr + total Block.size pre + sizeofStructMem) % rtAlignSize = 0 := by
    simp only [sizeofStructMem, rtAlignSize] at *
    omega
  have hbounds : m.heapPtr ≤ m.heapPtr + total Block.size pre + sizeofStructMem ∧
      m.heapPtr + total Block.size pre + sizeofStructMem < m.heapPtr + m.heapEnd := by
    omega
  have hdist : sub64 (total Block.size pre + b.size) (total Block.size pre) = b.size := by
    rw [sub64_of_le (by omega) (by omega), Nat.add_sub_cancel_left]
  have hle : usedTotal (pre ++ b :: post) ≤ m.heapEnd := by
    rw [h.tiled.heapEnd_eq]
    exact usedTotal_le
  have hused : sub64 m.used b.size = usedTotal (pre ++ ⟨b.size, false⟩ :: post) := by
    rw [h.used_eq, sub64_of_le]
    · simp [usedTotal_append, usedTotal_cons, hb]
      omega
    · simp [usedTotal_append, usedTotal_cons, hb]
      omega
    · omega
  -- the heap before `plug_holes`
  generalize hfreed : ({ marked m (total Block.size pre) (memFreed m.addr) with
    lfree := if total Block.size pre < m.lfree then total Block.size pre else m.lfree
    used := sub64 m.used b.size } : RtSmallMem) = m₁
  have hs₁ : SameHeap m m₁ := by
    rw [← hfreed]
    exact ⟨rfl, rfl, rfl, rfl, rfl⟩
  have ht₁ : Tiled m₁ (pre ++ ⟨b.size, false⟩ :: post) :=
    h.tiled.mark hs₁ (u := false) (by rw [← hfreed]; rfl)
  have hl₁ : m₁.lfree = firstFree 0 (pre ++ ⟨b.size, false⟩ :: post) := by
    rw [firstFree_append_free rfl, ← firstFree_min h.tiled.pos hb, ← h.lfree_eq, ← hfreed]
  obtain ⟨hcpre, hcrest, -⟩ := List.isChain_append.mp h.coalesced
  obtain ⟨m₂, bs', hplug, hs₂, hl₂, hu₂, ht₂, hc₂, hsame⟩ :=
    plugHoles_spec ht₁ rfl hl₁ hcpre hcrest.tail
  refine ⟨m₂, bs', ?_, hs₁.trans hs₂, ⟨ht₂, hc₂, ?_, ?_⟩, ?_⟩
  · have hne : ¬m.heapPtr + total Block.size pre + sizeofStructMem = 0 := by
      have hpos := hm.ptr_pos
      omega
    simp only [rtSmemFree, if_neg hne, hmod, decide_true, check_true, ok_bind, hoff]
    rw [getItem_ok (by omega)]
    simp only [ok_bind, hpool, hm.addr_ne_zero, check_true, BEq.rfl, hisused, hm.object, hbounds,
      and_self, decide_true, hnext]
    rw [getItem_ok hlt]
    simp only [ok_bind, hpool', BEq.rfl, check_true]
    rw [modifyItem_ok (by omega)]
    simp only [ok_bind, hdist]
    rw [← hplug, ← hfreed]
    split
    · rfl
    · rfl
  · rw [hl₂, hl₁, hsame.first]
  · rw [hu₂, hsame.total_eq, ← hused, ← hfreed]
  · rw [hsame.blocks, usedBlocks_append, usedBlocks_append, usedBlocks, usedBlocks, hb,
      Nat.zero_add]
    simp only [if_true]
    exact List.perm_middle

/-! ## `rt_smem_realloc` -/

/-- Cutting a used block in two used ones does not change the lowest free block. -/
theorem firstFree_cut {d : Block} (hb : b.used = true) (hc : c.used = true) (hd : d.used = true)
    (hsize : c.size + d.size = b.size) :
    firstFree o ((pre ++ [c]) ++ d :: post) = firstFree o (pre ++ b :: post) := by
  induction pre generalizing o with
  | nil =>
      simp only [List.nil_append, List.singleton_append, firstFree, hb, hc, hd, if_true]
      rw [Nat.add_assoc, hsize]
  | cons a pre ih =>
      simp only [List.cons_append, firstFree]
      rw [ih]

/-- Shrinking a used block in place. -/
theorem shrink_spec (hm : Based m) (h : HeapInv m (pre ++ b :: post)) (hb : b.used = true)
    (haligned : size % rtAlignSize = 0) (hpos : 0 < size)
    (hroom : size + 2 * sizeofStructMem < b.size) :
    ∃ m₁ m₂ bs',
      splitItem { m with used := sub64 m.used (b.size - sizeofStructMem - size) }
        (total Block.size pre) size = .ok m₁ ∧
      plugHoles (if total Block.size pre + sizeofStructMem + size < m₁.lfree then
          { m₁ with lfree := total Block.size pre + sizeofStructMem + size } else m₁)
        (total Block.size pre + sizeofStructMem + size) = .ok m₂ ∧
      SameHeap m m₂ ∧ HeapInv m₂ bs' ∧
      usedBlocks 0 bs' = usedBlocks 0 pre ++
        (total Block.size pre, size + sizeofStructMem) ::
          usedBlocks (total Block.size pre + b.size) post := by
  have htop := hm.below
  have hlt := h.tiled.offset_lt
  obtain ⟨p, hhead, -⟩ := h.tiled.header
  have hnext : (m.items (total Block.size pre)).next = total Block.size pre + b.size := by
    rw [hhead]
    rfl
  generalize hm₀ :
    ({ m with used := sub64 m.used (b.size - sizeofStructMem - size) } : RtSmallMem) = m₀
  have hs₀ : SameHeap m m₀ := by
    rw [← hm₀]
    exact ⟨rfl, rfl, rfl, rfl, rfl⟩
  have hitems₀ : m₀.items = m.items := by rw [← hm₀]
  have hl₀ : m₀.lfree = firstFree 0 (pre ++ b :: post) := by
    rw [← h.lfree_eq, ← hm₀]
  have ht₀ : Tiled m₀ (pre ++ b :: post) := h.tiled.of_items hs₀ hitems₀
  have hsplit := ht₀.split (hm.same hs₀).toSized haligned hpos hroom
  have hrun₁ : splitItem m₀ (total Block.size pre) size = .ok _ :=
    splitItem_ok (by rw [hitems₀, hnext]) (by rw [hs₀.heapEnd]; omega) (by rw [hs₀.heapEnd]; omega)
      (by rw [hs₀.heapEnd]; omega)
  have hl₁ : (split m₀ (total Block.size pre) (total Block.size pre + sizeofStructMem + size)
      (total Block.size pre + b.size)).lfree = firstFree 0 (pre ++ b :: post) := hl₀
  have hu₁ : (split m₀ (total Block.size pre) (total Block.size pre + sizeofStructMem + size)
      (total Block.size pre + b.size)).used = sub64 m.used (b.size - sizeofStructMem - size) := by
    rw [← hm₀]
    rfl
  have hs₁ : SameHeap m (split m₀ (total Block.size pre)
      (total Block.size pre + sizeofStructMem + size) (total Block.size pre + b.size)) :=
    hs₀.trans ⟨rfl, rfl, rfl, rfl, rfl⟩
  generalize split m₀ (total Block.size pre) (total Block.size pre + sizeofStructMem + size)
    (total Block.size pre + b.size) = m₁ at hsplit hrun₁ hl₁ hu₁ hs₁
  -- the two halves, and the heap `plug_holes` is called on
  have hcutpos : ∀ d ∈ (pre ++ [⟨sizeofStructMem + size, b.used⟩]) ++
      (⟨b.size - (sizeofStructMem + size), true⟩ : Block) :: post, 0 < d.size := by
    intro d hd
    simp only [List.mem_append, List.mem_cons, List.not_mem_nil, or_false] at hd
    rcases hd with (hd | rfl) | rfl | hd
    · exact h.tiled.pos d (by simp [hd])
    · simp only
      omega
    · simp only
      omega
    · exact h.tiled.pos d (by simp [hd])
  have hlow := firstFree_min hcutpos rfl
  have hoff : total Block.size (pre ++ [⟨sizeofStructMem + size, b.used⟩]) =
      total Block.size pre + sizeofStructMem + size := by
    simp [Nat.add_assoc]
  have hcut : firstFree 0 ((pre ++ [⟨sizeofStructMem + size, b.used⟩]) ++
      (⟨b.size - (sizeofStructMem + size), true⟩ : Block) :: post) =
      firstFree 0 (pre ++ b :: post) :=
    firstFree_cut hb hb rfl (by simp only; omega)
  rw [hcut, hoff] at hlow
  generalize hlower : (if total Block.size pre + sizeofStructMem + size < m₁.lfree then
    { m₁ with lfree := total Block.size pre + sizeofStructMem + size } else m₁) = m₂
  have hs₂ : SameHeap m₁ m₂ := by
    rw [← hlower]
    split
    · exact ⟨rfl, rfl, rfl, rfl, rfl⟩
    · exact SameHeap.refl m₁
  have hi₂ : m₂.items = m₁.items := by
    rw [← hlower]
    split
    · rfl
    · rfl
  have hu₂ : m₂.used = m₁.used := by
    rw [← hlower]
    split
    · rfl
    · rfl
  have hfree : firstFree 0 ((pre ++ [⟨sizeofStructMem + size, b.used⟩]) ++
      (⟨b.size - (sizeofStructMem + size), false⟩ : Block) :: post) =
      firstFree 0 (pre ++ [⟨sizeofStructMem + size, b.used⟩]) := firstFree_append_free rfl
  have hl₂ : m₂.lfree = firstFree 0 ((pre ++ [⟨sizeofStructMem + size, b.used⟩]) ++
      (⟨b.size - (sizeofStructMem + size), false⟩ : Block) :: post) := by
    rw [hfree, ← hlow, ← hlower, ← hl₁]
    split
    · rfl
    · rfl
  have ht₂ : Tiled m₂ ((pre ++ [⟨sizeofStructMem + size, b.used⟩]) ++
      ⟨b.size - (sizeofStructMem + size), false⟩ :: post) := by
    have hstep := hsplit.of_items hs₂ hi₂
    simpa using hstep
  obtain ⟨hcpre, hcrest, -⟩ := List.isChain_append.mp h.coalesced
  have hcpre' : Coalesced (pre ++ [⟨sizeofStructMem + size, b.used⟩]) := by
    refine List.isChain_append.mpr ⟨hcpre, List.isChain_singleton _, ?_⟩
    intro a _ d hd
    rw [List.head?_cons, Option.mem_some_iff] at hd
    rw [← hd]
    exact Or.inr hb
  obtain ⟨m₃, bs', hplug, hs₃, hl₃, hu₃, ht₃, hc₃, hsame⟩ :=
    plugHoles_spec ht₂ rfl hl₂ hcpre' hcrest.tail
  rw [hoff] at hplug
  refine ⟨m₁, m₃, bs', hrun₁, ?_, hs₁.trans (hs₂.trans hs₃), ⟨ht₃, hc₃, ?_, ?_⟩, ?_⟩
  · rw [hlower]
    exact hplug
  · rw [hl₃, hl₂, hsame.first]
  · have hle : usedTotal (pre ++ b :: post) ≤ m.heapEnd := by
      rw [h.tiled.heapEnd_eq]
      exact usedTotal_le
    have htotal : usedTotal (pre ++ b :: post) = usedTotal pre + b.size + usedTotal post := by
      rw [usedTotal_append, usedTotal_cons, hb]
      simp [Nat.add_assoc]
    rw [hu₃, hu₂, hu₁, hsame.total_eq, h.used_eq, sub64_of_le (by omega) (by omega), htotal]
    simp [usedTotal_append, usedTotal_cons, hb]
    omega
  · rw [hsame.blocks, List.append_assoc, usedBlocks_append]
    simp only [List.singleton_append, usedBlocks, hb, if_true, Nat.zero_add]
    simp only [Bool.false_eq_true, if_false]
    rw [Nat.add_comm sizeofStructMem size, Nat.add_assoc, Nat.add_sub_cancel' (by omega)]

/-- What `rt_smem_realloc` can do with the block `(o, n)`: leave the heap alone, free the
block, or hand out a block with room for the request in its place. -/
inductive Realloc (m : RtSmallMem) (bs bs' : List Block) (o n newsize : Nat) : Nat → Prop
  | refused (h : rtAlign newsize ≠ 0) (h' : usedBlocks 0 bs' = usedBlocks 0 bs) :
      Realloc m bs bs' o n newsize 0
  | freed (h : rtAlign newsize = 0)
      (h' : (usedBlocks 0 bs).Perm ((o, n) :: usedBlocks 0 bs')) :
      Realloc m bs bs' o n newsize 0
  | moved {o' n' : Nat} {rest : List (Nat × Nat)} (hfit : rtAlign newsize + sizeofStructMem ≤ n')
      (h : (usedBlocks 0 bs).Perm ((o, n) :: rest))
      (h' : (usedBlocks 0 bs').Perm ((o', n') :: rest)) :
      Realloc m bs bs' o n newsize (m.heapPtr + o' + sizeofStructMem)

/-- `rt_smem_realloc` on an item at `o` of `len` bytes, once the arguments are checked. -/
theorem rtSmemRealloc_live (hm : Based m) {newsize len : Nat}
    (hbig : ¬rtAlign newsize > m.memSizeAligned) (hzero : ¬rtAlign newsize = 0)
    (hnext : (m.items o).next = o + len) (hlt : o + len ≤ m.heapEnd)
    (hlen : sizeofStructMem < len) (haligned : o % rtAlignSize = 0) :
    rtSmemRealloc m (m.heapPtr + o + sizeofStructMem) newsize =
      if len - sizeofStructMem = rtAlign newsize then
        pure (m, m.heapPtr + o + sizeofStructMem)
      else if rtAlign newsize + sizeofStructMem + minSize < len - sizeofStructMem then do
        let m₁ ← splitItem { m with used := sub64 m.used (len - sizeofStructMem - rtAlign newsize) }
          o (rtAlign newsize)
        let m₂ ← plugHoles (if o + sizeofStructMem + rtAlign newsize < m₁.lfree then
            { m₁ with lfree := o + sizeofStructMem + rtAlign newsize } else m₁)
          (o + sizeofStructMem + rtAlign newsize)
        pure (m₂, m.heapPtr + o + sizeofStructMem)
      else (do
        let r ← rtSmemAlloc m (rtAlign newsize)
        if r.2 ≠ 0 then do
          let m' ← rtSmemFree r.1 (m.heapPtr + o + sizeofStructMem)
          pure (m', r.2)
        else pure r) := by
  have htop := hm.below
  have hptr := hm.ptr_aligned
  have hpos := hm.ptr_pos
  have hne : ¬m.heapPtr + o + sizeofStructMem = 0 := by omega
  have hoff := hm.offset_of_pointer (show o ≤ m.heapEnd by omega)
  have hdist : sub64 (sub64 (o + len) o) sizeofStructMem = len - sizeofStructMem := by
    rw [sub64_of_le (Nat.le_add_right _ _) (by omega), Nat.add_sub_cancel_left,
      sub64_of_le (by omega) (by omega)]
  have hmod : (m.heapPtr + o + sizeofStructMem) % rtAlignSize = 0 := by
    simp only [sizeofStructMem, rtAlignSize] at *
    omega
  have hlow : m.heapPtr ≤ m.heapPtr + o + sizeofStructMem := by omega
  have hhigh : m.heapPtr + o + sizeofStructMem < m.heapPtr + m.heapEnd := by omega
  have hget : getItem m o = .ok (m.items o) := getItem_ok (by omega)
  unfold rtSmemRealloc
  rw [hm.object, check_true, ok_bind]
  simp only [if_neg hbig, if_neg hzero, if_neg hne]
  rw [hmod, decide_eq_true rfl, check_true, ok_bind, decide_eq_true hlow, check_true, ok_bind,
    decide_eq_true hhigh, check_true, ok_bind, hoff, hget, ok_bind, hnext, hdist]

theorem rtSmemRealloc_spec (hm : Based m) (h : HeapInv m bs) {o n : Nat}
    (hmem : (o, n) ∈ usedBlocks 0 bs) (newsize : Nat) :
    ∃ m' bs' p, rtSmemRealloc m (m.heapPtr + o + sizeofStructMem) newsize = .ok (m', p) ∧
      SameHeap m m' ∧ HeapInv m' bs' ∧ Realloc m bs bs' o n newsize p := by
  have hpos := hm.ptr_pos
  by_cases hbig : rtAlign newsize > m.memSizeAligned
  · refine ⟨m, bs, 0, ?_, SameHeap.refl m, h, .refused (by omega) rfl⟩
    simp only [rtSmemRealloc, hm.object, check_true, ok_bind, if_pos hbig]
    rfl
  by_cases hzero : rtAlign newsize = 0
  · obtain ⟨m', bs', hfree, hs, hinv, hperm⟩ := rtSmemFree_spec hm h hmem
    refine ⟨m', bs', 0, ?_, hs, hinv, .freed hzero hperm⟩
    simp only [rtSmemRealloc, hm.object, check_true, ok_bind, if_neg hbig, if_pos hzero, hfree]
    rfl
  obtain ⟨pre, b, post, rfl, hb, rfl, ho⟩ := usedBlocks_split hmem
  rw [Nat.zero_add] at ho
  simp only at ho
  subst ho
  have hlt := h.tiled.offset_lt
  obtain ⟨hsize, -⟩ := h.tiled.size_of_mem
  obtain ⟨p, hhead, -⟩ := h.tiled.header
  have hnext : (m.items (total Block.size pre)).next = total Block.size pre + b.size := by
    rw [hhead]
    rfl
  have hrun := rtSmemRealloc_live hm hbig hzero hnext hlt hsize h.tiled.offset_aligned
  have hblocks : (usedBlocks 0 (pre ++ b :: post)).Perm ((total Block.size pre, b.size) ::
      (usedBlocks 0 pre ++ usedBlocks (total Block.size pre + b.size) post)) := by
    rw [usedBlocks_append, usedBlocks, if_pos hb, Nat.zero_add]
    exact List.perm_middle
  rw [hrun]
  clear hrun
  by_cases hsame : b.size - sizeofStructMem = rtAlign newsize
  · refine ⟨m, _, _, ?_, SameHeap.refl m, h, .moved (by omega) hblocks hblocks⟩
    rw [if_pos hsame]
    rfl
  rw [if_neg hsame]
  by_cases hshrink : rtAlign newsize + sizeofStructMem + minSize < b.size - sizeofStructMem
  · have hmin : minSize = 24 := rfl
    have hstruct : sizeofStructMem = 32 := rfl
    obtain ⟨m₁, m₂, bs', hsplit, hplug, hs, hinv, hused⟩ :=
      shrink_spec hm h hb (rtAlign_mod newsize) (by omega) (by omega)
    have hperm : (usedBlocks 0 bs').Perm
        ((total Block.size pre, rtAlign newsize + sizeofStructMem) ::
          (usedBlocks 0 pre ++ usedBlocks (total Block.size pre + b.size) post)) := by
      rw [hused]
      exact List.perm_middle
    refine ⟨m₂, bs', _, ?_, hs, hinv, .moved (Nat.le_refl _) hblocks hperm⟩
    rw [if_pos hshrink, hsplit, ok_bind, hplug]
    rfl
  · have halign : rtAlign (rtAlign newsize) = rtAlign newsize := by
      have htop := hm.below
      have hend := hm.heapEnd_eq
      exact rtAlign_of_aligned (rtAlign_mod newsize) (by omega)
    rw [if_neg hshrink]
    rcases rtSmemAlloc_spec hm h (rtAlign newsize) with hnone |
      ⟨m₁, o', n', bs₁, halloc, hs₁, hinv₁, hfit, hperm⟩
    · refine ⟨m, _, 0, ?_, SameHeap.refl m, h, .refused hzero rfl⟩
      rw [hnone]
      rfl
    · rw [halign] at hfit
      have hmem₁ : (total Block.size pre, b.size) ∈ usedBlocks 0 bs₁ :=
        hperm.mem_iff.mpr (List.mem_cons_of_mem _ hmem)
      obtain ⟨m₂, bs₂, hfree, hs₂, hinv₂, hperm₂⟩ := rtSmemFree_spec (hm.same hs₁) hinv₁ hmem₁
      rw [hs₁.heapPtr] at hfree
      have hne : m.heapPtr + o' + sizeofStructMem ≠ 0 := by omega
      -- the new block joins and the old one leaves
      have hboth := (hperm.trans (hblocks.cons _)).symm.trans hperm₂
      have hswap := (List.Perm.swap _ _ _).trans hboth
      refine ⟨m₂, bs₂, _, ?_, hs₁.trans hs₂, hinv₂,
        .moved hfit hblocks (List.Perm.cons_inv hswap).symm⟩
      rw [halloc, ok_bind, if_pos hne, hfree]
      rfl

end RtHypervisor.Ports.SmallMem
