import RtHypervisor.Ports.HeapBytesSim
import RtHypervisor.Ports.SmallMemInv

/-!
# Reallocating keeps the contents

The headers of a heap lie at the edges of its blocks, so the data of a used block is clear of
them.  `rt_smem_alloc` writes one header more, inside the free block it takes, and
`rt_smem_realloc` one inside the block it shrinks, behind the data that is kept.  What a call
does to the data of the used blocks follows from the frame of the simulation.
-/

namespace RtHypervisor.Ports.HeapBytes

open RtHypervisor.Verified.Run
open RtHypervisor.Verified.ByteMem
open RtHypervisor.Verified.Tiling
open RtHypervisor.Verified.Simulation
open RtHypervisor.Ports.SmallMem (RtSmallMem Item Block HeapInv Placed Sized SameHeap HasRoom Tiled
  needed usedBlocks sizeofStructMem minSize minSizeAligned rtAlignSize sub64 rtAlign memUsed
  memFreed memIsUsed memPool classMemory classStatic)

variable {h h' h₀ : ByteHeap} {m m' : RtSmallMem} {pre post bs bs' : List Block} {b : Block}
  {o n q k x y size : Nat}

/-! ## The edges of the blocks -/

/-- The offsets at which a block starts, and the end. -/
def edges (bs : List Block) : Set Nat :=
  {x | ∃ pre post, bs = pre ++ post ∧ x = total Block.size pre}

private theorem edge_mem : total Block.size pre ∈ edges (pre ++ post) := ⟨pre, post, rfl, rfl⟩

/-- A block that is not the last is followed by an edge. -/
theorem edge_next_mem : total Block.size pre + b.size ∈ edges (pre ++ b :: post) := by
  refine ⟨pre ++ [b], post, by simp, ?_⟩
  simp

/-- An edge other than the end is where a block starts. -/
theorem edge_cases (h : Tiled m bs) (hx : x ∈ edges bs) (hne : x ≠ m.heapEnd) :
    ∃ pre b post, bs = pre ++ b :: post ∧ x = total Block.size pre := by
  obtain ⟨pre, post, rfl, rfl⟩ := hx
  cases post with
  | nil =>
      have hend := h.heapEnd_eq
      rw [List.append_nil] at hend
      exact absurd hend.symm hne
  | cons b post => exact ⟨pre, b, post, rfl, rfl⟩

private theorem edges_le (h : Tiled m bs) (hx : x ∈ edges bs) : x ≤ m.heapEnd := by
  obtain ⟨pre, post, rfl, rfl⟩ := hx
  rw [h.heapEnd_eq, total_append]
  exact Nat.le_add_right _ _

/-- No edge lies inside a block. -/
theorem edge_outside (hx : x ∈ edges (pre ++ b :: post)) :
    x ≤ total Block.size pre ∨ total Block.size pre + b.size ≤ x := by
  obtain ⟨left, right, heq, rfl⟩ := hx
  rcases List.append_eq_append_iff.mp heq with ⟨mid, rfl, hmid⟩ | ⟨mid, rfl, -⟩
  · cases mid with
    | nil =>
        left
        rw [List.append_nil]
    | cons c mid =>
        right
        cases hmid
        simp only [total_append, total_cons]
        omega
  · left
    rw [total_append]
    exact Nat.le_add_right _ _

private theorem spaced_edges (h : Tiled m bs) (htop : m.heapEnd < 2 ^ 64) :
    Spaced (edges bs) m.heapEnd := by
  refine ⟨fun x hx => edges_le h hx, ?_, htop⟩
  intro x hx y hy hlt
  have hne : x ≠ m.heapEnd := by
    have hle := edges_le h hy
    omega
  obtain ⟨pre, b, post, rfl, rfl⟩ := edge_cases h hx hne
  have hsize := h.size_of_mem.1
  rcases edge_outside hy with hle | hge
  · omega
  · omega

/-- The predecessor of a block starts at an edge. -/
theorem prev_mem {p : Nat}
    (hseg : Seg Block.size (SmallMem.headOf m.addr) m.items pre 0 0 p (total Block.size pre)) :
    p ∈ edges (pre ++ post) := by
  rcases List.eq_nil_or_concat pre with rfl | ⟨left, a, rfl⟩
  · obtain ⟨rfl, -⟩ := hseg
    exact ⟨[], post, rfl, rfl⟩
  · rw [List.concat_eq_append] at *
    rw [seg_append] at hseg
    obtain ⟨p', o', hleft, hright⟩ := hseg
    have hend := hleft.end_eq
    refine ⟨left, [a] ++ post, by simp, ?_⟩
    rw [hright.2.1, hend, Nat.zero_add]

private theorem closed_edges (h : Tiled m bs) (hx : x ∈ edges bs) (hne : x ≠ m.heapEnd) :
    (m.items x).next ∈ edges bs ∧ (m.items x).prev ∈ edges bs := by
  obtain ⟨pre, b, post, rfl, rfl⟩ := edge_cases h hx hne
  obtain ⟨p, hitem, hseg⟩ := h.header
  rw [hitem]
  exact ⟨edge_next_mem, prev_mem hseg⟩

/-- The headers reached by `next` lie at the edges. -/
theorem linked_edges (h : Tiled m bs) (hx : SmallMem.Linked m x) : x ∈ edges bs := by
  induction hx with
  | first => exact ⟨[], bs, rfl, rfl⟩
  | next _ hlt ih => exact (closed_edges h ih (Nat.ne_of_lt hlt)).1

/-! ## From the headers to the bytes and back -/

/-- A heap tracks its own headers. -/
theorem tracks_view (ht : Tiled h.view bs) : Tracks (edges bs) h h h.view :=
  ⟨⟨rfl, rfl, rfl, rfl, rfl, rfl, rfl, rfl⟩, rfl, rfl, fun _ _ => rfl,
    fun _ hx hne => closed_edges ht hx hne, fun _ _ => rfl⟩

theorem Tracks.view_eq {S : Set Nat} (ht : Tracks S h₀ h m) :
    h.view = { m with items := h.item } := by
  unfold ByteHeap.view
  rw [ht.object.addr, ht.object.type, ht.object.used, ht.object.max, ht.object.heapPtr,
    ht.object.heapEnd, ht.object.lfree, ht.object.memSizeAligned]

/-- What holds of the header model holds of the bytes. -/
theorem Tracks.heapInv {S : Set Nat} (ht : Tracks S h₀ h m) (hinv : HeapInv m bs)
    (hsub : edges bs ⊆ S) : HeapInv h.view bs := by
  have hview := ht.view_eq
  refine ⟨?_, hinv.coalesced, ?_, ?_⟩
  · rw [hview]
    exact hinv.tiled.store fun off hoff => ht.items off (hsub (linked_edges hinv.tiled hoff))
  · rw [hview]
    exact hinv.lfree_eq
  · rw [hview]
    exact hinv.used_eq

theorem Tracks.sameHeap {S : Set Nat} (ht : Tracks S h₀ h m) (hs : SameHeap h₀.view m) :
    SameHeap h₀.view h.view :=
  ⟨ht.object.addr.trans hs.addr, ht.object.type.trans hs.type,
    ht.object.heapPtr.trans hs.heapPtr, ht.object.heapEnd.trans hs.heapEnd,
    ht.object.memSizeAligned.trans hs.memSizeAligned⟩

/-- The edges of a heap that was made from headers at `S` are among them. -/
theorem edges_sub {S : Set Nat} (ht : Tiled m bs) (hzero : 0 ∈ S)
    (hclosed : ∀ x ∈ S, x ≠ m.heapEnd → (m.items x).next ∈ S) : edges bs ⊆ S := by
  rintro x ⟨pre, post, rfl, rfl⟩
  induction pre using List.reverseRecOn generalizing post with
  | nil => exact hzero
  | append_singleton pre b ih =>
      have h' : Tiled m (pre ++ b :: post) := by simpa using ht
      have hmem := ih (b :: post) h'
      have hsize := h'.size_of_mem.1
      have hle := h'.offset_lt
      obtain ⟨p, hitem, -⟩ := h'.header
      have hnext := hclosed _ hmem (by omega)
      rw [hitem] at hnext
      rw [total_append, total_cons, total_nil, Nat.add_zero]
      exact hnext

/-- A header more, inside a block. -/
theorem spaced_insert (h : Tiled m (pre ++ b :: post)) (htop : m.heapEnd < 2 ^ 64)
    (hlow : total Block.size pre + sizeofStructMem ≤ y)
    (hhigh : y + sizeofStructMem ≤ total Block.size pre + b.size) :
    Spaced (insert y (edges (pre ++ b :: post))) m.heapEnd := by
  have hspaced := spaced_edges h htop
  have hlt := h.offset_lt
  refine ⟨?_, ?_, htop⟩
  · intro x hx
    rcases Set.mem_insert_iff.mp hx with rfl | hx
    · omega
    · exact hspaced.le x hx
  · intro x hx z hz hxz
    rcases Set.mem_insert_iff.mp hx with heq | hx'
    · rcases Set.mem_insert_iff.mp hz with heq' | hz'
      · omega
      · rcases edge_outside hz' with hle | hge
        · omega
        · omega
    · rcases Set.mem_insert_iff.mp hz with heq | hz'
      · rcases edge_outside hx' with hle | hge
        · omega
        · omega
      · exact hspaced.apart x hx' z hz' hxz

/-! ## The data of the used blocks -/

/-- The data of every used block is as it was. -/
def DataKept (bs : List Block) (h h' : ByteHeap) : Prop :=
  ∀ r ∈ usedBlocks 0 bs, ∀ i, sizeofStructMem ≤ i → i < r.2 →
    h'.bytes (h.heapPtr + r.1 + i) = h.bytes (h.heapPtr + r.1 + i)

private theorem edge_outside_used {r : Nat × Nat} (hr : r ∈ usedBlocks 0 bs) (hx : x ∈ edges bs) :
    x ≤ r.1 ∨ r.1 + r.2 ≤ x := by
  obtain ⟨pre, b, post, rfl, -, hsize, hoff⟩ := SmallMem.usedBlocks_split hr
  rw [Nat.zero_add] at hoff
  rw [hoff, ← hsize]
  exact edge_outside hx

private theorem offHeaders_data {r : Nat × Nat} (hr : r ∈ usedBlocks 0 bs) {base i : Nat}
    (hlow : sizeofStructMem ≤ i) (hhigh : i < r.2) :
    OffHeaders (edges bs) base (base + r.1 + i) := by
  intro x hx
  rcases edge_outside_used hr hx with hle | hge
  · right
    omega
  · left
    omega

/-- A used block and a free one do not overlap. -/
theorem used_outside_free {r : Nat × Nat} (hr : r ∈ usedBlocks 0 (pre ++ b :: post))
    (hb : b.used = false) : r.1 + r.2 ≤ total Block.size pre ∨
      total Block.size pre + b.size ≤ r.1 := by
  rw [SmallMem.usedBlocks_append, usedBlocks, hb, Nat.zero_add] at hr
  rcases List.mem_append.mp hr with hr | hr
  · left
    have hbounds := SmallMem.usedBlocks_bounds hr
    omega
  · right
    have hr' : r ∈ usedBlocks (total Block.size pre + b.size) post := by simpa using hr
    exact (SmallMem.usedBlocks_bounds hr').1

/-- Two used blocks do not overlap. -/
theorem used_disjoint {r s : Nat × Nat} (hr : r ∈ usedBlocks 0 bs) (hs : s ∈ usedBlocks 0 bs)
    (hne : r.1 ≠ s.1) (hpos : ∀ b ∈ bs, 0 < b.size) : r.1 + r.2 ≤ s.1 ∨ s.1 + s.2 ≤ r.1 := by
  obtain ⟨pre, b, post, rfl, hb, hsize, hoff⟩ := SmallMem.usedBlocks_split hr
  rw [Nat.zero_add] at hoff
  rw [SmallMem.usedBlocks_append, usedBlocks, if_pos hb, Nat.zero_add] at hs
  rcases List.mem_append.mp hs with hs | hs
  · right
    have hbounds := SmallMem.usedBlocks_bounds hs
    omega
  · left
    rcases List.mem_cons.mp hs with rfl | hs
    · exact absurd hoff hne
    · have hbounds := SmallMem.usedBlocks_bounds hs
      omega

/-! ## `rt_smem_free` -/

/-- The last header stays, and every header of a new heap was one before. -/
theorem Tracks.edges_sub {S : Set Nat} (ht : Tracks S h₀ h m) (hsub : edges bs ⊆ S)
    (hinv : HeapInv m bs') : edges bs' ⊆ S := by
  refine HeapBytes.edges_sub hinv.tiled (hsub ⟨[], bs, rfl, rfl⟩) ?_
  intro x hx hne
  rw [ht.last] at hne
  exact (ht.closed x hx hne).1

/-- `rt_smem_free` writes headers only. -/
theorem rtSmemFree_bytes (hm : Placed h.view) (hinv : HeapInv h.view bs)
    (hmem : (o, n) ∈ usedBlocks 0 bs) :
    ∃ h' bs', rtSmemFree h (h.heapPtr + o + sizeofStructMem) = .ok h' ∧
      SameHeap h.view h'.view ∧ HeapInv h'.view bs' ∧
      (usedBlocks 0 bs).Perm ((o, n) :: usedBlocks 0 bs') ∧ DataKept bs h h' := by
  obtain ⟨m', bs', hrun, hs, hinv', hperm⟩ := SmallMem.rtSmemFree_spec hm.based hinv hmem
  have hspaced : Spaced (edges bs) h.heapEnd := spaced_edges hinv.tiled hm.sized.heapEnd_lt
  have ht := tracks_view hinv.tiled
  have hused := hinv.tiled.used_size hmem
  have hlt : o < h.heapEnd := by
    have hle : o + n ≤ h.heapEnd := hused.2
    have hpos := hused.1
    simp only at hpos
    omega
  have hoff : sub64 (sub64 (h.heapPtr + o + sizeofStructMem) sizeofStructMem) h.heapPtr = o :=
    hm.based.offset_of_pointer (Nat.le_of_lt hlt)
  have hedge : o ∈ edges bs := by
    obtain ⟨pre, b, post, rfl, -, -, heq⟩ := SmallMem.usedBlocks_split hmem
    rw [Nat.zero_add] at heq
    simp only at heq
    rw [heq]
    exact edge_mem
  have hsim : Sim (Tracks (edges bs) h) (rtSmemFree h (h.heapPtr + o + sizeofStructMem))
      (SmallMem.rtSmemFree h.view (h.heapPtr + o + sizeofStructMem)) := by
    refine rtSmemFree_sim hspaced ht ?_ ?_
    · rw [hoff]
      exact hedge
    · rw [hoff]
      exact Nat.ne_of_lt hlt
  have hrun' : SmallMem.rtSmemFree h.view (h.heapPtr + o + sizeofStructMem) = .ok m' := hrun
  rw [hrun'] at hsim
  obtain ⟨h', hbytes, ht'⟩ := hsim.exists_ok
  refine ⟨h', bs', hbytes, ht'.sameHeap hs, ht'.heapInv hinv' (ht'.edges_sub subset_rfl hinv'),
    hperm, ?_⟩
  intro r hr i hlow hhigh
  exact ht'.frame _ (offHeaders_data hr hlow hhigh)

/-! ## `rt_smem_alloc` -/

/-- `rt_smem_alloc` writes headers only: those there are, and one inside the block it takes. -/
theorem rtSmemAlloc_bytes (hm : Sized h.view) (hroom : minSizeAligned ≤ h.memSizeAligned)
    (hinv : HeapInv h.view bs) (hpos : size ≠ 0) :
    rtSmemAlloc h size = .ok (h, 0) ∨
      ∃ h' o n bs', rtSmemAlloc h size = .ok (h', h.heapPtr + o + sizeofStructMem) ∧
        SameHeap h.view h'.view ∧ HeapInv h'.view bs' ∧ needed size + sizeofStructMem ≤ n ∧
        (usedBlocks 0 bs').Perm ((o, n) :: usedBlocks 0 bs) ∧ DataKept bs h h' := by
  have hlt64 : h.heapEnd < 2 ^ 64 := hm.heapEnd_lt
  have ht := tracks_view hinv.tiled
  have hspaced : Spaced (edges bs) h.heapEnd := spaced_edges hinv.tiled hlt64
  have hobject : isMemoryObject h = true := ht.isMemoryObject_eq.trans hm.object
  by_cases hbig : rtAlign size > h.memSizeAligned
  · left
    simp only [rtSmemAlloc, if_neg hpos, hobject, check_true, ok_bind, if_pos hbig]
    rfl
  have hfits : needed size ≤ h.memSizeAligned := by
    unfold needed
    split
    · exact hroom
    · omega
  have hmin := (SmallMem.le_needed size).2
  obtain ⟨low, rest, rfl, hlow, hfirst, -⟩ := SmallMem.firstFree_split bs 0
  have hl : h.lfree = total Block.size low := by
    have hl := hinv.lfree_eq
    rw [hfirst, Nat.zero_add] at hl
    exact hl
  -- the search reads the same headers
  have hend : h.heapEnd = h.memSizeAligned + sizeofStructMem := hm.heapEnd_eq
  have hbound : sub64 h.view.memSizeAligned (needed size) < h.heapEnd := by
    show sub64 h.memSizeAligned (needed size) < h.heapEnd
    have hhdr : sizeofStructMem = 32 := rfl
    rw [SmallMem.sub64_of_le hfits (by omega)]
    omega
  have hfind : findFit h (needed size) (total Block.size low) (h.heapEnd + 1) =
      SmallMem.findFit h.view (needed size) (total Block.size low) (h.heapEnd + 1) :=
    findFit_eq hspaced ht edge_mem hbound
  have hlen : (low ++ rest).length ≤ h.heapEnd := hinv.tiled.length_lt
  rw [List.length_append] at hlen
  have hsearch := SmallMem.findFit_spec hm hfits hinv.tiled
    (show rest.length < h.heapEnd + 1 by omega)
  rw [← hfind] at hsearch
  have hrun : rtSmemAlloc h size =
      (findFit h (needed size) (total Block.size low) (h.heapEnd + 1) >>= fun found =>
        found.elim (pure (h, 0)) fun ptr => do
          let h ← cutItem h ptr (needed size)
          markItem h ptr (needed size)) := by
    simp only [rtSmemAlloc, if_neg hpos, hobject, check_true, ok_bind, if_neg hbig, hl]
    refine bind_congr fun found => ?_
    cases found with
    | none => rfl
    | some ptr => rfl
  rw [hrun]
  rcases hsearch with ⟨hnone, -⟩ | ⟨skipped, b, post, rfl, ⟨hb, hfit⟩, -, hfound⟩
  · left
    rw [hnone]
    rfl
  right
  rw [hfound, ok_bind, Option.elim_some]
  clear hrun hfind hfound
  rw [← List.append_assoc] at hinv ht hspaced ⊢
  generalize hpre : low ++ skipped = pre at *
  obtain ⟨m', n, bs', htake, hs, hinv', hn, hperm⟩ :=
    SmallMem.takeItem_spec hm hinv hb (SmallMem.needed_mod size) hmin hfit
  have hlt : total Block.size pre + b.size ≤ h.heapEnd := hinv.tiled.offset_lt
  have hhdr : sizeofStructMem = 32 := rfl
  obtain ⟨p, hitem, -⟩ := hinv.tiled.header
  have hnext : (h.view.items (total Block.size pre)).next = total Block.size pre + b.size := by
    rw [hitem]
    rfl
  have hdata : sub64 (h.view.items (total Block.size pre)).next
      (total Block.size pre + sizeofStructMem) = b.size - sizeofStructMem := by
    rw [hnext, SmallMem.sub64_of_le (by omega) (by omega)]
    omega
  have hgap : sub64 (h.view.items (total Block.size pre)).next
      (total Block.size pre + sizeofStructMem) ≥
        needed size + sizeofStructMem + minSizeAligned →
      Spaced (insert (total Block.size pre + sizeofStructMem + needed size)
        (edges (pre ++ b :: post))) h.heapEnd := by
    intro hbigger
    rw [hdata] at hbigger
    exact spaced_insert hinv.tiled hlt64 (by omega) (by omega)
  obtain ⟨S', hS', hsub, hnew, hcut⟩ := cutItem_sim hspaced ht edge_mem (by omega) hgap
  have hsim : Sim (fun r r' => Tracks S' h r.1 r'.1 ∧ r.2 = r'.2)
      (do
        let h ← cutItem h (total Block.size pre) (needed size)
        markItem h (total Block.size pre) (needed size))
      (SmallMem.takeItem h.view (total Block.size pre) (needed size)) := by
    rw [SmallMem.takeItem_eq]
    exact hcut.bind fun h₁ m₁ ht₁ => markItem_sim hS' ht₁ (hsub edge_mem)
  rw [htake] at hsim
  obtain ⟨⟨h', p'⟩, hbytes, ht', hp'⟩ := hsim.exists_ok
  refine ⟨h', _, n, bs', ?_, ht'.sameHeap hs, ht'.heapInv hinv' (ht'.edges_sub hsub hinv'), hn,
    hperm, ?_⟩
  · have hptr : p' = h.heapPtr + total Block.size pre + sizeofStructMem := hp'
    rw [← hptr]
    exact hbytes
  · intro r hr i hilow hihigh
    refine ht'.frame _ fun y hy => ?_
    rcases hnew y hy with hy | ⟨rfl, hbigger⟩
    · exact offHeaders_data hr hilow hihigh y hy
    · rw [hdata] at hbigger
      rcases used_outside_free hr hb with hle | hge
      · left
        omega
      · right
        omega

/-! ## `rt_smem_realloc` -/

/-- Copying into the data of a used block. -/
theorem memcpy_heapInv {dst src count : Nat} (hinv : HeapInv h.view bs)
    (hmem : (o, n) ∈ usedBlocks 0 bs) (hdst : dst = h.heapPtr + o + sizeofStructMem)
    (hfit : count + sizeofStructMem ≤ n) : HeapInv (rtMemcpy h dst src count).view bs := by
  have htiled : Tiled { h.view with items := (rtMemcpy h dst src count).item } bs := by
    refine hinv.tiled.store fun x hx => ?_
    have hle := Nat.mod_le count (2 ^ 32)
    refine item_congr fun a hlow hhigh => ?_
    unfold blit
    rw [if_neg]
    rcases edge_outside_used hmem (linked_edges hinv.tiled hx) with hbelow | habove
    · simp only at hbelow
      omega
    · simp only at habove
      omega
  exact ⟨htiled, hinv.coalesced, hinv.lfree_eq, hinv.used_eq⟩

/-- `rt_smem_realloc` on an item at `o` of `len` bytes, once the arguments are checked. -/
theorem rtSmemRealloc_live (hm : Placed h.view) {newsize len : Nat}
    (hbig : ¬rtAlign newsize > h.memSizeAligned) (hzero : ¬rtAlign newsize = 0)
    (hnext : (h.item o).next = o + len) (hlt : o + len ≤ h.heapEnd)
    (hlen : sizeofStructMem < len) (haligned : o % rtAlignSize = 0) :
    rtSmemRealloc h (h.heapPtr + o + sizeofStructMem) newsize =
      if len - sizeofStructMem = rtAlign newsize then
        pure (h, h.heapPtr + o + sizeofStructMem)
      else if rtAlign newsize + sizeofStructMem + minSize < len - sizeofStructMem then do
        let h₁ ← splitItem { h with used := sub64 h.used (len - sizeofStructMem - rtAlign newsize) }
          o (rtAlign newsize)
        let h₂ ← plugHoles (if o + sizeofStructMem + rtAlign newsize < h₁.lfree then
            { h₁ with lfree := o + sizeofStructMem + rtAlign newsize } else h₁)
          (o + sizeofStructMem + rtAlign newsize)
        pure (h₂, h.heapPtr + o + sizeofStructMem)
      else (do
        let r ← rtSmemAlloc h (rtAlign newsize)
        if r.2 ≠ 0 then do
          let h' ← rtSmemFree (rtMemcpy r.1 r.2 (h.heapPtr + o + sizeofStructMem)
            (if len - sizeofStructMem < rtAlign newsize then len - sizeofStructMem
              else rtAlign newsize)) (h.heapPtr + o + sizeofStructMem)
          pure (h', r.2)
        else pure r) := by
  have htop : h.heapPtr + h.heapEnd + sizeofStructMem ≤ 2 ^ 32 := hm.top
  have hptr : h.heapPtr % rtAlignSize = 0 := hm.ptr_aligned
  have hpos : 0 < h.heapPtr := hm.ptr_pos
  have hobject : isMemoryObject h = true := hm.object
  have hne : ¬h.heapPtr + o + sizeofStructMem = 0 := by omega
  have hoff : sub64 (sub64 (h.heapPtr + o + sizeofStructMem) sizeofStructMem) h.heapPtr = o :=
    hm.based.offset_of_pointer (show o ≤ h.heapEnd by omega)
  have hdist : sub64 (sub64 (o + len) o) sizeofStructMem = len - sizeofStructMem := by
    rw [SmallMem.sub64_of_le (Nat.le_add_right _ _) (by omega), Nat.add_sub_cancel_left,
      SmallMem.sub64_of_le (by omega) (by omega)]
  have hmod : (h.heapPtr + o + sizeofStructMem) % rtAlignSize = 0 := by
    simp only [sizeofStructMem, rtAlignSize] at *
    omega
  have hlow : h.heapPtr ≤ h.heapPtr + o + sizeofStructMem := by omega
  have hhigh : h.heapPtr + o + sizeofStructMem < h.heapPtr + h.heapEnd := by omega
  have hget : getItem h o = .ok (h.item o) := by
    have hle : o ≤ h.heapEnd := by omega
    simp only [getItem, hle, decide_true, check_true, ok_bind]
    rfl
  unfold rtSmemRealloc
  rw [hobject, check_true, ok_bind]
  simp only [if_neg hbig, if_neg hzero, if_neg hne]
  rw [hmod, decide_eq_true rfl, check_true, ok_bind, decide_eq_true hlow, check_true, ok_bind,
    decide_eq_true hhigh, check_true, ok_bind, hoff, hget, ok_bind, hnext, hdist]

/-- Shrinking in place writes headers only, the new one behind the data that is kept. -/
theorem shrink_bytes (hm : Placed h.view) (hinv : HeapInv h.view (pre ++ b :: post))
    (hb : b.used = true) (haligned : size % rtAlignSize = 0) (hpos : 0 < size)
    (hroom : size + 2 * sizeofStructMem < b.size) :
    ∃ h₁ h₂ bs',
      splitItem { h with used := sub64 h.used (b.size - sizeofStructMem - size) }
        (total Block.size pre) size = .ok h₁ ∧
      plugHoles (if total Block.size pre + sizeofStructMem + size < h₁.lfree then
          { h₁ with lfree := total Block.size pre + sizeofStructMem + size } else h₁)
        (total Block.size pre + sizeofStructMem + size) = .ok h₂ ∧
      SameHeap h.view h₂.view ∧ HeapInv h₂.view bs' ∧
      usedBlocks 0 bs' = usedBlocks 0 pre ++
        (total Block.size pre, size + sizeofStructMem) ::
          usedBlocks (total Block.size pre + b.size) post ∧
      ∀ a, OffHeaders (insert (total Block.size pre + sizeofStructMem + size)
        (edges (pre ++ b :: post))) h.heapPtr a → h₂.bytes a = h.bytes a := by
  have hlt64 : h.heapEnd < 2 ^ 64 := hm.sized.heapEnd_lt
  have hlt : total Block.size pre + b.size ≤ h.heapEnd := hinv.tiled.offset_lt
  have ht := tracks_view hinv.tiled
  have hspaced : Spaced (edges (pre ++ b :: post)) h.heapEnd := spaced_edges hinv.tiled hlt64
  have hS' : Spaced (insert (total Block.size pre + sizeofStructMem + size)
      (edges (pre ++ b :: post))) h.heapEnd :=
    spaced_insert hinv.tiled hlt64 (by omega) (by omega)
  obtain ⟨m₁, m₂, bs', hsplit, hplug, hs, hinv', hused⟩ :=
    SmallMem.shrink_spec hm.based hinv hb haligned hpos hroom
  have hcut := splitItem_sim hspaced hS' (ht.subUsed (b.size - sizeofStructMem - size)) edge_mem
    (by omega)
  rw [hsplit] at hcut
  obtain ⟨h₁, hrun₁, ht₁⟩ := hcut.exists_ok
  have hclosed := plugHoles_sim hS'
    (ht₁.lowerLfree (total Block.size pre + sizeofStructMem + size)) (Set.mem_insert _ _)
  rw [hplug] at hclosed
  obtain ⟨h₂, hrun₂, ht₂⟩ := hclosed.exists_ok
  refine ⟨h₁, h₂, bs', hrun₁, hrun₂, ht₂.sameHeap hs,
    ht₂.heapInv hinv' (ht₂.edges_sub (Set.subset_insert _ _) hinv'), hused, ?_⟩
  intro a ha
  exact ht₂.frame a ha

/-- What a call that returns a block leaves: the block has room for the new size and starts
with the old contents, and the other blocks are where they were with what they held. -/
structure Reallocated (h h' : ByteHeap) (bs bs' : List Block) (o n newsize o' n' : Nat) :
    Prop where
  fits : newsize + sizeofStructMem ≤ n'
  contents : ∀ i, i < min (n - sizeofStructMem) newsize →
    h'.bytes (h.heapPtr + o' + sizeofStructMem + i) =
      h.bytes (h.heapPtr + o + sizeofStructMem + i)
  others : ∃ rest, (usedBlocks 0 bs).Perm ((o, n) :: rest) ∧
    (usedBlocks 0 bs').Perm ((o', n') :: rest) ∧
    ∀ r ∈ rest, (r.1 + r.2 ≤ o' ∨ o' + n' ≤ r.1) ∧
      ∀ i, sizeofStructMem ≤ i → i < r.2 →
        h'.bytes (h.heapPtr + r.1 + i) = h.bytes (h.heapPtr + r.1 + i)

/-- The other blocks of a heap are clear of a block. -/
theorem others_disjoint (ht : Tiled m bs) {rest : List (Nat × Nat)}
    (hperm : (usedBlocks 0 bs).Perm ((o, n) :: rest)) {r : Nat × Nat} (hr : r ∈ rest) :
    r.1 + r.2 ≤ o ∨ o + n ≤ r.1 := by
  have hnodup := (hperm.map Prod.fst).nodup_iff.mp ht.used_nodup
  rw [List.map_cons, List.nodup_cons] at hnodup
  have hne : r.1 ≠ o := by
    intro heq
    exact hnodup.1 (List.mem_map.mpr ⟨r, hr, heq⟩)
  exact used_disjoint (hperm.mem_iff.mpr (List.mem_cons_of_mem _ hr))
    (hperm.mem_iff.mpr (List.mem_cons_self ..)) hne ht.pos

private theorem blocks_perm (hb : b.used = true) :
    (usedBlocks 0 (pre ++ b :: post)).Perm ((total Block.size pre, b.size) ::
      (usedBlocks 0 pre ++ usedBlocks (total Block.size pre + b.size) post)) := by
  rw [SmallMem.usedBlocks_append, usedBlocks, if_pos hb, Nat.zero_add]
  exact List.perm_middle

/-- The block keeps its place when the size stays. -/
theorem reallocated_same {newsize : Nat} (ht : Tiled h.view bs) (hmem : (o, n) ∈ usedBlocks 0 bs)
    (hfit : newsize + sizeofStructMem ≤ n) : Reallocated h h bs bs o n newsize o n := by
  have hperm := List.perm_cons_erase hmem
  refine ⟨hfit, fun i _ => rfl, _, hperm, hperm, fun r hr => ?_⟩
  exact ⟨others_disjoint ht hperm hr, fun _ _ _ => rfl⟩

/-- Shrinking in place. -/
theorem reallocated_shrunk {newsize : Nat} (ht : Tiled h'.view bs')
    (hb : b.used = true) (hfit : newsize ≤ size) (hroom : size + sizeofStructMem ≤ b.size)
    (hused : usedBlocks 0 bs' = usedBlocks 0 pre ++
      (total Block.size pre, size + sizeofStructMem) ::
        usedBlocks (total Block.size pre + b.size) post)
    (hframe : ∀ a, OffHeaders (insert (total Block.size pre + sizeofStructMem + size)
      (edges (pre ++ b :: post))) h.heapPtr a → h'.bytes a = h.bytes a) :
    Reallocated h h' (pre ++ b :: post) bs' (total Block.size pre) b.size newsize
      (total Block.size pre) (size + sizeofStructMem) := by
  have hold := @blocks_perm pre post b hb
  have hnew : (usedBlocks 0 bs').Perm ((total Block.size pre, size + sizeofStructMem) ::
      (usedBlocks 0 pre ++ usedBlocks (total Block.size pre + b.size) post)) := by
    rw [hused]
    exact List.perm_middle
  have hself : (total Block.size pre, b.size) ∈ usedBlocks 0 (pre ++ b :: post) :=
    hold.mem_iff.mpr (List.mem_cons_self ..)
  refine ⟨by omega, ?_, _, hold, hnew, ?_⟩
  · intro i hi
    have hdata := @offHeaders_data _ _ hself h.heapPtr (sizeofStructMem + i) (by omega)
      (show sizeofStructMem + i < b.size by omega)
    rw [Nat.add_assoc]
    refine hframe _ fun y hy => ?_
    rcases Set.mem_insert_iff.mp hy with rfl | hy
    · left
      omega
    · exact hdata y hy
  · intro r hr
    have hmem : r ∈ usedBlocks 0 (pre ++ b :: post) :=
      hold.mem_iff.mpr (List.mem_cons_of_mem _ hr)
    refine ⟨others_disjoint ht hnew hr, fun i hlow hhigh => hframe _ fun y hy => ?_⟩
    rcases Set.mem_insert_iff.mp hy with rfl | hy
    · -- the rest of the block lies beside the others
      have hbeside : r.1 + r.2 ≤ total Block.size pre ∨ total Block.size pre + b.size ≤ r.1 := by
        rcases List.mem_append.mp hr with hr | hr
        · left
          have hbounds := SmallMem.usedBlocks_bounds hr
          omega
        · right
          exact (SmallMem.usedBlocks_bounds hr).1
      rcases hbeside with hle | hge
      · left
        omega
      · right
        omega
    · exact offHeaders_data hmem hlow hhigh y hy

/-- Moving to a new block: allocate, copy and free. -/
theorem realloc_moved {newsize : Nat} (hm : Placed h.view) (hinv : HeapInv h.view bs)
    (hmem : (o, n) ∈ usedBlocks 0 bs) (hsize : size ≠ 0) (haligned : rtAlign size = size)
    (hfit : newsize ≤ size) :
    ∃ h' p, (do
        let r ← rtSmemAlloc h size
        if r.2 ≠ 0 then do
          let h' ← rtSmemFree (rtMemcpy r.1 r.2 (h.heapPtr + o + sizeofStructMem)
            (if n - sizeofStructMem < size then n - sizeofStructMem else size))
            (h.heapPtr + o + sizeofStructMem)
          pure (h', r.2)
        else pure r) = .ok (h', p) ∧
      ((p = 0 ∧ h' = h) ∨ ∃ bs' o' n', p = h.heapPtr + o' + sizeofStructMem ∧
        SameHeap h.view h'.view ∧ HeapInv h'.view bs' ∧
        Reallocated h h' bs bs' o n newsize o' n') := by
  have hptr : 0 < h.heapPtr := hm.ptr_pos
  rcases rtSmemAlloc_bytes hm.sized hm.room hinv hsize with hnone |
    ⟨h₁, o', n', bs₁, halloc, hs₁, hinv₁, hn, hperm₁, hkept₁⟩
  · refine ⟨h, 0, ?_, Or.inl ⟨rfl, rfl⟩⟩
    rw [hnone]
    rfl
  have hne : h.heapPtr + o' + sizeofStructMem ≠ 0 := by omega
  have hbase : h₁.heapPtr = h.heapPtr := hs₁.heapPtr
  have hneeded := (SmallMem.le_needed size).1
  have hm₁ := hm.same hs₁
  have hnew : (o', n') ∈ usedBlocks 0 bs₁ := hperm₁.mem_iff.mpr (List.mem_cons_self ..)
  have hold : ∀ r ∈ usedBlocks 0 bs, r ∈ usedBlocks 0 bs₁ := fun r hr =>
    hperm₁.mem_iff.mpr (List.mem_cons_of_mem _ hr)
  have hn₀ := hinv.tiled.used_size hmem
  -- the copy
  generalize hcount : (if n - sizeofStructMem < size then n - sizeofStructMem else size) = count
  have hle : count ≤ size ∧ count ≤ n - sizeofStructMem ∧
      min (n - sizeofStructMem) newsize ≤ count := by
    rw [← hcount]
    split
    · omega
    · omega
  have hsmall : count % 2 ^ 32 = count := by
    have htop : h.heapPtr + h.heapEnd + sizeofStructMem ≤ 2 ^ 32 := hm.top
    have hend : o + n ≤ h.heapEnd := hn₀.2
    exact Nat.mod_eq_of_lt (by omega)
  have hinv₂ : HeapInv (rtMemcpy h₁ (h.heapPtr + o' + sizeofStructMem)
      (h.heapPtr + o + sizeofStructMem) count).view bs₁ :=
    memcpy_heapInv hinv₁ hnew (by rw [hbase]) (by omega)
  have hcopied : ∀ i, i < count → (rtMemcpy h₁ (h.heapPtr + o' + sizeofStructMem)
      (h.heapPtr + o + sizeofStructMem) count).bytes (h.heapPtr + o' + sizeofStructMem + i) =
        h₁.bytes (h.heapPtr + o + sizeofStructMem + i) := by
    intro i hi
    simp only [rtMemcpy, blit, hsmall]
    rw [if_pos (by omega), Nat.add_sub_cancel_left]
  have hoff : ∀ a, a < h.heapPtr + o' + sizeofStructMem ∨ h.heapPtr + o' + n' ≤ a →
      (rtMemcpy h₁ (h.heapPtr + o' + sizeofStructMem) (h.heapPtr + o + sizeofStructMem)
        count).bytes a = h₁.bytes a := by
    intro a ha
    simp only [rtMemcpy, blit, hsmall]
    rw [if_neg (by omega)]
  have hs₂ : SameHeap h₁.view (rtMemcpy h₁ (h.heapPtr + o' + sizeofStructMem)
      (h.heapPtr + o + sizeofStructMem) count).view := ⟨rfl, rfl, rfl, rfl, rfl⟩
  generalize hcopy : rtMemcpy h₁ (h.heapPtr + o' + sizeofStructMem)
    (h.heapPtr + o + sizeofStructMem) count = h₂ at hinv₂ hcopied hoff hs₂
  -- the old block is given back
  have hbase₂ : h₂.heapPtr = h.heapPtr := hs₂.heapPtr.trans hbase
  obtain ⟨h₃, bs₂, hfree, hs₃, hinv₃, hperm₃, hkept₃⟩ :=
    rtSmemFree_bytes (hm₁.same hs₂) hinv₂ (hold _ hmem)
  rw [hbase₂] at hfree
  have herase := List.perm_cons_erase hmem
  have hrest : (usedBlocks 0 bs₂).Perm ((o', n') :: (usedBlocks 0 bs).erase (o, n)) := by
    have hboth := (hperm₁.trans (herase.cons _)).symm.trans hperm₃
    exact (List.Perm.cons_inv ((List.Perm.swap _ _ _).trans hboth)).symm
  refine ⟨h₃, _, ?_, Or.inr ⟨bs₂, o', n', rfl, hs₁.trans (hs₂.trans hs₃), hinv₃, by omega, ?_, _,
    herase, hrest, ?_⟩⟩
  · rw [halloc, ok_bind, if_pos hne]
    simp only [hcopy, hfree, ok_bind]
    rfl
  · intro i hi
    have hfirst := hkept₃ _ hnew (sizeofStructMem + i) (by omega)
      (show sizeofStructMem + i < n' by omega)
    have hlast := hkept₁ _ hmem (sizeofStructMem + i) (by omega)
      (show sizeofStructMem + i < n by omega)
    rw [hbase₂, ← Nat.add_assoc] at hfirst
    rw [← Nat.add_assoc] at hlast
    exact hfirst.trans ((hcopied i (by omega)).trans hlast)
  · intro r hr
    have hmem₀ : r ∈ usedBlocks 0 bs := herase.mem_iff.mpr (List.mem_cons_of_mem _ hr)
    have hbeside := others_disjoint hinv₁.tiled hperm₁ hmem₀
    refine ⟨others_disjoint hinv₃.tiled hrest hr, fun i hlow hhigh => ?_⟩
    have hfirst := hkept₃ _ (hold _ hmem₀) i hlow hhigh
    have hlast := hkept₁ _ hmem₀ i hlow hhigh
    rw [hbase₂] at hfirst
    exact hfirst.trans ((hoff _ (by omega)).trans hlast)

/-- **`rt_smem_realloc` keeps contents.**  On a used block and a size that `RT_ALIGN` does not
wrap, the call returns.  With `RT_NULL` nothing has changed; otherwise the result has the first
bytes of the old block, and every other used block is where it was, holds what it held and is
clear of the result. -/
theorem realloc_keeps_contents {newsize : Nat} (hm : Placed h.view) (hinv : HeapInv h.view bs)
    (hmem : (o, n) ∈ usedBlocks 0 bs) (hpos : 0 < newsize)
    (hmax : newsize ≤ 2 ^ 64 - rtAlignSize) :
    ∃ h' p, rtSmemRealloc h (h.heapPtr + o + sizeofStructMem) newsize = .ok (h', p) ∧
      ((p = 0 ∧ h' = h) ∨ ∃ bs' o' n', p = h.heapPtr + o' + sizeofStructMem ∧
        SameHeap h.view h'.view ∧ HeapInv h'.view bs' ∧
        Reallocated h h' bs bs' o n newsize o' n') := by
  have hge := SmallMem.le_rtAlign hmax
  have hobject : isMemoryObject h = true := hm.object
  by_cases hbig : rtAlign newsize > h.memSizeAligned
  · refine ⟨h, 0, ?_, Or.inl ⟨rfl, rfl⟩⟩
    simp only [rtSmemRealloc, hobject, check_true, ok_bind, if_pos hbig]
    rfl
  obtain ⟨pre, b, post, rfl, hb, hsize, hoff⟩ := SmallMem.usedBlocks_split hmem
  rw [Nat.zero_add] at hoff
  simp only at hoff hsize
  subst hoff hsize
  have hlt : total Block.size pre + b.size ≤ h.heapEnd := hinv.tiled.offset_lt
  have hbsize := hinv.tiled.size_of_mem.1
  obtain ⟨p, hhead, -⟩ := hinv.tiled.header
  have hnext : (h.item (total Block.size pre)).next = total Block.size pre + b.size := by
    show (h.view.items (total Block.size pre)).next = _
    rw [hhead]
    rfl
  rw [rtSmemRealloc_live hm hbig (by omega) hnext hlt hbsize hinv.tiled.offset_aligned]
  by_cases hsame : b.size - sizeofStructMem = rtAlign newsize
  · refine ⟨h, _, ?_, Or.inr ⟨_, _, _, rfl, SameHeap.refl _, hinv,
      reallocated_same hinv.tiled hmem (by omega)⟩⟩
    rw [if_pos hsame]
    rfl
  rw [if_neg hsame]
  by_cases hcut : rtAlign newsize + sizeofStructMem + minSize < b.size - sizeofStructMem
  · have hmin : minSize = 24 := rfl
    have hhdr : sizeofStructMem = 32 := rfl
    obtain ⟨h₁, h₂, bs', hsplit, hplug, hs, hinv', hused, hframe⟩ :=
      shrink_bytes hm hinv hb (SmallMem.rtAlign_mod newsize) (by omega) (by omega)
    refine ⟨h₂, _, ?_, Or.inr ⟨bs', _, _, rfl, hs, hinv',
      reallocated_shrunk hinv'.tiled hb hge (by omega) hused hframe⟩⟩
    rw [if_pos hcut, hsplit, ok_bind, hplug]
    rfl
  · rw [if_neg hcut]
    have htop : h.heapPtr + h.heapEnd + sizeofStructMem ≤ 2 ^ 32 := hm.top
    have hend : h.heapEnd = h.memSizeAligned + sizeofStructMem := hm.heapEnd_eq
    exact realloc_moved hm hinv hmem (by omega)
      (SmallMem.rtAlign_of_aligned (SmallMem.rtAlign_mod newsize) (by omega)) hge

/-- The header at an offset of a heap at 0x1070. -/
def putHeader (bytes : Mem) (off : Nat) (i : Item) : Mem :=
  store64 (store64 (store64 bytes (0x1070 + off) i.poolPtr) (0x1070 + off + 16)
    (BitVec.ofNat 64 i.next)) (0x1070 + off + 24) (BitVec.ofNat 64 i.prev)

def twoUsed : List Block := [⟨64, true⟩, ⟨64, true⟩, ⟨160, false⟩]

/-- Two used blocks, whose bytes are the lowest of their addresses, and a free one behind them. -/
def twoBlocks : ByteHeap :=
  { addr := 0x1000
    type := classMemory ||| classStatic
    used := 128
    max := 128
    heapPtr := 0x1070
    heapEnd := 288
    lfree := 128
    memSizeAligned := 256
    bytes := putHeader (putHeader (putHeader (putHeader (fun a => BitVec.ofNat 8 a)
      0 ⟨memUsed 0x1000, 64, 0⟩) 64 ⟨memUsed 0x1000, 128, 0⟩) 128 ⟨memFreed 0x1000, 288, 64⟩)
      288 ⟨memUsed 0x1000, 288, 128⟩ }

private theorem twoBlocks_placed : Placed twoBlocks.view :=
  ⟨rfl, by decide, rfl, by decide, by decide, by decide, rfl, by decide, by decide⟩

private theorem twoBlocks_inv : HeapInv twoBlocks.view twoUsed := by
  have hfirst : twoBlocks.item 0 = ⟨memUsed 0x1000, 64, 0⟩ := by decide
  have hsecond : twoBlocks.item 64 = ⟨memUsed 0x1000, 128, 0⟩ := by decide
  have hthird : twoBlocks.item 128 = ⟨memFreed 0x1000, 288, 64⟩ := by decide
  have hlast : (twoBlocks.item 288).poolPtr = memUsed 0x1000 := by decide
  have hseg : Seg Block.size (SmallMem.headOf 0x1000) twoBlocks.item twoUsed 0 0 128 288 :=
    ⟨hfirst, hsecond, hthird, rfl, rfl⟩
  have hcoalesced : SmallMem.Coalesced twoUsed := by
    unfold SmallMem.Coalesced
    decide
  exact ⟨⟨⟨128, hseg⟩, hlast, by decide⟩, hcoalesced, by decide, by decide⟩

/-- The first block grows: it moves behind the second, which keeps its bytes, and takes its own
bytes along. -/
theorem realloc_keeps_grown : ∃ h' bs' n',
    rtSmemRealloc twoBlocks (twoBlocks.heapPtr + 0 + sizeofStructMem) 64 = .ok (h', 0x1110) ∧
    SameHeap twoBlocks.view h'.view ∧ HeapInv h'.view bs' ∧
    Reallocated twoBlocks h' twoUsed bs' 0 64 64 128 n' ∧
    (List.range 32).map (fun i => h'.bytes (0x1110 + i)) =
      (List.range 32).map (fun i => BitVec.ofNat 8 (0x90 + i)) ∧
    (List.range 32).map (fun i => h'.bytes (0x10d0 + i)) =
      (List.range 32).map (fun i => BitVec.ofNat 8 (0xd0 + i)) := by
  have hmem : (0, 64) ∈ usedBlocks 0 twoUsed := by decide
  obtain ⟨h', p, hrun, hcases⟩ :=
    @realloc_keeps_contents twoBlocks twoUsed 0 64 64 twoBlocks_placed twoBlocks_inv hmem
      (by decide) (by decide)
  have hends : (rtSmemRealloc twoBlocks (twoBlocks.heapPtr + 0 + sizeofStructMem) 64).map
      (fun r => (r.2, (List.range 32).map (fun i => r.1.bytes (0x1110 + i)),
        (List.range 32).map (fun i => r.1.bytes (0x10d0 + i)))) =
      .ok (0x1110, (List.range 32).map (fun i => BitVec.ofNat 8 (0x90 + i)),
        (List.range 32).map (fun i => BitVec.ofNat 8 (0xd0 + i))) := by
    decide +kernel
  rw [hrun] at hends
  simp only [Except.map, Except.ok.injEq, Prod.mk.injEq] at hends
  obtain ⟨rfl, hcopied, hkept⟩ := hends
  rcases hcases with ⟨hnull, -⟩ | ⟨bs', o', n', hp, hsame, hinv, hre⟩
  · cases hnull
  have ho : o' = 128 := by
    have hptr : (0x1110 : Nat) = 0x1070 + o' + 32 := hp
    omega
  subst ho
  exact ⟨h', bs', n', hrun, hsame, hinv, hre, hcopied, hkept⟩

end RtHypervisor.Ports.HeapBytes
