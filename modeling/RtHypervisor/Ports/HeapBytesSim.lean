import RtHypervisor.Ports.HeapBytes
import RtHypervisor.Verified.Simulation

/-!
# The bytes and the headers

While an operation runs, the headers it reads and writes lie at a set of offsets `S` whose
members are a header apart.  `Tracks S h₀ h m` says that the memory of `h` reads at these
offsets as the header model `m` has it, that no header but the last leads out of the set, and
that no byte outside the headers has changed since `h₀`.

Every function of the byte model simulates its counterpart under this relation.
-/

namespace RtHypervisor.Ports.HeapBytes

open RtHypervisor.Verified.Run
open RtHypervisor.Verified.ByteMem
open RtHypervisor.Verified.Simulation
open RtHypervisor.Ports.SmallMem (RtSmallMem Item Block sizeofStructMem minSize minSizeAligned
  rtAlignSize sub64 rtAlign memUsed memFreed memIsUsed memPool)

/-- Offsets up to `e` that are a header apart. -/
structure Spaced (S : Set Nat) (e : Nat) : Prop where
  le : ∀ x ∈ S, x ≤ e
  apart : ∀ x ∈ S, ∀ y ∈ S, x < y → x + sizeofStructMem ≤ y
  top : e < 2 ^ 64

/-- `h` and `m` are the same heap object. -/
structure SameObject (h : ByteHeap) (m : RtSmallMem) : Prop where
  addr : h.addr = m.addr
  type : h.type = m.type
  used : h.used = m.used
  max : h.max = m.max
  heapPtr : h.heapPtr = m.heapPtr
  heapEnd : h.heapEnd = m.heapEnd
  lfree : h.lfree = m.lfree
  memSizeAligned : h.memSizeAligned = m.memSizeAligned

/-- No header at one of the offsets covers address `a`. -/
def OffHeaders (S : Set Nat) (base a : Nat) : Prop :=
  ∀ x ∈ S, a < base + x ∨ base + x + sizeofStructMem ≤ a

structure Tracks (S : Set Nat) (h₀ h : ByteHeap) (m : RtSmallMem) : Prop where
  object : SameObject h m
  base : h.heapPtr = h₀.heapPtr
  last : m.heapEnd = h₀.heapEnd
  items : ∀ x ∈ S, h.item x = m.items x
  closed : ∀ x ∈ S, x ≠ h₀.heapEnd → (m.items x).next ∈ S ∧ (m.items x).prev ∈ S
  frame : ∀ a, OffHeaders S h₀.heapPtr a → h.bytes a = h₀.bytes a

variable {S : Set Nat} {h₀ h : ByteHeap} {m : RtSmallMem} {x y v e ptr size fuel : Nat}

/-! ## One header -/

theorem item_congr {b : Mem} (hb : ∀ a, h.heapPtr + x ≤ a → a < h.heapPtr + x + sizeofStructMem →
    b a = h.bytes a) : ({ h with bytes := b } : ByteHeap).item x = h.item x := by
  have hword : ∀ k, k + 8 ≤ sizeofStructMem →
      load64 b (h.heapPtr + x + k) = load64 h.bytes (h.heapPtr + x + k) := by
    intro k hk
    refine load64_congr fun i hi => hb _ (by omega) (by omega)
  simp only [ByteHeap.item]
  rw [hword 16 (by decide), hword 24 (by decide)]
  have hfirst := hword 0 (by decide)
  rw [Nat.add_zero] at hfirst
  rw [hfirst]

/-- Writing a header at `x`, which may be a new one, so that it reads as `it`. -/
theorem Tracks.put (hS : Spaced (insert x S) h₀.heapEnd) (ht : Tracks S h₀ h m) {b : Mem}
    {it : Item} (hoff : ∀ a, a < h.heapPtr + x ∨ h.heapPtr + x + sizeofStructMem ≤ a →
      b a = h.bytes a)
    (hit : ({ h with bytes := b } : ByteHeap).item x = it)
    (hlinks : x ≠ h₀.heapEnd → it.next ∈ insert x S ∧ it.prev ∈ insert x S) :
    Tracks (insert x S) h₀ { h with bytes := b }
      { m with items := Function.update m.items x it } := by
  have hx : x ∈ insert x S := Set.mem_insert x S
  refine ⟨⟨ht.object.addr, ht.object.type, ht.object.used, ht.object.max, ht.object.heapPtr,
    ht.object.heapEnd, ht.object.lfree, ht.object.memSizeAligned⟩, ht.base, ht.last, ?_, ?_, ?_⟩
  · intro y hy
    by_cases heq : y = x
    · subst heq
      show _ = Function.update m.items y it y
      rw [hit, Function.update_self]
    · show _ = Function.update m.items x it y
      rw [Function.update_of_ne heq, ← ht.items y (Set.mem_of_mem_insert_of_ne hy heq)]
      refine item_congr fun a hlow hhigh => hoff a ?_
      rcases Nat.lt_or_gt_of_ne heq with hlt | hgt
      · have hgap := hS.apart y hy x hx hlt
        omega
      · have hgap := hS.apart x hx y hy hgt
        omega
  · intro y hy hne
    show (Function.update m.items x it y).next ∈ insert x S ∧
      (Function.update m.items x it y).prev ∈ insert x S
    by_cases heq : y = x
    · subst heq
      rw [Function.update_self]
      exact hlinks hne
    · rw [Function.update_of_ne heq]
      have hclosed := ht.closed y (Set.mem_of_mem_insert_of_ne hy heq) hne
      exact ⟨Set.mem_insert_of_mem x hclosed.1, Set.mem_insert_of_mem x hclosed.2⟩
  · intro a ha
    have hxa := ha x hx
    rw [← ht.base] at hxa
    show b a = _
    rw [hoff a hxa]
    exact ht.frame a fun y hy => ha y (Set.mem_insert_of_mem x hy)

/-- The same for a header of the set. -/
theorem Tracks.store (hS : Spaced S h₀.heapEnd) (ht : Tracks S h₀ h m) (hx : x ∈ S) {b : Mem}
    {it : Item} (hoff : ∀ a, a < h.heapPtr + x ∨ h.heapPtr + x + sizeofStructMem ≤ a →
      b a = h.bytes a)
    (hit : ({ h with bytes := b } : ByteHeap).item x = it)
    (hlinks : x ≠ h₀.heapEnd → it.next ∈ S ∧ it.prev ∈ S) :
    Tracks S h₀ { h with bytes := b } { m with items := Function.update m.items x it } := by
  have hsame := Set.insert_eq_of_mem hx
  rw [← hsame] at hS hlinks
  have hput := ht.put hS hoff hit hlinks
  rwa [hsame] at hput

theorem Tracks.getItem_eq (hS : Spaced S h₀.heapEnd) (ht : Tracks S h₀ h m) (hx : x ∈ S) :
    getItem h x = .ok (m.items x) := by
  have hle := hS.le x hx
  rw [← ht.last, ← ht.object.heapEnd] at hle
  simp only [getItem, hle, decide_true, check_true, ok_bind, ht.items x hx]
  rfl

theorem Tracks.item_eq (hS : Spaced S h₀.heapEnd) (ht : Tracks S h₀ h m) (hx : x ∈ S) :
    SmallMem.getItem m x = .ok (m.items x) := by
  have hle := hS.le x hx
  rw [← ht.last] at hle
  exact SmallMem.getItem_ok hle

private theorem store_off {w : BitVec 64} {k : Nat} (hk : k + 8 ≤ sizeofStructMem) (a : Nat)
    (ha : a < h.heapPtr + x ∨ h.heapPtr + x + sizeofStructMem ≤ a) :
    store64 h.bytes (h.heapPtr + x + k) w a = h.bytes a :=
  store64_off (by omega)

/-- A store to the field at distance `k` does what the header model does. -/
theorem Tracks.setWord (hS : Spaced S h₀.heapEnd) (ht : Tracks S h₀ h m) (hx : x ∈ S) {k : Nat}
    {w : BitVec 64} {f : Item → Item} (hk : k + 8 ≤ sizeofStructMem)
    (hit : ({ h with bytes := store64 h.bytes (h.heapPtr + x + k) w } : ByteHeap).item x =
      f (h.item x))
    (hlinks : x ≠ h₀.heapEnd → (f (m.items x)).next ∈ S ∧ (f (m.items x)).prev ∈ S) :
    Sim (Tracks S h₀) (HeapBytes.setWord h x k w) (SmallMem.modifyItem m x f) := by
  have hle := hS.le x hx
  rw [← ht.last] at hle
  have hle' := hle
  rw [← ht.object.heapEnd] at hle'
  rw [SmallMem.modifyItem_ok hle]
  simp only [HeapBytes.setWord, hle', decide_true, check_true, ok_bind]
  rw [ht.items x hx] at hit
  exact .ok (ht.store hS hx (store_off hk) hit hlinks)

theorem Tracks.setPoolPtr (hS : Spaced S h₀.heapEnd) (ht : Tracks S h₀ h m) (hx : x ∈ S)
    (w : BitVec 64) : Sim (Tracks S h₀) (HeapBytes.setPoolPtr h x w)
      (SmallMem.modifyItem m x fun it => { it with poolPtr := w }) := by
  refine ht.setWord hS hx (by decide) ?_ (ht.closed x hx)
  simp only [ByteHeap.item, Nat.add_zero, load64_store64_self]
  rw [load64_store64_of_disjoint (by omega), load64_store64_of_disjoint (by omega)]

theorem Tracks.setNext (hS : Spaced S h₀.heapEnd) (ht : Tracks S h₀ h m) (hx : x ∈ S)
    (hy : y ∈ S) : Sim (Tracks S h₀) (HeapBytes.setNext h x y)
      (SmallMem.modifyItem m x fun it => { it with next := y }) := by
  have hlt := Nat.lt_of_le_of_lt (hS.le y hy) hS.top
  refine ht.setWord hS hx (by decide) ?_ fun hne => ⟨hy, (ht.closed x hx hne).2⟩
  simp only [ByteHeap.item, load64_store64_self, BitVec.toNat_ofNat, Nat.mod_eq_of_lt hlt]
  rw [load64_store64_of_disjoint (by omega), load64_store64_of_disjoint (by omega)]

theorem Tracks.setPrev (hS : Spaced S h₀.heapEnd) (ht : Tracks S h₀ h m) (hx : x ∈ S)
    (hy : y ∈ S) : Sim (Tracks S h₀) (HeapBytes.setPrev h x y)
      (SmallMem.modifyItem m x fun it => { it with prev := y }) := by
  have hlt := Nat.lt_of_le_of_lt (hS.le y hy) hS.top
  refine ht.setWord hS hx (by decide) ?_ fun hne => ⟨(ht.closed x hx hne).1, hy⟩
  simp only [ByteHeap.item, load64_store64_self, BitVec.toNat_ofNat, Nat.mod_eq_of_lt hlt]
  rw [load64_store64_of_disjoint (by omega), load64_store64_of_disjoint (by omega)]

/-! ## Fields of the heap object -/

theorem Tracks.setLfree (ht : Tracks S h₀ h m) (n : Nat) :
    Tracks S h₀ { h with lfree := n } { m with lfree := n } :=
  ⟨⟨ht.object.addr, ht.object.type, ht.object.used, ht.object.max, ht.object.heapPtr,
    ht.object.heapEnd, rfl, ht.object.memSizeAligned⟩, ht.base, ht.last, ht.items, ht.closed,
    ht.frame⟩

theorem Tracks.setUsed (ht : Tracks S h₀ h m) (n k : Nat) :
    Tracks S h₀ { h with used := n, max := k } { m with used := n, max := k } :=
  ⟨⟨ht.object.addr, ht.object.type, rfl, rfl, ht.object.heapPtr, ht.object.heapEnd,
    ht.object.lfree, ht.object.memSizeAligned⟩, ht.base, ht.last, ht.items, ht.closed, ht.frame⟩

theorem Tracks.putUsed (ht : Tracks S h₀ h m) (n : Nat) :
    Tracks S h₀ { h with used := n } { m with used := n } :=
  ⟨⟨ht.object.addr, ht.object.type, rfl, ht.object.max, ht.object.heapPtr, ht.object.heapEnd,
    ht.object.lfree, ht.object.memSizeAligned⟩, ht.base, ht.last, ht.items, ht.closed, ht.frame⟩

theorem Tracks.subUsed (ht : Tracks S h₀ h m) (n : Nat) :
    Tracks S h₀ { h with used := sub64 h.used n } { m with used := sub64 m.used n } := by
  have hput := ht.putUsed (sub64 m.used n)
  rw [ht.object.used]
  exact hput

/-- `lfree` moves down to `x`. -/
theorem Tracks.lowerLfree (ht : Tracks S h₀ h m) (x : Nat) :
    Tracks S h₀ (if x < h.lfree then { h with lfree := x } else h)
      (if x < m.lfree then { m with lfree := x } else m) := by
  rw [ht.object.lfree]
  split
  · exact ht.setLfree x
  · exact ht

theorem Tracks.addUsed (ht : Tracks S h₀ h m) (n : Nat) :
    Tracks S h₀ (HeapBytes.addUsed h n) (SmallMem.addUsed m n) := by
  unfold HeapBytes.addUsed SmallMem.addUsed
  rw [ht.object.used, ht.object.max]
  exact ht.setUsed _ _

/-! ## `plug_holes` -/

private theorem plugForward_sim (hS : Spaced S h₀.heapEnd) (ht : Tracks S h₀ h m) (hx : x ∈ S)
    (hne : x ≠ h₀.heapEnd) :
    Sim (Tracks S h₀) (plugForward h x) (SmallMem.plugForward m x) := by
  obtain ⟨hnext, hprev⟩ := ht.closed x hx hne
  simp only [plugForward, SmallMem.plugForward, ht.getItem_eq hS hx, ht.item_eq hS hx, ok_bind,
    ht.getItem_eq hS hnext, ht.item_eq hS hnext, ht.object.lfree]
  by_cases hfree : x ≠ (m.items x).next ∧ ¬memIsUsed (m.items (m.items x).next) = true ∧
      (m.items x).next ≠ m.heapEnd
  · have hfree' := hfree
    rw [← ht.object.heapEnd] at hfree'
    rw [if_pos hfree, if_pos hfree']
    obtain ⟨hnext', -⟩ := ht.closed _ hnext (by rw [← ht.last]; exact hfree.2.2)
    have ht' : Tracks S h₀ (if m.lfree = (m.items x).next then { h with lfree := x } else h)
        (if m.lfree = (m.items x).next then { m with lfree := x } else m) := by
      split
      · exact ht.setLfree x
      · exact ht
    refine (ht'.setPoolPtr hS hnext 0).bind fun h₁ m₁ ht₁ => ?_
    refine (ht₁.setNext hS hx hnext').bind fun h₂ m₂ ht₂ => ?_
    exact ht₂.setPrev hS hnext' hx
  · have hfree' := hfree
    rw [← ht.object.heapEnd] at hfree'
    rw [if_neg hfree, if_neg hfree']
    exact .ok ht

private theorem plugBackward_sim (hS : Spaced S h₀.heapEnd) (ht : Tracks S h₀ h m) (hx : x ∈ S)
    (hne : x ≠ h₀.heapEnd) :
    Sim (Tracks S h₀) (plugBackward h x) (SmallMem.plugBackward m x) := by
  obtain ⟨hnext, hprev⟩ := ht.closed x hx hne
  simp only [plugBackward, SmallMem.plugBackward, ht.getItem_eq hS hx, ht.item_eq hS hx, ok_bind,
    ht.getItem_eq hS hprev, ht.item_eq hS hprev, ht.object.lfree]
  split
  · have ht' : Tracks S h₀ (if m.lfree = x then { h with lfree := (m.items x).prev } else h)
        (if m.lfree = x then { m with lfree := (m.items x).prev } else m) := by
      split
      · exact ht.setLfree _
      · exact ht
    refine (ht'.setPoolPtr hS hx 0).bind fun h₁ m₁ ht₁ => ?_
    refine (ht₁.setNext hS hprev hnext).bind fun h₂ m₂ ht₂ => ?_
    exact ht₂.setPrev hS hnext hprev
  · exact .ok ht

theorem plugHoles_sim (hS : Spaced S h₀.heapEnd) (ht : Tracks S h₀ h m) (hx : x ∈ S) :
    Sim (Tracks S h₀) (plugHoles h x) (SmallMem.plugHoles m x) := by
  unfold plugHoles SmallMem.plugHoles
  rw [ht.object.heapEnd]
  refine Sim.bind_left fun _ hcheck => ?_
  have hlt : x < m.heapEnd := by
    have htrue := check_eq_ok.mp hcheck
    simpa using htrue
  rw [ht.last] at hlt
  refine (plugForward_sim hS ht hx (Nat.ne_of_lt hlt)).bind fun h₁ m₁ ht₁ => ?_
  exact plugBackward_sim hS ht₁ hx (Nat.ne_of_lt hlt)

/-! ## `rt_smem_alloc` -/

/-- The search stays below the last header. -/
theorem findFit_eq (hS : Spaced S h₀.heapEnd) (ht : Tracks S h₀ h m) (hx : x ∈ S)
    (hbound : sub64 m.memSizeAligned size < h₀.heapEnd) :
    findFit h size x fuel = SmallMem.findFit m size x fuel := by
  induction fuel generalizing x with
  | zero => rfl
  | succ fuel ih =>
      rw [findFit, SmallMem.findFit, ht.getItem_eq hS hx, ht.item_eq hS hx, ok_bind, ok_bind,
        ht.object.memSizeAligned]
      by_cases hptr : x ≤ sub64 m.memSizeAligned size
      · rw [if_pos hptr, if_pos hptr, ih (ht.closed x hx (by omega)).1]
      · rw [if_neg hptr, if_neg hptr]

private theorem nextFree_eq (hS : Spaced S h₀.heapEnd) (ht : Tracks S h₀ h m) (hx : x ∈ S) :
    nextFree h x fuel = SmallMem.nextFree m x fuel := by
  induction fuel generalizing x with
  | zero => rfl
  | succ fuel ih =>
      rw [nextFree, SmallMem.nextFree, ht.getItem_eq hS hx, ht.item_eq hS hx, ok_bind, ok_bind,
        ht.object.heapEnd]
      by_cases hgo : memIsUsed (m.items x) = true ∧ x ≠ m.heapEnd
      · rw [if_pos hgo, if_pos hgo, ih (ht.closed x hx (by rw [← ht.last]; exact hgo.2)).1]
      · rw [if_neg hgo, if_neg hgo]

private theorem nextFree_mem (hS : Spaced S h₀.heapEnd) (ht : Tracks S h₀ h m) (hx : x ∈ S)
    (h' : SmallMem.nextFree m x fuel = .ok y) : y ∈ S := by
  induction fuel generalizing x with
  | zero => cases h'
  | succ fuel ih =>
      rw [SmallMem.nextFree, ht.item_eq hS hx, ok_bind] at h'
      split at h'
      · rename_i hgo
        exact ih (ht.closed x hx (by rw [← ht.last]; exact hgo.2)).1 h'
      · cases h'
        exact hx

private theorem setWord_ok {k : Nat} {w : BitVec 64} (hle : x ≤ h.heapEnd) :
    setWord h x k w = .ok { h with bytes := store64 h.bytes (h.heapPtr + x + k) w } := by
  simp only [setWord, hle, decide_true, check_true, ok_bind]
  rfl

/-- A header whose three fields have been stored. -/
theorem item_of_stores {n p : Nat} {w : BitVec 64} (hn : n < 2 ^ 64) (hp : p < 2 ^ 64) :
    ({ h with bytes := store64 (store64 (store64 h.bytes (h.heapPtr + x + 0) w)
      (h.heapPtr + x + 16) (BitVec.ofNat 64 n)) (h.heapPtr + x + 24) (BitVec.ofNat 64 p) } :
        ByteHeap).item x = ⟨w, n, p⟩ := by
  simp only [ByteHeap.item, load64_store64_self, BitVec.toNat_ofNat, Nat.mod_eq_of_lt hp,
    Nat.add_zero]
  rw [load64_store64_of_disjoint (by omega), load64_store64_of_disjoint (by omega),
    load64_store64_self, load64_store64_of_disjoint (by omega), load64_store64_self,
    BitVec.toNat_ofNat, Nat.mod_eq_of_lt hn]

/-- The headers take in the one of the rest. -/
theorem splitItem_sim (hS : Spaced S h₀.heapEnd)
    (hS' : Spaced (insert (x + sizeofStructMem + size) S) h₀.heapEnd) (ht : Tracks S h₀ h m)
    (hx : x ∈ S) (hne : x ≠ h₀.heapEnd) :
    Sim (Tracks (insert (x + sizeofStructMem + size) S) h₀) (splitItem h x size)
      (SmallMem.splitItem m x size) := by
  obtain ⟨hnext, -⟩ := ht.closed x hx hne
  generalize hcut : x + sizeofStructMem + size = cut at *
  have hmem : cut ∈ insert cut S := Set.mem_insert cut S
  have hle := hS'.le cut hmem
  rw [← ht.last] at hle
  have hle' := hle
  rw [← ht.object.heapEnd] at hle'
  have hn := Nat.lt_of_le_of_lt (hS.le _ hnext) hS.top
  have hp := Nat.lt_of_le_of_lt (hS.le _ hx) hS.top
  have hput := ht.put hS' (b := store64 (store64 (store64 h.bytes (h.heapPtr + cut + 0)
    (memFreed m.addr)) (h.heapPtr + cut + 16) (BitVec.ofNat 64 (m.items x).next))
    (h.heapPtr + cut + 24) (BitVec.ofNat 64 x)) ?_ (item_of_stores hn hp)
    fun _ => ⟨Set.mem_insert_of_mem cut hnext, Set.mem_insert_of_mem cut hx⟩
  · have hfreed : memFreed h.addr = memFreed m.addr := by rw [ht.object.addr]
    simp only [splitItem, SmallMem.splitItem, ht.getItem_eq hS hx, ht.item_eq hS hx, ok_bind, hcut,
      SmallMem.modifyItem_ok hle, hfreed]
    rw [show setPoolPtr h cut _ = _ from setWord_ok hle', ok_bind]
    rw [show setNext _ cut _ = _ from setWord_ok (by exact hle'), ok_bind]
    rw [show setPrev _ cut _ = _ from setWord_ok (by exact hle'), ok_bind]
    refine (hput.setNext hS' (Set.mem_insert_of_mem cut hx) hmem).bind fun h₁ m₁ ht₁ => ?_
    rw [ht₁.object.memSizeAligned]
    split
    · exact ht₁.setPrev hS' (Set.mem_insert_of_mem cut hnext) hmem
    · exact .ok ht₁
  · intro a ha
    have hhdr : sizeofStructMem = 32 := rfl
    rw [store64_off (by omega), store64_off (by omega), store64_off (by omega)]

theorem markItem_sim (hS : Spaced S h₀.heapEnd) (ht : Tracks S h₀ h m) (hx : x ∈ S) :
    Sim (fun r r' => Tracks S h₀ r.1 r'.1 ∧ r.2 = r'.2) (markItem h x size)
      (SmallMem.markItem m x size) := by
  -- the assertions at the end
  have htail : ∀ h₂ m₂, Tracks S h₀ h₂ m₂ →
      Sim (fun r r' => Tracks S h₀ r.1 r'.1 ∧ r.2 = r'.2)
        (do
          check .assertion (x + sizeofStructMem + size ≤ h₂.heapEnd)
          check .assertion ((h₂.heapPtr + x + sizeofStructMem) % rtAlignSize = 0)
          check .assertion ((h₂.heapPtr + x) % rtAlignSize = 0)
          pure (h₂, h₂.heapPtr + x + sizeofStructMem))
        (do
          check .assertion (x + sizeofStructMem + size ≤ m₂.heapEnd)
          check .assertion ((m₂.heapPtr + x + sizeofStructMem) % rtAlignSize = 0)
          check .assertion ((m₂.heapPtr + x) % rtAlignSize = 0)
          pure (m₂, m₂.heapPtr + x + sizeofStructMem)) := by
    intro h₂ m₂ ht₂
    rw [ht₂.object.heapEnd, ht₂.object.heapPtr]
    refine Sim.bind_left fun _ _ => ?_
    refine Sim.bind_left fun _ _ => ?_
    refine Sim.bind_left fun _ _ => ?_
    exact .ok ⟨ht₂, rfl⟩
  unfold markItem SmallMem.markItem
  rw [ht.object.addr]
  refine (ht.setPoolPtr hS hx _).bind fun h₁ m₁ ht₁ => ?_
  simp only [ht₁.object.lfree]
  split
  · rename_i hfirst
    have hlfree : m₁.lfree ∈ S := by rwa [← hfirst]
    have hsearch : nextFree h₁ m₁.lfree (h₁.heapEnd + 1) =
        SmallMem.nextFree m₁ m₁.lfree (m₁.heapEnd + 1) := by
      rw [ht₁.object.heapEnd]
      exact nextFree_eq hS ht₁ hlfree
    rw [hsearch]
    refine Sim.bind_left fun l hl => ?_
    have hmem := nextFree_mem hS ht₁ hlfree hl
    have ht₂ := ht₁.setLfree l
    have hassert : (decide (l = h₁.heapEnd) || !memIsUsed (m₁.items l)) =
        (decide (l = m₁.heapEnd) || !memIsUsed (m₁.items l)) := by
      rw [ht₁.object.heapEnd]
    rw [ht₂.getItem_eq hS hmem, ht₂.item_eq hS hmem, ok_bind, ok_bind, hassert]
    refine Sim.bind_left fun _ _ => ?_
    exact htail _ _ ht₂
  · exact htail _ _ ht₁

/-- Cutting takes in one header at most. -/
theorem cutItem_sim (hS : Spaced S h₀.heapEnd) (ht : Tracks S h₀ h m) (hx : x ∈ S)
    (hne : x ≠ h₀.heapEnd)
    (hgap : sub64 (m.items x).next (x + sizeofStructMem) ≥
        size + sizeofStructMem + minSizeAligned →
      Spaced (insert (x + sizeofStructMem + size) S) h₀.heapEnd) :
    ∃ S', Spaced S' h₀.heapEnd ∧ S ⊆ S' ∧
      (∀ y ∈ S', y ∈ S ∨ (y = x + sizeofStructMem + size ∧
        sub64 (m.items x).next (x + sizeofStructMem) ≥
          size + sizeofStructMem + minSizeAligned)) ∧
      Sim (Tracks S' h₀) (cutItem h x size) (SmallMem.cutItem m x size) := by
  have hget := ht.getItem_eq hS hx
  have hitem := ht.item_eq hS hx
  by_cases hbig : sub64 (m.items x).next (x + sizeofStructMem) ≥
      size + sizeofStructMem + minSizeAligned
  · refine ⟨insert (x + sizeofStructMem + size) S, hgap hbig, Set.subset_insert _ _, ?_, ?_⟩
    · intro y hy
      rcases Set.mem_insert_iff.mp hy with heq | hy
      · exact Or.inr ⟨heq, hbig⟩
      · exact Or.inl hy
    · rw [cutItem, SmallMem.cutItem, hget, hitem, ok_bind, ok_bind, if_pos hbig, if_pos hbig]
      refine (splitItem_sim hS (hgap hbig) ht hx hne).bind fun h₁ m₁ ht₁ => ?_
      exact .ok (ht₁.addUsed _)
  · refine ⟨S, hS, subset_rfl, fun y hy => Or.inl hy, ?_⟩
    rw [cutItem, SmallMem.cutItem, hget, hitem, ok_bind, ok_bind, if_neg hbig, if_neg hbig]
    exact .ok (ht.addUsed _)

/-! ## `rt_smem_free` -/

theorem Tracks.isMemoryObject_eq (ht : Tracks S h₀ h m) :
    isMemoryObject h = SmallMem.isMemoryObject m := by
  simp only [isMemoryObject, SmallMem.isMemoryObject, ht.object.type]

theorem rtSmemFree_sim {rmem : Nat} (hS : Spaced S h₀.heapEnd) (ht : Tracks S h₀ h m)
    (hx : sub64 (sub64 rmem sizeofStructMem) h.heapPtr ∈ S)
    (hne : sub64 (sub64 rmem sizeofStructMem) h.heapPtr ≠ h₀.heapEnd) :
    Sim (Tracks S h₀) (rtSmemFree h rmem) (SmallMem.rtSmemFree m rmem) := by
  have hobject := ht.isMemoryObject_eq
  have hbase := ht.object.heapPtr
  have hend := ht.object.heapEnd
  by_cases hnull : rmem = 0
  · simp only [rtSmemFree, SmallMem.rtSmemFree, if_pos hnull]
    exact .ok ht
  simp only [rtSmemFree, SmallMem.rtSmemFree, if_neg hnull]
  rw [← hbase, ← hend]
  generalize sub64 (sub64 rmem sizeofStructMem) h.heapPtr = x at *
  obtain ⟨hnext, -⟩ := ht.closed x hx hne
  refine Sim.bind_left fun _ _ => ?_
  rw [ht.getItem_eq hS hx, ht.item_eq hS hx, ok_bind, ok_bind, ht.object.addr]
  refine Sim.bind_left fun _ _ => ?_
  refine Sim.bind_left fun _ _ => ?_
  refine Sim.bind_left fun _ _ => ?_
  rw [hobject]
  refine Sim.bind_left fun _ _ => ?_
  refine Sim.bind_left fun _ _ => ?_
  rw [ht.getItem_eq hS hnext, ht.item_eq hS hnext, ok_bind, ok_bind]
  refine Sim.bind_left fun _ _ => ?_
  refine (ht.setPoolPtr hS hx _).bind fun h₁ m₁ ht₁ => ?_
  exact plugHoles_sim hS ((ht₁.lowerLfree x).subUsed _) hx

end RtHypervisor.Ports.HeapBytes
