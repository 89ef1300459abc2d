import RtHypervisor.Ports.RingBlock

/-!
# Block queues of a ring block buffer

A block queue is a run of blocks that are put, in the order of the list, found by comparing
neighbours: a block continues the queue unless its address is smaller.  Three functions walk the
same chain, and `queue_get_iff` says in which states they agree and the blocks of the queue are
one piece of memory.

The states are those of any run, also of one in which allocations failed and lost their
descriptors; `Linked` is what is left of the lists then.
-/

namespace RtHypervisor.Ports.RingBlock

open RtHypervisor.Verified.Run
open RtHypervisor.Verified.SList

/-! ## The walks along the chain -/

/-- The loop of `rt_rbb_blk_queue_len`. -/
def queueLenLoop (r : Rbb) : Nat → Option Node → BitVec 64 → Except Fault (BitVec 64)
  | 0, _, dataTotalSize => pure dataTotalSize
  | k + 1, blk, dataTotalSize => do
      let n ← deref blk
      let i ← entry n
      queueLenLoop r k (r.next n) (dataTotalSize + (r.blk i).size.setWidth 64)

/-- `rt_rbb_blk_queue_len`. -/
def rtRbbBlkQueueLen (r : Rbb) (blkQueue : BlkQueue) : Except Fault (BitVec 64) :=
  queueLenLoop r blkQueue.blkNum (blkQueue.blocks.map .blk) 0

/-- The loop of `rt_rbb_next_blk_queue_len`. -/
def nextLenLoop (r : Rbb) :
    Nat → Option Nat → BitVec 64 → Option Node → Except Fault (BitVec 64)
  | 0, _, _, _ => throw .fuel
  | _ + 1, _, dataLen, none => pure dataLen
  | k + 1, lastBlock, dataLen, some n => do
      let i ← entry n
      let block := r.blk i
      let size := block.size.setWidth 64
      match lastBlock with
      | none =>
          if block.status ≠ .put then nextLenLoop r k none dataLen (r.next n)
          else nextLenLoop r k (some i) (dataLen + size) (r.next n)
      | some j =>
          if block.status ≠ .put ∨ block.buf < (r.blk j).buf then pure dataLen
          else nextLenLoop r k (some i) (dataLen + size) (r.next n)

/-- `rt_rbb_next_blk_queue_len`. -/
def rtRbbNextBlkQueueLen (r : Rbb) : Except Fault (BitVec 64) :=
  match r.next .blkList with
  | none => pure 0
  | some node => nextLenLoop r (r.blkMaxNum + 1) none 0 (some node)

/-! ## What a call should do -/

/-- What the sizes of blocks add up to. -/
def total (blk : Nat → Blk) (l : List Nat) : Nat :=
  (l.map fun i => (blk i).size.toNat).sum

/-- The blocks `t` are consecutive ones of the list that were put and are got now; the queue
consists of them, and what is returned is their size. -/
structure Taken (r r' : Rbb) (g : QueueGet) (t : List Nat) : Prop where
  consecutive : ∃ skip rest, blkNodes r = (skip ++ t ++ rest).map .blk
  were : ∀ i ∈ t, (r.blk i).status = .put
  now : r' = markGet r t
  blocks : t ≠ [] → g.blkQueue.blocks = t.head?
  blkNum : g.blkQueue.blkNum = t.length
  size : g.dataTotalSize.toNat = total r.blk t

/-- Every block starts where the one in front of it ends. -/
def Contiguous (r : Rbb) (t : List Nat) : Prop :=
  t.IsChain fun i j => (r.blk j).start = (r.blk i).stop

/-- A `queue_data_len` that is no limit. -/
def unlimited : BitVec 64 := BitVec.allOnes 64

/-- `rt_rbb_blk_queue_get` takes one piece of memory that is within the limit, the length
`rt_rbb_blk_queue_len` tells is the one returned, and `rt_rbb_next_blk_queue_len` tells what a
call without a limit takes. -/
def QueueRight (r : Rbb) (queueDataLen : BitVec 64) (blkQueue : BlkQueue) : Prop :=
  (∃ r' g t, rtRbbBlkQueueGet r queueDataLen blkQueue = .ok (r', g) ∧ Taken r r' g t ∧
    Contiguous r t ∧ g.dataTotalSize ≤ queueDataLen ∧
    rtRbbBlkQueueLen r' g.blkQueue = .ok g.dataTotalSize) ∧
  ∃ r' g t, rtRbbBlkQueueGet r unlimited blkQueue = .ok (r', g) ∧ Taken r r' g t ∧
    rtRbbNextBlkQueueLen r = .ok g.dataTotalSize

/-- The longest prefix of the blocks for which there is room. -/
def fitting (blk : Nat → Blk) : Nat → List Nat → List Nat
  | _, [] => []
  | room, i :: rest =>
      if (blk i).size.toNat ≤ room then i :: fitting blk (room - (blk i).size.toNat) rest else []

/-- The list is empty and so is the queue it leaves alone; or a block stands behind those that
continue the first one that is put, this one is within the limit, and of those behind it the ones
within the limit have no gap in front of them. -/
def QueueFits (r : Rbb) (queueDataLen : BitVec 64) (blkQueue : BlkQueue) : Prop :=
  blkNodes r = [] ∧ blkQueue.blkNum = 0 ∨
  ∃ skip first run stop rest, blkNodes r = (skip ++ first :: run ++ stop :: rest).map .blk ∧
    (∀ i ∈ skip, (r.blk i).status ≠ .put) ∧
    (∀ i ∈ first :: run, (r.blk i).status = .put) ∧
    (first :: run).IsChain (fun i j => (r.blk i).buf ≤ (r.blk j).buf) ∧
    ((r.blk stop).status ≠ .put ∨ (r.blk stop).buf < (r.blk (last first run)).buf) ∧
    total r.blk (first :: run) < 2 ^ 64 ∧
    (r.blk first).size.toNat ≤ queueDataLen.toNat ∧
    Contiguous r (first :: fitting r.blk (queueDataLen.toNat - (r.blk first).size.toNat) run)

section Walks

variable {r r' : Rbb} {l run rest skip t : List Nat} {i j k first stop : Nat} {a : Node}
  {len start : BitVec 64} {q : BlkQueue}

theorem total_cons (blk : Nat → Blk) (i : Nat) (l : List Nat) :
    total blk (i :: l) = (blk i).size.toNat + total blk l := by
  simp [total]

private theorem wide_toNat (b : Blk) : (b.size.setWidth 64).toNat = b.size.toNat := by
  rw [BitVec.toNat_setWidth]
  exact Nat.mod_eq_of_lt (by have hsize := b.size.isLt; omega)

private theorem sizes_toNat {blk : Nat → Blk} (h : total blk l < 2 ^ 64) :
    (sizes blk l).toNat = total blk l := by
  induction l with
  | nil => rfl
  | cons i l ih =>
      rw [total_cons] at h
      have hl := ih (by omega)
      show ((blk i).size.setWidth 64 + sizes blk l).toNat = _
      rw [BitVec.toNat_add, wide_toNat, hl, total_cons]
      exact Nat.mod_eq_of_lt h

private theorem sizes_markGet : sizes (markGet r t).blk l = sizes r.blk l := by
  induction l with
  | nil => rfl
  | cons i l ih =>
      show ((markGet r t).blk i).size.setWidth 64 + sizes (markGet r t).blk l = _
      have hsize : ((markGet r t).blk i).size = (r.blk i).size := by
        by_cases hi : i ∈ t
        · simp [markGet, hi]
        · simp [markGet, hi]
      rw [ih, hsize]
      rfl

private theorem not_unlimited_lt (x : BitVec 64) : ¬unlimited < x := by
  have hx := x.isLt
  rw [unlimited, BitVec.lt_def, BitVec.toNat_allOnes]
  omega

/-- The blocks of a queue are read one behind the other. -/
theorem queueLenLoop_eq (h : Path r.next a ((t ++ rest).map .blk)) :
    queueLenLoop r t.length (r.next a) start = .ok (start + sizes r.blk t) := by
  induction t generalizing a start with
  | nil =>
      have hnil : sizes r.blk [] = 0 := rfl
      rw [hnil, add_zero]
      rfl
  | cons i t ih =>
      have hentry : entry (.blk i) = .ok i := rfl
      have hcons : sizes r.blk (i :: t) = (r.blk i).size.setWidth 64 + sizes r.blk t := rfl
      rw [List.length_cons, h.1, queueLenLoop, deref_some, ok_bind, hentry, ok_bind, ih h.2, hcons,
        add_assoc]

/-- Behind the first block of the chain. -/
theorem nextLenLoop_some (h : Path r.next a (l.map .blk)) (hk : l.length < k) :
    nextLenLoop r k (some j) start (r.next a) =
      .ok (start + sizes r.blk (follow r.blk unlimited (r.blk j).buf start l)) := by
  induction l generalizing a j k start with
  | nil =>
      obtain ⟨k, rfl⟩ : ∃ j, k = j + 1 := ⟨k - 1, by rw [List.length_nil] at hk; omega⟩
      have hnone : r.next a = none := h
      have hnil : sizes r.blk [] = 0 := rfl
      rw [hnone, nextLenLoop, follow, hnil, add_zero]
      rfl
  | cons i l ih =>
      obtain ⟨k, rfl⟩ : ∃ j, k = j + 1 := ⟨k - 1, by rw [List.length_cons] at hk; omega⟩
      have hentry : entry (.blk i) = .ok i := rfl
      have hlimit := not_unlimited_lt (start + (r.blk i).size.setWidth 64)
      have hnil : sizes r.blk [] = 0 := rfl
      rw [h.1, nextLenLoop, hentry]
      simp only [ok_bind, follow, hlimit, or_false]
      split
      · rw [hnil, add_zero]
        rfl
      · have hcons : ∀ m, sizes r.blk (i :: m) = (r.blk i).size.setWidth 64 + sizes r.blk m :=
          fun _ => rfl
        rw [ih h.2 (Nat.lt_of_succ_lt_succ hk), hcons, add_assoc]

/-- The whole chain. -/
theorem nextLenLoop_first (h : Path r.next a ((skip ++ first :: rest).map .blk))
    (hk : skip.length + rest.length + 1 < k) (hskip : ∀ j ∈ skip, (r.blk j).status ≠ .put)
    (hput : (r.blk first).status = .put) :
    nextLenLoop r k none 0 (r.next a) = .ok (sizes r.blk
      (first :: follow r.blk unlimited (r.blk first).buf ((r.blk first).size.setWidth 64)
        rest)) := by
  induction skip generalizing a k with
  | nil =>
      obtain ⟨k, rfl⟩ : ∃ j, k = j + 1 := ⟨k - 1, by omega⟩
      have hentry : entry (.blk first) = .ok first := rfl
      rw [h.1, nextLenLoop, hentry]
      simp only [ok_bind, hput, ne_eq, not_true_eq_false, if_false, zero_add]
      rw [nextLenLoop_some h.2 (by rw [List.length_nil] at hk; omega)]
      rfl
  | cons i skip ih =>
      obtain ⟨k, rfl⟩ : ∃ j, k = j + 1 := ⟨k - 1, by omega⟩
      have hentry : entry (.blk i) = .ok i := rfl
      rw [h.1, nextLenLoop, hentry]
      simp only [ok_bind, if_pos (hskip i (List.mem_cons_self ..))]
      exact ih h.2 (by rw [List.length_cons] at hk; omega)
        fun j hj => hskip j (List.mem_cons_of_mem i hj)

/-! ## The chain -/

private theorem fitting_self {blk : Nat → Blk} {room : Nat} (h : total blk l ≤ room) :
    fitting blk room l = l := by
  induction l generalizing room with
  | nil => rfl
  | cons i l ih =>
      rw [total_cons] at h
      rw [fitting, if_pos (by omega), ih (by omega)]

/-- Of a chain that ends, a call takes what fits. -/
theorem follow_eq_fitting (hput : ∀ i ∈ run, (r.blk i).status = .put)
    (hchain : (j :: run).IsChain fun i j => (r.blk i).buf ≤ (r.blk j).buf)
    (hstop : (r.blk stop).status ≠ .put ∨ (r.blk stop).buf < (r.blk (last j run)).buf)
    (hstart : start ≤ len) (htotal : start.toNat + total r.blk run < 2 ^ 64) :
    follow r.blk len (r.blk j).buf start (run ++ stop :: rest) =
      fitting r.blk (len.toNat - start.toNat) run := by
  induction run generalizing j start with
  | nil =>
      have hends : (r.blk stop).status ≠ .put ∨ (r.blk stop).buf < (r.blk j).buf ∨
          len < start + (r.blk stop).size.setWidth 64 := by
        rcases hstop with hstop | hstop
        · exact Or.inl hstop
        · exact Or.inr (Or.inl hstop)
      rw [List.nil_append, follow, if_pos hends]
      rfl
  | cons i run ih =>
      obtain ⟨hle, hrest⟩ := List.isChain_cons_cons.mp hchain
      rw [total_cons] at htotal
      have hsum : (start + (r.blk i).size.setWidth 64).toNat =
          start.toNat + (r.blk i).size.toNat := by
        rw [BitVec.toNat_add, wide_toNat]
        exact Nat.mod_eq_of_lt (by omega)
      have hstart' : start.toNat ≤ len.toNat := hstart
      have hroom : len < start + (r.blk i).size.setWidth 64 ↔
          ¬(r.blk i).size.toNat ≤ len.toNat - start.toNat := by
        rw [BitVec.lt_def, hsum]
        omega
      have hnot : ¬(r.blk i).buf < (r.blk j).buf := BitVec.not_lt.mpr hle
      rw [List.cons_append, follow, fitting]
      simp only [hput i (List.mem_cons_self ..), ne_eq, not_true_eq_false, false_or, hnot, hroom]
      by_cases hfits : (r.blk i).size.toNat ≤ len.toNat - start.toNat
      · rw [if_neg (not_not.mpr hfits), if_pos hfits]
        have hnext := @ih i (start + (r.blk i).size.setWidth 64)
          (fun m hm => hput m (List.mem_cons_of_mem i hm)) hrest hstop
          (by rw [BitVec.le_def, hsum]; omega) (by rw [hsum]; omega)
        rw [hnext, hsum, Nat.sub_add_eq]
      · rw [if_pos hfits, if_neg hfits]

/-- What a call without a limit takes, when a block is left behind it. -/
theorem follow_unlimited
    (h : (follow r.blk unlimited (r.blk j).buf start l).length < l.length) :
    ∃ stop rest, l = follow r.blk unlimited (r.blk j).buf start l ++ stop :: rest ∧
      (j :: follow r.blk unlimited (r.blk j).buf start l).IsChain
        (fun i j => (r.blk i).buf ≤ (r.blk j).buf) ∧
      ((r.blk stop).status ≠ .put ∨ (r.blk stop).buf <
        (r.blk (last j (follow r.blk unlimited (r.blk j).buf start l))).buf) := by
  induction l generalizing j start with
  | nil => cases h
  | cons i l ih =>
      have hlimit := not_unlimited_lt (start + (r.blk i).size.setWidth 64)
      by_cases hends : (r.blk i).status ≠ .put ∨ (r.blk i).buf < (r.blk j).buf
      · have hnil : follow r.blk unlimited (r.blk j).buf start (i :: l) = [] := by
          rw [follow, if_pos]
          rcases hends with hends | hends
          · exact Or.inl hends
          · exact Or.inr (Or.inl hends)
        rw [hnil]
        exact ⟨i, l, rfl, List.isChain_singleton j, hends⟩
      · have hgo : ¬((r.blk i).status ≠ .put ∨ (r.blk i).buf < (r.blk j).buf ∨
            unlimited < start + (r.blk i).size.setWidth 64) := by
          rw [← or_assoc]
          exact not_or.mpr ⟨hends, hlimit⟩
        have hcons : follow r.blk unlimited (r.blk j).buf start (i :: l) = i ::
            follow r.blk unlimited (r.blk i).buf (start + (r.blk i).size.setWidth 64) l := by
          rw [follow, if_neg hgo]
        rw [hcons] at h ⊢
        obtain ⟨stop, rest, hsplit, hchain, hstop⟩ := ih (Nat.lt_of_succ_lt_succ h)
        refine ⟨stop, rest, ?_, List.isChain_cons_cons.mpr ⟨?_, hchain⟩, hstop⟩
        · rw [List.cons_append, ← hsplit]
        · exact BitVec.not_lt.mp fun hlt => hends (Or.inr hlt)

end Walks

/-! ## The lists of every run -/

section Runs

variable {r r' : Rbb} {used free : List Nat}

/-- Whatever has become of the descriptors, the two lists are lists. -/
def Listed (r : Rbb) : Prop := ∃ used free, Linked r used free

theorem Marked.listed (h : Marked r r') (hl : Listed r) : Listed r' := by
  obtain ⟨used, free, hl⟩ := hl
  exact ⟨used, free, h.linked hl⟩

private theorem listed_init (blk : Nat → Blk) (buf bufSize : BitVec 64) (n : Nat) :
    Listed (rtRbbInit blk buf bufSize n) :=
  ⟨_, _, (rtRbbInit_lists blk buf bufSize n).linked⟩

private theorem listed_alloc {blkSize : BitVec 64} {found : Option Nat} (hl : Linked r used free)
    (hsize : blkSize < blkSizeEnd) (h : rtRbbBlkAlloc r blkSize = .ok (r', found)) : Listed r' := by
  cases free with
  | nil =>
      rw [rtRbbBlkAlloc, decide_eq_true hsize, findEmptyBlkInSet_nil hl] at h
      cases h
      exact ⟨used, [], hl⟩
  | cons i free =>
      have hnew : ∀ buf, Listed (allocated r i buf blkSize) :=
        fun buf => ⟨_, _, hl.initBlk buf blkSize⟩
      have hlost : Listed { r with next := Function.update r.next .freeList (r.next (.blk i)) } :=
        ⟨_, _, hl.lose⟩
      cases used with
      | nil =>
          rw [rtRbbBlkAlloc_first hsize hl] at h
          cases h
          exact hnew _
      | cons first rest =>
          rw [rtRbbBlkAlloc_next hsize hl] at h
          split at h
          · split at h
            · cases h
              exact hnew _
            · split at h
              · cases h
                exact hnew _
              · cases h
                exact hlost
          · split at h
            · cases h
              exact hnew _
            · cases h
              exact hlost

private theorem rtRbbBlkQueueGet_first {skip rest : List Nat} {first : Nat}
    (hl : Linked r (skip ++ first :: rest) free) (hskip : ∀ j ∈ skip, (r.blk j).status ≠ .put)
    (hput : (r.blk first).status = .put) (len : BitVec 64) (q : BlkQueue) :
    rtRbbBlkQueueGet r len q =
      if (follow r.blk len (r.blk first).buf ((r.blk first).size.setWidth 64) rest).length <
          rest.length
      then .ok (taken r first
        (follow r.blk len (r.blk first).buf ((r.blk first).size.setWidth 64) rest))
      else .error .nullPointer := by
  have hlen := hl.length
  rw [List.length_append, List.length_cons] at hlen
  have hpath := hl.blkList
  cases hnode : r.next .blkList with
  | none =>
      rw [hpath.next_eq] at hnode
      simp at hnode
  | some node =>
      rw [rtRbbBlkQueueGet, hnode]
      exact queueGetLoop_first hpath hnode (by omega) hskip hput

/-- A call takes a first block that is put, or runs through the null pointer. -/
theorem rtRbbBlkQueueGet_cases (hl : Linked r used free) :
    (used = [] ∧ ∀ len q, rtRbbBlkQueueGet r len q = .ok (r, ⟨none, 0, q⟩)) ∨
    (∀ len q, rtRbbBlkQueueGet r len q = .error .nullPointer) ∨
    ∃ skip first rest, used = skip ++ first :: rest ∧ (∀ j ∈ skip, (r.blk j).status ≠ .put) ∧
      (r.blk first).status = .put := by
  have hlen := hl.length
  have hpath := hl.blkList
  cases used with
  | nil =>
      have hnone : r.next .blkList = none := hpath
      refine Or.inl ⟨rfl, fun len q => ?_⟩
      rw [rtRbbBlkQueueGet, hnone]
      rfl
  | cons i rest =>
      right
      rw [List.length_cons] at hlen
      have hfirst : r.next .blkList = some (.blk i) := hpath.1
      by_cases hnone : ∀ j ∈ i :: rest, (r.blk j).status ≠ .put
      · left
        intro len q
        rw [rtRbbBlkQueueGet, hfirst]
        exact queueGetLoop_none hpath.2 (by omega) rfl hnone
      · right
        push Not at hnone
        obtain ⟨j, hj, hjput⟩ := hnone
        obtain ⟨first, skip, behind, hskip, hput, hsplit, -⟩ :=
          List.exists_of_eraseP (p := fun j => (r.blk j).status = .put) hj (decide_eq_true hjput)
        exact ⟨skip, first, behind, hsplit, fun j hj heq => hskip j hj (decide_eq_true heq),
          of_decide_eq_true hput⟩

private theorem listed_queueGet (hl : Linked r used free) {len : BitVec 64} {q : BlkQueue}
    {g : QueueGet} (h : rtRbbBlkQueueGet r len q = .ok (r', g)) : Listed r' := by
  rcases rtRbbBlkQueueGet_cases hl with ⟨-, hget⟩ | hget | ⟨skip, first, rest, rfl, hskip, hput⟩
  · rw [hget] at h
    cases h
    exact ⟨used, free, hl⟩
  · rw [hget] at h
    cases h
  · rw [rtRbbBlkQueueGet_first hl hskip hput] at h
    split at h
    · cases h
      refine (marked_markGet fun i hi => ?_).listed ⟨_, free, hl⟩
      rcases List.mem_cons.mp hi with rfl | hi
      · exact put_ne hput
      · exact put_ne (follow_put i hi)
    · cases h

/-- **Every step** leaves the lists lists. -/
theorem step_listed (r : Rbb) (e : Event) (r' : Rbb) (hl : Listed r) (he : Enabled r e)
    (h : step r e = .ok r') : Listed r' := by
  obtain ⟨used, free, hl⟩ := hl
  have hnodes := hl.blkNodes
  have hlen := hl.length
  cases e with
  | alloc blkSize =>
      obtain ⟨⟨r₁, found⟩, halloc, hret⟩ := bind_eq_ok.mp h
      cases pure_eq_ok.mp hret
      exact listed_alloc hl he halloc
  | put i =>
      obtain ⟨-, hstatus⟩ := he
      have hput : rtRbbBlkPut r i = .ok (setStatus r i .put) := by
        rw [rtRbbBlkPut, hstatus]
        rfl
      cases hput.symm.trans h
      exact (marked_setStatus (by rw [hstatus]; simp) (by simp)).listed ⟨used, free, hl⟩
  | get =>
      obtain ⟨⟨r₁, found⟩, hget, hret⟩ := bind_eq_ok.mp h
      cases pure_eq_ok.mp hret
      obtain ⟨r₂, found', hget', hmarked⟩ := getLoop_spec (k := r.blkMaxNum + 1) hl.blkList
        (by omega)
      cases hget.symm.trans hget'
      exact hmarked.listed ⟨used, free, hl⟩
  | queueGet len =>
      obtain ⟨⟨r₁, g⟩, hget, hret⟩ := bind_eq_ok.mp h
      cases pure_eq_ok.mp hret
      exact listed_queueGet hl hget
  | free i =>
      have hmem : Node.blk i ∈ blkNodes r := he
      rw [hnodes, mem_map_blk] at hmem
      obtain ⟨pre, post, rfl⟩ := List.append_of_mem hmem
      obtain ⟨r₁, hfree, hl', -⟩ := rtRbbBlkFree_spec hl
      cases hfree.symm.trans h
      exact ⟨_, _, hl'⟩
  | queueFree blocks blkNum =>
      have hle : blkNum ≤ ((blkNodes r).dropWhile (· ≠ .blk blocks)).length := he
      obtain ⟨pre, l, rfl, hdrop, hhead⟩ := dropWhile_map used blocks
      rw [hnodes, hdrop, List.length_map] at hle
      obtain ⟨r₁, hqueue, hl'⟩ := queueFree_keeps (P := Linked) (fun _ _ _ hl => hl)
        (fun r pre i post free hl => by
          obtain ⟨r₂, hfree, hl₂, -⟩ := rtRbbBlkFree_spec hl
          exact ⟨r₂, hfree, hl₂⟩) hl hle
      have hsame : rtRbbBlkQueueFree blkNum r (some (.blk blocks)) = .ok r₁ := by
        rcases hhead with rfl | hhead
        · rw [Nat.le_zero.mp hle] at hqueue ⊢
          exact hqueue
        · rw [List.head?_map, hhead] at hqueue
          exact hqueue
      cases hsame.symm.trans h
      exact hl'

/-! ## When a queue is right -/

section Right

variable {skip t rest : List Nat} {first : Nat} {len : BitVec 64}

private theorem fitting_prefix (blk : Nat → Blk) (room : Nat) (l : List Nat) :
    fitting blk room l <+: l := by
  induction l generalizing room with
  | nil => exact List.nil_prefix
  | cons i l ih =>
      rw [fitting]
      split
      · exact List.cons_prefix_cons.mpr ⟨rfl, ih _⟩
      · exact List.nil_prefix

private theorem total_fitting_le (blk : Nat → Blk) (room : Nat) (l : List Nat) :
    total blk (fitting blk room l) ≤ room := by
  induction l generalizing room with
  | nil => exact Nat.zero_le room
  | cons i l ih =>
      rw [fitting]
      split
      · have hrest := ih (room - (blk i).size.toNat)
        rw [total_cons]
        omega
      · exact Nat.zero_le room

private theorem total_prefix_le {blk : Nat → Blk} {l : List Nat} (h : t <+: l) :
    total blk t ≤ total blk l := by
  obtain ⟨rest, rfl⟩ := h
  rw [total, total, List.map_append, List.sum_append]
  exact Nat.le_add_right ..

private theorem map_blk_inj {l m : List Nat} (h : l.map Node.blk = m.map .blk) : l = m :=
  List.map_injective_iff.mpr (fun _ _ h => Node.blk.inj h) h

/-- The blocks that a call has taken are determined. -/
theorem Taken.unique (hl : Linked r (skip ++ first :: t ++ rest) free) {l : List Nat}
    (ht : Taken r (taken r first t).1 (taken r first t).2 l) : l = first :: t := by
  obtain ⟨skip', rest', hnodes⟩ := ht.consecutive
  have hnum : t.length + 1 = l.length := ht.blkNum
  cases l with
  | nil => cases hnum
  | cons i l =>
      have hhead : some first = some i := ht.blocks (by simp)
      cases hhead
      rw [List.length_cons] at hnum
      have hpath := hl.blkList
      rw [hl.blkNodes] at hnodes
      have hpath' := hpath
      rw [hnodes] at hpath'
      rw [List.append_assoc, List.map_append] at hpath hpath'
      have hsame := map_blk_inj ((Path.suffix hpath).unique (Path.suffix hpath'))
      rw [List.append_inj_left hsame (by omega)]

private theorem taken_right (hl : Linked r (skip ++ first :: t ++ rest) free)
    (hput : ∀ i ∈ first :: t, (r.blk i).status = .put) (hsize : total r.blk (first :: t) < 2 ^ 64) :
    Taken r (taken r first t).1 (taken r first t).2 (first :: t) :=
  ⟨⟨skip, rest, hl.blkNodes⟩, hput, rfl, fun _ => rfl, rfl, sizes_toNat hsize⟩

/-- The length of the queue is read from its blocks. -/
theorem queueLen_taken (hl : Linked r (skip ++ first :: t ++ rest) free) :
    rtRbbBlkQueueLen (taken r first t).1 (taken r first t).2.blkQueue =
      .ok (taken r first t).2.dataTotalSize := by
  have hentry : entry (.blk first) = .ok first := rfl
  have hpath := hl.blkList
  rw [List.append_assoc, List.map_append] at hpath
  have hbehind : Path (markGet r (first :: t)).next (.blk first) ((t ++ rest).map .blk) :=
    Path.suffix hpath
  have hread : queueLenLoop (markGet r (first :: t)) (t.length + 1) (some (.blk first)) 0 =
      .ok (sizes (markGet r (first :: t)).blk (first :: t)) := by
    rw [queueLenLoop, deref_some, ok_bind, hentry, ok_bind, queueLenLoop_eq hbehind, zero_add]
    rfl
  rw [sizes_markGet] at hread
  exact hread

private theorem nextLen_eq (hl : Linked r (skip ++ first :: rest) free)
    (hskip : ∀ j ∈ skip, (r.blk j).status ≠ .put) (hput : (r.blk first).status = .put) :
    rtRbbNextBlkQueueLen r = .ok (sizes r.blk
      (first :: follow r.blk unlimited (r.blk first).buf ((r.blk first).size.setWidth 64)
        rest)) := by
  have hlen := hl.length
  rw [List.length_append, List.length_cons] at hlen
  have hpath := hl.blkList
  have hnext := nextLenLoop_first (k := r.blkMaxNum + 1) hpath (by omega) hskip hput
  cases hnode : r.next .blkList with
  | none =>
      rw [hpath.next_eq] at hnode
      simp at hnode
  | some node =>
      rw [hnode] at hnext
      rw [rtRbbNextBlkQueueLen, hnode]
      exact hnext

/-- A call that is right has a state that fits it. -/
theorem QueueRight.fits (hl : Linked r used free) {q : BlkQueue} (h : QueueRight r len q) :
    QueueFits r len q := by
  have hnodes := hl.blkNodes
  obtain ⟨⟨r₁, g₁, t₁, hget₁, ht₁, hchain₁, hle, -⟩, r₂, g₂, t₂, hget₂, ht₂, -⟩ := h
  rcases rtRbbBlkQueueGet_cases hl with ⟨rfl, hget⟩ | hget | ⟨skip, first, behind, rfl, hskip, hput⟩
  · -- the list is empty
    left
    rw [hget] at hget₂
    cases hget₂
    obtain ⟨skip, rest, hsplit⟩ := ht₂.consecutive
    have hnil := map_blk_inj (hnodes.symm.trans hsplit)
    have ht : t₂ = [] := by
      have hempty := (List.append_eq_nil_iff.mp hnil.symm).1
      exact (List.append_eq_nil_iff.mp hempty).2
    have hnum := ht₂.blkNum
    rw [ht] at hnum
    exact ⟨hnodes, hnum⟩
  · rw [hget] at hget₁
    cases hget₁
  · right
    rw [rtRbbBlkQueueGet_first hl hskip hput] at hget₁ hget₂
    split at hget₂
    · -- without a limit, the call takes the chain
      rename_i hleft
      cases hget₂
      obtain ⟨stop, rest, hsplit, hchain, hstop⟩ := follow_unlimited hleft
      have hrun : ∀ i ∈ follow r.blk unlimited (r.blk first).buf
          ((r.blk first).size.setWidth 64) behind, (r.blk i).status = .put := follow_put
      generalize follow r.blk unlimited (r.blk first).buf ((r.blk first).size.setWidth 64) behind =
        run at hrun ht₂ hsplit hchain hstop
      have hl₂ := hl
      rw [hsplit, ← List.cons_append, ← List.append_assoc] at hl₂ hnodes
      have hsize := ht₂.size
      rw [ht₂.unique hl₂] at hsize
      have htotal : total r.blk (first :: run) < 2 ^ 64 := by
        rw [← hsize]
        exact BitVec.isLt _
      split at hget₁
      · -- with the limit, it takes what fits of it
        cases hget₁
        obtain ⟨more, hmore⟩ : follow r.blk len (r.blk first).buf
          ((r.blk first).size.setWidth 64) behind <+: behind := prefix_follow
        have hl₁ := hl
        rw [← hmore, ← List.cons_append, ← List.append_assoc] at hl₁
        have hsize₁ := ht₁.size
        rw [ht₁.unique hl₁] at hsize₁ hchain₁
        have hfirst : (r.blk first).size.toNat ≤ len.toNat := by
          have hle' : (sizes r.blk (first :: follow r.blk len (r.blk first).buf
            ((r.blk first).size.setWidth 64) behind)).toNat ≤ len.toNat := hle
          have hsum : (sizes r.blk (first :: follow r.blk len (r.blk first).buf
            ((r.blk first).size.setWidth 64) behind)).toNat = _ := hsize₁
          rw [hsum, total_cons] at hle'
          omega
        have hstart : (r.blk first).size.setWidth 64 ≤ len := by
          rw [BitVec.le_def, wide_toNat]
          exact hfirst
        have hfit := @follow_eq_fitting _ _ rest _ _ _ _ hrun hchain hstop hstart (by
          rw [wide_toNat, ← total_cons]
          exact htotal)
        rw [← hsplit, wide_toNat] at hfit
        rw [hfit] at hchain₁
        refine ⟨skip, first, run, stop, rest, hnodes, hskip, fun i hi => ?_, hchain, hstop, htotal,
          hfirst, hchain₁⟩
        rcases List.mem_cons.mp hi with rfl | hi
        · exact hput
        · exact hrun i hi
      · cases hget₁
    · cases hget₂

/-- A call in a state that fits is right. -/
theorem QueueFits.right (hl : Linked r used free) {q : BlkQueue} (h : QueueFits r len q) :
    QueueRight r len q := by
  have hnodes := hl.blkNodes
  rcases h with ⟨hnil, hnum⟩ | ⟨skip, first, run, stop, rest, hsplit, hskip, hput, hchain, hstop,
    htotal, hfirst, hgaps⟩
  · -- the list is empty, and the queue stays as it is
    have hused : used = [] := List.map_eq_nil_iff.mp (hnodes.symm.trans hnil)
    subst hused
    have hnone : r.next .blkList = none := hl.blkList
    have hget : ∀ len, rtRbbBlkQueueGet r len q = .ok (r, ⟨none, 0, q⟩) := by
      intro len
      rw [rtRbbBlkQueueGet, hnone]
      rfl
    have htaken : Taken r r ⟨none, 0, q⟩ [] :=
      ⟨⟨[], [], hnil⟩, fun i hi => (by cases hi), markGet_nil.symm,
        fun h => absurd rfl h, hnum, rfl⟩
    refine ⟨⟨r, _, [], hget len, htaken, List.isChain_nil,
      BitVec.le_def.mpr (Nat.zero_le _), ?_⟩,
      r, _, [], hget unlimited, htaken, ?_⟩
    · rw [rtRbbBlkQueueLen, hnum]
      rfl
    · rw [rtRbbNextBlkQueueLen, hnone]
      rfl
  · have hused := map_blk_inj (hnodes.symm.trans hsplit)
    subst hused
    have hput₁ := hput first (List.mem_cons_self ..)
    have hrun : ∀ i ∈ run, (r.blk i).status = .put := fun i hi =>
      hput i (List.mem_cons_of_mem first hi)
    have htotal' := htotal
    rw [total_cons] at htotal'
    have hfollow : ∀ len : BitVec 64, (r.blk first).size.toNat ≤ len.toNat →
        follow r.blk len (r.blk first).buf ((r.blk first).size.setWidth 64) (run ++ stop :: rest) =
          fitting r.blk (len.toNat - (r.blk first).size.toNat) run := by
      intro len hle
      have hfit := @follow_eq_fitting _ _ rest _ _ len ((r.blk first).size.setWidth 64) hrun hchain
        hstop (by rw [BitVec.le_def, wide_toNat]; exact hle)
        (by rw [wide_toNat]; exact htotal')
      rw [wide_toNat] at hfit
      exact hfit
    have hall : follow r.blk unlimited (r.blk first).buf ((r.blk first).size.setWidth 64)
        (run ++ stop :: rest) = run := by
      have hmax : unlimited.toNat = 2 ^ 64 - 1 := by
        rw [unlimited, BitVec.toNat_allOnes]
      rw [hfollow unlimited (by rw [hmax]; omega)]
      exact fitting_self (by rw [hmax]; omega)
    have hl' : Linked r (skip ++ first :: (run ++ stop :: rest)) free := by
      rw [List.append_assoc] at hl
      exact hl
    have hget : ∀ (len : BitVec 64) (t : List Nat), t <+: run →
        follow r.blk len (r.blk first).buf ((r.blk first).size.setWidth 64)
          (run ++ stop :: rest) = t → rtRbbBlkQueueGet r len q = .ok (taken r first t) := by
      intro len t hpre ht
      have hlt : t.length < (run ++ stop :: rest).length := by
        have hle := hpre.length_le
        rw [List.length_append, List.length_cons]
        omega
      rw [rtRbbBlkQueueGet_first hl' hskip hput₁, ht, if_pos hlt]
    have htaken : ∀ t, t <+: run → ∃ more, Linked r (skip ++ first :: t ++ more) free ∧
        Taken r (taken r first t).1 (taken r first t).2 (first :: t) := by
      rintro t ⟨more, rfl⟩
      have hl₁ : Linked r (skip ++ first :: t ++ (more ++ stop :: rest)) free := by
        have hassoc : skip ++ first :: t ++ (more ++ stop :: rest) =
            skip ++ first :: (t ++ more) ++ stop :: rest := by
          simp
        rw [hassoc]
        exact hl
      have hsmall : total r.blk (first :: t) ≤ total r.blk (first :: (t ++ more)) :=
        total_prefix_le (List.cons_prefix_cons.mpr ⟨rfl, List.prefix_append t more⟩)
      refine ⟨_, hl₁, taken_right hl₁ (fun i hi => hput i ?_) (hsmall.trans_lt htotal)⟩
      rcases List.mem_cons.mp hi with rfl | hi
      · exact List.mem_cons_self ..
      · exact List.mem_cons_of_mem first (List.mem_append_left more hi)
    constructor
    · have hpre := fitting_prefix r.blk (len.toNat - (r.blk first).size.toNat) run
      obtain ⟨more, hl₁, ht⟩ := htaken _ hpre
      refine ⟨_, _, _, hget len _ hpre (hfollow len hfirst), ht, hgaps, ?_, queueLen_taken hl₁⟩
      have hle := total_fitting_le r.blk (len.toNat - (r.blk first).size.toNat) run
      have hsize : (sizes r.blk (first :: fitting r.blk (len.toNat - (r.blk first).size.toNat)
        run)).toNat = _ := ht.size
      rw [total_cons] at hsize
      exact BitVec.le_def.mpr (by rw [hsize]; omega)
    · obtain ⟨more, -, ht⟩ := htaken run (List.prefix_refl run)
      refine ⟨_, _, _, hget unlimited run (List.prefix_refl run) hall, ht, ?_⟩
      have hnext := nextLen_eq hl' hskip hput₁
      rw [hall] at hnext
      exact hnext

end Right

/-- **When a call on a block queue is right**, in the states of all runs: its state fits. -/
theorem queue_get_iff (blk : Nat → Blk) (buf bufSize : BitVec 64) (n : Nat) (es : List Event)
    (hg : Guarded step Enabled (rtRbbInit blk buf bufSize n) es)
    (hrun : run step (rtRbbInit blk buf bufSize n) es = .ok r) (queueDataLen : BitVec 64)
    (blkQueue : BlkQueue) :
    QueueRight r queueDataLen blkQueue ↔ QueueFits r queueDataLen blkQueue := by
  obtain ⟨used, free, hl⟩ : Listed r :=
    run_inv_of_returns step_listed (listed_init blk buf bufSize n) hg hrun
  exact ⟨fun h => h.fits hl, fun h => h.right hl⟩

end Runs

/-- Four blocks are put, the first is got and freed, its memory is put again behind the end of the
buffer, and the second is got. -/
def turned : List Event :=
  [.alloc 6, .alloc 5, .alloc 4, .alloc 3, .put 4, .put 3, .put 2, .put 1, .get, .free 4, .alloc 5,
    .put 4, .get]

/-- The queue is the third and the fourth block, up to the one at the start of the buffer. -/
theorem queue_get_iff_turned : ∃ r, run step (rtRbbInit fresh 0x1000 18 5) turned = .ok r ∧
    blkNodes r = [.blk 3, .blk 2, .blk 1, .blk 4] ∧ QueueRight r 7 ⟨none, 0⟩ ∧
    (rtRbbBlkQueueGet r 7 ⟨none, 0⟩).map (fun out => (out.2.blkQueue, out.2.dataTotalSize)) =
      .ok (⟨some 2, 2⟩, 7) := by
  have hstate : (run step (rtRbbInit fresh 0x1000 18 5) turned).map
      (fun r => (blkNodes r, [3, 2, 1, 4].map r.blk,
        (rtRbbBlkQueueGet r 7 ⟨none, 0⟩).map
          (fun out => (out.2.blkQueue, out.2.dataTotalSize)))) =
      .ok ([.blk 3, .blk 2, .blk 1, .blk 4],
        [⟨.get, 5, 0x1006⟩, ⟨.put, 4, 0x100b⟩, ⟨.put, 3, 0x100f⟩, ⟨.put, 5, 0x1000⟩],
        .ok (⟨some 2, 2⟩, 7)) := by
    decide
  obtain ⟨r, hrun, hr⟩ := exists_of_map_eq_ok hstate
  simp only [Prod.mk.injEq, List.map_cons, List.map_nil, List.cons.injEq, and_true] at hr
  obtain ⟨hnodes, ⟨hgot, hfirst, hsecond, hstop⟩, hget⟩ := hr
  refine ⟨r, hrun, hnodes, (queue_get_iff fresh 0x1000 18 5 turned (by decide) hrun 7
    ⟨none, 0⟩).mpr (Or.inr ⟨[3], 2, [1], 4, [], hnodes, ?_, ?_, ?_, Or.inr ?_, ?_, ?_, ?_⟩), hget⟩
  · simp [hgot]
  · simp [hfirst, hsecond]
  · simp only [List.isChain_pair, hfirst, hsecond]
    decide
  · simp only [last, hsecond, hstop]
    decide
  · simp only [total, List.map_cons, List.map_nil, hfirst, hsecond]
    decide
  · rw [hfirst]
    decide
  · have hfitting : fitting r.blk ((7 : BitVec 64).toNat - (r.blk 2).size.toNat) [1] = [1] := by
      simp only [fitting, hfirst, hsecond]
      decide
    rw [hfitting]
    simp only [Contiguous, List.isChain_pair, hfirst, hsecond]
    decide

/-- Behind the only block of the list, the loop reads the node behind the null pointer. -/
theorem queue_get_runs_off :
    ∃ r, run step (rtRbbInit fresh 0x1000 10 1) [.alloc 4, .put 0] = .ok r ∧
    Guarded step Enabled (rtRbbInit fresh 0x1000 10 1) [.alloc 4, .put 0] ∧
    rtRbbBlkQueueGet r 4 ⟨none, 0⟩ = .error .nullPointer ∧ ¬QueueRight r 4 ⟨none, 0⟩ := by
  have hguarded : Guarded step Enabled (rtRbbInit fresh 0x1000 10 1) [.alloc 4, .put 0] := by
    decide
  have hget : (run step (rtRbbInit fresh 0x1000 10 1) [.alloc 4, .put 0]).map
      (fun r => (rtRbbBlkQueueGet r 4 ⟨none, 0⟩).map fun _ => ()) = .ok (.error .nullPointer) := by
    decide
  obtain ⟨r, hrun, hr⟩ := exists_of_map_eq_ok hget
  have hnull : rtRbbBlkQueueGet r 4 ⟨none, 0⟩ = .error .nullPointer := by
    cases hcall : rtRbbBlkQueueGet r 4 ⟨none, 0⟩ with
    | error f =>
        rw [hcall] at hr
        cases hr
        rfl
    | ok out =>
        rw [hcall] at hr
        cases hr
  refine ⟨r, hrun, hguarded, hnull, fun h => ?_⟩
  obtain ⟨⟨r', g, t, hok, -⟩, -⟩ := h
  cases hnull.symm.trans hok

end RtHypervisor.Ports.RingBlock
