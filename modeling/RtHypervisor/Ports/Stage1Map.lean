import RtHypervisor.Ports.Stage1

/-!
# What the stage-1 tables translate

A table is named by the indices that lead to it: `[]` is `MMUTable`, `[a]` the table its entry
`a` leads to, `[a, b]` the table below that.  The pages of `MMUPage` are given out in order, so
the list of the tables in the order of their creation says which page a table lies in.

`Formed` says that every table holds the entries of its children and, on the last level, the
words of `f`.  `descend` keeps it and adds one table at most, and the block entry that
`_kernel_map_2M` writes changes `f` at one place.  The walk only depends on `f`.
-/

namespace RtHypervisor.Ports.Stage1

open RtHypervisor.Verified.ByteMem
open RtHypervisor.Verified.BitField

/-! ## Entries -/

private theorem mmuAddressMask_eq : mmuAddressMask = bits 12 48 := by decide

/-- The entry that leads to the table at `page`. -/
def tableEntry (page : Nat) : BitVec 64 := BitVec.ofNat 64 page ||| mmuTypeTable

section TableEntry

variable {page : Nat} (haligned : page % 4096 = 0) (hlt : page < 2 ^ 48)
include haligned

private theorem tableEntry_type : tableEntry page &&& mmuTypeMask = mmuTypeTable := by
  have hlow : BitVec.ofNat 64 page &&& mmuTypeMask = 0 := by
    apply BitVec.eq_of_toNat_eq
    have hmask := @toNat_and_low (BitVec.ofNat 64 page) 2 (by decide)
    have hthree : BitVec.ofNat 64 (2 ^ 2 - 1) = mmuTypeMask := by decide
    rw [hthree] at hmask
    have hzero : (0 : BitVec 64).toNat = 0 := rfl
    rw [hmask, hzero, BitVec.toNat_ofNat]
    omega
  rw [tableEntry, BitVec.and_or_distrib_right, hlow]
  decide

theorem tableEntry_isTable : isTable (tableEntry page) = true := by
  rw [isTable, tableEntry_type haligned, beq_self_eq_true]

private theorem tableEntry_not_block : tableEntry page &&& mmuTypeMask ≠ mmuTypeBlock := by
  rw [tableEntry_type haligned]
  decide

private theorem tableEntry_used : tableEntry page &&& mmuTypeUsed ≠ 0 := by
  have hsub : mmuTypeMask &&& mmuTypeUsed = mmuTypeUsed := by decide
  intro hzero
  have htype := tableEntry_type haligned
  have hused : tableEntry page &&& mmuTypeMask &&& mmuTypeUsed = 0 := by
    rw [BitVec.and_assoc, hsub]
    exact hzero
  rw [htype] at hused
  revert hused
  decide

include hlt

theorem tableEntry_address : (tableEntry page &&& mmuAddressMask).toNat = page := by
  have hthree : mmuTypeTable &&& bits 12 48 = 0 := by decide
  have hpage : tableEntry page &&& mmuAddressMask = BitVec.ofNat 64 page &&& bits 12 48 := by
    rw [tableEntry, mmuAddressMask_eq, BitVec.and_or_distrib_right, hthree]
    simp
  rw [hpage, toNat_and_bits _ (by decide) (by decide), BitVec.toNat_ofNat]
  omega

private theorem nextTable_tableEntry : nextTable (tableEntry page) = page := by
  have haddress := tableEntry_address haligned hlt
  rwa [mmuAddressMask_eq] at haddress

private theorem hierarchical_tableEntry : hierarchical (tableEntry page) = 0 := by
  have hthree : mmuTypeTable &&& bits 59 64 = 0 := by decide
  have hhigh : BitVec.ofNat 64 page &&& bits 59 64 = 0 := by
    apply BitVec.eq_of_toNat_eq
    have hzero : (0 : BitVec 64).toNat = 0 := rfl
    rw [toNat_and_bits _ (by decide) (by decide), BitVec.toNat_ofNat, hzero]
    omega
  rw [hierarchical, tableEntry, BitVec.and_or_distrib_right, hthree, hhigh]
  decide

end TableEntry

/-- The block entry for a section. -/
def blockEntry (pa attr : BitVec 64) : BitVec 64 := pa ||| (attr &&& mmuAttribMask ||| mmuTypeBlock)

section BlockEntry

variable {pa attr : BitVec 64} (haligned : pa.toNat % 2 ^ 21 = 0) (hlt : pa.toNat < 2 ^ 48)
include haligned hlt

/-- The address has no bits outside its field. -/
theorem address_off {mask : BitVec 64} (hoff : bits 21 48 &&& mask = 0) : pa &&& mask = 0 := by
  have hfield : pa &&& bits 21 48 = pa := by
    apply BitVec.eq_of_toNat_eq
    rw [toNat_and_bits _ (by decide) (by decide), Nat.mod_eq_of_lt hlt]
    omega
  rw [← hfield, BitVec.and_assoc, hoff]
  simp

private theorem blockEntry_isBlock : isBlock (blockEntry pa attr) = true := by
  have hattr : attr &&& mmuAttribMask &&& mmuTypeMask = 0 := by
    have hoff : mmuAttribMask &&& mmuTypeMask = 0 := by decide
    rw [BitVec.and_assoc, hoff]
    simp
  rw [isBlock, blockEntry, BitVec.and_or_distrib_right, BitVec.and_or_distrib_right, hattr,
    address_off haligned hlt (by decide)]
  decide

private theorem blockEntry_address : (blockEntry pa attr &&& bits 21 48).toNat = pa.toNat := by
  have hattr : attr &&& mmuAttribMask &&& bits 21 48 = 0 := by
    have hoff : mmuAttribMask &&& bits 21 48 = 0 := by decide
    rw [BitVec.and_assoc, hoff]
    simp
  have htype : mmuTypeBlock &&& bits 21 48 = 0 := by decide
  have hpa : blockEntry pa attr &&& bits 21 48 = pa &&& bits 21 48 := by
    rw [blockEntry, BitVec.and_or_distrib_right, BitVec.and_or_distrib_right, hattr, htype]
    simp
  rw [hpa, toNat_and_bits _ (by decide) (by decide), Nat.mod_eq_of_lt hlt]
  omega

private theorem blockEntry_attr :
    blockEntry pa attr &&& mmuAttribMask = attr &&& mmuAttribMask := by
  have htype : mmuTypeBlock &&& mmuAttribMask = 0 := by decide
  rw [blockEntry, BitVec.and_or_distrib_right, BitVec.and_or_distrib_right,
    address_off haligned hlt (by decide), htype, BitVec.and_assoc, BitVec.and_self]
  simp

end BlockEntry

/-! ## Indices -/

private theorem tableIndex_eq (va : BitVec 64) (shift : Nat) :
    tableIndex va shift = va.toNat / 2 ^ shift % 512 := by
  have hmask : mmuLevelMask = BitVec.ofNat 64 (2 ^ 9 - 1) := by decide
  rw [tableIndex, hmask, toNat_and_low _ (by decide), BitVec.toNat_ushiftRight,
    Nat.shiftRight_eq_div_pow]
  rfl

private theorem tableIndex_lt (va : BitVec 64) (shift : Nat) : tableIndex va shift < 512 := by
  rw [tableIndex_eq]
  exact Nat.mod_lt _ (by decide)

/-- The indices the walk takes for an address. -/
def path (va : Nat) : List Nat := [va / 2 ^ 39 % 512, va / 2 ^ 30 % 512, va / 2 ^ 21 % 512]

/-- Below 2 ^ 48 two addresses share a path when they lie in one section. -/
theorem path_inj {va va' : Nat} (h : va < 2 ^ 48) (h' : va' < 2 ^ 48) :
    path va = path va' ↔ va / 2 ^ 21 = va' / 2 ^ 21 := by
  simp only [path, List.cons.injEq, and_true]
  omega

/-! ## The tables -/

variable {I : Image} {owner : List (List Nat)} {f : List Nat → BitVec 64} {s : Tables}
  {p q : List Nat} {k : Nat}

/-- Where a table lies. -/
def tableAddr (I : Image) (owner : List (List Nat)) (p : List Nat) : Nat :=
  if p = [] then I.mmuTable else pageAddr I (owner.idxOf p)

/-- The word of table `p` at index `k`. -/
def word (I : Image) (owner : List (List Nat)) (f : List Nat → BitVec 64) (p : List Nat) (k : Nat) :
    BitVec 64 :=
  if p.length < 2 then
    if p ++ [k] ∈ owner then tableEntry (tableAddr I owner (p ++ [k])) else 0
  else f (p ++ [k])

/-- A table there is. -/
def Known (owner : List (List Nat)) (p : List Nat) : Prop := p = [] ∨ p ∈ owner

structure Formed (I : Image) (owner : List (List Nat)) (f : List Nat → BitVec 64) (s : Tables) :
    Prop where
  counter : s.i = owner.length
  pool : owner.length ≤ mmuTblPageNrMax
  nodup : owner.Nodup
  depth : ∀ p ∈ owner, p ≠ [] ∧ p.length ≤ 2
  parent : ∀ p k, p ++ [k] ∈ owner → Known owner p
  words : ∀ p, Known owner p → ∀ k, k < 512 →
    load64 s.mem (tableAddr I owner p + 8 * k) = word I owner f p k
  blocks : ∀ q, f q = 0 ∨ isBlock (f q) = true
  absent : ∀ p k, p.length = 2 → p ∉ owner → f (p ++ [k]) = 0

theorem pageAddr_bounds (I : Image) {j : Nat} (hj : j < 32) :
    0 < pageAddr I j ∧ pageAddr I j % 4096 = 0 ∧ pageAddr I j < 2 ^ 48 := by
  have hpos := I.page_pos
  have haligned := I.page_aligned
  have hlt := I.page_lt
  unfold pageAddr
  omega

theorem Formed.idx_lt (h : Formed I owner f s) (hp : p ∈ owner) : owner.idxOf p < 32 :=
  Nat.lt_of_lt_of_le (List.idxOf_lt_length_of_mem hp) h.pool

theorem Formed.tableAddr_bounds (h : Formed I owner f s) (hp : p ∈ owner) :
    0 < tableAddr I owner p ∧ tableAddr I owner p % 4096 = 0 ∧ tableAddr I owner p < 2 ^ 48 := by
  rw [tableAddr, if_neg (h.depth p hp).1]
  exact pageAddr_bounds I (h.idx_lt hp)

theorem Formed.tableAddr_aligned (h : Formed I owner f s) (hp : Known owner p) :
    tableAddr I owner p % 8 = 0 := by
  rcases hp with rfl | hp
  · have haligned := I.table_aligned
    rw [tableAddr, if_pos rfl]
    omega
  · have haligned := (h.tableAddr_bounds hp).2.1
    omega

/-- A word belongs to one table, at one index. -/
theorem Formed.slot_inj (h : Formed I owner f s) (hp : Known owner p) (hq : Known owner q)
    {l : Nat} (hk : k < 512) (hl : l < 512)
    (heq : tableAddr I owner p + 8 * k = tableAddr I owner q + 8 * l) : p = q ∧ k = l := by
  have hapart := I.apart
  unfold tableAddr pageAddr at heq
  rcases hp with rfl | hp
  · rcases hq with rfl | hq
    · exact ⟨rfl, by omega⟩
    · have hlt := h.idx_lt hq
      rw [if_pos rfl, if_neg (h.depth q hq).1] at heq
      omega
  · have hlt := h.idx_lt hp
    rcases hq with rfl | hq
    · rw [if_neg (h.depth p hp).1, if_pos rfl] at heq
      omega
    · have hlt' := h.idx_lt hq
      rw [if_neg (h.depth p hp).1, if_neg (h.depth q hq).1] at heq
      have hidx : owner.idxOf p = owner.idxOf q := by omega
      exact ⟨(List.idxOf_inj hp).mp hidx, by omega⟩

/-! ## A new table -/

private theorem tableAddr_append (hp : Known owner p) (q : List Nat) :
    tableAddr I (owner ++ [q]) p = tableAddr I owner p := by
  unfold tableAddr
  rcases hp with rfl | hp
  · rfl
  · rw [List.idxOf_append_of_mem hp]

private theorem tableAddr_new (hq : q ≠ []) (hnew : q ∉ owner) :
    tableAddr I (owner ++ [q]) q = pageAddr I owner.length := by
  rw [tableAddr, if_neg hq, List.idxOf_append_of_notMem hnew, List.idxOf_cons_self, Nat.add_zero]

/-- The next page is clear of the tables. -/
theorem Formed.new_page_off (h : Formed I owner f s) (hp : Known owner p)
    (hlt : owner.length < 32) (hk : k < 512) :
    tableAddr I owner p + 8 * k + 8 ≤ pageAddr I owner.length ∨
      pageAddr I owner.length + 4096 ≤ tableAddr I owner p + 8 * k := by
  have hapart := I.apart
  unfold tableAddr pageAddr
  rcases hp with rfl | hp
  · rw [if_pos rfl]
    omega
  · have hidx := List.idxOf_lt_length_of_mem hp
    rw [if_neg (h.depth p hp).1]
    omega

private theorem load64_fill_off {m : Mem} {a n b : Nat} {v : BitVec 8} (h : b + 8 ≤ a ∨ a + n ≤ b) :
    load64 (fill m a n v) b = load64 m b := by
  apply load64_congr
  intro i hi
  unfold fill
  rw [if_neg (by omega)]

private theorem append_singleton_inj {l l' : List Nat} {x y : Nat} (h : l ++ [x] = l' ++ [y]) :
    l = l' ∧ x = y := by
  have hboth := List.append_inj' h rfl
  exact ⟨hboth.1, by simpa using hboth.2⟩

/-- The tables after a page has been taken for the table below `p` at index `k`. -/
theorem Formed.grow (h : Formed I owner f s) (hp : Known owner p) (hlen : p.length < 2)
    (hk : k < 512) (hnew : p ++ [k] ∉ owner) (hlt : owner.length < 32) :
    Formed I (owner ++ [p ++ [k]]) f
      ⟨store64 (fill s.mem (pageAddr I owner.length) archPageSize 0)
        (tableAddr I owner p + 8 * k) (tableEntry (pageAddr I owner.length)), s.i + 1⟩ := by
  have hne : p ++ [k] ≠ [] := by simp
  have hqlen : (p ++ [k]).length ≤ 2 := by
    rw [List.length_append, List.length_singleton]
    omega
  have hpaddr := h.tableAddr_aligned hp
  have hpage := (pageAddr_bounds I hlt).2.1
  have hknown : ∀ q, Known owner q → Known (owner ++ [p ++ [k]]) q := by
    rintro q (hq | hq)
    · exact Or.inl hq
    · exact Or.inr (List.mem_append_left _ hq)
  refine ⟨?_, ?_, ?_, ?_, ?_, ?_, h.blocks, ?_⟩
  · rw [List.length_append, List.length_singleton, ← h.counter]
  · rw [List.length_append, List.length_singleton]
    exact hlt
  · refine List.nodup_append'.mpr ⟨h.nodup, List.nodup_singleton _, ?_⟩
    rw [List.disjoint_singleton]
    exact hnew
  · intro q hq
    rcases List.mem_append.mp hq with hq | hq
    · exact h.depth q hq
    · rw [List.mem_singleton] at hq
      subst hq
      exact ⟨hne, hqlen⟩
  · intro q l hq
    rcases List.mem_append.mp hq with hq | hq
    · exact hknown q (h.parent q l hq)
    · obtain ⟨rfl, -⟩ := append_singleton_inj (List.mem_singleton.mp hq)
      exact hknown q hp
  · intro q hq l hl
    by_cases hold : Known owner q
    · -- a table that was there before
      rw [tableAddr_append hold]
      by_cases hslot : q = p ∧ l = k
      · obtain ⟨rfl, rfl⟩ := hslot
        have hmem : q ++ [l] ∈ owner ++ [q ++ [l]] := by simp
        rw [load64_store64_self, word, if_pos hlen, if_pos hmem, tableAddr_new hne hnew]
      · have haddr : tableAddr I owner p + 8 * k ≠ tableAddr I owner q + 8 * l := by
          intro heq
          obtain ⟨rfl, rfl⟩ := h.slot_inj hp hold hk hl heq
          exact hslot ⟨rfl, rfl⟩
        have hqaddr := h.tableAddr_aligned hold
        have hfill : load64 (fill s.mem (pageAddr I owner.length) archPageSize 0)
            (tableAddr I owner q + 8 * l) = load64 s.mem (tableAddr I owner q + 8 * l) :=
          load64_fill_off (h.new_page_off hold hlt hl)
        rw [load64_store64_of_aligned (by omega) (by omega) haddr, hfill, h.words q hold l hl]
        have hother : q ++ [l] ≠ p ++ [k] := fun heq => hslot (append_singleton_inj heq)
        have hmem : q ++ [l] ∈ owner ++ [p ++ [k]] ↔ q ++ [l] ∈ owner := by
          rw [List.mem_append, List.mem_singleton, or_iff_left hother]
        unfold word
        by_cases hin : q ++ [l] ∈ owner
        · simp only [hmem, hin, if_true, tableAddr_append (Or.inr hin)]
        · simp only [hmem, hin, if_false]
    · -- the new table
      have hq' : q = p ++ [k] := by
        rcases hq with rfl | hq
        · exact absurd (Or.inl rfl) hold
        · rcases List.mem_append.mp hq with hq | hq
          · exact absurd (Or.inr hq) hold
          · exact List.mem_singleton.mp hq
      subst hq'
      have hoff := h.new_page_off hp hlt hk
      rw [tableAddr_new hne hnew, load64_store64_of_aligned (by omega) (by omega) (by omega),
        load64_fill_zero (by omega) (by simp only [archPageSize]; omega)]
      have hchild : p ++ [k] ++ [l] ∉ owner ++ [p ++ [k]] := by
        intro hmem
        rcases List.mem_append.mp hmem with hmem | hmem
        · exact hold (h.parent _ _ hmem)
        · have hlength := congrArg List.length (List.mem_singleton.mp hmem)
          simp at hlength
      rw [word, if_neg hchild]
      split
      · rfl
      · exact (h.absent _ l (by omega) hnew).symm
  · intro q l hq hmem
    exact h.absent q l hq fun hin => hmem (List.mem_append_left _ hin)

/-- One level down: the table is there, or it is made, or there is no page for it. -/
theorem descend_spec (h : Formed I owner f s) (hp : Known owner p) (hlen : p.length < 2)
    (va : BitVec 64) (shift : Nat) :
    descend I s (tableAddr I owner p) va shift = (s, .error mmuMapErrorNopage) ∨
      ∃ owner' s', descend I s (tableAddr I owner p) va shift =
          (s', .ok (tableAddr I owner' (p ++ [tableIndex va shift]))) ∧
        Formed I owner' f s' ∧ p ++ [tableIndex va shift] ∈ owner' := by
  have hk := tableIndex_lt va shift
  generalize hidx : tableIndex va shift = k at *
  have hload := h.words p hp k hk
  rw [word, if_pos hlen] at hload
  by_cases hmem : p ++ [k] ∈ owner
  · right
    rw [if_pos hmem] at hload
    obtain ⟨-, haligned, hlt⟩ := h.tableAddr_bounds hmem
    refine ⟨owner, s, ?_, h, hmem⟩
    simp only [descend, hidx, hload]
    rw [if_neg (tableEntry_used haligned), if_neg (tableEntry_not_block haligned),
      tableEntry_address haligned hlt]
  · rw [if_neg hmem] at hload
    by_cases hpool : owner.length < 32
    · right
      obtain ⟨hpos, haligned, hlt⟩ := pageAddr_bounds I hpool
      have hcounter : ¬s.i ≥ mmuTblPageNrMax := by
        rw [h.counter]
        exact Nat.not_le.mpr hpool
      refine ⟨_, _, ?_, h.grow hp hlen hk hmem hpool, by simp⟩
      rw [tableAddr_new (by simp) hmem]
      simp only [descend, hidx, hload, kernelFreePage, if_neg hcounter]
      rw [if_pos (by decide), h.counter, if_neg (by omega)]
      have hentry : BitVec.ofNat 64 (pageAddr I owner.length) ||| mmuTypeTable =
          tableEntry (pageAddr I owner.length) := rfl
      rw [hentry, load64_store64_self, if_neg (tableEntry_not_block haligned),
        tableEntry_address haligned hlt]
    · left
      have hcounter : s.i ≥ mmuTblPageNrMax := by
        rw [h.counter]
        exact Nat.not_lt.mp hpool
      simp only [descend, hidx, hload, kernelFreePage, if_pos hcounter]
      rfl

/-! ## One section -/

/-- A block entry in a table of the last level. -/
theorem Formed.write (h : Formed I owner f s) (hp : p ∈ owner) (hlen : p.length = 2)
    (hk : k < 512) {w : BitVec 64} (hw : isBlock w = true) :
    Formed I owner (Function.update f (p ++ [k]) w)
      ⟨store64 s.mem (tableAddr I owner p + 8 * k) w, s.i⟩ := by
  refine ⟨h.counter, h.pool, h.nodup, h.depth, h.parent, ?_, ?_, ?_⟩
  · intro q hq l hl
    by_cases hslot : q = p ∧ l = k
    · obtain ⟨rfl, rfl⟩ := hslot
      rw [load64_store64_self, word, if_neg (by omega), Function.update_self]
    · have haddr : tableAddr I owner p + 8 * k ≠ tableAddr I owner q + 8 * l := by
        intro heq
        obtain ⟨rfl, rfl⟩ := h.slot_inj (Or.inr hp) hq hk hl heq
        exact hslot ⟨rfl, rfl⟩
      have hother : q ++ [l] ≠ p ++ [k] := fun heq => hslot (append_singleton_inj heq)
      have hpaddr := h.tableAddr_aligned (Or.inr hp)
      have hqaddr := h.tableAddr_aligned hq
      rw [load64_store64_of_aligned (by omega) (by omega) haddr, h.words q hq l hl, word, word,
        Function.update_of_ne hother]
  · intro q
    by_cases heq : q = p ++ [k]
    · rw [heq, Function.update_self]
      exact Or.inr hw
    · rw [Function.update_of_ne heq]
      exact h.blocks q
  · intro q l hq hmem
    have hother : q ++ [l] ≠ p ++ [k] := by
      intro heq
      obtain ⟨rfl, -⟩ := append_singleton_inj heq
      exact hmem hp
    rw [Function.update_of_ne hother]
    exact h.absent q l hq hmem

private theorem section_aligned {x : BitVec 64} (h : x.toNat % 2 ^ 21 = 0) :
    x &&& archSectionMask = 0 := by
  have hmask : archSectionMask = BitVec.ofNat 64 (2 ^ 21 - 1) := by decide
  have hzero : (0 : BitVec 64).toNat = 0 := rfl
  apply BitVec.eq_of_toNat_eq
  rw [hmask, toNat_and_low x (by decide), h, hzero]

private theorem path_eq (va : BitVec 64) :
    path va.toNat = [tableIndex va 39] ++ [tableIndex va 30] ++ [tableIndex va 21] := by
  rw [tableIndex_eq, tableIndex_eq, tableIndex_eq]
  rfl

/-- `_kernel_map_2M` changes the word of one section, or has run out of pages. -/
theorem kernelMap2M_spec {va pa attr : BitVec 64} (h : Formed I owner f s)
    (hva : va.toNat % 2 ^ 21 = 0) (hpa : pa.toNat % 2 ^ 21 = 0) (hlt : pa.toNat < 2 ^ 48) :
    (∃ s', kernelMap2M I s I.mmuTable va pa attr = (s', mmuMapErrorNopage)) ∨
      ∃ owner' s', kernelMap2M I s I.mmuTable va pa attr = (s', 0) ∧
        Formed I owner' (Function.update f (path va.toNat) (blockEntry pa attr)) s' := by
  have hroot : ∀ owner, tableAddr I owner [] = I.mmuTable := fun _ => if_pos rfl
  have hfirst := descend_spec h (Or.inl rfl) (by decide) va mmuAddressBits
  rw [hroot] at hfirst
  simp only [kernelMap2M, section_aligned hva, section_aligned hpa, ne_eq, not_true, if_false,
    mmuTblBlock2MLevel, descendLevels]
  rcases hfirst with hnone | ⟨owner₁, s₁, hrun₁, h₁, hmem₁⟩
  · left
    exact ⟨s, by rw [hnone]⟩
  rw [hrun₁]
  have hlen₁ : ([] ++ [tableIndex va mmuAddressBits]).length < 2 := by simp
  rcases descend_spec h₁ (Or.inr hmem₁) hlen₁ va (mmuAddressBits - mmuLevelShift) with
    hnone | ⟨owner₂, s₂, hrun₂, h₂, hmem₂⟩
  · left
    exact ⟨s₁, by simp only [hnone]⟩
  · right
    have hwrite := h₂.write hmem₂ rfl (tableIndex_lt va archSectionShift)
      (@blockEntry_isBlock pa attr hpa hlt)
    refine ⟨owner₂, _, by simp only [hrun₂]; rfl, ?_⟩
    rw [path_eq]
    exact hwrite

/-! ## The walk -/

/-- The translation that the words of the last level give. -/
def sectionMap (f : List Nat → BitVec 64) (va : Nat) : Option Translation :=
  if va < 2 ^ 48 ∧ isBlock (f (path va)) = true then some (leaf (f (path va)) 21 va 0) else none

private theorem isTable_not_block {e : BitVec 64} (h : isTable e = true) : isBlock e = false := by
  simp only [isTable, isBlock, beq_iff_eq] at h ⊢
  rw [h]
  decide

/-- The walk finds the word of the section. -/
theorem Formed.walk_eq (h : Formed I owner f s) (va : Nat) :
    walk s.mem I.mmuTable va = sectionMap f va := by
  by_cases hhigh : va ≥ 2 ^ 48
  · rw [walk, if_pos hhigh, sectionMap, if_neg (fun hc => Nat.not_lt.mpr hhigh hc.1)]
  rw [walk, if_neg hhigh]
  have hzero : isBlock 0 = false := by decide
  have hztable : isTable 0 = false := by decide
  have hlt : va < 2 ^ 48 := Nat.not_le.mp hhigh
  have hpath : path va = [va / 2 ^ 39 % 512] ++ [va / 2 ^ 30 % 512] ++ [va / 2 ^ 21 % 512] := rfl
  have ha : va / 2 ^ 39 % 512 < 512 := Nat.mod_lt _ (by decide)
  have hb : va / 2 ^ 30 % 512 < 512 := Nat.mod_lt _ (by decide)
  have hc : va / 2 ^ 21 % 512 < 512 := Nat.mod_lt _ (by decide)
  unfold sectionMap
  rw [hpath]
  generalize va / 2 ^ 39 % 512 = a at *
  generalize va / 2 ^ 30 % 512 = b at *
  generalize va / 2 ^ 21 % 512 = c at *
  -- level 0
  have h0 := h.words [] (Or.inl rfl) a ha
  rw [tableAddr, if_pos rfl, word, if_pos (by decide)] at h0
  have hnone : [a] ++ [b] ∉ owner → ¬(va < 2 ^ 48 ∧ isBlock (f ([a] ++ [b] ++ [c])) = true) := by
    intro hmem hboth
    rw [h.absent _ c rfl hmem, hzero] at hboth
    exact absurd hboth.2 (by simp)
  by_cases hmem0 : [] ++ [a] ∈ owner
  · rw [if_pos hmem0] at h0
    obtain ⟨-, haligned0, hlt0⟩ := h.tableAddr_bounds hmem0
    simp only [h0, tableEntry_isTable haligned0, not_true, if_false,
      nextTable_tableEntry haligned0 hlt0, hierarchical_tableEntry haligned0 hlt0]
    -- level 1
    have h1 := h.words _ (Or.inr hmem0) b hb
    rw [word, if_pos (by simp)] at h1
    by_cases hmem1 : [] ++ [a] ++ [b] ∈ owner
    · rw [if_pos hmem1] at h1
      obtain ⟨-, haligned1, hlt1⟩ := h.tableAddr_bounds hmem1
      have htable1 := tableEntry_isTable haligned1
      simp only [h1, isTable_not_block htable1, htable1, not_true, if_false, Bool.false_eq_true,
        nextTable_tableEntry haligned1 hlt1, hierarchical_tableEntry haligned1 hlt1]
      -- level 2
      have h2 := h.words _ (Or.inr hmem1) c hc
      rw [word, if_neg (by simp)] at h2
      simp only [h2]
      rcases h.blocks ([] ++ [a] ++ [b] ++ [c]) with hno | hblock
      · have hempty : ¬(va < 2 ^ 48 ∧ isBlock (f ([a] ++ [b] ++ [c])) = true) := by
          rw [show f ([a] ++ [b] ++ [c]) = 0 from hno, hzero]
          simp
        rw [if_neg hempty]
        simp only [hno, hzero, hztable, Bool.false_eq_true, not_false_iff, if_true, if_false]
      · have hblock' : isBlock (f ([a] ++ [b] ++ [c])) = true := hblock
        rw [if_pos hblock, if_pos ⟨hlt, hblock'⟩]
        rfl
    · rw [if_neg hmem1] at h1
      rw [if_neg (hnone hmem1)]
      simp only [h1, hzero, hztable, Bool.false_eq_true, not_false_iff, if_true, if_false]
  · have hmem1 : [a] ++ [b] ∉ owner := by
      intro hmem
      rcases h.parent [a] b hmem with hroot | hin
      · cases hroot
      · exact hmem0 hin
    rw [if_neg hmem0] at h0
    rw [if_neg (hnone hmem1)]
    simp only [h0, hztable, Bool.false_eq_true, not_false_iff, if_true]

/-! ## The calls -/

/-- The addresses of one section take the translation of its block entry. -/
theorem sectionMap_update {va : Nat} (hva : va % 2 ^ 21 = 0) (hlt : va + 2 ^ 21 ≤ 2 ^ 48)
    {pa attr : BitVec 64} (hpa : pa.toNat % 2 ^ 21 = 0) (hpalt : pa.toNat < 2 ^ 48) (x : Nat) :
    sectionMap (Function.update f (path va) (blockEntry pa attr)) x =
      if va ≤ x ∧ x < va + 2 ^ 21 then some ⟨pa.toNat + (x - va), attr &&& mmuAttribMask, 0⟩
      else sectionMap f x := by
  by_cases hin : va ≤ x ∧ x < va + 2 ^ 21
  · have hx : x < 2 ^ 48 := by omega
    have hpath : path x = path va := (path_inj hx (by omega)).mpr (by omega)
    have hoff : x % 2 ^ 21 = x - va := by omega
    rw [if_pos hin, sectionMap, hpath, Function.update_self,
      if_pos ⟨hx, blockEntry_isBlock hpa hpalt⟩, leaf, blockEntry_address hpa hpalt,
      blockEntry_attr hpa hpalt, hoff]
  · rw [if_neg hin]
    unfold sectionMap
    by_cases hx : x < 2 ^ 48
    · have hpath : path x ≠ path va := by
        intro heq
        have hdiv := (path_inj hx (by omega)).mp heq
        omega
      rw [Function.update_of_ne hpath]
    · rw [if_neg fun hc => hx hc.1, if_neg fun hc => hx hc.1]

private theorem archSectionSize_toNat : archSectionSize.toNat = 2 ^ 21 := by decide

/-- The first section and the `n` after it, as one interval. -/
theorem interval_succ {α : Type} {size v w n x : Nat} (g : Nat → α) (d : α) :
    (if v + size ≤ x ∧ x < v + size + n * size then g (w + size + (x - (v + size)))
      else if v ≤ x ∧ x < v + size then g (w + (x - v)) else d) =
    if v ≤ x ∧ x < v + (n + 1) * size then g (w + (x - v)) else d := by
  rw [Nat.add_mul, Nat.one_mul]
  by_cases hlater : v + size ≤ x ∧ x < v + size + n * size
  · have hoa : w + size + (x - (v + size)) = w + (x - v) := by omega
    rw [if_pos hlater, if_pos (by omega), hoa]
  · rw [if_neg hlater]
    by_cases hfirst : v ≤ x ∧ x < v + size
    · rw [if_pos hfirst, if_pos (by omega)]
    · rw [if_neg hfirst, if_neg (by omega)]

/-- The loop maps the sections one after the other, or runs out of pages. -/
theorem mapSections_spec {n : Nat} {va pa attr : BitVec 64} {ret : Int} (h : Formed I owner f s)
    (hva : va.toNat % 2 ^ 21 = 0) (hvalt : va.toNat + n * 2 ^ 21 ≤ 2 ^ 48)
    (hpa : pa.toNat % 2 ^ 21 = 0) (hpalt : pa.toNat + n * 2 ^ 21 ≤ 2 ^ 48) :
    (∃ s', mapSections I attr n s va pa ret = (s', mmuMapErrorNopage)) ∨
      ∃ owner' f' s', mapSections I attr n s va pa ret = (s', if n = 0 then ret else 0) ∧
        Formed I owner' f' s' ∧ ∀ x, sectionMap f' x =
          if va.toNat ≤ x ∧ x < va.toNat + n * 2 ^ 21 then
            some ⟨pa.toNat + (x - va.toNat), attr &&& mmuAttribMask, 0⟩
          else sectionMap f x := by
  induction n generalizing owner f s va pa ret with
  | zero =>
      right
      refine ⟨owner, f, s, rfl, h, fun x => ?_⟩
      rw [if_neg (by omega)]
  | succ n ih =>
      rw [Nat.add_mul, Nat.one_mul] at hvalt hpalt
      have hfits : va.toNat + 2 ^ 21 ≤ 2 ^ 48 :=
        Nat.le_trans (Nat.add_le_add_left (Nat.le_add_left _ _) va.toNat) hvalt
      have hpafits : pa.toNat < 2 ^ 48 := by omega
      rcases @kernelMap2M_spec _ _ _ _ va pa attr h hva hpa hpafits with
        ⟨s₁, hrun⟩ | ⟨owner₁, s₁, hrun, h₁⟩
      · left
        refine ⟨s₁, ?_⟩
        simp only [mapSections, hrun]
        rw [if_pos (by decide)]
      · have hva₁ : (va + archSectionSize).toNat = va.toNat + 2 ^ 21 := by
          rw [BitVec.toNat_add, archSectionSize_toNat, Nat.mod_eq_of_lt (by omega)]
        have hpa₁ : (pa + archSectionSize).toNat = pa.toNat + 2 ^ 21 := by
          rw [BitVec.toNat_add, archSectionSize_toNat, Nat.mod_eq_of_lt (by omega)]
        have hstep : mapSections I attr (n + 1) s va pa ret =
            mapSections I attr n s₁ (va + archSectionSize) (pa + archSectionSize) 0 := by
          simp only [mapSections, hrun]
          rw [if_neg (by decide)]
        have hrest := @ih _ _ s₁ (va + archSectionSize) (pa + archSectionSize) 0 h₁
          (by omega) (by omega) (by omega) (by omega)
        rw [hstep]
        rcases hrest with hnone | ⟨owner', f', s', hrun', h', hmap⟩
        · exact Or.inl hnone
        · right
          refine ⟨owner', f', s', ?_, h', fun x => ?_⟩
          · rw [hrun', ite_self, if_neg (Nat.succ_ne_zero n)]
          · rw [hmap x, hva₁, hpa₁, sectionMap_update hva hfits hpa hpafits]
            exact interval_succ (fun oa => some ⟨oa, attr &&& mmuAttribMask, 0⟩) (sectionMap f x)

/-- A call on a section-aligned range, with a physical address congruent to the virtual one. -/
structure Aligned (c : Call) : Prop where
  start : c.vaddrStart.toNat % 2 ^ 21 = 0
  finish : c.vaddrEnd.toNat % 2 ^ 21 = 0
  congruent : c.paddrStart.toNat % 2 ^ 21 = c.vaddrStart.toNat % 2 ^ 21

/-- The range, if there is one, lies in the 48 bits the tables translate, at both ends. -/
def Within (c : Call) : Prop :=
  c.vaddrStart.toNat < c.vaddrEnd.toNat → c.vaddrEnd.toNat ≤ 2 ^ 48 ∧
    c.paddrStart.toNat + (c.vaddrEnd.toNat - c.vaddrStart.toNat) ≤ 2 ^ 48

private theorem section_mod {x : BitVec 64} (h : x.toNat % 2 ^ 21 = 0) :
    x % archSectionSize = 0 := by
  have hzero : (0 : BitVec 64).toNat = 0 := rfl
  apply BitVec.eq_of_toNat_eq
  rw [BitVec.toNat_umod, archSectionSize_toNat, h, hzero]

/-- One call. -/
theorem setmtt_spec {c : Call} (h : Formed I owner f s) (hc : Aligned c) (hw : Within c) :
    (∃ s', rtHwMmuSetmtt I s c = (s', mmuMapErrorNopage)) ∨
      ∃ owner' f' s' r, rtHwMmuSetmtt I s c = (s', r) ∧ Formed I owner' f' s' ∧
        ∀ x, sectionMap f' x = (asked c x).or (sectionMap f x) := by
  have hstart := hc.start
  have hfinish := hc.finish
  have hpa : c.paddrStart.toNat % 2 ^ 21 = 0 := hc.congruent.trans hstart
  by_cases hempty : c.vaddrEnd.toNat ≤ c.vaddrStart.toNat
  · -- nothing to map
    right
    refine ⟨owner, f, s, -1, ?_, h, fun x => ?_⟩
    · unfold rtHwMmuSetmtt
      by_cases hgt : c.vaddrStart > c.vaddrEnd
      · rw [if_pos hgt]
      · have heq : c.vaddrEnd = c.vaddrStart := by
          rw [gt_iff_lt, BitVec.lt_def] at hgt
          exact BitVec.eq_of_toNat_eq (by omega)
        rw [if_neg hgt]
        simp only [section_mod hstart, section_mod hpa, heq, ne_eq, not_true, if_false,
          BitVec.sub_self]
        rfl
    · rw [asked, if_neg (by omega), Option.none_or]
  · obtain ⟨hvlt, hplt⟩ := hw (Nat.not_le.mp hempty)
    have hgt : ¬c.vaddrStart > c.vaddrEnd := by
      rw [gt_iff_lt, BitVec.lt_def]
      omega
    have hcount : ((c.vaddrEnd - c.vaddrStart) >>> archSectionShift).toNat =
        (c.vaddrEnd.toNat - c.vaddrStart.toNat) / 2 ^ 21 := by
      rw [BitVec.toNat_ushiftRight, Nat.shiftRight_eq_div_pow, BitVec.toNat_sub]
      show _ / 2 ^ 21 = _
      congr 1
      omega
    generalize hn : (c.vaddrEnd.toNat - c.vaddrStart.toNat) / 2 ^ 21 = n at hcount
    have hlen : c.vaddrEnd.toNat - c.vaddrStart.toNat = n * 2 ^ 21 := by omega
    have hpos : n ≠ 0 := by
      rintro rfl
      omega
    have hrun : rtHwMmuSetmtt I s c = mapSections I (mmuMapCustom mmuApKaun c.attr) n s
        c.vaddrStart c.paddrStart (-1) := by
      simp only [rtHwMmuSetmtt, if_neg hgt, section_mod hstart, section_mod hfinish,
        section_mod hpa, ne_eq, not_true, if_false, hcount]
    rw [hrun]
    rcases @mapSections_spec _ _ _ _ n _ _ (mmuMapCustom mmuApKaun c.attr) (-1) h hstart
      (by omega) hpa (by omega) with hnone | ⟨owner', f', s', hmapped, h', hmap⟩
    · exact Or.inl hnone
    · right
      refine ⟨owner', f', s', _, hmapped, h', fun x => ?_⟩
      rw [hmap x, asked]
      by_cases hin : c.vaddrStart.toNat ≤ x ∧ x < c.vaddrEnd.toNat
      · rw [if_pos hin, if_pos (by omega), Option.some_or]
      · rw [if_neg hin, if_neg (by omega), Option.none_or]

/-- The calls, from tables that translate as `f` says. -/
theorem setmtts_spec {cs : List Call} (h : Formed I owner f s) (hc : ∀ c ∈ cs, Aligned c)
    (hw : ∀ c ∈ cs, Within c) (hpool : mmuMapErrorNopage ∉ (setmtts I s cs).2) :
    ∀ x, walk (setmtts I s cs).1.mem I.mmuTable x =
      cs.foldl (fun before c => (asked c x).or before) (sectionMap f x) := by
  induction cs generalizing owner f s with
  | nil =>
      intro x
      exact h.walk_eq x
  | cons c cs ih =>
      rcases setmtt_spec h (hc c (by simp)) (hw c (by simp)) with
        ⟨s', hnone⟩ | ⟨owner', f', s', r, hrun, h', hmap⟩
      · exact absurd (by simp [setmtts, hnone]) hpool
      · intro x
        simp only [setmtts, hrun, List.mem_cons, not_or] at hpool
        have hrest := ih h' (fun d hd => hc d (List.mem_cons_of_mem c hd))
          (fun d hd => hw d (List.mem_cons_of_mem c hd)) hpool.2 x
        simp only [setmtts, hrun, List.foldl_cons]
        rw [hrest, hmap x]

/-- The tables before the first call translate nothing. -/
theorem Cleared.formed (h : Cleared I s) : Formed I [] (fun _ => 0) s := by
  refine ⟨h.counter, by decide, List.nodup_nil, by simp, by simp, ?_, fun _ => Or.inl rfl,
    fun _ _ _ _ => rfl⟩
  rintro p (rfl | hp) k hk
  · have hword : load64 s.mem (I.mmuTable + 8 * k) = load64 (fun _ => 0) (I.mmuTable + 8 * k) := by
      refine load64_congr fun i hi => ?_
      rw [Nat.add_assoc]
      exact h.table _ (by omega)
    rw [tableAddr, if_pos rfl, hword, word, if_pos (by decide), if_neg (by simp)]
    simp only [load64]
    decide
  · cases hp

/-- **Stage-1 section mapping.**  After any calls on section-aligned ranges in the 48 bits the
tables translate, none of which ran out of table pages, the walk gives every address the
translation the last call that covered it asked for. -/
theorem setmtts_maps {cs : List Call} (h : Cleared I s) (hc : ∀ c ∈ cs, Aligned c)
    (hw : ∀ c ∈ cs, Within c) (hpool : mmuMapErrorNopage ∉ (setmtts I s cs).2) :
    ∀ va, walk (setmtts I s cs).1.mem I.mmuTable va = askedLast cs va := by
  intro va
  have hnone : sectionMap (fun _ => 0) va = none := by
    have hzero : isBlock 0 = false := by decide
    rw [sectionMap, hzero, if_neg (by simp)]
  rw [setmtts_spec h.formed hc hw hpool va, hnone]
  rfl

/-- A kernel at 0x40080000, with its tables behind it. -/
def kernelImage : Image :=
  { mmuTable := 0x40100000
    mmuPage := 0x40101000
    table_aligned := by decide
    page_aligned := by decide
    page_pos := by decide
    table_lt := by decide
    page_lt := by decide
    apart := by decide }

/-- The tables at reset. -/
def resetTables : Tables := ⟨fun _ => 0, 0⟩

private theorem resetTables_cleared : Cleared kernelImage resetTables := ⟨rfl, fun _ _ => rfl⟩

/-- Two sections of memory, and a device mapped over the second. -/
theorem setmtts_maps_two :
    walk (setmtts kernelImage resetTables [⟨0x40000000, 0x40400000, 0x40000000, 0⟩,
      ⟨0x40200000, 0x40400000, 0x8000000, 3⟩]).1.mem kernelImage.mmuTable =
      askedLast [⟨0x40000000, 0x40400000, 0x40000000, 0⟩,
        ⟨0x40200000, 0x40400000, 0x8000000, 3⟩] :=
  funext <| setmtts_maps resetTables_cleared
    (by
      intro c hc
      simp only [List.mem_cons, List.not_mem_nil, or_false] at hc
      rcases hc with rfl | rfl
      · exact ⟨by decide, by decide, by decide⟩
      · exact ⟨by decide, by decide, by decide⟩)
    (by
      intro c hc
      simp only [List.mem_cons, List.not_mem_nil, or_false] at hc
      rcases hc with rfl | rfl
      · exact fun _ => by decide
      · exact fun _ => by decide)
    (by decide)

/-- Above the 48 bits the indices start again: a call on the section at 2 ^ 48 returns 0 and
changes the section at 0.  A physical address above them loses its high bits. -/
theorem high_section_wraps :
    (∃ c c', Aligned c ∧ Aligned c' ∧ (setmtts kernelImage resetTables [c, c']).2 = [0, 0] ∧
      c'.vaddrStart.toNat = 2 ^ 48 ∧
      (walk (setmtts kernelImage resetTables [c, c']).1.mem kernelImage.mmuTable 0).map
        Translation.oa = some 0x80000000 ∧
      (askedLast [c, c'] 0).map Translation.oa = some 0x40000000) ∧
    ∃ c, Aligned c ∧ (setmtts kernelImage resetTables [c]).2 = [0] ∧
      (walk (setmtts kernelImage resetTables [c]).1.mem kernelImage.mmuTable 0).map
        Translation.oa = some 0 ∧
      (askedLast [c] 0).map Translation.oa = some (2 ^ 48) := by
  refine ⟨⟨⟨0, 0x200000, 0x40000000, 0⟩, ⟨0x1000000000000, 0x1000000200000, 0x80000000, 0⟩,
    ⟨by decide, by decide, by decide⟩, ⟨by decide, by decide, by decide⟩, ?_, by decide, ?_, ?_⟩,
    ⟨0, 0x200000, 0x1000000000000, 0⟩, ⟨by decide, by decide, by decide⟩, ?_, ?_, ?_⟩
  · decide
  · decide
  · decide
  · decide
  · decide
  · decide

end RtHypervisor.Ports.Stage1
