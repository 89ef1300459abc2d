import Mathlib.Tactic
import RtHypervisor.Verified.BitField
import RtHypervisor.Ports.Stage2

/-!
# The walk of a stage-2 table

`leaf` is what the hardware finds for an input address, with the attributes of the block or page
it lies in.  `Formed` describes the tables that hold blocks only; such a table is read by
`leaf_of_page` and `leaf_of_plain`: the level-1 entry, and behind a table entry the word of the
table page.
-/

namespace RtHypervisor.Ports.Stage2

open RtHypervisor.Verified.Run
open RtHypervisor.Verified.ByteMem
open RtHypervisor.Verified.BitField
open RtHypervisor.Ports.Platform

/-! ## Entries -/

theorem tableAddrMask_eq : tableAddrMask = bits 12 48 := by decide
theorem l1BlockOaMask_eq : l1BlockOaMask = bits 30 48 := by decide

/-- The mask begins a bit too low. -/
theorem l2BlockOaMask_eq : l2BlockOaMask = bits 20 48 := by decide

/-- The output address of a level-2 block. -/
def l2OaMask : BitVec 64 := 0xFFFFFFE00000

theorem l2OaMask_eq : l2OaMask = bits 21 48 := by decide

def isBlock (e : BitVec 64) : Bool := e &&& mmuTypeMask == mmuTypeBlock

def isTable (e : BitVec 64) : Bool := e &&& mmuTypeMask == mmuTypeTable

@[simp] theorem isBlock_zero : isBlock 0#64 = false := by decide

theorem isBlock_ne_zero {e : BitVec 64} (h : isBlock e = true) : e ≠ 0 := by
  rintro rfl
  cases h

/-- The attributes of a block: a type and nothing in the field of the output address. -/
structure CleanAttr (attr : BitVec 64) : Prop where
  type : isBlock attr = true
  address : attr &&& tableAddrMask = 0

/-- The entry that `s2_map_pmd` and `s2_map_pud` write for a block. -/
def blockVal (mask attr pa : BitVec 64) : BitVec 64 := attr ||| (pa &&& mask)

section BlockVal

variable {attr pa mask : BitVec 64} (h : CleanAttr attr)
include h

theorem blockVal_isBlock (hmask : mask &&& mmuTypeMask = 0) :
    isBlock (blockVal mask attr pa) = true := by
  have htype := h.type
  simp only [isBlock, blockVal, beq_iff_eq] at htype ⊢
  rw [BitVec.and_or_distrib_right, htype, BitVec.and_assoc, hmask]
  simp

theorem blockVal_address {oa : BitVec 64} (hoa : tableAddrMask &&& oa = oa)
    (hmask : mask &&& oa = oa) : blockVal mask attr pa &&& oa = pa &&& oa := by
  have hattr : attr &&& oa = 0 := by
    rw [← hoa, ← BitVec.and_assoc, h.address]
    simp
  rw [blockVal, BitVec.and_or_distrib_right, hattr, BitVec.and_assoc, hmask]
  simp

theorem blockVal_attr (hmask : mask &&& tableAddrMask = mask) :
    blockVal mask attr pa &&& ~~~tableAddrMask = attr := by
  have hkeep : attr &&& ~~~tableAddrMask = attr := by
    have hsplit : attr &&& (tableAddrMask ||| ~~~tableAddrMask) = attr := by
      have hall : tableAddrMask ||| ~~~tableAddrMask = BitVec.allOnes 64 := by decide
      rw [hall, BitVec.and_allOnes]
    rw [BitVec.and_or_distrib_left, h.address] at hsplit
    simpa using hsplit
  have hdrop : mask &&& ~~~tableAddrMask = 0 := by
    rw [← hmask, BitVec.and_assoc]
    simp
  rw [blockVal, BitVec.and_or_distrib_right, hkeep, BitVec.and_assoc, hdrop]
  simp

theorem blockVal_field (hfield : mask &&& tableAddrMask = mask) :
    blockVal mask attr pa &&& tableAddrMask = pa &&& mask := by
  rw [blockVal, BitVec.and_or_distrib_right, h.address, BitVec.and_assoc, hfield]
  simp

end BlockVal

/-! ## The walk with attributes -/

/-- A block entry, read for an address in its block. -/
def blockLeaf (oa : BitVec 64) (size : Nat) (e : BitVec 64) (ipa : Nat) :
    Option (Nat × BitVec 64) :=
  if isBlock e then some ((e &&& oa).toNat + ipa % size, e &&& ~~~tableAddrMask) else none

/-- `walk`, with the attributes. -/
def leaf (m : Mem) (tbl ipa : Nat) : Option (Nat × BitVec 64) :=
  let l1 := load64 m (tbl + 8 * (ipa / 2 ^ 30))
  if isTable l1 then
    let l2 := load64 m ((l1 &&& tableAddrMask).toNat + 8 * (ipa / 2 ^ 21 % 512))
    if isTable l2 then
      let l3 := load64 m ((l2 &&& tableAddrMask).toNat + 8 * (ipa / 2 ^ 12 % 512))
      if isTable l3 then
        some ((l3 &&& tableAddrMask).toNat + ipa % 2 ^ 12, l3 &&& ~~~tableAddrMask)
      else none
    else blockLeaf l2OaMask (2 ^ 21) l2 ipa
  else blockLeaf l1BlockOaMask (2 ^ 30) l1 ipa

theorem isBlock_eq_false_of_isTable {e : BitVec 64} (h : isTable e = true) :
    isBlock e = false := by
  simp only [isTable, isBlock, beq_iff_eq] at h ⊢
  rw [h]
  decide

theorem walk_eq_leaf (m : Mem) (tbl ipa : Nat) :
    walk m tbl ipa = (leaf m tbl ipa).map Prod.fst := by
  have htable : ∀ e : BitVec 64, (e &&& mmuTypeMask = mmuTypeTable) ↔ isTable e = true := by
    intro e
    simp [isTable]
  have hblock : ∀ e : BitVec 64, (e &&& mmuTypeMask = mmuTypeBlock) ↔ isBlock e = true := by
    intro e
    simp [isBlock]
  have hexcl : ∀ e : BitVec 64, isBlock e = true → isTable e = false := by
    intro e he
    by_contra hne
    rw [Bool.not_eq_false] at hne
    rw [isBlock_eq_false_of_isTable hne] at he
    cases he
  simp only [walk, leaf, blockLeaf, htable, hblock]
  generalize load64 m (tbl + 8 * (ipa / 2 ^ 30)) = l1
  by_cases hb1 : isBlock l1 = true
  · simp [hb1, hexcl l1 hb1]
  · by_cases ht1 : isTable l1 = true
    · simp only [hb1, ht1, if_true]
      generalize load64 m ((l1 &&& tableAddrMask).toNat + 8 * (ipa / 2 ^ 21 % 512)) = l2
      by_cases hb2 : isBlock l2 = true
      · simp [hb2, hexcl l2 hb2, l2OaMask]
      · by_cases ht2 : isTable l2 = true
        · simp only [hb2, ht2, if_true, Bool.false_eq_true, if_false]
          by_cases ht3 : isTable (load64 m ((l2 &&& tableAddrMask).toNat +
              8 * (ipa / 2 ^ 12 % 512))) = true
          · rw [if_pos ht3, if_pos ht3]
            rfl
          · rw [if_neg ht3, if_neg ht3]
            rfl
        · simp [hb2, ht2]
    · simp [hb1, ht1]

/-! ## Tables that hold blocks -/

/-- The entry that leads to a table page. -/
def tableEntry (B : Board) (id j : Nat) : BitVec 64 :=
  mmuTypeTable ||| (BitVec.ofNat 64 (pageAddr B id j) &&& tableAddrMask)

section Addresses

variable (B : Board) {id : Nat} (hid : id < maxVmNum)
include hid

theorem pageAddr_bounds {j : Nat} (hj : j < mmuTblPageNrMax) :
    4096 ≤ pageAddr B id j ∧ pageAddr B id j + 4096 ≤ 2 ^ 40 ∧ pageAddr B id j % 4096 = 0 := by
  have hpos := B.pageGroup_pos
  have hlt := B.pageGroup_lt
  have halign := B.pageGroup_aligned
  simp only [pageAddr, mmuTblPageNrMax, maxVmNum] at hid hj ⊢
  omega

theorem tableAddr_bounds :
    4096 ≤ tableAddr B id ∧ tableAddr B id + 8192 ≤ 2 ^ 40 ∧ tableAddr B id % 8192 = 0 := by
  have hpos := B.tableGroup_pos
  have hlt := B.tableGroup_lt
  have halign := B.tableGroup_aligned
  simp only [tableAddr, maxVmNum] at hid ⊢
  omega

/-- A table page does not meet the level-1 table. -/
theorem page_off_table {j : Nat} (hj : j < mmuTblPageNrMax) :
    pageAddr B id j + 4096 ≤ tableAddr B id ∨ tableAddr B id + 8192 ≤ pageAddr B id j := by
  have hapart := B.groups_apart
  simp only [pageAddr, tableAddr, mmuTblPageNrMax, maxVmNum] at hid hj ⊢
  omega

omit hid in
theorem pages_apart {j j' : Nat} (hne : j ≠ j') :
    pageAddr B id j + 4096 ≤ pageAddr B id j' ∨ pageAddr B id j' + 4096 ≤ pageAddr B id j := by
  simp only [pageAddr]
  omega

omit hid in
theorem tableEntry_isTable (id j : Nat) : isTable (tableEntry B id j) = true := by
  have hoff : tableAddrMask &&& mmuTypeMask = 0#64 := by decide
  have htype : mmuTypeTable &&& mmuTypeMask = mmuTypeTable := by decide
  simp only [isTable, tableEntry, beq_iff_eq]
  rw [BitVec.and_or_distrib_right, BitVec.and_assoc, hoff, htype]
  simp

theorem tableEntry_address {j : Nat} (hj : j < mmuTblPageNrMax) :
    (tableEntry B id j &&& tableAddrMask).toNat = pageAddr B id j := by
  obtain ⟨-, hlt, halign⟩ := pageAddr_bounds B hid hj
  have hmask : tableEntry B id j &&& tableAddrMask =
      BitVec.ofNat 64 (pageAddr B id j) &&& tableAddrMask := by
    have hoff : mmuTypeTable &&& tableAddrMask = 0#64 := by decide
    rw [tableEntry, BitVec.and_or_distrib_right, BitVec.and_assoc, hoff]
    simp
  rw [hmask, tableAddrMask_eq, toNat_and_bits _ (by decide) (by decide), BitVec.toNat_ofNat]
  omega

end Addresses

/-- The words of the level-1 table. -/
def word1 (B : Board) (id : Nat) (m : Mem) (k : Nat) : BitVec 64 :=
  load64 m (tableAddr B id + 8 * k)

/-- The words of a table page. -/
def word2 (B : Board) (id : Nat) (m : Mem) (j i : Nat) : BitVec 64 :=
  load64 m (pageAddr B id j + 8 * i)

/-- An entry that is empty or a block, with nothing between the output address and the lower
attributes. -/
def BlockEntry (oa e : BitVec 64) : Prop :=
  e = 0 ∨ isBlock e = true ∧ e &&& tableAddrMask = e &&& oa

/-- The table of a VM holds blocks at level 1 and level 2.  `page k` is the table page that the
`k`-th entry of the level-1 table leads to. -/
structure Formed (B : Board) (id : Nat) (s : S2) (page : Nat → Option Nat) : Prop where
  table : ∀ k j, page k = some j → k < 1024 ∧ j < mmuTblPageNrMax ∧
    (s.pageBitmap id).getLsbD j = true ∧ word1 B id s.mem k = tableEntry B id j
  plain : ∀ k, k < 1024 → page k = none → BlockEntry l1BlockOaMask (word1 B id s.mem k)
  apart : ∀ k k' j, page k = some j → page k' = some j → k = k'
  cells : ∀ k j, page k = some j → ∀ i, i < 512 → BlockEntry l2OaMask (word2 B id s.mem j i)

/-- A table without entries. -/
def EmptyTable (B : Board) (id : Nat) (s : S2) : Prop := ∀ k, k < 1024 → word1 B id s.mem k = 0

theorem EmptyTable.formed {B : Board} {id : Nat} {s : S2} (h : EmptyTable B id s) :
    Formed B id s fun _ => none where
  table := by
    intro k j hpage
    cases hpage
  plain := fun k hk _ => Or.inl (h k hk)
  apart := by
    intro k k' j hpage
    cases hpage
  cells := by
    intro k j hpage
    cases hpage

theorem BlockEntry.not_table {oa e : BitVec 64} (h : BlockEntry oa e) : isTable e = false := by
  rcases h with rfl | ⟨hblock, -⟩
  · decide
  · by_contra hne
    rw [Bool.not_eq_false] at hne
    rw [isBlock_eq_false_of_isTable hne] at hblock
    cases hblock

theorem blockLeaf_eq_none {oa oa' : BitVec 64} {size ipa : Nat} {e : BitVec 64}
    (he : BlockEntry oa' e) : blockLeaf oa size e ipa = none ↔ e = 0 := by
  rcases he with rfl | ⟨hblock, -⟩
  · simp [blockLeaf]
  · have hne := isBlock_ne_zero hblock
    simp only [blockLeaf, hblock, if_true, reduceCtorEq, false_iff]
    exact hne

section Leaf

variable {B : Board} {id : Nat} {s : S2} {page : Nat → Option Nat} (h : Formed B id s page)
include h

/-- An address in a region that has a table page. -/
theorem leaf_of_page (hid : id < maxVmNum) {ipa j : Nat} (hpage : page (ipa / 2 ^ 30) = some j) :
    leaf s.mem (tableAddr B id) ipa =
      blockLeaf l2OaMask (2 ^ 21) (word2 B id s.mem j (ipa / 2 ^ 21 % 512)) ipa := by
  obtain ⟨-, hj, -, hword⟩ := h.table _ j hpage
  have hcell := h.cells _ j hpage (ipa / 2 ^ 21 % 512) (by omega)
  have hl1 : load64 s.mem (tableAddr B id + 8 * (ipa / 2 ^ 30)) = tableEntry B id j := hword
  have hl2 : load64 s.mem ((tableEntry B id j &&& tableAddrMask).toNat +
      8 * (ipa / 2 ^ 21 % 512)) = word2 B id s.mem j (ipa / 2 ^ 21 % 512) := by
    rw [tableEntry_address B hid hj]
    rfl
  have hnot := hcell.not_table
  simp only [leaf, hl1, tableEntry_isTable B id j, if_true, hl2, hnot, Bool.false_eq_true,
    if_false]

/-- An address in a region that has none. -/
theorem leaf_of_plain {ipa : Nat} (hipa : ipa < 2 ^ 40) (hpage : page (ipa / 2 ^ 30) = none) :
    leaf s.mem (tableAddr B id) ipa =
      blockLeaf l1BlockOaMask (2 ^ 30) (word1 B id s.mem (ipa / 2 ^ 30)) ipa := by
  have hplain := h.plain (ipa / 2 ^ 30) (by omega) hpage
  have hl1 : load64 s.mem (tableAddr B id + 8 * (ipa / 2 ^ 30)) =
      word1 B id s.mem (ipa / 2 ^ 30) := rfl
  have hnot := hplain.not_table
  simp only [leaf, hl1, hnot, Bool.false_eq_true, if_false]

end Leaf

end RtHypervisor.Ports.Stage2
