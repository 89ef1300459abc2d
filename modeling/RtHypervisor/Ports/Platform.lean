import RtHypervisor.Ports.ListRegister

/-!
# What the source tree leaves open

`bitmap.h` and the linker script are not part of the sources, and the heap of the
host decides at run time which allocations succeed and what a block contained
before.  A `Board` fixes these, with what the code relies on as fields:

* where the linker puts the stage-2 tables and table pages;
* `bitmap_find_next`, which returns the lowest clear bit of the word, and the functions that read,
  set and clear a bit of it, of which only what they do inside the word is known;
* the outcome of the `n`-th allocation, the address `rt_malloc_align` returns for
  a guest memory block, and what an array holds before it is written.

Guest memory blocks are never freed, so two of them never overlap.
-/

namespace RtHypervisor.Ports.Platform

open RtHypervisor.Ports.ListRegister (Virq)

/-- `MAX_VM_NUM`. -/
def maxVmNum : Nat := 4

/-- `MMU_TBL_PAGE_NR_MAX`. -/
def mmuTblPageNrMax : Nat := 32

/-- `MEM_BLOCK_SIZE`. -/
def memBlockSize : Nat := 0x200000

structure Board where
  /-- `S2_MMUTable_Group`. -/
  tableGroup : Nat
  /-- `S2_MMUPage_Group`. -/
  pageGroup : Nat
  tableGroup_aligned : tableGroup % 8192 = 0
  pageGroup_aligned : pageGroup % 4096 = 0
  tableGroup_pos : 4096 ≤ tableGroup
  pageGroup_pos : 4096 ≤ pageGroup
  tableGroup_lt : tableGroup + 8192 * 4 ≤ 2 ^ 40
  pageGroup_lt : pageGroup + 4096 * 128 ≤ 2 ^ 40
  groups_apart : tableGroup + 8192 * 4 ≤ pageGroup ∨ pageGroup + 4096 * 128 ≤ tableGroup
  /-- `bitmap_find_next`. -/
  findNext : BitVec 32 → Nat
  findNext_lt : ∀ b, findNext b < 32
  findNext_clear : ∀ b, b ≠ BitVec.allOnes 32 → b.getLsbD (findNext b) = false
  findNext_lowest : ∀ b j, j < findNext b → b.getLsbD j = true
  findNext_full : findNext (BitVec.allOnes 32) = 31
  /-- `bitmap_get_bit`. -/
  getBit : BitVec 32 → Nat → Bool
  getBit_eq : ∀ b i, i < 32 → getBit b i = b.getLsbD i
  /-- `bitmap_set_bit`. -/
  setBit : BitVec 32 → Nat → BitVec 32
  setBit_eq : ∀ b i, i < 32 → setBit b i = b ||| BitVec.twoPow 32 i
  /-- `bitmap_clr_bit`. -/
  clrBit : BitVec 32 → Nat → BitVec 32
  clrBit_eq : ∀ b i, i < 32 → clrBit b i = b &&& ~~~BitVec.twoPow 32 i
  /-- What `bitmap_init` leaves. -/
  initBits : BitVec 32
  initBits_eq : initBits = 0
  /-- Does the `n`-th allocation succeed? -/
  grants : Nat → Bool
  /-- The guest memory block the `n`-th allocation returns. -/
  block : Nat → Nat
  block_aligned : ∀ n, block n % memBlockSize = 0
  block_pos : ∀ n, 0 < block n
  block_apart : ∀ n k, n ≠ k → block n ≠ block k
  block_off_tables : ∀ n, block n + memBlockSize ≤ tableGroup ∨ tableGroup + 8192 * 4 ≤ block n
  block_off_pages : ∀ n, block n + memBlockSize ≤ pageGroup ∨ pageGroup + 4096 * 128 ≤ block n
  /-- Is cell `j` of the `n`-th allocation other than null before it is written? -/
  stale : Nat → Nat → Bool
  /-- What the `n`-th allocation reads as when it is used as the `virqs` of a `struct vgicd`. -/
  staleVirqs : Nat → Nat → Virq

/-! ## One such board -/

/-- The lowest clear bit among the bits from `j` on, with `n` bits to look at. -/
def lowestClearFrom (b : BitVec 32) : Nat → Nat → Nat
  | 0, j => j - 1
  | n + 1, j => if b.getLsbD j then lowestClearFrom b n (j + 1) else j

private theorem lowestClearFrom_spec (b : BitVec 32) (n j : Nat) (hpos : 0 < n ∨ 0 < j)
    (hbelow : ∀ k, k < j → b.getLsbD k = true) :
    lowestClearFrom b n j < n + j ∧
    (∀ k, k < lowestClearFrom b n j → b.getLsbD k = true) ∧
    ((∃ k, k < n + j ∧ b.getLsbD k = false) → b.getLsbD (lowestClearFrom b n j) = false) ∧
    ((∀ k, k < n + j → b.getLsbD k = true) → lowestClearFrom b n j = n + j - 1) := by
  induction n generalizing j with
  | zero =>
      refine ⟨by simp only [lowestClearFrom]; omega,
        fun k hk => hbelow k (by simp only [lowestClearFrom] at hk; omega), ?_,
        fun _ => by simp only [lowestClearFrom]; omega⟩
      rintro ⟨k, hk, hclear⟩
      rw [hbelow k (by omega)] at hclear
      cases hclear
  | succ n ih =>
      by_cases hj : b.getLsbD j = true
      · have hnext : ∀ k, k < j + 1 → b.getLsbD k = true := by
          intro k hk
          rcases Nat.lt_succ_iff_lt_or_eq.mp hk with hlt | rfl
          · exact hbelow k hlt
          · exact hj
        have hrec := ih (j + 1) (Or.inr (by omega)) hnext
        have hsum : n + 1 + j = n + (j + 1) := by omega
        simp only [lowestClearFrom, hj, if_true]
        rw [hsum]
        exact hrec
      · have hfalse : b.getLsbD j = false := by simpa using hj
        simp only [lowestClearFrom, hfalse]
        refine ⟨by simp, fun k hk => hbelow k (by simpa using hk), fun _ => by simpa using hfalse,
          fun hall => ?_⟩
        rw [hall j (by omega)] at hfalse
        cases hfalse

private theorem exists_clear_of_ne_allOnes {b : BitVec 32} (h : b ≠ BitVec.allOnes 32) :
    ∃ k, k < 32 + 0 ∧ b.getLsbD k = false := by
  by_contra hno
  apply h
  apply BitVec.eq_of_getLsbD_eq
  intro i hi
  by_contra hne
  rw [BitVec.getLsbD_allOnes, decide_eq_true hi] at hne
  exact hno ⟨i, hi, by simpa only [Bool.not_eq_true] using hne⟩

/-- Tables and pages below the heap, every allocation granted, no stale pointers. -/
def roomy : Board where
  tableGroup := 0x100000
  pageGroup := 0x200000
  tableGroup_aligned := by decide
  pageGroup_aligned := by decide
  tableGroup_pos := by decide
  pageGroup_pos := by decide
  tableGroup_lt := by decide
  pageGroup_lt := by decide
  groups_apart := by decide
  findNext b := lowestClearFrom b 32 0
  findNext_lt b := (lowestClearFrom_spec b 32 0 (Or.inl (by decide)) (by simp)).1
  findNext_clear b h :=
    (lowestClearFrom_spec b 32 0 (Or.inl (by decide)) (by simp)).2.2.1
      (exists_clear_of_ne_allOnes h)
  findNext_lowest b := (lowestClearFrom_spec b 32 0 (Or.inl (by decide)) (by simp)).2.1
  findNext_full := by decide
  getBit b i := b.getLsbD i
  getBit_eq _ _ _ := rfl
  setBit b i := b ||| BitVec.twoPow 32 i
  setBit_eq _ _ _ := rfl
  clrBit b i := b &&& ~~~BitVec.twoPow 32 i
  clrBit_eq _ _ _ := rfl
  initBits := 0
  initBits_eq := rfl
  grants _ := true
  block n := memBlockSize * (n + 16)
  block_aligned n := Nat.mul_mod_right _ _
  block_pos n := by unfold memBlockSize; omega
  block_apart n k h := by unfold memBlockSize; omega
  block_off_tables n := by unfold memBlockSize; omega
  block_off_pages n := by unfold memBlockSize; omega
  stale _ _ := false
  staleVirqs _ _ := ⟨0, 0, .inactive, 0, 0, false, false, false⟩

end RtHypervisor.Ports.Platform
