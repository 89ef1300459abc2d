import Mathlib.Tactic
import RtHypervisor.Ports.Stage2Map

/-!
# `s2_translate` and the walk

The walk in software takes every level-1 entry for a table, adds the offset of an address in a
block of 1 MB, and reads its level-3 entry through a null pointer.  It agrees with the hardware
in the lower half of a level-2 block; an unmapped address is recognised only where there is no
level-1 entry and the index of level 2 is 0.
-/

namespace RtHypervisor.Ports.Stage2

open RtHypervisor.Verified.Run
open RtHypervisor.Verified.ByteMem
open RtHypervisor.Verified.BitField
open RtHypervisor.Ports.Platform

/-- The part of `s2_translate` behind `pmd_ptr`, over what reads a word. -/
def translatePmd (read : Nat → Except Fault (BitVec 64)) (pmdPtr : Nat) (va : BitVec 64) :
    Except Fault (RtErr × BitVec 64) := do
  let pmd ← read pmdPtr
  if pmd &&& mmuTypeMask = mmuTypeBlock then
    pure (.eok, (pmd &&& tableAddrMask) + (va &&& ~~~l2BlockOaMask))
  else
    .error .nullPointer

/-- `s2_translate`, over what reads a word. -/
def s2TranslateBy (read : Nat → Except Fault (BitVec 64)) (pgdTbl va : BitVec 64) :
    Except Fault (RtErr × BitVec 64) :=
  let pudPtr := (pgdTbl &&& tableAddrMask).toNat + 8 * s2PudIdx va
  if pudPtr = 0 then
    pure (.error, 0)
  else do
    let pud ← read pudPtr
    let pmdPtr := (pud &&& tableAddrMask).toNat + 8 * s2PmdIdx va
    if pmdPtr = 0 then
      pure (.error, 0)
    else
      translatePmd read pmdPtr va

private theorem s2TranslateBy_rd (s : S2) : s2TranslateBy (rd s) = s2Translate s := rfl

section Reads

variable (B : Board) (id : Nat)

instance (m : Mem) (x : Nat) : Decidable (Reached B id m x) := by
  unfold Reached
  infer_instance

/-- The eight bytes at `p` lie in the tables. -/
def WordReached (m : Mem) (p : Nat) : Prop := ∀ i, i < 8 → Reached B id m (p + i)

instance (m : Mem) (p : Nat) : Decidable (WordReached B id m p) := by
  unfold WordReached
  infer_instance

/-- Read a word of the tables, and nothing else. -/
def rdIn (s : S2) (p : Nat) : Except Fault (BitVec 64) := do
  check .outOfBounds (decide (WordReached B id s.mem p))
  rd s p

/-- `s2_translate` agrees with the walk at `ipa` and reads nothing but the tables. -/
def Agrees (s : S2) (ipa : Nat) : Prop :=
  match s2TranslateBy (rdIn B id s) (pgdTbl B id) (BitVec.ofNat 64 ipa) with
  | .ok (.eok, pa) => walk s.mem (tableAddr B id) ipa = some pa.toNat
  | .ok _ => walk s.mem (tableAddr B id) ipa = none
  | .error _ => False

/-- Where `s2_translate` looks for the level-2 entry. -/
def pmdPtr (s : S2) (ipa : Nat) : Nat :=
  (word1 B id s.mem (ipa / 2 ^ 30) &&& tableAddrMask).toNat + 8 * (ipa / 2 ^ 21 % 512)

/-- Level 1 has a table and level 2 a block, and of the low 21 bits of the output address the
entry has set what bit 20 of `ipa` adds; or there is no table, the index is 0, and `ipa` is not
mapped. -/
def TranslateCond (s : S2) (ipa : Nat) : Prop :=
  (isTable (word1 B id s.mem (ipa / 2 ^ 30)) = true ∧ 4096 ≤ pmdPtr B id s ipa ∧
      isBlock (load64 s.mem (pmdPtr B id s ipa)) = true ∧
      (load64 s.mem (pmdPtr B id s ipa) &&& tableAddrMask).toNat % 2 ^ 21 =
        ipa / 2 ^ 20 % 2 * 2 ^ 20) ∨
    pmdPtr B id s ipa = 0 ∧ walk s.mem (tableAddr B id) ipa = none

/-- The physical range of a mapping is nowhere in the tables of the VM. -/
def OffTables (d : MemDesc) : Prop :=
  ∀ x, d.paddrStart.toNat ≤ x →
    x < d.paddrStart.toNat + (d.vaddrEnd.toNat - d.vaddrStart.toNat) →
    ¬ (tableAddr B id ≤ x ∧ x < tableAddr B id + 8192) ∧
      ∀ j, j < mmuTblPageNrMax → ¬ (pageAddr B id j ≤ x ∧ x < pageAddr B id j + 4096)

end Reads

section Agree

variable {B : Board} {id : Nat} {s : S2} {page : Nat → Option Nat}

/-- The offset that is added to the address of a level-2 block. -/
theorem blockOffset {ipa : Nat} (hipa : ipa < 2 ^ 40) :
    (BitVec.ofNat 64 ipa &&& ~~~l2BlockOaMask).toNat = ipa % 2 ^ 20 := by
  have hnat : (BitVec.ofNat 64 ipa).toNat = ipa := by
    rw [BitVec.toNat_ofNat]
    omega
  have hmask : BitVec.ofNat 64 ipa &&& ~~~l2BlockOaMask =
      BitVec.ofNat 64 ipa &&& BitVec.ofNat 64 (2 ^ 20 - 1) := by
    apply BitVec.eq_of_getLsbD_eq
    intro i hi
    have hlow : (BitVec.ofNat 64 (2 ^ 20 - 1)).getLsbD i = decide (i < 20) := by
      rw [BitVec.getLsbD_ofNat, Nat.testBit_two_pow_sub_one]
      simp [hi]
    rw [BitVec.getLsbD_and, BitVec.getLsbD_and, BitVec.getLsbD_not, l2BlockOaMask_eq,
      getLsbD_bits (by decide) (by decide), hlow]
    by_cases h20 : i < 20
    · have : ¬ 20 ≤ i := by omega
      simp [h20, hi, this]
    · by_cases h48 : i < 48
      · have : 20 ≤ i := by omega
        simp [this, h48, h20]
      · have hbit : (BitVec.ofNat 64 ipa).getLsbD i = false := by
          rw [BitVec.getLsbD_ofNat, Nat.testBit_lt_two_pow]
          · exact Bool.and_false _
          · calc ipa < 2 ^ 40 := hipa
              _ ≤ 2 ^ i := Nat.pow_le_pow_right (by decide) (by omega)
        simp [hbit, h20]
  rw [hmask, toNat_and_low _ (by decide), hnat]

private theorem rdIn_ok {p : Nat} (hp : WordReached B id s.mem p) (hpos : 4096 ≤ p) :
    rdIn B id s p = .ok (load64 s.mem p) := by
  rw [rdIn, decide_eq_true hp, check_true, ok_bind, rd_ok hpos]

private theorem rdIn_error {p : Nat} (hp : ¬ WordReached B id s.mem p) :
    rdIn B id s p = .error .outOfBounds := by
  rw [rdIn, decide_eq_false hp, check_false, error_bind]

private theorem rdIn_low {p : Nat} (hp : WordReached B id s.mem p) (hlow : ¬ 4096 ≤ p) :
    rdIn B id s p = .error .nullPointer := by
  rw [rdIn, decide_eq_true hp, check_true, ok_bind, rd, decide_eq_false hlow, check_false,
    error_bind]

variable (h : Formed B id s page) (hid : id < maxVmNum)
include h hid

theorem reached_off {x : Nat} (hx : ¬ (tableAddr B id ≤ x ∧ x < tableAddr B id + 8192))
    (hpages : ∀ j, j < mmuTblPageNrMax → ¬ (pageAddr B id j ≤ x ∧ x < pageAddr B id j + 4096)) :
    ¬ Reached B id s.mem x := by
  rintro (htable | ⟨k, hk, hword, hlo, hhi⟩)
  · exact hx htable
  · cases hpage : page k with
    | none =>
        rw [(h.plain k hk hpage).not_table] at hword
        cases hword
    | some j =>
        obtain ⟨-, hj, -, hentry⟩ := h.table k j hpage
        rw [hentry, tableEntry_address B hid hj] at hlo hhi
        exact hpages j hj ⟨hlo, hhi⟩

omit h in
/-- The first read, of the level-1 entry. -/
theorem translate_level1 {read : Nat → Except Fault (BitVec 64)} {ipa : Nat} (hipa : ipa < 2 ^ 40)
    (hread : read (tableAddr B id + 8 * (ipa / 2 ^ 30)) =
      .ok (word1 B id s.mem (ipa / 2 ^ 30))) :
    s2TranslateBy read (pgdTbl B id) (BitVec.ofNat 64 ipa) =
      if pmdPtr B id s ipa = 0 then .ok (.error, 0)
      else translatePmd read (pmdPtr B id s ipa) (BitVec.ofNat 64 ipa) := by
  have hpos := (tableAddr_bounds B hid).1
  have hnat : (BitVec.ofNat 64 ipa).toNat = ipa := by
    rw [BitVec.toNat_ofNat]
    omega
  have hpud : s2PudIdx (BitVec.ofNat 64 ipa) = ipa / 2 ^ 30 := by
    have hidx : s2PudIdx (BitVec.ofNat 64 ipa) =
        (BitVec.ofNat 64 ipa).toNat / 2 ^ 30 % 1024 := rfl
    rw [hidx, hnat]
    omega
  have hpmd : s2PmdIdx (BitVec.ofNat 64 ipa) = ipa / 2 ^ 21 % 512 := by
    have hidx : s2PmdIdx (BitVec.ofNat 64 ipa) =
        (BitVec.ofNat 64 ipa).toNat / 2 ^ 21 % 512 := rfl
    rw [hidx, hnat]
  have hne : tableAddr B id + 8 * (ipa / 2 ^ 30) ≠ 0 := by omega
  simp only [s2TranslateBy, pgdTbl_address B hid, hpud, hpmd, hne, if_false, hread, ok_bind]
  rfl

omit h in
private theorem rdIn_level1 {ipa : Nat} (hipa : ipa < 2 ^ 40) :
    rdIn B id s (tableAddr B id + 8 * (ipa / 2 ^ 30)) = .ok (word1 B id s.mem (ipa / 2 ^ 30)) := by
  have hpos := (tableAddr_bounds B hid).1
  apply rdIn_ok
  · intro i hi
    exact Or.inl ⟨by omega, by omega⟩
  · omega

omit h in
/-- The address of a level-2 block, with what the code adds to it. -/
theorem s2Translate_block {ipa : Nat} (hipa : ipa < 2 ^ 40) (hlow : 4096 ≤ pmdPtr B id s ipa)
    (hblock : isBlock (load64 s.mem (pmdPtr B id s ipa)) = true) :
    s2Translate s (pgdTbl B id) (BitVec.ofNat 64 ipa) =
      .ok (.eok, (load64 s.mem (pmdPtr B id s ipa) &&& tableAddrMask) +
        (BitVec.ofNat 64 ipa &&& ~~~l2BlockOaMask)) := by
  have hpos := (tableAddr_bounds B hid).1
  have hne : pmdPtr B id s ipa ≠ 0 := by omega
  rw [← s2TranslateBy_rd, translate_level1 hid hipa (rd_ok (by omega)), if_neg hne, translatePmd,
    rd_ok hlow, ok_bind, if_pos (eq_of_beq hblock)]
  rfl

omit h hid in
/-- The level-2 entry of a table lies in it. -/
theorem pmdPtr_reached {ipa : Nat} (hipa : ipa < 2 ^ 40)
    (htable : isTable (word1 B id s.mem (ipa / 2 ^ 30)) = true) :
    WordReached B id s.mem (pmdPtr B id s ipa) := by
  intro i hi
  refine Or.inr ⟨ipa / 2 ^ 30, by omega, htable, ?_, ?_⟩
  · rw [pmdPtr]
    omega
  · rw [pmdPtr]
    omega

omit h hid in
/-- The walk through a level-2 block. -/
theorem walk_of_block {ipa : Nat} (htable : isTable (word1 B id s.mem (ipa / 2 ^ 30)) = true)
    (hblock : isBlock (load64 s.mem (pmdPtr B id s ipa)) = true) :
    walk s.mem (tableAddr B id) ipa =
      some ((load64 s.mem (pmdPtr B id s ipa) &&& l2OaMask).toNat + ipa % 2 ^ 21) := by
  have hl1 : load64 s.mem (tableAddr B id + 8 * (ipa / 2 ^ 30)) =
      word1 B id s.mem (ipa / 2 ^ 30) := rfl
  have hl2 : load64 s.mem ((word1 B id s.mem (ipa / 2 ^ 30) &&& tableAddrMask).toNat +
      8 * (ipa / 2 ^ 21 % 512)) = load64 s.mem (pmdPtr B id s ipa) := rfl
  have hnot : isTable (load64 s.mem (pmdPtr B id s ipa)) = false := by
    by_contra hne
    rw [Bool.not_eq_false] at hne
    rw [isBlock_eq_false_of_isTable hne] at hblock
    cases hblock
  rw [walk_eq_leaf]
  simp only [leaf, hl1, htable, if_true, hl2, hnot, Bool.false_eq_true, if_false, blockLeaf,
    hblock, Option.map_some]

omit h hid in
/-- What is added to the entry of a block, against what the walk adds. -/
theorem sum_eq_iff (e : BitVec 64) {ipa : Nat} (hipa : ipa < 2 ^ 40) :
    (e &&& l2OaMask).toNat + ipa % 2 ^ 21 =
        ((e &&& tableAddrMask) + (BitVec.ofNat 64 ipa &&& ~~~l2BlockOaMask)).toNat ↔
      (e &&& tableAddrMask).toNat % 2 ^ 21 = ipa / 2 ^ 20 % 2 * 2 ^ 20 := by
  have htable : (e &&& tableAddrMask).toNat = e.toNat % 2 ^ 48 / 2 ^ 12 * 2 ^ 12 := by
    rw [tableAddrMask_eq, toNat_and_bits _ (by decide) (by decide)]
  have hblock : (e &&& l2OaMask).toNat = e.toNat % 2 ^ 48 / 2 ^ 21 * 2 ^ 21 := by
    rw [l2OaMask_eq, toNat_and_bits _ (by decide) (by decide)]
  rw [BitVec.toNat_add, blockOffset hipa, htable, hblock]
  omega

omit h in
/-- **`s2_translate` and the walk**, on every state of the tables.  Where level 1 has no table,
the converse asks that the address in its entry does not lead back into the tables. -/
theorem s2_translate_agrees {ipa : Nat} (hipa : ipa < 2 ^ 40) :
    (TranslateCond B id s ipa → Agrees B id s ipa) ∧
      ((isTable (word1 B id s.mem (ipa / 2 ^ 30)) = false →
          ¬ WordReached B id s.mem (pmdPtr B id s ipa)) →
        Agrees B id s ipa → TranslateCond B id s ipa) := by
  rw [Agrees, translate_level1 hid hipa (rdIn_level1 hid hipa)]
  by_cases hptr : pmdPtr B id s ipa = 0
  · rw [if_pos hptr]
    constructor
    · rintro (⟨-, hlow, -⟩ | ⟨-, hnone⟩)
      · omega
      · exact hnone
    · exact fun _ hnone => Or.inr ⟨hptr, hnone⟩
  · rw [if_neg hptr, translatePmd]
    constructor
    · rintro (⟨htable, hpos, hblock, hfield⟩ | ⟨hzero, -⟩)
      · rw [rdIn_ok (pmdPtr_reached hipa htable) hpos, ok_bind, if_pos (eq_of_beq hblock)]
        exact (walk_of_block htable hblock).trans
          (congrArg some ((sum_eq_iff _ hipa).mpr hfield))
      · exact absurd hzero hptr
    · intro hoff hagrees
      left
      by_cases htable : isTable (word1 B id s.mem (ipa / 2 ^ 30)) = true
      · have hreached := pmdPtr_reached hipa htable
        by_cases hpos : 4096 ≤ pmdPtr B id s ipa
        · rw [rdIn_ok hreached hpos, ok_bind] at hagrees
          by_cases htype : load64 s.mem (pmdPtr B id s ipa) &&& mmuTypeMask = mmuTypeBlock
          · have hblock : isBlock (load64 s.mem (pmdPtr B id s ipa)) = true := by
              rw [isBlock, htype, beq_self_eq_true]
            rw [if_pos htype] at hagrees
            have hvalue : walk s.mem (tableAddr B id) ipa =
                some ((load64 s.mem (pmdPtr B id s ipa) &&& tableAddrMask) +
                  (BitVec.ofNat 64 ipa &&& ~~~l2BlockOaMask)).toNat := hagrees
            rw [walk_of_block htable hblock] at hvalue
            exact ⟨htable, hpos, hblock, (sum_eq_iff _ hipa).mp (Option.some.inj hvalue)⟩
          · rw [if_neg htype] at hagrees
            exact hagrees.elim
        · rw [rdIn_low hreached hpos, error_bind] at hagrees
          exact hagrees.elim
      · rw [rdIn_error (hoff (Bool.eq_false_of_not_eq_true htable)), error_bind] at hagrees
        exact hagrees.elim

/-- On a table of blocks: the lower half of a level-2 block, or the first 2 MB of a region that
has no entry. -/
theorem translateCond_iff {ipa : Nat} (hipa : ipa < 2 ^ 40) :
    TranslateCond B id s ipa ↔
      ((page (ipa / 2 ^ 30)).isSome ∧ leaf s.mem (tableAddr B id) ipa ≠ none ∧
          ipa % 2 ^ 21 < 2 ^ 20) ∨
        word1 B id s.mem (ipa / 2 ^ 30) = 0 ∧ ipa / 2 ^ 21 % 512 = 0 := by
  cases hpage : page (ipa / 2 ^ 30) with
  | some j =>
      obtain ⟨-, hj, -, hentry⟩ := h.table _ j hpage
      have hpos := (pageAddr_bounds B hid hj).1
      have htable := tableEntry_isTable B id j
      have hne : tableEntry B id j ≠ 0 := by
        intro heq
        rw [heq] at htable
        exact absurd htable (by decide)
      have hptr : pmdPtr B id s ipa = pageAddr B id j + 8 * (ipa / 2 ^ 21 % 512) := by
        rw [pmdPtr, hentry, tableEntry_address B hid hj]
      have hword : load64 s.mem (pmdPtr B id s ipa) = word2 B id s.mem j (ipa / 2 ^ 21 % 512) := by
        rw [hptr]
        rfl
      have hlow : 4096 ≤ pmdPtr B id s ipa := by omega
      have hnull : pmdPtr B id s ipa ≠ 0 := by omega
      have hcell := h.cells _ j hpage (ipa / 2 ^ 21 % 512) (by omega)
      simp only [TranslateCond, hentry, htable, hlow, hnull, hne, hword, leaf_of_page h hid hpage,
        ne_eq, blockLeaf_eq_none hcell, Option.isSome_some, true_and, false_and, or_false]
      rcases hcell with hzero | ⟨hblock, haddress⟩
      · have hnot : isBlock (0 : BitVec 64) = false := by decide
        simp only [hzero, hnot, Bool.false_eq_true, false_and, not_true_eq_false]
      · have hfield : (word2 B id s.mem j (ipa / 2 ^ 21 % 512) &&& tableAddrMask).toNat % 2 ^ 21 =
            0 := by
          rw [haddress, l2OaMask_eq, toNat_and_bits _ (by decide) (by decide)]
          exact Nat.mul_mod_left _ _
        simp only [hblock, isBlock_ne_zero hblock, hfield, true_and, not_false_eq_true]
        omega
  | none =>
      have hplain := h.plain _ (by omega) hpage
      have hwalk : walk s.mem (tableAddr B id) ipa = none ↔
          word1 B id s.mem (ipa / 2 ^ 30) = 0 := by
        rw [walk_eq_leaf, leaf_of_plain h hipa hpage, Option.map_eq_none_iff,
          blockLeaf_eq_none hplain]
      simp only [TranslateCond, hplain.not_table, hwalk, Bool.false_eq_true, false_and, false_or,
        Option.isSome_none]
      constructor
      · rintro ⟨hptr, hzero⟩
        rw [pmdPtr] at hptr
        exact ⟨hzero, by omega⟩
      · rintro ⟨hzero, hidx⟩
        have hbase : ((0 : BitVec 64) &&& tableAddrMask).toNat = 0 := by decide
        refine ⟨?_, hzero⟩
        rw [pmdPtr, hzero, hbase, hidx]

/-- On a table of blocks away from the tables, no other entry of level 1 leads into them. -/
theorem not_wordReached {ds : List MemDesc} (hinv : BuiltInv B id s ds page) {ipa : Nat}
    (hipa : ipa < 2 ^ 40) (hoff : ∀ d ∈ ds, OffTables B id d)
    (hnot : isTable (word1 B id s.mem (ipa / 2 ^ 30)) = false) :
    ¬ WordReached B id s.mem (pmdPtr B id s ipa) := by
  have hpage : page (ipa / 2 ^ 30) = none := by
    cases hcase : page (ipa / 2 ^ 30) with
    | none => rfl
    | some j =>
        obtain ⟨-, hj, -, hentry⟩ := h.table _ j hcase
        rw [hentry, tableEntry_isTable B id j] at hnot
        cases hnot
  intro hreached
  have hbyte := hreached 0 (by decide)
  rw [Nat.add_zero] at hbyte
  refine absurd hbyte ?_
  rcases h.plain _ (by omega) hpage with hzero | ⟨hblock, haddress⟩
  · have hbase : ((0 : BitVec 64) &&& tableAddrMask).toNat = 0 := by decide
    rw [pmdPtr, hzero, hbase]
    apply reached_off h hid
    · have := (tableAddr_bounds B hid).1
      omega
    · intro j hj
      have := (pageAddr_bounds B hid hj).1
      omega
  · -- the word lies in the block, at the address of a guest word
    have hregion : (ipa / 2 ^ 30 * 2 ^ 30 + 8 * (ipa / 2 ^ 21 % 512)) / 2 ^ 30 =
        ipa / 2 ^ 30 := by omega
    have hmod : (ipa / 2 ^ 30 * 2 ^ 30 + 8 * (ipa / 2 ^ 21 % 512)) % 2 ^ 30 =
        8 * (ipa / 2 ^ 21 % 512) := by omega
    have hleaf : leaf s.mem (tableAddr B id)
        (ipa / 2 ^ 30 * 2 ^ 30 + 8 * (ipa / 2 ^ 21 % 512)) =
        some (pmdPtr B id s ipa, word1 B id s.mem (ipa / 2 ^ 30) &&& ~~~tableAddrMask) := by
      rw [leaf_of_plain h (by omega) (by rw [hregion]; exact hpage), hregion, blockLeaf,
        if_pos hblock, hmod, pmdPtr, haddress]
    obtain ⟨d, hd, ⟨hlo, hhi⟩, hvalue⟩ := hinv.covered _ (by omega) _ hleaf
    have hplace := congrArg Prod.fst hvalue
    simp only at hplace
    have hout := hoff d hd (pmdPtr B id s ipa) (by omega) (by omega)
    exact reached_off h hid hout.1 hout.2

end Agree

theorem s2_translate_agrees_two : ∃ s, Built roomy 0 MapCond s [twoBlocks] ∧
    Agrees roomy 0 s 0x40200000 := by
  obtain ⟨s, hbuilt, hvalue⟩ := twoBlocks_built (fun s =>
    (isTable (word1 roomy 0 s.mem 1), pmdPtr roomy 0 s 0x40200000,
      isBlock (load64 s.mem (pmdPtr roomy 0 s 0x40200000)),
      (load64 s.mem (pmdPtr roomy 0 s 0x40200000) &&& tableAddrMask).toNat))
    (v := (true, 0x200008, true, 0x80200000)) (by decide)
  simp only [Prod.mk.injEq] at hvalue
  obtain ⟨htable, hptr, hblock, haddress⟩ := hvalue
  have hcond : TranslateCond roomy 0 s 0x40200000 := by
    refine Or.inl ⟨htable, ?_, hblock, ?_⟩
    · rw [hptr]
      decide
    · rw [haddress]
      decide
  exact ⟨s, hbuilt, (s2_translate_agrees (by decide) (by decide)).1 hcond⟩

/-- The upper half of a block: the address is 1 MB too low. -/
theorem s2_translate_upper_half :
    ¬ ∀ (B : Board) (id : Nat), id < maxVmNum → ∀ (s : S2) (ds : List MemDesc),
      Built B id MapCond s ds → (∀ d ∈ ds, OffTables B id d) → ∀ ipa, ipa < 2 ^ 40 →
        Agrees B id s ipa := by
  intro hall
  obtain ⟨s, hbuilt, hvalue⟩ := twoBlocks_built (fun s =>
    ((s2TranslateBy (rdIn roomy 0 s) (pgdTbl roomy 0) 0x40100000).map
        (fun r => (r.1, r.2.toNat)),
      walk s.mem (tableAddr roomy 0) 0x40100000)) (v := (.ok (.eok, 0x80000000), some 0x80100000))
    (by decide +kernel)
  simp only [Prod.mk.injEq] at hvalue
  obtain ⟨⟨ret, pa⟩, hrun, hret⟩ := exists_of_map_eq_ok hvalue.1
  simp only [Prod.mk.injEq] at hret
  obtain ⟨rfl, hpa⟩ := hret
  have hoff : ∀ d ∈ [twoBlocks], OffTables roomy 0 d := by
    intro d hd x hlo _
    rw [List.mem_singleton.mp hd] at hlo
    have hstart : twoBlocks.paddrStart.toNat = 0x80000000 := by decide
    have htable : tableAddr roomy 0 = 0x100000 := rfl
    refine ⟨by omega, ?_⟩
    intro j hj
    have hpage : pageAddr roomy 0 j = 0x200000 + 4096 * (32 * 0 + j) := rfl
    have hmax : mmuTblPageNrMax = 32 := rfl
    omega
  have hagrees := hall roomy 0 (by decide) s [twoBlocks] hbuilt hoff 0x40100000 (by decide)
  have hva : BitVec.ofNat 64 0x40100000 = 0x40100000 := rfl
  rw [Agrees, hva, hrun] at hagrees
  simp only at hagrees
  rw [hvalue.2, hpa] at hagrees
  exact absurd hagrees (by decide)

end RtHypervisor.Ports.Stage2
