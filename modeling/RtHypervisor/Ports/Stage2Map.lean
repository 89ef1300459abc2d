import Mathlib.Tactic
import RtHypervisor.Ports.Stage2Rows

/-!
# What `s2_map` does to the walk

A block mapping that stays inside one region of 1 GB, or that covers such regions as a whole,
reads as the old table with the new range on top: `s2Map_fits`, and for whole runs of mappings
`s2_map_right`.  `s2_map_shifted` is a region of 1 GB that is mapped to the wrong address, as the
physical address is cut down to a multiple of 1 GB.  A range that crosses a boundary of 1 GB ends
worse: `s2_map_pmd` goes on behind its table page.
-/

namespace RtHypervisor.Ports.Stage2

open RtHypervisor.Verified.Run
open RtHypervisor.Verified.ByteMem
open RtHypervisor.Verified.BitField
open RtHypervisor.Ports.Platform

/-! ## `s2_map` -/

/-- A block mapping that `s2_map` accepts: 2 MB aligned, below the limits, and with attributes
only in `attr`. -/
structure Mappable (d : MemDesc) : Prop where
  attr : CleanAttr d.attr
  start : d.vaddrStart.toNat % 2 ^ 21 = 0
  finish : d.vaddrEnd.toNat % 2 ^ 21 = 0
  paddr : d.paddrStart.toNat % 2 ^ 21 = 0
  nonempty : d.vaddrStart.toNat < d.vaddrEnd.toNat
  limit : d.vaddrEnd.toNat < 2 ^ 40
  paddrLimit : d.paddrStart.toNat < 2 ^ 40

/-- The range lies in one region of 1 GB and does not fill it, or it consists of such regions
and the physical address is 1 GB aligned, too. -/
def Fits (d : MemDesc) : Prop :=
  (d.vaddrStart.toNat / 2 ^ 30 = (d.vaddrEnd.toNat - 1) / 2 ^ 30 ∧
      ¬ (d.vaddrStart.toNat % 2 ^ 30 = 0 ∧ d.vaddrEnd.toNat % 2 ^ 30 = 0)) ∨
    d.vaddrStart.toNat % 2 ^ 30 = 0 ∧ d.vaddrEnd.toNat % 2 ^ 30 = 0 ∧
      d.paddrStart.toNat % 2 ^ 30 = 0

instance (d : MemDesc) : Decidable (Fits d) := by
  unfold Fits
  infer_instance

/-- The addresses of a descriptor. -/
def Covers (d : MemDesc) (ipa : Nat) : Prop := d.vaddrStart.toNat ≤ ipa ∧ ipa < d.vaddrEnd.toNat

/-- `mm->pgd_tbl`. -/
def pgdTbl (B : Board) (id : Nat) : BitVec 64 :=
  mmuTypeTable ||| (BitVec.ofNat 64 (tableAddr B id) &&& tableAddrMask)

theorem pgdTbl_address (B : Board) {id : Nat} (hid : id < maxVmNum) :
    (pgdTbl B id &&& tableAddrMask).toNat = tableAddr B id := by
  obtain ⟨-, hlt, halign⟩ := tableAddr_bounds B hid
  have hmask : pgdTbl B id &&& tableAddrMask =
      BitVec.ofNat 64 (tableAddr B id) &&& tableAddrMask := by
    have hoff : mmuTypeTable &&& tableAddrMask = 0#64 := by decide
    rw [pgdTbl, BitVec.and_or_distrib_right, BitVec.and_assoc, hoff]
    simp
  rw [hmask, tableAddrMask_eq, toNat_and_bits _ (by decide) (by decide), BitVec.toNat_ofNat]
  omega

/-- Every table page is in use. -/
def Used (B : Board) (id : Nat) (s : S2) (page : Nat → Option Nat) : Prop :=
  ∀ k j, page k = some j → ∃ ipa, ipa / 2 ^ 30 = k ∧ leaf s.mem (tableAddr B id) ipa ≠ none

/-- What a successful `s2_map` leaves. -/
structure MapsTo (B : Board) (id : Nat) (s : S2) (d : MemDesc) (s' : S2)
    (page : Nat → Option Nat) : Prop where
  formed : Formed B id s' page
  used : Used B id s' page
  frame : UnchangedOff (Within B id page) s.mem s'.mem
  leaf : ∀ ipa, ipa < 2 ^ 40 → leaf s'.mem (tableAddr B id) ipa =
    mapped d.vaddrStart.toNat (d.vaddrEnd.toNat - d.vaddrStart.toNat) d.paddrStart.toNat d.attr
      (leaf s.mem (tableAddr B id)) ipa

/-- Table pages stay where they are, and region `k` has one. -/
def Paged (page page' : Nat → Option Nat) (k : Nat) : Prop :=
  (∃ j, page' k = some j) ∧ ∀ k j, page k = some j → page' k = some j

private theorem mapped_ne_none {va size pa : Nat} {attr : BitVec 64}
    {old : Nat → Option (Nat × BitVec 64)} {ipa : Nat} (h : old ipa ≠ none) :
    mapped va size pa attr old ipa ≠ none := by
  unfold mapped
  split
  · simp
  · exact h

section Map

variable {B : Board} {id : Nat} {s : S2} {page : Nat → Option Nat} {d : MemDesc}
  (h : Formed B id s page) (hid : id < maxVmNum)

private theorem s2MapPudLoop_succ (B : Board) (id fuel : Nat) (s : S2) (d : MemDesc) (ptr : Nat) :
    s2MapPudLoop B id (fuel + 1) s d ptr = (do
      match ← s2MapPudEntry B s d id ptr with
      | none => pure (.enomem, s, d)
      | some (s, d') =>
          if nextBoundary s2PudSize d ≠ d'.vaddrEnd then
            s2MapPudLoop B id fuel s { d' with
              paddrStart := d'.paddrStart + (nextBoundary s2PudSize d - d.vaddrStart)
              vaddrStart := nextBoundary s2PudSize d } (ptr + 8)
          else
            pure (.eok, s, { d' with
              paddrStart := d'.paddrStart + (nextBoundary s2PudSize d - d.vaddrStart)
              vaddrStart := nextBoundary s2PudSize d })) := rfl

/-- The blocks of a range inside one region, seen from its table page. -/
theorem Mappable.blocks (hd : Mappable d) : Blocks 21 d
    ((d.vaddrEnd.toNat - d.vaddrStart.toNat) / 2 ^ 21) where
  pos := by
    have := hd.start
    have := hd.finish
    have := hd.nonempty
    omega
  start := hd.start
  finish := by
    have := hd.start
    have := hd.finish
    have := hd.nonempty
    omega
  limit := hd.limit
  type := hd.attr.type

include h hid

/-- The inner call, once the table page is there. -/
theorem s2MapPmd_region (hd : Mappable d) {k j : Nat} (hpage : page k = some j)
    (hstart : d.vaddrStart.toNat / 2 ^ 30 = k) (hend : (d.vaddrEnd.toNat - 1) / 2 ^ 30 = k)
    (hfree : ∀ ipa, Covers d ipa → leaf s.mem (tableAddr B id) ipa = none)
    {tbl : BitVec 64} (htbl : tbl.toNat = pageAddr B id j) :
    ∃ s' d', s2MapPmd B s tbl d id = .ok (.eok, s', d') ∧ d'.vaddrEnd = d.vaddrEnd ∧
      s'.pageBitmap = s.pageBitmap ∧ Formed B id s' page ∧
      UnchangedOff (Within B id page) s.mem s'.mem ∧
      ∀ ipa, ipa < 2 ^ 40 → leaf s'.mem (tableAddr B id) ipa =
        mapped d.vaddrStart.toNat (d.vaddrEnd.toNat - d.vaddrStart.toNat) d.paddrStart.toNat
          d.attr (leaf s.mem (tableAddr B id)) ipa := by
  obtain ⟨hk, hj, -, -⟩ := h.table k j hpage
  have hs := hd.start
  have hf := hd.finish
  have hne := hd.nonempty
  have hlim := hd.limit
  have hpl := hd.paddrLimit
  have hpos := (pageAddr_bounds B hid hj).1
  have hidx : s2PmdIdx d.vaddrStart = d.vaddrStart.toNat / 2 ^ 21 % 512 := rfl
  have hzero : ∀ i, i < (d.vaddrEnd.toNat - d.vaddrStart.toNat) / 2 ^ 21 →
      load64 s.mem (tbl.toNat + 8 * s2PmdIdx d.vaddrStart + 8 * i) = 0 := by
    intro i hi
    have hipa : (d.vaddrStart.toNat + i * 2 ^ 21) / 2 ^ 30 = k := by omega
    have hnone := hfree (d.vaddrStart.toNat + i * 2 ^ 21) ⟨by omega, by omega⟩
    rw [leaf_of_page h hid (by rw [hipa]; exact hpage),
      blockLeaf_eq_none (h.cells k j hpage _ (by omega))] at hnone
    have hcell : (d.vaddrStart.toNat + i * 2 ^ 21) / 2 ^ 21 % 512 =
        d.vaddrStart.toNat / 2 ^ 21 % 512 + i := by omega
    rw [hcell] at hnone
    have haddr : tbl.toNat + 8 * s2PmdIdx d.vaddrStart + 8 * i =
        pageAddr B id j + 8 * (d.vaddrStart.toNat / 2 ^ 21 % 512 + i) := by
      rw [htbl, hidx]
      omega
    rw [haddr]
    exact hnone
  obtain ⟨d', hrun, hends, -⟩ := @s2MapPmdLoop_blocks B id _
    (tbl.toNat + 8 * s2PmdIdx d.vaddrStart) _ (2 ^ 20) _ hd.blocks (by omega) (by omega) hzero
  obtain ⟨hformed, hframe, hleaf⟩ := @formed_row2 _ _ _ _ h hid _ _
    (d.vaddrStart.toNat / 2 ^ 21 % 512)
    ((d.vaddrEnd.toNat - d.vaddrStart.toNat) / 2 ^ 21) _ _ hpage (by omega) hd.attr hd.paddr
    (by omega) _ rfl
  have hptr : tbl.toNat + 8 * s2PmdIdx d.vaddrStart =
      pageAddr B id j + 8 * (d.vaddrStart.toNat / 2 ^ 21 % 512) := by rw [htbl, hidx]
  rw [hptr] at hrun
  refine ⟨⟨storeWords s.mem (pageAddr B id j + 8 * (d.vaddrStart.toNat / 2 ^ 21 % 512))
    (blockRow 21 l2BlockOaMask d.attr d.paddrStart)
    ((d.vaddrEnd.toNat - d.vaddrStart.toNat) / 2 ^ 21), s.pageBitmap⟩,
    d', ?_, hends, rfl, hformed, hframe, ?_⟩
  · rw [s2MapPmd, hptr]
    exact hrun
  · intro ipa hipa
    rw [hleaf ipa hipa]
    congr 1 <;> omega

/-- A range inside one region. -/
theorem s2MapPud_region (hused : Used B id s page) (hd : Mappable d)
    (hregion : d.vaddrStart.toNat / 2 ^ 30 = (d.vaddrEnd.toNat - 1) / 2 ^ 30)
    (hpart : ¬ (d.vaddrStart.toNat % 2 ^ 30 = 0 ∧ d.vaddrEnd.toNat % 2 ^ 30 = 0))
    (hfree : ∀ ipa, Covers d ipa → leaf s.mem (tableAddr B id) ipa = none)
    {tbl : BitVec 64} (htbl : tbl.toNat = tableAddr B id) :
    (s.pageBitmap id = BitVec.allOnes 32 ∧ s2MapPud B s tbl d id = .ok (.enomem, s, d)) ∨
      ∃ s' d' page', s2MapPud B s tbl d id = .ok (.eok, s', d') ∧ d'.vaddrEnd = d.vaddrEnd ∧
        d'.vaddrStart = d.vaddrEnd ∧ MapsTo B id s d s' page' ∧
        Paged page page' (d.vaddrStart.toNat / 2 ^ 30) := by
  have hs := hd.start
  have hf := hd.finish
  have hne := hd.nonempty
  have hlim := hd.limit
  have hk : d.vaddrStart.toNat / 2 ^ 30 < 1024 := by omega
  have hpos := (tableAddr_bounds B hid).1
  have hidx : s2PudIdx d.vaddrStart = d.vaddrStart.toNat / 2 ^ 30 := by
    have : s2PudIdx d.vaddrStart = d.vaddrStart.toNat / 2 ^ 30 % 1024 := rfl
    omega
  have hptr : tbl.toNat + 8 * s2PudIdx d.vaddrStart =
      tableAddr B id + 8 * (d.vaddrStart.toNat / 2 ^ 30) := by rw [htbl, hidx]
  have hnext : nextBoundary s2PudSize d = d.vaddrEnd := by
    rw [← BitVec.toNat_inj, s2PudSize_eq, nextBoundary_toNat (by decide) (by omega)]
    have hlt : (d.vaddrEnd.toNat - 1) / 2 ^ 30 < d.vaddrStart.toNat / 2 ^ 30 + 1 := by
      rw [hregion]
      exact Nat.lt_succ_self _
    have hle := (Nat.div_lt_iff_lt_mul (Nat.two_pow_pos 30)).mp hlt
    exact Nat.min_eq_right (Nat.le_of_pred_lt hle)
  -- the region does not become a block
  have hnoblock : ∀ e, s2MapPudBlock e d = false := by
    intro e
    have hbits : ¬ (is1GAlign d.vaddrStart = true ∧
        is1GAlign (d.vaddrEnd - d.vaddrStart) = true) := by
      rintro ⟨h₁, h₂⟩
      rw [is1GAlign_iff] at h₁ h₂
      have hsub : (d.vaddrEnd - d.vaddrStart).toNat =
          d.vaddrEnd.toNat - d.vaddrStart.toNat := by
        rw [BitVec.toNat_sub]
        omega
      rw [hsub] at h₂
      exact hpart ⟨h₁, by omega⟩
    by_contra hblock
    rw [Bool.not_eq_false] at hblock
    simp only [s2MapPudBlock, Bool.and_eq_true] at hblock
    exact hbits ⟨hblock.1.2, hblock.2⟩
  have hword : load64 s.mem (tableAddr B id + 8 * (d.vaddrStart.toNat / 2 ^ 30)) =
      word1 B id s.mem (d.vaddrStart.toNat / 2 ^ 30) := rfl
  have hloop : s2MapPud B s tbl d id = (do
      match ← s2MapPudEntry B s d id
        (tableAddr B id + 8 * (d.vaddrStart.toNat / 2 ^ 30)) with
      | none => pure (.enomem, s, d)
      | some (s, d') =>
          if d.vaddrEnd ≠ d'.vaddrEnd then
            s2MapPudLoop B id 2047 s { d' with
              paddrStart := d'.paddrStart + (d.vaddrEnd - d.vaddrStart)
              vaddrStart := d.vaddrEnd }
              (tableAddr B id + 8 * (d.vaddrStart.toNat / 2 ^ 30) + 8)
          else
            pure (.eok, s, { d' with
              paddrStart := d'.paddrStart + (d.vaddrEnd - d.vaddrStart)
              vaddrStart := d.vaddrEnd })) := by
    have hfuel : (2 : Nat) ^ 11 = 2047 + 1 := rfl
    rw [s2MapPud, hptr, hfuel, s2MapPudLoop_succ, hnext]
  -- what the inner call leaves, from the state with the table page
  have hinner : ∀ (s₁ : S2) (page₁ : Nat → Option Nat) (j : Nat) (e : BitVec 64),
      Formed B id s₁ page₁ → page₁ (d.vaddrStart.toNat / 2 ^ 30) = some j →
      (e &&& tableAddrMask).toNat = pageAddr B id j →
      (∀ ipa, ipa < 2 ^ 40 →
        leaf s₁.mem (tableAddr B id) ipa = leaf s.mem (tableAddr B id) ipa) →
      UnchangedOff (Within B id page₁) s.mem s₁.mem →
      (∀ k j, page₁ k = some j → k ≠ d.vaddrStart.toNat / 2 ^ 30 → page k = some j) →
      ∃ s' d', s2MapPmd B s₁ (e &&& tableAddrMask) d id = .ok (.eok, s', d') ∧
        d'.vaddrEnd = d.vaddrEnd ∧ MapsTo B id s d s' page₁ := by
    intro s₁ page₁ j e h₁ hpage₁ he hsame hframe hback
    have hfree₁ : ∀ ipa, Covers d ipa → leaf s₁.mem (tableAddr B id) ipa = none := by
      rintro ipa ⟨hlo, hhi⟩
      rw [hsame ipa (by omega)]
      exact hfree ipa ⟨hlo, hhi⟩
    obtain ⟨s', d', hrun, hends, -, hformed, hframe', hleaf⟩ :=
      s2MapPmd_region h₁ hid hd hpage₁ rfl hregion.symm hfree₁ he
    have hleaf' : ∀ ipa, ipa < 2 ^ 40 → leaf s'.mem (tableAddr B id) ipa =
        mapped d.vaddrStart.toNat (d.vaddrEnd.toNat - d.vaddrStart.toNat) d.paddrStart.toNat
          d.attr (leaf s.mem (tableAddr B id)) ipa := by
      intro ipa hipa
      rw [hleaf ipa hipa]
      simp only [mapped, hsame ipa hipa]
    refine ⟨s', d', hrun, hends, hformed, ?_, hframe.trans hframe', hleaf'⟩
    intro k j' hpage'
    by_cases hsame' : k = d.vaddrStart.toNat / 2 ^ 30
    · refine ⟨d.vaddrStart.toNat, hsame'.symm, ?_⟩
      rw [hleaf' _ (by omega), mapped, if_pos ⟨le_refl _, by omega⟩]
      simp
    · obtain ⟨ipa, hipa, hleafold⟩ := hused k j' (hback k j' hpage' hsame')
      have hklt := (hformed.table k j' hpage').1
      refine ⟨ipa, hipa, ?_⟩
      rw [hleaf' ipa (by omega)]
      exact mapped_ne_none hleafold
  cases hpage : page (d.vaddrStart.toNat / 2 ^ 30) with
  | some j =>
      right
      have hj := (h.table _ j hpage).2.1
      have hentry : (tableEntry B id j &&& tableAddrMask &&& tableAddrMask).toNat =
          pageAddr B id j := by
        rw [BitVec.and_assoc, BitVec.and_self]
        exact tableEntry_address B hid hj
      obtain ⟨s', d', hrun, hends, hmaps⟩ := hinner s page j (tableEntry B id j &&& tableAddrMask)
        h hpage hentry (fun _ _ => rfl) (UnchangedOff.refl _) (fun _ _ hp _ => hp)
      have hpud : s2MapPudEntry B s d id
          (tableAddr B id + 8 * (d.vaddrStart.toNat / 2 ^ 30)) = .ok (some (s', d')) := by
        simp only [s2MapPudEntry, rd_ok (p := tableAddr B id + 8 * (d.vaddrStart.toNat / 2 ^ 30))
          (by omega), hword, ok_bind, hnoblock, Bool.false_eq_true, if_false,
          nextTable_old h hpage, hrun]
        rfl
      refine ⟨s', { d' with
        paddrStart := d'.paddrStart + (d.vaddrEnd - d.vaddrStart)
        vaddrStart := d.vaddrEnd }, page, ?_, hends, rfl, hmaps, ⟨j, hpage⟩, fun _ _ hp => hp⟩
      simp only [hloop, hpud, ok_bind, hends, ne_eq, not_true_eq_false, if_false]
      rfl
  | none =>
      have hzero : word1 B id s.mem (d.vaddrStart.toNat / 2 ^ 30) = 0 := by
        have hnone := hfree d.vaddrStart.toNat ⟨le_refl _, hne⟩
        rwa [leaf_of_plain h (by omega) hpage,
          blockLeaf_eq_none (h.plain _ hk hpage)] at hnone
      rcases nextTable_new h hid hk hpage hzero with ⟨hfull, hrun⟩ | ⟨j, s₁, hrun, hatt⟩
      · left
        refine ⟨hfull, ?_⟩
        have hpud : s2MapPudEntry B s d id
            (tableAddr B id + 8 * (d.vaddrStart.toNat / 2 ^ 30)) = .ok none := by
          simp only [s2MapPudEntry, rd_ok (p := tableAddr B id + 8 * (d.vaddrStart.toNat / 2 ^ 30))
            (by omega), hword, ok_bind, hnoblock, Bool.false_eq_true, if_false, hrun]
          rfl
        simp only [hloop, hpud, ok_bind]
        rfl
      · right
        obtain ⟨s', d', hrun', hends, hmaps⟩ := hinner s₁ _ j (tableEntry B id j)
          hatt.formed (Function.update_self ..) (tableEntry_address B hid hatt.bound)
          hatt.leaf hatt.frame (by
            intro k j' hpage' hne'
            rwa [Function.update_of_ne hne'] at hpage')
        have hpud : s2MapPudEntry B s d id
            (tableAddr B id + 8 * (d.vaddrStart.toNat / 2 ^ 30)) = .ok (some (s', d')) := by
          simp only [s2MapPudEntry, rd_ok (p := tableAddr B id + 8 * (d.vaddrStart.toNat / 2 ^ 30))
            (by omega), hword, ok_bind, hnoblock, Bool.false_eq_true, if_false, hrun, hrun']
          rfl
        refine ⟨s', { d' with
          paddrStart := d'.paddrStart + (d.vaddrEnd - d.vaddrStart)
          vaddrStart := d.vaddrEnd }, _, ?_, hends, rfl, hmaps, ⟨j, Function.update_self ..⟩, ?_⟩
        · simp only [hloop, hpud, ok_bind, hends, ne_eq, not_true_eq_false, if_false]
          rfl
        · intro k j' hold
          have hne' : k ≠ d.vaddrStart.toNat / 2 ^ 30 := by
            rintro rfl
            rw [hpage] at hold
            cases hold
          rw [Function.update_of_ne hne']
          exact hold

/-- A range of whole regions. -/
theorem s2MapPud_regions (hused : Used B id s page) (hd : Mappable d)
    (hs : d.vaddrStart.toNat % 2 ^ 30 = 0) (hf : d.vaddrEnd.toNat % 2 ^ 30 = 0)
    (hp : d.paddrStart.toNat % 2 ^ 30 = 0)
    (hfree : ∀ ipa, Covers d ipa → leaf s.mem (tableAddr B id) ipa = none)
    {tbl : BitVec 64} (htbl : tbl.toNat = tableAddr B id) :
    ∃ s' d', s2MapPud B s tbl d id = .ok (.eok, s', d') ∧ d'.vaddrEnd = d.vaddrEnd ∧
      d'.vaddrStart = d.vaddrEnd ∧ MapsTo B id s d s' page := by
  have hne := hd.nonempty
  have hlim := hd.limit
  have hpl := hd.paddrLimit
  have hpos := (tableAddr_bounds B hid).1
  have hptr : tbl.toNat + 8 * s2PudIdx d.vaddrStart =
      tableAddr B id + 8 * (d.vaddrStart.toNat / 2 ^ 30) := by
    have hidx : s2PudIdx d.vaddrStart = d.vaddrStart.toNat / 2 ^ 30 % 1024 := rfl
    rw [htbl, hidx, Nat.mod_eq_of_lt (by omega)]
  have hblocks : Blocks 30 d ((d.vaddrEnd.toNat - d.vaddrStart.toNat) / 2 ^ 30) :=
    ⟨by omega, hs, by omega, hlim, hd.attr.type⟩
  have hempty : ∀ k, d.vaddrStart.toNat / 2 ^ 30 ≤ k → k < d.vaddrStart.toNat / 2 ^ 30 +
      (d.vaddrEnd.toNat - d.vaddrStart.toNat) / 2 ^ 30 → page k = none := by
    intro k hlo hhi
    cases hcase : page k with
    | none => rfl
    | some j =>
        obtain ⟨ipa, hipa, hleaf⟩ := hused k j hcase
        exact absurd (hfree ipa ⟨by omega, by omega⟩) hleaf
  have hzero : ∀ i, i < (d.vaddrEnd.toNat - d.vaddrStart.toNat) / 2 ^ 30 →
      load64 s.mem (tableAddr B id + 8 * (d.vaddrStart.toNat / 2 ^ 30) + 8 * i) = 0 := by
    intro i hi
    have hk : (d.vaddrStart.toNat + i * 2 ^ 30) / 2 ^ 30 =
        d.vaddrStart.toNat / 2 ^ 30 + i := by omega
    have hpage := hempty (d.vaddrStart.toNat / 2 ^ 30 + i) (by omega) (by omega)
    have hnone := hfree (d.vaddrStart.toNat + i * 2 ^ 30) ⟨by omega, by omega⟩
    rw [leaf_of_plain h (by omega) (by rw [hk]; exact hpage),
      blockLeaf_eq_none (h.plain _ (by omega) (by rw [hk]; exact hpage)), hk] at hnone
    have haddr : tableAddr B id + 8 * (d.vaddrStart.toNat / 2 ^ 30) + 8 * i =
        tableAddr B id + 8 * (d.vaddrStart.toNat / 2 ^ 30 + i) := by omega
    rw [haddr]
    exact hnone
  obtain ⟨d', hrun, hends, hstart⟩ := @s2MapPudLoop_blocks B id _
    (tableAddr B id + 8 * (d.vaddrStart.toNat / 2 ^ 30)) _ (2 ^ 11) _ hblocks (by omega) (by omega)
    hzero
  obtain ⟨hformed, hframe, hleaf⟩ := @formed_row1 _ _ _ _ h hid
    (d.vaddrStart.toNat / 2 ^ 30) ((d.vaddrEnd.toNat - d.vaddrStart.toNat) / 2 ^ 30) _ _
    (by omega) hempty hd.attr hp
    (by omega) _ rfl
  have hleaf' : ∀ ipa, ipa < 2 ^ 40 → leaf (storeWords s.mem
      (tableAddr B id + 8 * (d.vaddrStart.toNat / 2 ^ 30))
      (blockRow 30 l1BlockOaMask d.attr d.paddrStart)
      ((d.vaddrEnd.toNat - d.vaddrStart.toNat) / 2 ^ 30)) (tableAddr B id) ipa =
      mapped d.vaddrStart.toNat (d.vaddrEnd.toNat - d.vaddrStart.toNat) d.paddrStart.toNat
        d.attr (leaf s.mem (tableAddr B id)) ipa := by
    intro ipa hipa
    have hva : d.vaddrStart.toNat / 2 ^ 30 * 2 ^ 30 = d.vaddrStart.toNat := by omega
    have hsize : (d.vaddrEnd.toNat - d.vaddrStart.toNat) / 2 ^ 30 * 2 ^ 30 =
        d.vaddrEnd.toNat - d.vaddrStart.toNat :=
      Nat.div_mul_cancel (Nat.dvd_of_mod_eq_zero (by omega))
    have := hleaf ipa hipa
    rwa [hva, hsize] at this
  refine ⟨⟨storeWords s.mem (tableAddr B id + 8 * (d.vaddrStart.toNat / 2 ^ 30))
    (blockRow 30 l1BlockOaMask d.attr d.paddrStart)
    ((d.vaddrEnd.toNat - d.vaddrStart.toNat) / 2 ^ 30), s.pageBitmap⟩, d', ?_, hends, hstart,
    hformed, ?_, hframe, hleaf'⟩
  · rw [s2MapPud, hptr]
    exact hrun
  · intro k j hpage
    obtain ⟨ipa, hipa, hleafold⟩ := hused k j hpage
    have hklt := (h.table k j hpage).1
    refine ⟨ipa, hipa, ?_⟩
    simp only
    rw [hleaf' ipa (by omega)]
    exact mapped_ne_none hleafold

omit h hid in
/-- `s2_map` of a range that passes its checks. -/
theorem s2Map_eq (hd : Mappable d) :
    s2Map B s (pgdTbl B id) id d = s2MapPud B s (pgdTbl B id &&& tableAddrMask) d id := by
  have hne := hd.nonempty
  have hlim := hd.limit
  have hpl := hd.paddrLimit
  have hdiff : d.vaddrStart ≠ d.vaddrEnd := by
    intro heq
    rw [heq] at hne
    exact absurd hne (lt_irrefl _)
  have hsize : s2IpaSize.toNat = 2 ^ 40 := by decide
  have hpaddr : d.paddrStart < s2IpaSize := by
    rw [BitVec.lt_def, hsize]
    exact hpl
  have hva : d.vaddrStart < s2IpaSize := by
    rw [BitVec.lt_def, hsize]
    omega
  have hve : d.vaddrEnd < s2IpaSize := by
    rw [BitVec.lt_def, hsize]
    exact hlim
  have halign := (is2MAlign_iff _).mpr hd.start
  have halign' := (is2MAlign_iff _).mpr hd.finish
  simp only [s2Map, hdiff, if_false, hpaddr, hva, hve, halign, halign', decide_true,
    Bool.and_self, check_true, ok_bind]

/-- `s2_map` of a range inside one region. -/
theorem s2Map_region (hused : Used B id s page) (hd : Mappable d)
    (hregion : d.vaddrStart.toNat / 2 ^ 30 = (d.vaddrEnd.toNat - 1) / 2 ^ 30)
    (hpart : ¬ (d.vaddrStart.toNat % 2 ^ 30 = 0 ∧ d.vaddrEnd.toNat % 2 ^ 30 = 0))
    (hfree : ∀ ipa, Covers d ipa → leaf s.mem (tableAddr B id) ipa = none) :
    (s.pageBitmap id = BitVec.allOnes 32 ∧
        s2Map B s (pgdTbl B id) id d = .ok (.enomem, s, d)) ∨
      ∃ s' d' page', s2Map B s (pgdTbl B id) id d = .ok (.eok, s', d') ∧
        d'.vaddrEnd = d.vaddrEnd ∧ d'.vaddrStart = d.vaddrEnd ∧ MapsTo B id s d s' page' ∧
        Paged page page' (d.vaddrStart.toNat / 2 ^ 30) := by
  rw [s2Map_eq hd]
  exact s2MapPud_region h hid hused hd hregion hpart hfree (pgdTbl_address B hid)

/-- **`s2_map` of a range that fits.** -/
theorem s2Map_fits (hused : Used B id s page) (hd : Mappable d) (hfits : Fits d)
    (hfree : ∀ ipa, Covers d ipa → leaf s.mem (tableAddr B id) ipa = none) :
    (s.pageBitmap id = BitVec.allOnes 32 ∧
        s2Map B s (pgdTbl B id) id d = .ok (.enomem, s, d)) ∨
      ∃ s' d' page', s2Map B s (pgdTbl B id) id d = .ok (.eok, s', d') ∧
        d'.vaddrEnd = d.vaddrEnd ∧ d'.vaddrStart = d.vaddrEnd ∧ MapsTo B id s d s' page' := by
  rcases hfits with ⟨hregion, hpart⟩ | ⟨hs, hf, hp⟩
  · rcases s2Map_region h hid hused hd hregion hpart hfree with hfail |
      ⟨s', d', page', hrun, hends, hstart, hmaps, -⟩
    · exact Or.inl hfail
    · exact Or.inr ⟨s', d', page', hrun, hends, hstart, hmaps⟩
  · rw [s2Map_eq hd]
    obtain ⟨s', d', hrun', hends, hstart, hmaps⟩ :=
      s2MapPud_regions h hid hused hd hs hf hp hfree (pgdTbl_address B hid)
    exact Or.inr ⟨s', d', page, hrun', hends, hstart, hmaps⟩

end Map

/-! ## Tables built by `s2_map` -/

/-- A block-typed descriptor with a non-empty range below the limit, everything 2 MB aligned. -/
structure Request (d : MemDesc) : Prop where
  type : isBlock d.attr = true
  start : d.vaddrStart.toNat % 2 ^ 21 = 0
  finish : d.vaddrEnd.toNat % 2 ^ 21 = 0
  paddr : d.paddrStart.toNat % 2 ^ 21 = 0
  nonempty : d.vaddrStart.toNat < d.vaddrEnd.toNat
  limit : d.vaddrEnd.toNat ≤ 2 ^ 40

/-- The range meets no range of the list. -/
def Apart (d : MemDesc) (ds : List MemDesc) : Prop :=
  ∀ x ∈ ds, ∀ ipa, ¬ (Covers d ipa ∧ Covers x ipa)

/-- The tables that successful calls of `s2_map` build from an empty one, with the ranges mapped
so far; every request meets `P`. -/
inductive Built (B : Board) (id : Nat) (P : MemDesc → Prop) : S2 → List MemDesc → Prop
  | empty {s : S2} : EmptyTable B id s → Built B id P s []
  | map {s s' : S2} {ds : List MemDesc} {d d' : MemDesc} : Built B id P s ds → Request d →
      Apart d ds → P d → s2Map B s (pgdTbl B id) id d = .ok (.eok, s', d') →
      Built B id P s' (d :: ds)

/-- An address of the level-1 table or of a table page reached from it. -/
def Reached (B : Board) (id : Nat) (m : Mem) (x : Nat) : Prop :=
  (tableAddr B id ≤ x ∧ x < tableAddr B id + 8192) ∨
    ∃ k, k < 1024 ∧ isTable (word1 B id m k) = true ∧
      (word1 B id m k &&& tableAddrMask).toNat ≤ x ∧
      x < (word1 B id m k &&& tableAddrMask).toNat + 4096

/-- What a mapping is to do. -/
structure MapsRight (B : Board) (id : Nat) (s : S2) (d : MemDesc) (s' : S2) : Prop where
  inside : ∀ ipa, Covers d ipa → leaf s'.mem (tableAddr B id) ipa =
    some (d.paddrStart.toNat + (ipa - d.vaddrStart.toNat), d.attr)
  outside : ∀ ipa, ipa < 2 ^ 40 → ¬ Covers d ipa →
    leaf s'.mem (tableAddr B id) ipa = leaf s.mem (tableAddr B id) ipa
  writes : UnchangedOff (Reached B id s'.mem) s.mem s'.mem

/-- The range fits, and the attributes leave the output address alone. -/
def MapCond (d : MemDesc) : Prop := Fits d ∧ d.attr &&& tableAddrMask = 0

/-- A call that returns has passed the assertions of `s2_map`. -/
theorem Request.mappable {B : Board} {id : Nat} {s s' : S2} {d d' : MemDesc} {ret : RtErr}
    (h : Request d) (hattr : d.attr &&& tableAddrMask = 0)
    (hrun : s2Map B s (pgdTbl B id) id d = .ok (ret, s', d')) : Mappable d := by
  have hne := h.nonempty
  have hdiff : d.vaddrStart ≠ d.vaddrEnd := by
    intro heq
    rw [heq] at hne
    exact absurd hne (lt_irrefl _)
  have hsize : s2IpaSize.toNat = 2 ^ 40 := by decide
  rw [s2Map, if_neg hdiff] at hrun
  obtain ⟨u, hp, hrun⟩ := bind_eq_ok.mp hrun
  obtain ⟨u', hv, -⟩ := bind_eq_ok.mp hrun
  have hpaddr := of_decide_eq_true (check_eq_ok.mp hp)
  have hvaddr := check_eq_ok.mp hv
  rw [Bool.and_eq_true] at hvaddr
  have hend := of_decide_eq_true hvaddr.2
  rw [BitVec.lt_def, hsize] at hpaddr hend
  exact ⟨⟨h.type, hattr⟩, h.start, h.finish, h.paddr, hne, hend, hpaddr⟩

section Built

variable {B : Board} {id : Nat} (hid : id < maxVmNum)

/-- What is known of a table built so: which pages it has, and that nothing but the ranges is
mapped. -/
structure BuiltInv (B : Board) (id : Nat) (s : S2) (ds : List MemDesc)
    (page : Nat → Option Nat) : Prop where
  formed : Formed B id s page
  used : Used B id s page
  covered : ∀ ipa, ipa < 2 ^ 40 → ∀ v, leaf s.mem (tableAddr B id) ipa = some v →
    ∃ x ∈ ds, Covers x ipa ∧ v = (x.paddrStart.toNat + (ipa - x.vaddrStart.toNat), x.attr)

theorem EmptyTable.inv {s : S2} (h : EmptyTable B id s) : BuiltInv B id s [] fun _ => none where
  formed := h.formed
  used := by
    intro k j hpage
    cases hpage
  covered := by
    intro ipa hipa v hleaf
    rw [leaf_of_plain h.formed hipa rfl, h _ (by omega)] at hleaf
    cases hleaf

include hid

/-- One more mapping. -/
theorem BuiltInv.map {s s' : S2} {ds : List MemDesc} {page : Nat → Option Nat}
    {d d' : MemDesc} (h : BuiltInv B id s ds page) (hreq : Request d) (hapart : Apart d ds)
    (hcond : MapCond d) (hrun : s2Map B s (pgdTbl B id) id d = .ok (.eok, s', d')) :
    ∃ page', MapsTo B id s d s' page' ∧ BuiltInv B id s' (d :: ds) page' := by
  have hd := hreq.mappable hcond.2 hrun
  have hlim := hd.limit
  have hfree : ∀ ipa, Covers d ipa → leaf s.mem (tableAddr B id) ipa = none := by
    intro ipa hipa
    cases hleaf : leaf s.mem (tableAddr B id) ipa with
    | none => rfl
    | some v =>
        have hlt := hipa.2
        obtain ⟨x, hx, hcovers, -⟩ := h.covered ipa (by omega) v hleaf
        exact absurd ⟨hipa, hcovers⟩ (hapart x hx ipa)
  rcases s2Map_fits h.formed hid h.used hd hcond.1 hfree with ⟨-, hfail⟩ |
    ⟨s₁, d₁, page', hok, -, -, hmaps⟩
  · rw [hfail] at hrun
    cases hrun
  · rw [hok] at hrun
    cases hrun
    refine ⟨page', hmaps, hmaps.formed, hmaps.used, ?_⟩
    intro ipa hipa v hleaf
    rw [hmaps.leaf ipa hipa, mapped] at hleaf
    by_cases hin : Covers d ipa
    · have hlt := hin.2
      rw [if_pos ⟨hin.1, by omega⟩] at hleaf
      exact ⟨d, List.mem_cons_self .., hin, (Option.some.inj hleaf).symm⟩
    · have hout : ¬ (d.vaddrStart.toNat ≤ ipa ∧
          ipa < d.vaddrStart.toNat + (d.vaddrEnd.toNat - d.vaddrStart.toNat)) := by
        intro hrange
        exact hin ⟨hrange.1, by omega⟩
      rw [if_neg hout] at hleaf
      obtain ⟨x, hx, hcovers⟩ := h.covered ipa hipa v hleaf
      exact ⟨x, List.mem_cons_of_mem _ hx, hcovers⟩

theorem Built.inv {s : S2} {ds : List MemDesc} (h : Built B id MapCond s ds) :
    ∃ page, BuiltInv B id s ds page := by
  induction h with
  | empty hempty => exact ⟨fun _ => none, hempty.inv⟩
  | map _ hreq hapart hcond hrun ih =>
      obtain ⟨page, hinv⟩ := ih
      obtain ⟨page', -, hinv'⟩ := hinv.map hid hreq hapart hcond hrun
      exact ⟨page', hinv'⟩

theorem MapsTo.right {s s' : S2} {d : MemDesc} {page : Nat → Option Nat} (hd : Mappable d)
    (h : MapsTo B id s d s' page) : MapsRight B id s d s' := by
  have hne := hd.nonempty
  have hlim := hd.limit
  constructor
  · rintro ipa ⟨hlo, hhi⟩
    rw [h.leaf ipa (by omega), mapped, if_pos ⟨hlo, by omega⟩]
  · intro ipa hipa hout
    rw [h.leaf ipa hipa, mapped, if_neg]
    intro hrange
    exact hout ⟨hrange.1, by omega⟩
  · apply h.frame.mono
    rintro x (hx | ⟨k, j, hpage, hlo, hhi⟩)
    · exact Or.inl hx
    · obtain ⟨hk, hj, -, hword⟩ := h.formed.table k j hpage
      refine Or.inr ⟨k, hk, ?_, ?_, ?_⟩
      · rw [hword]
        exact tableEntry_isTable B id j
      · rw [hword, tableEntry_address B hid hj]
        exact hlo
      · rw [hword, tableEntry_address B hid hj]
        exact hhi

/-- **`s2_map` maps what it is asked to map**, on every table that such calls have built. -/
theorem s2_map_right {s s' : S2} {ds : List MemDesc} {d d' : MemDesc}
    (h : Built B id MapCond s ds) (hreq : Request d) (hapart : Apart d ds) (hcond : MapCond d)
    (hrun : s2Map B s (pgdTbl B id) id d = .ok (.eok, s', d')) : MapsRight B id s d s' := by
  obtain ⟨page, hinv⟩ := h.inv hid
  obtain ⟨page', hmaps, -⟩ := hinv.map hid hreq hapart hcond hrun
  exact hmaps.right hid (hreq.mappable hcond.2 hrun)

end Built

/-! ## Runs -/

/-- The tables and the pool after `rt_init_s2_mmu_table`. -/
def blank : S2 := ⟨fun _ => 0, fun _ => 0⟩

theorem blank_empty : EmptyTable roomy 0 blank := by
  intro k _
  simp only [word1, load64, blank]
  decide

/-- Two blocks of 2 MB. -/
def twoBlocks : MemDesc := ⟨0x40000000, 0x40400000, 0x80000000, s2BlockNormal⟩

/-- A region of 1 GB whose physical address is not 1 GB aligned. -/
def shifted : MemDesc := ⟨0, 0x40000000, 0x200000, s2BlockNormal⟩

private theorem twoBlocks_request : Request twoBlocks := by
  constructor <;> decide

private theorem shifted_request : Request shifted := by
  constructor <;> decide

/-- The table with the two blocks mapped, and what an evaluation shows of it. -/
theorem twoBlocks_built {α : Type} (f : S2 → α) {v : α}
    (hends : (s2Map roomy blank (pgdTbl roomy 0) 0 twoBlocks).map (fun r => (r.1, f r.2.1)) =
      .ok (.eok, v)) : ∃ s, Built roomy 0 MapCond s [twoBlocks] ∧ f s = v := by
  obtain ⟨⟨ret, s, d'⟩, hrun, hret⟩ := exists_of_map_eq_ok hends
  simp only [Prod.mk.injEq] at hret
  obtain ⟨hret, hvalue⟩ := hret
  subst hret
  have hcond : MapCond twoBlocks := ⟨by decide, by decide⟩
  exact ⟨s, .map (.empty blank_empty) twoBlocks_request (by intro x hx; cases hx) hcond hrun,
    hvalue⟩

theorem s2_map_right_two : ∃ s' d',
    s2Map roomy blank (pgdTbl roomy 0) 0 twoBlocks = .ok (.eok, s', d') ∧
      MapsRight roomy 0 blank twoBlocks s' := by
  have hends : (s2Map roomy blank (pgdTbl roomy 0) 0 twoBlocks).map (fun r => r.1) =
      .ok .eok := by decide
  obtain ⟨⟨ret, s', d'⟩, hrun, hret⟩ := exists_of_map_eq_ok hends
  simp only at hret
  subst hret
  have hcond : MapCond twoBlocks := ⟨by decide, by decide⟩
  exact ⟨s', d', hrun, s2_map_right (by decide) (.empty blank_empty) twoBlocks_request
    (by intro x hx; cases hx) hcond hrun⟩

theorem s2_map_shifted :
    ¬ ∀ (B : Board) (id : Nat), id < maxVmNum → ∀ (s s' : S2) (ds : List MemDesc)
      (d d' : MemDesc), Built B id (fun _ => True) s ds → Request d → Apart d ds →
      s2Map B s (pgdTbl B id) id d = .ok (.eok, s', d') → MapsRight B id s d s' := by
  intro hall
  have hends : (s2Map roomy blank (pgdTbl roomy 0) 0 shifted).map
      (fun r => (r.1, leaf r.2.1.mem (tableAddr roomy 0) 0)) =
      .ok (.eok, some (0, s2BlockNormal)) := by decide
  obtain ⟨⟨ret, s', d'⟩, hrun, hret⟩ := exists_of_map_eq_ok hends
  simp only [Prod.mk.injEq] at hret
  obtain ⟨hret, hleaf⟩ := hret
  subst hret
  have hright := hall roomy 0 (by decide) blank s' [] shifted d' (.empty blank_empty)
    shifted_request (by intro x hx; cases hx) hrun
  have hinside := hright.inside 0 ⟨by decide, by decide⟩
  rw [hleaf] at hinside
  exact absurd hinside (by decide)

end RtHypervisor.Ports.Stage2
