import Mathlib.Tactic
import RtHypervisor.Ports.Stage2Walk

/-!
# Rows of blocks

The loops of `s2_map_pmd` and `s2_map_pud` write a row of words, as long as every entry they come
to is empty and they stay in one table.  `formed_row2` and `formed_row1` say what such a row means
for the walk, `attached` what a new table page means for it: nothing.
-/

namespace RtHypervisor.Ports.Stage2

open RtHypervisor.Verified.Run
open RtHypervisor.Verified.ByteMem
open RtHypervisor.Verified.BitField
open RtHypervisor.Ports.Platform

/-! ## Boundaries -/

theorem is2MAlign_iff (x : BitVec 64) : is2MAlign x = true ↔ x.toNat % 2 ^ 21 = 0 := by
  have hmask : s2PmdSize - 1 = BitVec.ofNat 64 (2 ^ 21 - 1) := by decide
  rw [is2MAlign, hmask, beq_iff_eq, ← BitVec.toNat_inj, toNat_and_low x (by decide)]
  rfl

theorem is1GAlign_iff (x : BitVec 64) : is1GAlign x = true ↔ x.toNat % 2 ^ 30 = 0 := by
  have hmask : s2PudSize - 1 = BitVec.ofNat 64 (2 ^ 30 - 1) := by decide
  rw [is1GAlign, hmask, beq_iff_eq, ← BitVec.toNat_inj, toNat_and_low x (by decide)]
  rfl

/-- The next boundary of `2 ^ b` bytes, or the end. -/
theorem nextBoundary_toNat {b : Nat} (hb : b ≤ 40) {d : MemDesc}
    (hv : d.vaddrStart.toNat < 2 ^ 40) :
    (nextBoundary (BitVec.ofNat 64 (2 ^ b)) d).toNat =
      min ((d.vaddrStart.toNat / 2 ^ b + 1) * 2 ^ b) d.vaddrEnd.toNat := by
  have hpow : 2 ^ b ≤ 2 ^ 40 := Nat.pow_le_pow_right (by decide) hb
  have hpos := Nat.two_pow_pos b
  have hmask : ~~~(BitVec.ofNat 64 (2 ^ b) - 1) = bits b 64 := by
    have hsub : BitVec.ofNat 64 (2 ^ b) - 1 = BitVec.ofNat 64 (2 ^ b - 1) := by
      apply BitVec.eq_of_toNat_eq
      rw [BitVec.toNat_sub, BitVec.toNat_ofNat, BitVec.toNat_ofNat]
      have hone : (1 : BitVec 64).toNat = 1 := rfl
      rw [hone, Nat.mod_eq_of_lt (by omega : 2 ^ b < 2 ^ 64)]
      omega
    rw [hsub]
    apply BitVec.eq_of_getLsbD_eq
    intro i hi
    have hlow : (BitVec.ofNat 64 (2 ^ b - 1)).getLsbD i = decide (i < b) := by
      rw [BitVec.getLsbD_ofNat, Nat.testBit_two_pow_sub_one]
      simp [hi]
    rw [BitVec.getLsbD_not, hlow, getLsbD_bits (by omega) (by decide)]
    by_cases h : i < b
    · have : ¬ b ≤ i := by omega
      simp [h, this]
    · have : b ≤ i := by omega
      simp [hi, h, this]
  have hsum : (d.vaddrStart + BitVec.ofNat 64 (2 ^ b)).toNat = d.vaddrStart.toNat + 2 ^ b := by
    rw [BitVec.toNat_add, BitVec.toNat_ofNat]
    omega
  have hnext : ((d.vaddrStart + BitVec.ofNat 64 (2 ^ b)) &&& bits b 64).toNat =
      (d.vaddrStart.toNat / 2 ^ b + 1) * 2 ^ b := by
    rw [toNat_and_bits _ (by omega) (by decide), hsum, Nat.mod_eq_of_lt (by omega),
      Nat.add_div_right _ hpos]
  simp only [nextBoundary, hmask]
  by_cases hgt : (d.vaddrStart + BitVec.ofNat 64 (2 ^ b)) &&& bits b 64 > d.vaddrEnd
  · have hgt' := hgt
    rw [gt_iff_lt, BitVec.lt_def, hnext] at hgt'
    rw [if_pos hgt]
    omega
  · have hle := hgt
    rw [gt_iff_lt, BitVec.lt_def, hnext] at hle
    rw [if_neg hgt, hnext]
    omega

theorem s2PmdSize_eq : s2PmdSize = BitVec.ofNat 64 (2 ^ 21) := by decide
theorem s2PudSize_eq : s2PudSize = BitVec.ofNat 64 (2 ^ 30) := by decide

/-- The words of a row of blocks of `2 ^ b` bytes. -/
def blockRow (b : Nat) (mask attr pa : BitVec 64) (i : Nat) : BitVec 64 :=
  blockVal mask attr (pa + BitVec.ofNat 64 (i * 2 ^ b))

private theorem blockRow_succ (b : Nat) (mask attr pa : BitVec 64) :
    (fun i => blockRow b mask attr pa (i + 1)) =
      blockRow b mask attr (pa + BitVec.ofNat 64 (2 ^ b)) := by
  funext i
  have hsum : pa + BitVec.ofNat 64 ((i + 1) * 2 ^ b) =
      pa + BitVec.ofNat 64 (2 ^ b) + BitVec.ofNat 64 (i * 2 ^ b) := by
    rw [Nat.add_mul, Nat.one_mul, BitVec.ofNat_add, BitVec.add_assoc,
      BitVec.add_comm (BitVec.ofNat 64 (2 ^ b))]
  rw [blockRow, blockRow, hsum]

private theorem blockRow_zero (b : Nat) (mask attr pa : BitVec 64) :
    blockRow b mask attr pa 0 = blockVal mask attr pa := by
  simp [blockRow]

/-- A descriptor of `n` blocks of `2 ^ b` bytes. -/
structure Blocks (b : Nat) (d : MemDesc) (n : Nat) : Prop where
  pos : 0 < n
  start : d.vaddrStart.toNat % 2 ^ b = 0
  finish : d.vaddrEnd.toNat = d.vaddrStart.toNat + n * 2 ^ b
  limit : d.vaddrEnd.toNat < 2 ^ 40
  type : isBlock d.attr = true

section Blocks

variable {b n : Nat} {d : MemDesc}

theorem Blocks.next (h : Blocks b d n) (hb : b ≤ 40) :
    (nextBoundary (BitVec.ofNat 64 (2 ^ b)) d).toNat = d.vaddrStart.toNat + 2 ^ b := by
  have hstart := h.start
  have hfinish := h.finish
  have hlimit := h.limit
  have hpos := h.pos
  have hle : 2 ^ b ≤ n * 2 ^ b := Nat.le_mul_of_pos_left _ hpos
  have hpow := Nat.two_pow_pos b
  have hdiv : (d.vaddrStart.toNat / 2 ^ b + 1) * 2 ^ b = d.vaddrStart.toNat + 2 ^ b := by
    rw [Nat.add_mul, Nat.one_mul, Nat.div_mul_cancel (Nat.dvd_of_mod_eq_zero hstart)]
  rw [nextBoundary_toNat hb (by omega), hdiv]
  omega

/-- The size of one step. -/
theorem Blocks.size (h : Blocks b d n) (hb : b ≤ 40) :
    nextBoundary (BitVec.ofNat 64 (2 ^ b)) d - d.vaddrStart = BitVec.ofNat 64 (2 ^ b) := by
  have hnext := h.next hb
  have hlimit := h.limit
  have hfinish := h.finish
  have hpow : 2 ^ b ≤ 2 ^ 40 := Nat.pow_le_pow_right (by decide) hb
  apply BitVec.eq_of_toNat_eq
  rw [BitVec.toNat_sub, hnext, BitVec.toNat_ofNat]
  omega

/-- The whole rest is a multiple of the size. -/
theorem Blocks.rest (h : Blocks b d n) :
    (d.vaddrEnd - d.vaddrStart).toNat % 2 ^ b = 0 := by
  have hfinish := h.finish
  have hlimit := h.limit
  have hsub : (d.vaddrEnd - d.vaddrStart).toNat = n * 2 ^ b := by
    rw [BitVec.toNat_sub, hfinish]
    omega
  rw [hsub]
  exact Nat.mul_mod_left n (2 ^ b)

/-- The descriptor after a step that is not the last. -/
theorem Blocks.step (h : Blocks b d (n + 1)) (hb : b ≤ 40) (hn : 0 < n) (pa : BitVec 64) :
    Blocks b { d with
      paddrStart := pa, vaddrStart := nextBoundary (BitVec.ofNat 64 (2 ^ b)) d } n where
  pos := hn
  start := by
    have hstart := h.start
    simp only [h.next hb]
    rw [Nat.add_mod_right]
    exact hstart
  finish := by
    have hfinish := h.finish
    rw [Nat.add_mul, Nat.one_mul] at hfinish
    simp only [h.next hb]
    omega
  limit := h.limit
  type := h.type

theorem Blocks.last_iff (h : Blocks b d (n + 1)) (hb : b ≤ 40) :
    nextBoundary (BitVec.ofNat 64 (2 ^ b)) d = d.vaddrEnd ↔ n = 0 := by
  have hfinish := h.finish
  rw [← BitVec.toNat_inj, h.next hb, hfinish, Nat.add_mul, Nat.one_mul]
  have hpow := Nat.two_pow_pos b
  constructor
  · intro heq
    by_contra hn
    have hle : 2 ^ b ≤ n * 2 ^ b := Nat.le_mul_of_pos_left _ (Nat.pos_of_ne_zero hn)
    omega
  · rintro rfl
    omega

end Blocks

/-! ## The loops -/

section Loops

variable (B : Board) {id : Nat} {s : S2} {ptr : Nat}

theorem rd_ok {p : Nat} (hp : 4096 ≤ p) : rd s p = .ok (load64 s.mem p) := by
  simp only [rd, hp, decide_true, check_true]
  rfl

private theorem wr_ok {p : Nat} (hp : 4096 ≤ p) (v : BitVec 64) :
    wr s p v = .ok { s with mem := store64 s.mem p v } := by
  simp only [wr, hp, decide_true, check_true]
  rfl

/-- The loops of `s2_map_pmd` and `s2_map_pud` over what one entry does: blocks of `2 ^ b` bytes
that find their entries empty are written one after the other. -/
theorem blocks_loop {b : Nat} (hb : b ≤ 40) {mask : BitVec 64}
    {entry : S2 → MemDesc → Nat → Except Fault (Option (S2 × MemDesc))}
    {loop : Nat → S2 → MemDesc → Nat → Except Fault (RtErr × S2 × MemDesc)}
    (hloop : ∀ fuel s d ptr, loop (fuel + 1) s d ptr = (do
      match ← entry s d ptr with
      | none => pure (.enomem, s, d)
      | some (s, d') =>
          if nextBoundary (BitVec.ofNat 64 (2 ^ b)) d ≠ d'.vaddrEnd then
            loop fuel s { d' with
              paddrStart :=
                d'.paddrStart + (nextBoundary (BitVec.ofNat 64 (2 ^ b)) d - d.vaddrStart)
              vaddrStart := nextBoundary (BitVec.ofNat 64 (2 ^ b)) d } (ptr + 8)
          else
            pure (.eok, s, { d' with
              paddrStart :=
                d'.paddrStart + (nextBoundary (BitVec.ofNat 64 (2 ^ b)) d - d.vaddrStart)
              vaddrStart := nextBoundary (BitVec.ofNat 64 (2 ^ b)) d })))
    (hentry : ∀ s d n ptr, Blocks b d n → 4096 ≤ ptr → load64 s.mem ptr = 0 →
      entry s d ptr = .ok (some (⟨store64 s.mem ptr (blockRow b mask d.attr d.paddrStart 0),
        s.pageBitmap⟩, d)))
    {n fuel : Nat} {d : MemDesc} (h : Blocks b d n) (hfuel : n ≤ fuel) (hptr : 4096 ≤ ptr)
    (hzero : ∀ i, i < n → load64 s.mem (ptr + 8 * i) = 0) :
    ∃ d', loop fuel s d ptr = .ok (.eok,
        ⟨storeWords s.mem ptr (blockRow b mask d.attr d.paddrStart) n, s.pageBitmap⟩, d') ∧
      d'.vaddrEnd = d.vaddrEnd ∧ d'.vaddrStart = d.vaddrEnd := by
  induction n generalizing fuel s d ptr with
  | zero => exact absurd h.pos (by decide)
  | succ n ih =>
      cases fuel with
      | zero => omega
      | succ fuel =>
          have hrun := hentry s d (n + 1) ptr h hptr (hzero 0 (by omega))
          have hsize := h.size hb
          rw [hloop, hrun, hsize]
          by_cases hn : n = 0
          · have hlast := (h.last_iff hb).mpr hn
            subst hn
            refine ⟨{ d with
              paddrStart := d.paddrStart + BitVec.ofNat 64 (2 ^ b)
              vaddrStart := d.vaddrEnd }, ?_, rfl, rfl⟩
            simp only [ok_bind, hlast, ne_eq, not_true_eq_false, if_false]
            rfl
          · have hnot := mt (h.last_iff hb).mp hn
            have hstep := h.step hb (Nat.pos_of_ne_zero hn)
              (d.paddrStart + BitVec.ofNat 64 (2 ^ b))
            have hzero' : ∀ i, i < n → load64 (store64 s.mem ptr
                (blockRow b mask d.attr d.paddrStart 0)) (ptr + 8 + 8 * i) = 0 := by
              intro i hi
              have hi' := hzero (i + 1) (by omega)
              have haddr : ptr + 8 * (i + 1) = ptr + 8 + 8 * i := by omega
              rw [haddr] at hi'
              rw [load64_store64_of_disjoint (by omega), hi']
            obtain ⟨d', hrest, hends⟩ := @ih ⟨store64 s.mem ptr
              (blockRow b mask d.attr d.paddrStart 0), s.pageBitmap⟩ _ fuel _
              hstep (by omega) (by omega) hzero'
            refine ⟨d', ?_, hends⟩
            simp only [ok_bind, ne_eq, hnot, not_false_eq_true, if_true]
            rw [hrest, storeWords, blockRow_succ]

/-- `s2_map_pmd` over empty entries. -/
theorem s2MapPmdLoop_blocks {n fuel : Nat} {d : MemDesc} (h : Blocks 21 d n) (hfuel : n ≤ fuel)
    (hptr : 4096 ≤ ptr) (hzero : ∀ i, i < n → load64 s.mem (ptr + 8 * i) = 0) :
    ∃ d', s2MapPmdLoop B id fuel s d ptr = .ok (.eok,
        ⟨storeWords s.mem ptr (blockRow 21 l2BlockOaMask d.attr d.paddrStart) n, s.pageBitmap⟩,
        d') ∧ d'.vaddrEnd = d.vaddrEnd ∧ d'.vaddrStart = d.vaddrEnd := by
  apply @blocks_loop _ _ _ (by decide) _ (fun s d ptr => s2MapPmdEntry B s d id ptr) _ _ _ _ _ _ h
    hfuel hptr hzero
  · intro fuel s d ptr
    rw [← s2PmdSize_eq]
    rfl
  · intro s d n ptr h hptr hentry
    have htype := h.type
    simp only [isBlock, beq_iff_eq] at htype
    have hrest := (is2MAlign_iff _).mpr h.rest
    have hstart := (is2MAlign_iff _).mpr h.start
    have hblock : s2MapPmdBlock 0 d = true := by
      simp [s2MapPmdBlock, htype, hrest, hstart]
    have hval : d.attr ||| (d.paddrStart &&& l2BlockOaMask) =
        blockRow 21 l2BlockOaMask d.attr d.paddrStart 0 := by
      rw [blockRow_zero, blockVal]
    simp only [s2MapPmdEntry, rd_ok hptr, hentry, ok_bind, hblock, if_true, wr_ok hptr, hval]
    rfl

/-- `s2_map_pud` over empty entries, for whole regions of 1 GB. -/
theorem s2MapPudLoop_blocks {n fuel : Nat} {d : MemDesc} (h : Blocks 30 d n) (hfuel : n ≤ fuel)
    (hptr : 4096 ≤ ptr) (hzero : ∀ i, i < n → load64 s.mem (ptr + 8 * i) = 0) :
    ∃ d', s2MapPudLoop B id fuel s d ptr = .ok (.eok,
        ⟨storeWords s.mem ptr (blockRow 30 l1BlockOaMask d.attr d.paddrStart) n, s.pageBitmap⟩,
        d') ∧ d'.vaddrEnd = d.vaddrEnd ∧ d'.vaddrStart = d.vaddrEnd := by
  apply @blocks_loop _ _ _ (by decide) _ (fun s d ptr => s2MapPudEntry B s d id ptr) _ _ _ _ _ _ h
    hfuel hptr hzero
  · intro fuel s d ptr
    rw [← s2PudSize_eq]
    rfl
  · intro s d n ptr h hptr hentry
    have htype := h.type
    simp only [isBlock, beq_iff_eq] at htype
    have hrest := (is1GAlign_iff _).mpr h.rest
    have hstart := (is1GAlign_iff _).mpr h.start
    have hblock : s2MapPudBlock 0 d = true := by
      simp [s2MapPudBlock, htype, hrest, hstart]
    have hval : d.attr ||| (d.paddrStart &&& l1BlockOaMask) =
        blockRow 30 l1BlockOaMask d.attr d.paddrStart 0 := by
      rw [blockRow_zero, blockVal]
    simp only [s2MapPudEntry, rd_ok hptr, hentry, ok_bind, hblock, if_true, wr_ok hptr, hval]
    rfl

end Loops

/-! ## Rows in a table -/

/-- The level-1 table and the table pages it leads to. -/
def Within (B : Board) (id : Nat) (page : Nat → Option Nat) (x : Nat) : Prop :=
  (tableAddr B id ≤ x ∧ x < tableAddr B id + 8192) ∨
    ∃ k j, page k = some j ∧ pageAddr B id j ≤ x ∧ x < pageAddr B id j + 4096

/-- The walk of a table with `[va, va + size)` mapped to `pa` on top. -/
def mapped (va size pa : Nat) (attr : BitVec 64) (old : Nat → Option (Nat × BitVec 64))
    (ipa : Nat) : Option (Nat × BitVec 64) :=
  if va ≤ ipa ∧ ipa < va + size then some (pa + (ipa - va), attr) else old ipa

private theorem blockLeaf_blockRow {b : Nat} {mask oa attr pa : BitVec 64} {i ipa : Nat}
    (hb : b < 48)
    (hoa : oa = bits b 48) (haddr : tableAddrMask &&& oa = oa) (hmask : mask &&& oa = oa)
    (htype : mask &&& mmuTypeMask = 0) (hfield : mask &&& tableAddrMask = mask)
    (hattr : CleanAttr attr) (halign : pa.toNat % 2 ^ b = 0)
    (hlimit : pa.toNat + (i + 1) * 2 ^ b ≤ 2 ^ 48) :
    blockLeaf oa (2 ^ b) (blockRow b mask attr pa i) ipa =
      some (pa.toNat + i * 2 ^ b + ipa % 2 ^ b, attr) := by
  have hpow := Nat.two_pow_pos b
  have hrow : (pa + BitVec.ofNat 64 (i * 2 ^ b)).toNat = pa.toNat + i * 2 ^ b := by
    rw [Nat.add_mul, Nat.one_mul] at hlimit
    rw [BitVec.toNat_add, BitVec.toNat_ofNat]
    omega
  have haddress : (blockRow b mask attr pa i &&& oa).toNat = pa.toNat + i * 2 ^ b := by
    rw [blockRow, blockVal_address hattr haddr hmask, hoa,
      toNat_and_bits _ (by omega) (by decide), hrow]
    rw [Nat.add_mul, Nat.one_mul] at hlimit
    rw [Nat.mod_eq_of_lt (by omega)]
    have hdvd : 2 ^ b ∣ pa.toNat + i * 2 ^ b :=
      Nat.dvd_add (Nat.dvd_of_mod_eq_zero halign) (Nat.dvd_mul_left _ _)
    exact Nat.div_mul_cancel hdvd
  have hblock : isBlock (blockRow b mask attr pa i) = true := blockVal_isBlock hattr htype
  have hattrs : blockRow b mask attr pa i &&& ~~~tableAddrMask = attr :=
    blockVal_attr hattr hfield
  rw [blockLeaf, if_pos hblock, haddress, hattrs]

/-- The words of a row are block entries. -/
theorem blockRow_entry {b : Nat} {mask oa attr pa : BitVec 64} {i lo : Nat} (hlo : lo ≤ b)
    (hb : b < 48) (hmask : mask = bits lo 48) (hoa : oa = bits b 48)
    (haddr : tableAddrMask &&& oa = oa) (hcover : mask &&& oa = oa)
    (htype : mask &&& mmuTypeMask = 0) (hfield : mask &&& tableAddrMask = mask)
    (hattr : CleanAttr attr) (halign : pa.toNat % 2 ^ b = 0)
    (hlimit : pa.toNat + (i + 1) * 2 ^ b ≤ 2 ^ 48) :
    BlockEntry oa (blockRow b mask attr pa i) := by
  have hpow := Nat.two_pow_pos b
  rw [Nat.add_mul, Nat.one_mul] at hlimit
  have hrow : (pa + BitVec.ofNat 64 (i * 2 ^ b)).toNat = pa.toNat + i * 2 ^ b := by
    rw [BitVec.toNat_add, BitVec.toNat_ofNat]
    omega
  have hdvd : 2 ^ b ∣ pa.toNat + i * 2 ^ b :=
    Nat.dvd_add (Nat.dvd_of_mod_eq_zero halign) (Nat.dvd_mul_left _ _)
  have hdvd' : 2 ^ lo ∣ pa.toNat + i * 2 ^ b :=
    dvd_trans (Nat.pow_dvd_pow 2 hlo) hdvd
  refine Or.inr ⟨blockVal_isBlock hattr htype, ?_⟩
  rw [blockRow, blockVal_field hattr hfield, blockVal_address hattr haddr hcover,
    ← BitVec.toNat_inj, hmask, hoa, toNat_and_bits _ (by omega) (by decide),
    toNat_and_bits _ (by omega) (by decide), hrow, Nat.mod_eq_of_lt (by omega),
    Nat.div_mul_cancel hdvd, Nat.div_mul_cancel hdvd']

section Rows

variable {B : Board} {id : Nat} {s : S2} {page : Nat → Option Nat} (h : Formed B id s page)
  (hid : id < maxVmNum)
include h hid

/-- A row of blocks in a table page. -/
theorem formed_row2 {k j i₀ n : Nat} {attr pa : BitVec 64} (hpage : page k = some j)
    (hrow : i₀ + n ≤ 512) (hattr : CleanAttr attr) (halign : pa.toNat % 2 ^ 21 = 0)
    (hlimit : pa.toNat + n * 2 ^ 21 ≤ 2 ^ 48) {s' : S2}
    (hs' : s' = ⟨storeWords s.mem (pageAddr B id j + 8 * i₀)
      (blockRow 21 l2BlockOaMask attr pa) n, s.pageBitmap⟩) :
    Formed B id s' page ∧ UnchangedOff (Within B id page) s.mem s'.mem ∧
      ∀ ipa, ipa < 2 ^ 40 → leaf s'.mem (tableAddr B id) ipa =
        mapped (k * 2 ^ 30 + i₀ * 2 ^ 21) (n * 2 ^ 21) pa.toNat attr
          (leaf s.mem (tableAddr B id)) ipa := by
  obtain ⟨hk, hj, -, -⟩ := h.table k j hpage
  have hoff := page_off_table B hid hj
  subst hs'
  have hword1 : ∀ k', k' < 1024 → word1 B id (storeWords s.mem (pageAddr B id j + 8 * i₀)
      (blockRow 21 l2BlockOaMask attr pa) n) k' = word1 B id s.mem k' := by
    intro k' hk'
    exact load64_storeWords_off (by omega)
  have hword2 : ∀ j' i, i < 512 → ¬ (j' = j ∧ i₀ ≤ i ∧ i < i₀ + n) →
      word2 B id (storeWords s.mem (pageAddr B id j + 8 * i₀)
        (blockRow 21 l2BlockOaMask attr pa) n) j' i = word2 B id s.mem j' i := by
    intro j' i hi hnot
    apply load64_storeWords_off
    by_cases hsame : j' = j
    · subst hsame
      have : ¬ (i₀ ≤ i ∧ i < i₀ + n) := fun hin => hnot ⟨rfl, hin⟩
      omega
    · have := @pages_apart B id _ _ hsame
      omega
  have hnew : ∀ i, i₀ ≤ i → i < i₀ + n →
      word2 B id (storeWords s.mem (pageAddr B id j + 8 * i₀)
        (blockRow 21 l2BlockOaMask attr pa) n) j i =
        blockRow 21 l2BlockOaMask attr pa (i - i₀) := by
    intro i hlo hhi
    have haddr : pageAddr B id j + 8 * i = pageAddr B id j + 8 * i₀ + 8 * (i - i₀) := by omega
    rw [word2, haddr]
    exact load64_storeWords (by omega)
  have hformed : Formed B id ⟨storeWords s.mem (pageAddr B id j + 8 * i₀)
      (blockRow 21 l2BlockOaMask attr pa) n, s.pageBitmap⟩ page := by
    constructor
    · intro k' j' hpage'
      obtain ⟨hk', hj', hbit, hword⟩ := h.table k' j' hpage'
      refine ⟨hk', hj', hbit, ?_⟩
      simp only
      rw [hword1 k' hk', hword]
    · intro k' hk' hpage'
      simp only
      rw [hword1 k' hk']
      exact h.plain k' hk' hpage'
    · exact h.apart
    · intro k' j' hpage' i hi
      by_cases hin : j' = j ∧ i₀ ≤ i ∧ i < i₀ + n
      · obtain ⟨rfl, hlo, hhi⟩ := hin
        have hindex : i - i₀ + 1 ≤ n := by omega
        simp only
        rw [hnew i hlo hhi]
        exact blockRow_entry (by decide) (by decide) l2BlockOaMask_eq l2OaMask_eq (by decide)
          (by decide) (by decide) (by decide) hattr halign
          (le_trans (Nat.add_le_add_left (Nat.mul_le_mul_right _ hindex) _) hlimit)
      · simp only
        rw [hword2 j' i hi hin]
        exact h.cells k' j' hpage' i hi
  refine ⟨hformed, ?_, ?_⟩
  · apply unchangedOff_storeWords
    intro x hx
    exact Or.inr ⟨k, j, hpage, by omega, by omega⟩
  · intro ipa hipa
    cases hcase : page (ipa / 2 ^ 30) with
    | none =>
        have hne : ipa / 2 ^ 30 ≠ k := by
          intro heq
          rw [heq, hpage] at hcase
          cases hcase
        rw [leaf_of_plain hformed hipa hcase, mapped, if_neg (by omega),
          leaf_of_plain h hipa hcase]
        simp only
        rw [hword1 _ (by omega)]
    | some j' =>
        rw [leaf_of_page hformed hid hcase]
        simp only
        by_cases hin : j' = j ∧ i₀ ≤ ipa / 2 ^ 21 % 512 ∧ ipa / 2 ^ 21 % 512 < i₀ + n
        · obtain ⟨rfl, hlo, hhi⟩ := hin
          have hk' : ipa / 2 ^ 30 = k := h.apart _ _ _ hcase hpage
          rw [hnew _ hlo hhi, mapped, if_pos (by omega)]
          have hindex : ipa / 2 ^ 21 % 512 - i₀ + 1 ≤ n := by omega
          have hend : pa.toNat + (ipa / 2 ^ 21 % 512 - i₀ + 1) * 2 ^ 21 ≤ 2 ^ 48 :=
            le_trans (Nat.add_le_add_left (Nat.mul_le_mul_right _ hindex) _) hlimit
          rw [blockLeaf_blockRow (by decide) l2OaMask_eq (by decide) (by decide) (by decide)
            (by decide) hattr halign hend]
          simp only [Option.some.injEq, Prod.mk.injEq, and_true]
          omega
        · rw [hword2 _ _ (by omega) hin, mapped]
          have hout : ¬ (k * 2 ^ 30 + i₀ * 2 ^ 21 ≤ ipa ∧
              ipa < k * 2 ^ 30 + i₀ * 2 ^ 21 + n * 2 ^ 21) := by
            intro hrange
            have hk' : ipa / 2 ^ 30 = k := by omega
            rw [hk', hpage] at hcase
            cases hcase
            exact hin ⟨rfl, by omega, by omega⟩
          rw [if_neg hout, leaf_of_page h hid hcase]

/-- A row of blocks in the level-1 table. -/
theorem formed_row1 {k₀ n : Nat} {attr pa : BitVec 64} (hrow : k₀ + n ≤ 1024)
    (hempty : ∀ k, k₀ ≤ k → k < k₀ + n → page k = none)
    (hattr : CleanAttr attr) (halign : pa.toNat % 2 ^ 30 = 0)
    (hlimit : pa.toNat + n * 2 ^ 30 ≤ 2 ^ 48) {s' : S2}
    (hs' : s' = ⟨storeWords s.mem (tableAddr B id + 8 * k₀)
      (blockRow 30 l1BlockOaMask attr pa) n, s.pageBitmap⟩) :
    Formed B id s' page ∧ UnchangedOff (Within B id page) s.mem s'.mem ∧
      ∀ ipa, ipa < 2 ^ 40 → leaf s'.mem (tableAddr B id) ipa =
        mapped (k₀ * 2 ^ 30) (n * 2 ^ 30) pa.toNat attr (leaf s.mem (tableAddr B id)) ipa := by
  subst hs'
  have hword1 : ∀ k, ¬ (k₀ ≤ k ∧ k < k₀ + n) →
      word1 B id (storeWords s.mem (tableAddr B id + 8 * k₀)
        (blockRow 30 l1BlockOaMask attr pa) n) k = word1 B id s.mem k := by
    intro k hnot
    exact load64_storeWords_off (by omega)
  have hword2 : ∀ j i, j < mmuTblPageNrMax → i < 512 →
      word2 B id (storeWords s.mem (tableAddr B id + 8 * k₀)
        (blockRow 30 l1BlockOaMask attr pa) n) j i = word2 B id s.mem j i := by
    intro j i hj hi
    have hoff := page_off_table B hid hj
    exact load64_storeWords_off (by omega)
  have hnew : ∀ k, k₀ ≤ k → k < k₀ + n →
      word1 B id (storeWords s.mem (tableAddr B id + 8 * k₀)
        (blockRow 30 l1BlockOaMask attr pa) n) k = blockRow 30 l1BlockOaMask attr pa (k - k₀) := by
    intro k hlo hhi
    have haddr : tableAddr B id + 8 * k = tableAddr B id + 8 * k₀ + 8 * (k - k₀) := by omega
    rw [word1, haddr]
    exact load64_storeWords (by omega)
  have hformed : Formed B id ⟨storeWords s.mem (tableAddr B id + 8 * k₀)
      (blockRow 30 l1BlockOaMask attr pa) n, s.pageBitmap⟩ page := by
    constructor
    · intro k j hpage
      obtain ⟨hk, hj, hbit, hword⟩ := h.table k j hpage
      have hout : ¬ (k₀ ≤ k ∧ k < k₀ + n) := by
        rintro ⟨hlo, hhi⟩
        rw [hempty k hlo hhi] at hpage
        cases hpage
      refine ⟨hk, hj, hbit, ?_⟩
      simp only
      rw [hword1 k hout, hword]
    · intro k hk hpage
      simp only
      by_cases hin : k₀ ≤ k ∧ k < k₀ + n
      · have hindex : k - k₀ + 1 ≤ n := by omega
        rw [hnew k hin.1 hin.2]
        exact blockRow_entry (le_refl _) (by decide) l1BlockOaMask_eq l1BlockOaMask_eq (by decide)
          (by decide) (by decide) (by decide) hattr halign
          (le_trans (Nat.add_le_add_left (Nat.mul_le_mul_right _ hindex) _) hlimit)
      · rw [hword1 k hin]
        exact h.plain k hk hpage
    · exact h.apart
    · intro k j hpage i hi
      simp only
      rw [hword2 j i (h.table k j hpage).2.1 hi]
      exact h.cells k j hpage i hi
  refine ⟨hformed, ?_, ?_⟩
  · apply unchangedOff_storeWords
    intro x hx
    exact Or.inl ⟨by omega, by omega⟩
  · intro ipa hipa
    cases hcase : page (ipa / 2 ^ 30) with
    | none =>
        rw [leaf_of_plain hformed hipa hcase, mapped]
        simp only
        by_cases hin : k₀ ≤ ipa / 2 ^ 30 ∧ ipa / 2 ^ 30 < k₀ + n
        · rw [hnew _ hin.1 hin.2, if_pos (by omega)]
          have hindex : ipa / 2 ^ 30 - k₀ + 1 ≤ n := by omega
          have hend : pa.toNat + (ipa / 2 ^ 30 - k₀ + 1) * 2 ^ 30 ≤ 2 ^ 48 :=
            le_trans (Nat.add_le_add_left (Nat.mul_le_mul_right _ hindex) _) hlimit
          rw [blockLeaf_blockRow (by decide) l1BlockOaMask_eq (by decide) (by decide) (by decide)
            (by decide) hattr halign hend]
          simp only [Option.some.injEq, Prod.mk.injEq, and_true]
          omega
        · rw [hword1 _ hin, if_neg (by omega), leaf_of_plain h hipa hcase]
    | some j =>
        have hout : ¬ (k₀ ≤ ipa / 2 ^ 30 ∧ ipa / 2 ^ 30 < k₀ + n) := by
          rintro ⟨hlo, hhi⟩
          rw [hempty _ hlo hhi] at hcase
          cases hcase
        rw [leaf_of_page hformed hid hcase, mapped, if_neg (by omega), leaf_of_page h hid hcase]
        simp only
        rw [hword2 _ _ (h.table _ j hcase).2.1 (by omega)]

end Rows

/-! ## Table pages -/

/-- `_kernel_free_s2_page` fails if and only if every page is in use. -/
theorem kernelFreeS2Page_spec (B : Board) (s : S2) {id : Nat} (hid : id < maxVmNum) :
    (s.pageBitmap id = BitVec.allOnes 32 ∧ kernelFreeS2Page B s id = .ok (0, s)) ∨
      ∃ j, j < mmuTblPageNrMax ∧ (s.pageBitmap id).getLsbD j = false ∧
        kernelFreeS2Page B s id = .ok (pageAddr B id j, { s with
          pageBitmap :=
            Function.update s.pageBitmap id (s.pageBitmap id ||| BitVec.twoPow 32 j) }) := by
  by_cases hfull : s.pageBitmap id = BitVec.allOnes 32
  · left
    refine ⟨hfull, ?_⟩
    have hlast : B.findNext (s.pageBitmap id) = mmuTblPageNrMax - 1 ∧
        B.getBit (s.pageBitmap id) (B.findNext (s.pageBitmap id)) = true := by
      rw [B.getBit_eq _ _ (B.findNext_lt _), hfull, B.findNext_full]
      decide
    simp only [kernelFreeS2Page, hid, decide_true, check_true, ok_bind]
    rw [if_pos hlast]
    rfl
  · right
    have hclear := B.findNext_clear _ hfull
    refine ⟨B.findNext (s.pageBitmap id), B.findNext_lt _, hclear, ?_⟩
    have hnot : ¬ (B.findNext (s.pageBitmap id) = mmuTblPageNrMax - 1 ∧
        B.getBit (s.pageBitmap id) (B.findNext (s.pageBitmap id)) = true) := by
      rintro ⟨-, hset⟩
      rw [B.getBit_eq _ _ (B.findNext_lt _), hclear] at hset
      cases hset
    simp only [kernelFreeS2Page, hid, decide_true, check_true, ok_bind]
    rw [if_neg hnot, B.setBit_eq _ _ (B.findNext_lt _)]
    rfl

theorem getLsbD_set (bitmap : BitVec 32) {j : Nat} (hj : j < 32) (i : Nat) :
    (bitmap ||| BitVec.twoPow 32 j).getLsbD i = (bitmap.getLsbD i || decide (i = j)) := by
  rw [BitVec.getLsbD_or, BitVec.getLsbD_twoPow]
  by_cases h : i = j
  · simp [h, hj]
  · have : ¬ j = i := fun heq => h heq.symm
    simp [h, this]

section NextTable

variable {B : Board} {id : Nat} {s : S2} {page : Nat → Option Nat} (h : Formed B id s page)
  (hid : id < maxVmNum)
include h hid

omit hid in
/-- The entry leads to a table page already. -/
theorem nextTable_old {k j : Nat} (hpage : page k = some j) :
    nextTable B s id (tableAddr B id + 8 * k) (word1 B id s.mem k) =
      .ok (some (tableEntry B id j &&& tableAddrMask, s)) := by
  obtain ⟨-, -, -, hword⟩ := h.table k j hpage
  have hne : tableEntry B id j ≠ 0 := by
    intro hzero
    have htable := tableEntry_isTable B id j
    rw [hzero] at htable
    exact absurd htable (by decide)
  simp only [nextTable, hword, hne, ne_eq, not_false_eq_true, if_true]
  rfl

/-- What is known of a table page that has just been put in place. -/
structure Attached (B : Board) (id : Nat) (s : S2) (page : Nat → Option Nat) (k j : Nat)
    (s₁ : S2) : Prop where
  formed : Formed B id s₁ (Function.update page k (some j))
  frame : UnchangedOff (Within B id (Function.update page k (some j))) s.mem s₁.mem
  leaf : ∀ ipa, ipa < 2 ^ 40 →
    leaf s₁.mem (tableAddr B id) ipa = leaf s.mem (tableAddr B id) ipa
  bound : j < mmuTblPageNrMax
  free : (s.pageBitmap id).getLsbD j = false
  bitmap : s₁.pageBitmap =
    Function.update s.pageBitmap id (s.pageBitmap id ||| BitVec.twoPow 32 j)

theorem attached {k j : Nat} (hk : k < 1024) (hpage : page k = none)
    (hzero : word1 B id s.mem k = 0) (hj : j < mmuTblPageNrMax)
    (hfree : (s.pageBitmap id).getLsbD j = false) {s₁ : S2}
    (hs₁ : s₁ = ⟨store64 (fill s.mem (pageAddr B id j) 4096 0) (tableAddr B id + 8 * k)
      (tableEntry B id j),
      Function.update s.pageBitmap id (s.pageBitmap id ||| BitVec.twoPow 32 j)⟩) :
    Attached B id s page k j s₁ := by
  have hoff := page_off_table B hid hj
  have hother : ∀ k' j', page k' = some j' → j' ≠ j := by
    rintro k' j' hpage' rfl
    have hbit := (h.table k' j' hpage').2.2.1
    rw [hfree] at hbit
    cases hbit
  have hself : word1 B id s₁.mem k = tableEntry B id j := by
    rw [hs₁]
    exact load64_store64_self _ _ _
  have hframe : UnchangedOff (Within B id (Function.update page k (some j))) s.mem s₁.mem := by
    rw [hs₁]
    apply @UnchangedOff.trans _ _ (fill s.mem (pageAddr B id j) 4096 0)
    · apply unchangedOff_fill
      intro x hx
      exact Or.inr ⟨k, j, by simp, by omega, by omega⟩
    · apply unchangedOff_store64
      intro x hx
      exact Or.inl ⟨by omega, by omega⟩
  have hword1 : ∀ k', k' < 1024 → k' ≠ k → word1 B id s₁.mem k' = word1 B id s.mem k' := by
    intro k' hk' hne
    rw [hs₁, word1, load64_store64_of_disjoint (by omega)]
    apply (@unchangedOff_fill (fun x => pageAddr B id j ≤ x ∧
      x < pageAddr B id j + 4096) _ _ _ _ _).load64_eq
    · intro x hx
      omega
    · intro x hx
      exact ⟨by omega, by omega⟩
  have hword2 : ∀ j' i, j' < mmuTblPageNrMax → j' ≠ j → i < 512 →
      word2 B id s₁.mem j' i = word2 B id s.mem j' i := by
    intro j' i hj' hne hi
    have hoff' := page_off_table B hid hj'
    have hapart := @pages_apart B id _ _ hne
    rw [hs₁, word2, load64_store64_of_disjoint (by omega)]
    apply (@unchangedOff_fill (fun x => pageAddr B id j ≤ x ∧
      x < pageAddr B id j + 4096) _ _ _ _ _).load64_eq
    · intro x hx
      omega
    · intro x hx
      exact ⟨by omega, by omega⟩
  have hnew : ∀ i, i < 512 → word2 B id s₁.mem j i = 0 := by
    intro i hi
    rw [hs₁, word2, load64_store64_of_disjoint (by omega)]
    exact load64_fill_zero (by omega) (by omega)
  have hbit : ∀ i, (s₁.pageBitmap id).getLsbD i =
      ((s.pageBitmap id).getLsbD i || decide (i = j)) := by
    intro i
    rw [hs₁]
    simp only [Function.update_self]
    exact getLsbD_set _ hj i
  have hformed : Formed B id s₁ (Function.update page k (some j)) := by
    constructor
    · intro k' j' hpage'
      by_cases hsame : k' = k
      · subst hsame
        rw [Function.update_self, Option.some.injEq] at hpage'
        subst hpage'
        exact ⟨hk, hj, by simp [hbit], hself⟩
      · rw [Function.update_of_ne hsame] at hpage'
        obtain ⟨hk', hj', hset, hword⟩ := h.table k' j' hpage'
        exact ⟨hk', hj', by simp [hbit, hset], (hword1 k' hk' hsame).trans hword⟩
    · intro k' hk' hpage'
      by_cases hsame : k' = k
      · subst hsame
        rw [Function.update_self] at hpage'
        cases hpage'
      · rw [Function.update_of_ne hsame] at hpage'
        rw [hword1 k' hk' hsame]
        exact h.plain k' hk' hpage'
    · intro k₁ k₂ j' h₁ h₂
      by_cases hsame₁ : k₁ = k
      · by_cases hsame₂ : k₂ = k
        · rw [hsame₁, hsame₂]
        · rw [Function.update_of_ne hsame₂] at h₂
          rw [hsame₁, Function.update_self, Option.some.injEq] at h₁
          exact absurd h₁.symm (hother k₂ j' h₂)
      · rw [Function.update_of_ne hsame₁] at h₁
        by_cases hsame₂ : k₂ = k
        · rw [hsame₂, Function.update_self, Option.some.injEq] at h₂
          exact absurd h₂.symm (hother k₁ j' h₁)
        · rw [Function.update_of_ne hsame₂] at h₂
          exact h.apart k₁ k₂ j' h₁ h₂
    · intro k' j' hpage' i hi
      by_cases hsame : k' = k
      · rw [hsame, Function.update_self, Option.some.injEq] at hpage'
        subst hpage'
        exact Or.inl (hnew i hi)
      · rw [Function.update_of_ne hsame] at hpage'
        rw [hword2 j' i (h.table k' j' hpage').2.1 (hother k' j' hpage') hi]
        exact h.cells k' j' hpage' i hi
  refine ⟨hformed, hframe, ?_, hj, hfree, by rw [hs₁]⟩
  intro ipa hipa
  by_cases hsame : ipa / 2 ^ 30 = k
  · have hnow : Function.update page k (some j) (ipa / 2 ^ 30) = some j := by
      rw [hsame, Function.update_self]
    rw [leaf_of_page hformed hid hnow, hnew _ (by omega),
      leaf_of_plain h hipa (by rw [hsame, hpage]), hsame, hzero]
    rfl
  · have hsamepage : Function.update page k (some j) (ipa / 2 ^ 30) = page (ipa / 2 ^ 30) :=
      Function.update_of_ne hsame ..
    cases hcase : page (ipa / 2 ^ 30) with
    | none =>
        rw [leaf_of_plain hformed hipa (hsamepage.trans hcase), leaf_of_plain h hipa hcase,
          hword1 _ (by omega) hsame]
    | some j' =>
        rw [leaf_of_page hformed hid (hsamepage.trans hcase), leaf_of_page h hid hcase,
          hword2 j' _ (h.table _ j' hcase).2.1 (hother _ j' hcase) (by omega)]

/-- The entry is empty: a page is put in place, or none is left. -/
theorem nextTable_new {k : Nat} (hk : k < 1024) (hpage : page k = none)
    (hzero : word1 B id s.mem k = 0) :
    (s.pageBitmap id = BitVec.allOnes 32 ∧
        nextTable B s id (tableAddr B id + 8 * k) (word1 B id s.mem k) = .ok none) ∨
      ∃ j s₁, nextTable B s id (tableAddr B id + 8 * k) (word1 B id s.mem k) =
          .ok (some (tableEntry B id j, s₁)) ∧
        Attached B id s page k j s₁ := by
  have hpos := (tableAddr_bounds B hid).1
  rcases kernelFreeS2Page_spec B s hid with ⟨hfull, hfree⟩ | ⟨j, hj, hclear, hfree⟩
  · left
    refine ⟨hfull, ?_⟩
    simp only [nextTable, hzero, ne_eq, not_true_eq_false, if_false, hfree, ok_bind, if_true]
    rfl
  · right
    have hne : pageAddr B id j ≠ 0 := by
      have := (pageAddr_bounds B hid hj).1
      omega
    refine ⟨j, _, ?_, attached h hid hk hpage hzero hj hclear rfl⟩
    simp only [nextTable, hzero, ne_eq, not_true_eq_false, if_false, hfree, ok_bind, hne]
    rw [wr_ok (by omega)]
    rfl

end NextTable

end RtHypervisor.Ports.Stage2
