import Mathlib.Tactic
import RtHypervisor.Ports.Stage2Translate
import RtHypervisor.Ports.VmLife
import RtHypervisor.Ports.GuestMemory

/-!
# Loading the image of a guest

`os_img_load` translates once for every 2 MB of the image and copies each time from the start of
the image.  It is right for an image of one chunk in the lower half of a block, as long as the
chunk does not leave the block or the next block of the guest is the next one of the host.
-/

namespace RtHypervisor.Ports.VmLife

open RtHypervisor.Verified.Run
open RtHypervisor.Verified.ByteMem
open RtHypervisor.Verified.BitField
open RtHypervisor.Ports.Platform
open RtHypervisor.Ports.Stage2
open RtHypervisor.Ports.Mm

/-! ## Guest memory in blocks of 2 MB -/

/-- Where the guest memory ends that starts at `base` and has these blocks. -/
def guestEnd (base : Nat) (mbs : List Nat) : Nat := base + 2 ^ 21 * mbs.length

private theorem block_lt {base ipa : Nat} {mbs : List Nat} (hlo : base ≤ ipa)
    (hhi : ipa < guestEnd base mbs) : (ipa - base) / 2 ^ 21 < mbs.length := by
  rw [Nat.div_lt_iff_lt_mul (by decide), Nat.mul_comm]
  rw [guestEnd] at hhi
  omega

/-- The table of the VM maps the guest memory from `base` on to the blocks `mbs` of the host, with
an entry of level 2 for each. -/
structure GuestBlocks (B : Board) (id : Nat) (s : S2) (base : Nat) (mbs : List Nat) : Prop where
  aligned : base % 2 ^ 21 = 0
  limit : guestEnd base mbs ≤ 2 ^ 40
  host : ∀ mb ∈ mbs, mb % 2 ^ 21 = 0
  table : ∀ ipa, base ≤ ipa → ipa < guestEnd base mbs →
    isTable (word1 B id s.mem (ipa / 2 ^ 30)) = true ∧ 4096 ≤ pmdPtr B id s ipa ∧
      isBlock (load64 s.mem (pmdPtr B id s ipa)) = true
  block : ∀ ipa, base ≤ ipa → ipa < guestEnd base mbs →
    mbs[(ipa - base) / 2 ^ 21]? = some (load64 s.mem (pmdPtr B id s ipa) &&& tableAddrMask).toNat

/-- The bytes of the blocks. -/
def InBlocks (mbs : List Nat) (x : Nat) : Prop := ∃ mb ∈ mbs, mb ≤ x ∧ x < mb + 2 ^ 21

/-- The bytes of the blocks and of the 2 MB behind each. -/
def NearBlocks (mbs : List Nat) (x : Nat) : Prop := ∃ mb ∈ mbs, mb ≤ x ∧ x < mb + 2 ^ 22

/-- The bytes of the image. -/
def InImage (d : OsDesc) (x : Nat) : Prop :=
  d.imgAddr.toNat ≤ x ∧ x < d.imgAddr.toNat + d.imgSize.toNat

/-- A region without the tables of the VM and without the image. -/
def ClearOf (region : Nat → Prop) (B : Board) (id : Nat) (s : S2) (d : OsDesc) : Prop :=
  ∀ x, region x → ¬ Reached B id s.mem x ∧ ¬ InImage d x

theorem InBlocks.near {mbs : List Nat} {x : Nat} (h : InBlocks mbs x) : NearBlocks mbs x := by
  obtain ⟨mb, hmb, hlo, hhi⟩ := h
  exact ⟨mb, hmb, hlo, by omega⟩

/-- The image is in the memory of the guest, and nothing else of the host has changed. -/
structure Loaded (B : Board) (id : Nat) (mbs : List Nat) (d : OsDesc) (s s' : S2) : Prop where
  bytes : ∀ i, i < d.imgSize.toNat → ∃ pa,
    walk s'.mem (tableAddr B id) (d.imgEp.toNat + i) = some pa ∧
      s'.mem pa = s.mem (d.imgAddr.toNat + i)
  inside : UnchangedOff (InBlocks mbs) s.mem s'.mem

section Guest

variable {B : Board} {id : Nat} {s s' : S2} {base : Nat} {mbs : List Nat}

/-- The host block of an address, at the head of what the table says. -/
theorem GuestBlocks.walk (h : GuestBlocks B id s base mbs) {ipa mb : Nat} (hlo : base ≤ ipa)
    (hhi : ipa < guestEnd base mbs) (hmb : mbs[(ipa - base) / 2 ^ 21]? = some mb) :
    walk s.mem (tableAddr B id) ipa = some (mb + ipa % 2 ^ 21) := by
  obtain ⟨htable, -, hblock⟩ := h.table ipa hlo hhi
  have hentry := h.block ipa hlo hhi
  rw [hmb, Option.some.injEq] at hentry
  have halign := h.host mb (List.mem_of_getElem? hmb)
  have hfield : (load64 s.mem (pmdPtr B id s ipa) &&& l2OaMask).toNat = mb := by
    rw [tableAddrMask_eq, toNat_and_bits _ (by decide) (by decide)] at hentry
    rw [l2OaMask_eq, toNat_and_bits _ (by decide) (by decide)]
    omega
  rw [walk_of_block htable hblock, hfield]

/-- What the code makes of it: the offset in the block without bit 20. -/
theorem GuestBlocks.translate (h : GuestBlocks B id s base mbs) (hid : id < maxVmNum)
    {ipa mb : Nat} (hlo : base ≤ ipa) (hhi : ipa < guestEnd base mbs)
    (hmb : mbs[(ipa - base) / 2 ^ 21]? = some mb) :
    ∃ pa, s2Translate s (pgdTbl B id) (BitVec.ofNat 64 ipa) = .ok (.eok, pa) ∧
      pa.toNat = mb + ipa % 2 ^ 20 := by
  have hlimit := h.limit
  have hipa : ipa < 2 ^ 40 := lt_of_lt_of_le hhi hlimit
  obtain ⟨-, hlow, hblock⟩ := h.table ipa hlo hhi
  have hentry := h.block ipa hlo hhi
  rw [hmb, Option.some.injEq] at hentry
  refine ⟨_, s2Translate_block hid hipa hlow hblock, ?_⟩
  have hbound : mb < 2 ^ 48 := by
    rw [hentry, tableAddrMask_eq, toNat_and_bits _ (by decide) (by decide)]
    omega
  rw [BitVec.toNat_add, blockOffset hipa, ← hentry]
  omega

theorem GuestBlocks.unchanged (h : GuestBlocks B id s base mbs) {region : Nat → Prop}
    (hclear : ∀ x, region x → ¬ Reached B id s.mem x) (hsame : UnchangedOff region s.mem s'.mem) :
    GuestBlocks B id s' base mbs := by
  have hlimit := h.limit
  have hread : ∀ p, WordReached B id s.mem p → load64 s'.mem p = load64 s.mem p := by
    intro p hp
    exact hsame.load64_eq fun i hi hregion => hclear _ hregion (hp i hi)
  have hword : ∀ ipa, ipa < 2 ^ 40 →
      word1 B id s'.mem (ipa / 2 ^ 30) = word1 B id s.mem (ipa / 2 ^ 30) := by
    intro ipa hipa
    apply hread
    intro i hi
    exact Or.inl ⟨by omega, by omega⟩
  have hptr : ∀ ipa, ipa < 2 ^ 40 → pmdPtr B id s' ipa = pmdPtr B id s ipa := by
    intro ipa hipa
    rw [pmdPtr, pmdPtr, hword ipa hipa]
  refine ⟨h.aligned, hlimit, h.host, ?_, ?_⟩
  · intro ipa hlo hhi
    have hipa : ipa < 2 ^ 40 := lt_of_lt_of_le hhi hlimit
    obtain ⟨htable, hlow, hblock⟩ := h.table ipa hlo hhi
    rw [hword ipa hipa, hptr ipa hipa, hread _ (pmdPtr_reached hipa htable)]
    exact ⟨htable, hlow, hblock⟩
  · intro ipa hlo hhi
    have hipa : ipa < 2 ^ 40 := lt_of_lt_of_le hhi hlimit
    obtain ⟨htable, -, -⟩ := h.table ipa hlo hhi
    rw [hptr ipa hipa, hread _ (pmdPtr_reached hipa htable)]
    exact h.block ipa hlo hhi

/-- The bytes of the tables, after a write elsewhere. -/
theorem reached_unchanged {region : Nat → Prop}
    (hclear : ∀ x, region x → ¬ Reached B id s.mem x) (hsame : UnchangedOff region s.mem s'.mem)
    {x : Nat} (hx : Reached B id s'.mem x) : Reached B id s.mem x := by
  rcases hx with htable | ⟨k, hk, hword, hlo, hhi⟩
  · exact Or.inl htable
  · have hsame' : word1 B id s'.mem k = word1 B id s.mem k :=
      hsame.load64_eq fun i hi hregion => hclear _ hregion (Or.inl ⟨by omega, by omega⟩)
    rw [hsame'] at hword hlo hhi
    exact Or.inr ⟨k, hk, hword, hlo, hhi⟩

end Guest

/-! ## The memory of a new guest -/

section New

variable {B : Board} {id : Nat} {s : S2} {page : Nat → Option Nat} {base : Nat} {mbs : List Nat}

/-- A table in which every address of the guest has a table page and the blocks are in place. -/
theorem guestBlocks_of_leaf (h : Formed B id s page) (hid : id < maxVmNum)
    (hbase : base % 2 ^ 21 = 0) (hlimit : guestEnd base mbs ≤ 2 ^ 40)
    (hhost : ∀ mb ∈ mbs, mb % 2 ^ 21 = 0)
    (hpaged : ∀ ipa, base ≤ ipa → (ipa - base) / 2 ^ 21 < mbs.length →
      ∃ j, page (ipa / 2 ^ 30) = some j)
    (hleaf : ∀ ipa, base ≤ ipa → ipa < 2 ^ 40 →
      leaf s.mem (tableAddr B id) ipa = blockAt base mbs ipa) : GuestBlocks B id s base mbs := by
  have hcell : ∀ ipa, base ≤ ipa → ipa < guestEnd base mbs →
      ∃ j mb, isTable (word1 B id s.mem (ipa / 2 ^ 30)) = true ∧
        pmdPtr B id s ipa = pageAddr B id j + 8 * (ipa / 2 ^ 21 % 512) ∧ j < mmuTblPageNrMax ∧
        mbs[(ipa - base) / 2 ^ 21]? = some mb ∧
        isBlock (load64 s.mem (pmdPtr B id s ipa)) = true ∧
        (load64 s.mem (pmdPtr B id s ipa) &&& tableAddrMask).toNat = mb := by
    intro ipa hlo hhi
    have hidx := block_lt hlo hhi
    have hipa : ipa < 2 ^ 40 := lt_of_lt_of_le hhi hlimit
    obtain ⟨j, hpage⟩ := hpaged ipa hlo hidx
    obtain ⟨-, hj, -, hentry⟩ := h.table _ j hpage
    have hptr : pmdPtr B id s ipa = pageAddr B id j + 8 * (ipa / 2 ^ 21 % 512) := by
      rw [pmdPtr, hentry, tableEntry_address B hid hj]
    have hword : load64 s.mem (pmdPtr B id s ipa) = word2 B id s.mem j (ipa / 2 ^ 21 % 512) := by
      rw [hptr]
      rfl
    have hvalue := hleaf ipa hlo hipa
    rw [leaf_of_page h hid hpage, blockAt, List.getElem?_eq_getElem hidx, ← hword] at hvalue
    refine ⟨j, mbs[(ipa - base) / 2 ^ 21], ?_, hptr, hj, List.getElem?_eq_getElem hidx, ?_⟩
    · rw [hentry]
      exact tableEntry_isTable B id j
    · by_cases hblock : isBlock (load64 s.mem (pmdPtr B id s ipa)) = true
      · rw [blockLeaf, if_pos hblock, Option.map_some, Option.some.injEq, Prod.mk.injEq] at hvalue
        rcases h.cells _ j hpage (ipa / 2 ^ 21 % 512) (by omega) with hzero | ⟨-, haddress⟩
        · rw [hword, hzero] at hblock
          exact absurd hblock (by decide)
        · refine ⟨hblock, ?_⟩
          rw [hword, haddress, ← hword]
          exact Nat.add_right_cancel hvalue.1
      · rw [blockLeaf, if_neg hblock] at hvalue
        cases hvalue
  refine ⟨hbase, hlimit, hhost, ?_, ?_⟩
  · intro ipa hlo hhi
    obtain ⟨j, mb, htable, hptr, hj, -, hblock, -⟩ := hcell ipa hlo hhi
    have hpos := (pageAddr_bounds B hid hj).1
    exact ⟨htable, by omega, hblock⟩
  · intro ipa hlo hhi
    obtain ⟨j, mb, -, -, -, hmb, -, haddr⟩ := hcell ipa hlo hhi
    rw [hmb, haddr]

/-- **The guest memory that `vm_memory_init` leaves.** -/
theorem guestBlocks_of_init (hid : id < maxVmNum) {e e₁ e₂ : Env} {mm mm₁ mm₂ : MmStruct}
    {addr size : BitVec 64} (hblocks : ∀ n, n < e₂.allocs → B.block n < 2 ^ 64)
    (haddr : addr.toNat % 2 ^ 21 = 0) (hlimit : addr.toNat + size.toNat * 2 ^ 20 ≤ 2 ^ 40)
    (hempty : EmptyTable B id e.s2)
    (hinit : vmMmStructInit B e { mm with memSize := size } id addr size = .ok (.eok, mm₁, e₁))
    (hrun : vmMemoryInit B e₁ mm₁ id = .ok (.eok, mm₂, e₂)) :
    GuestBlocks B id e₂.s2 addr.toNat (guestBlocks mm₂) ∧ ∃ page, Formed B id e₂.s2 page := by
  obtain ⟨hs2, rfl⟩ := vmMmStructInit_ok hinit
  obtain ⟨ks, hbs, hlen, -, hleaf, page, hformed, hpaged⟩ := vmMemoryInit_maps hid hblocks haddr
    hlimit (by rw [hs2]; exact hempty) rfl rfl rfl hrun
  refine ⟨?_, page, hformed⟩
  rw [hbs]
  apply guestBlocks_of_leaf hformed hid haddr _ _ hpaged
  · intro ipa hlo hipa
    rw [hleaf ipa hipa, if_neg (Nat.not_lt.mpr hlo)]
  · rw [guestEnd, List.length_map, hlen]
    exact le_trans (Nat.add_le_add_left (blocks_size_le _) _) hlimit
  · intro mb hmb
    obtain ⟨k, -, rfl⟩ := List.mem_map.mp hmb
    exact B.block_aligned k

end New

/-! ## The loop -/

/-- Where the chunk for an address goes. -/
def chunkAddr (base : Nat) (mbs : List Nat) (ipa : Nat) : Nat :=
  (mbs[(ipa - base) / 2 ^ 21]?).getD 0 + ipa % 2 ^ 20

section Loop

variable {B : Board} {id : Nat} (hid : id < maxVmNum) {s s' : S2} {base : Nat} {mbs : List Nat}

/-- The state after one chunk of `n` bytes. -/
def copied (s : S2) (dst src n : Nat) : S2 :=
  { s with mem := blit s.mem dst n fun i => s.mem (src + i) }

private theorem copied_unchanged {region : Nat → Prop} {dst src n : Nat}
    (h : ∀ i, i < n → region (dst + i)) : UnchangedOff region s.mem (copied s dst src n).mem :=
  @unchangedOff_blit region s.mem dst n (fun i => s.mem (src + i)) h

include hid

/-- One round of the loop. -/
theorem loadLoop_step (h : GuestBlocks B id s base mbs) {va count : Nat} (hlo : base ≤ va)
    (hhi : va < guestEnd base mbs) (hcount : count ≤ 2 ^ 40) (src : BitVec 64)
    (fuel : Nat) :
    loadLoop (pgdTbl B id) src (fuel + 1) s (BitVec.ofNat 64 va) (BitVec.ofNat 64 count) =
      if count > 2 ^ 21 then
        loadLoop (pgdTbl B id) src fuel (copied s (chunkAddr base mbs va) src.toNat (2 ^ 21))
          (BitVec.ofNat 64 (va + 2 ^ 21)) (BitVec.ofNat 64 (count - 2 ^ 21))
      else .ok (.eok, copied s (chunkAddr base mbs va) src.toNat count) := by
  have hidx := block_lt hlo hhi
  have hmb := List.getElem?_eq_getElem hidx
  obtain ⟨pa, hpa, haddr⟩ := h.translate hid hlo hhi hmb
  have hdst : pa.toNat = chunkAddr base mbs va := by
    rw [haddr, chunkAddr, hmb, Option.getD_some]
  have hsize : s2PmdSize.toNat = 2 ^ 21 := by decide
  have hnat : (BitVec.ofNat 64 count).toNat = count := by
    rw [BitVec.toNat_ofNat]
    omega
  rw [loadLoop, hpa, ok_bind]
  by_cases hlarge : count > 2 ^ 21
  · have hge : BitVec.ofNat 64 count ≥ s2PmdSize := by
      rw [ge_iff_le, BitVec.le_def, hnat, hsize]
      omega
    have hsub : BitVec.ofNat 64 count - s2PmdSize = BitVec.ofNat 64 (count - 2 ^ 21) := by
      rw [← BitVec.toNat_inj, BitVec.toNat_sub, hnat, hsize, BitVec.toNat_ofNat]
      omega
    have hpos : BitVec.ofNat 64 (count - 2 ^ 21) > 0 := by
      have hzero : (0 : BitVec 64).toNat = 0 := rfl
      rw [gt_iff_lt, BitVec.lt_def, hzero, BitVec.toNat_ofNat]
      omega
    have hnext : BitVec.ofNat 64 va + s2PmdSize = BitVec.ofNat 64 (va + 2 ^ 21) := by
      have hpmd : s2PmdSize = BitVec.ofNat 64 (2 ^ 21) := s2PmdSize_eq
      rw [hpmd, BitVec.ofNat_add]
    simp only [if_pos hge, hsub, if_pos hpos, hnext, hdst, hsize, if_pos hlarge]
    rfl
  · have hcopy : (if BitVec.ofNat 64 count ≥ s2PmdSize then s2PmdSize else BitVec.ofNat 64 count) =
        BitVec.ofNat 64 count := by
      by_cases hge : BitVec.ofNat 64 count ≥ s2PmdSize
      · have hge' := hge
        rw [ge_iff_le, BitVec.le_def, hnat, hsize] at hge'
        rw [if_pos hge, ← BitVec.toNat_inj, hnat, hsize]
        omega
      · rw [if_neg hge]
    have hnone : ¬ BitVec.ofNat 64 count - BitVec.ofNat 64 count > 0 := by
      rw [BitVec.sub_self]
      decide
    simp only [hcopy, hnone, if_false, hdst, hnat, if_neg hlarge]
    rfl

omit hid in
private theorem chunk_near {va x : Nat} (hlo : base ≤ va) (hhi : va < guestEnd base mbs)
    (hx : chunkAddr base mbs va ≤ x ∧ x < chunkAddr base mbs va + 2 ^ 21) : NearBlocks mbs x := by
  have hidx := block_lt hlo hhi
  rw [chunkAddr, List.getElem?_eq_getElem hidx, Option.getD_some] at hx
  exact ⟨_, List.getElem_mem hidx, by omega, by omega⟩

/-- The whole loop.  Where a byte has changed, it is one of the first 2 MB of the image, at its
place behind the start of a chunk. -/
theorem loadLoop_trace {d : OsDesc} (h : GuestBlocks B id s base mbs)
    (hclear : ClearOf (NearBlocks mbs) B id s d) {fuel va count : Nat} (hcount : 0 < count)
    (hfuel : count / 2 ^ 21 < fuel) (hsize : count ≤ d.imgSize.toNat) (hlo : base ≤ va)
    (hhi : va + count ≤ guestEnd base mbs) :
    ∃ s', loadLoop (pgdTbl B id) d.imgAddr fuel s (BitVec.ofNat 64 va) (BitVec.ofNat 64 count) =
        .ok (.eok, s') ∧ UnchangedOff (NearBlocks mbs) s.mem s'.mem ∧
      ∀ x, s'.mem x = s.mem x ∨ ∃ c j, c * 2 ^ 21 < count ∧ j < 2 ^ 21 ∧ j < count ∧
        x = chunkAddr base mbs (va + c * 2 ^ 21) + j ∧
        s'.mem x = s.mem (d.imgAddr.toNat + j) := by
  induction fuel generalizing s va count with
  | zero => omega
  | succ fuel ih =>
      have hlimit := h.limit
      have hva : va < guestEnd base mbs := lt_of_lt_of_le (by omega) hhi
      have hcount' : count ≤ 2 ^ 40 := by
        have := le_trans hhi hlimit
        omega
      have hmem : ∀ n x, (copied s (chunkAddr base mbs va) d.imgAddr.toNat n).mem x =
          if chunkAddr base mbs va ≤ x ∧ x < chunkAddr base mbs va + n then
            s.mem (d.imgAddr.toNat + (x - chunkAddr base mbs va))
          else s.mem x := fun _ _ => rfl
      have hunchanged : ∀ n, n ≤ 2 ^ 21 → UnchangedOff (NearBlocks mbs) s.mem
          (copied s (chunkAddr base mbs va) d.imgAddr.toNat n).mem := by
        intro n hn
        apply copied_unchanged
        intro i hi
        exact chunk_near hlo hva ⟨by omega, by omega⟩
      rw [loadLoop_step hid h hlo hva hcount']
      by_cases hlarge : count > 2 ^ 21
      · have hframe := hunchanged (2 ^ 21) (le_refl _)
        have hoff : ∀ x, NearBlocks mbs x → ¬ Reached B id s.mem x := fun x hx => (hclear x hx).1
        have hclear₁ : ClearOf (NearBlocks mbs) B id
            (copied s (chunkAddr base mbs va) d.imgAddr.toNat (2 ^ 21)) d := fun x hx =>
          ⟨fun hreached => hoff x hx (reached_unchanged hoff hframe hreached), (hclear x hx).2⟩
        obtain ⟨s', hrun, hframe', htrace⟩ := @ih _ (h.unchanged hoff hframe) hclear₁
          (va + 2 ^ 21) (count - 2 ^ 21) (by omega) (by omega) (by omega)
          (by omega) (le_trans (by omega) hhi)
        rw [if_pos hlarge]
        refine ⟨s', hrun, hframe.trans hframe', ?_⟩
        intro x
        rcases htrace x with hsame | ⟨c, j, hc, hj, hjc, hx, hvalue⟩
        · rw [hsame, hmem]
          by_cases hin : chunkAddr base mbs va ≤ x ∧ x < chunkAddr base mbs va + 2 ^ 21
          · right
            rw [if_pos hin]
            refine ⟨0, x - chunkAddr base mbs va, ?_, by omega, by omega, ?_, rfl⟩
            · rw [Nat.zero_mul]
              exact hcount
            rw [Nat.zero_mul, Nat.add_zero]
            omega
          · rw [if_neg hin]
            exact Or.inl rfl
        · right
          have hkeep : (copied s (chunkAddr base mbs va) d.imgAddr.toNat (2 ^ 21)).mem
              (d.imgAddr.toNat + j) = s.mem (d.imgAddr.toNat + j) := by
            apply hframe
            intro hnear
            exact (hclear _ hnear).2 ⟨by omega, by omega⟩
          have haddr : va + (c + 1) * 2 ^ 21 = va + 2 ^ 21 + c * 2 ^ 21 := by
            rw [Nat.add_mul, Nat.one_mul]
            omega
          refine ⟨c + 1, j, ?_, hj, by omega, ?_, ?_⟩
          · rw [Nat.add_mul, Nat.one_mul]
            exact Nat.add_lt_of_lt_sub hc
          · rw [haddr]
            exact hx
          · rw [hvalue, hkeep]
      · rw [if_neg hlarge]
        refine ⟨_, rfl, hunchanged count (by omega), ?_⟩
        intro x
        rw [hmem]
        by_cases hin : chunkAddr base mbs va ≤ x ∧ x < chunkAddr base mbs va + count
        · right
          rw [if_pos hin]
          refine ⟨0, x - chunkAddr base mbs va, ?_, by omega, by omega, ?_, rfl⟩
          · rw [Nat.zero_mul]
            exact hcount
          rw [Nat.zero_mul, Nat.add_zero]
          omega
        · rw [if_neg hin]
          exact Or.inl rfl

end Loop

/-! ## `os_img_load` -/

/-- The image is empty; or it is one chunk, the entry point lies in the lower half of its block,
and the image ends in this block or goes on in the next one of the host. -/
def LoadCond (base : Nat) (mbs : List Nat) (d : OsDesc) : Prop :=
  d.imgSize.toNat = 0 ∨
    d.imgSize.toNat ≤ 2 ^ 21 ∧ d.imgEp.toNat / 2 ^ 20 % 2 = 0 ∧
      (d.imgEp.toNat % 2 ^ 21 + d.imgSize.toNat ≤ 2 ^ 21 ∨
        ∃ mb, mbs[(d.imgEp.toNat - base) / 2 ^ 21]? = some mb ∧
          mbs[(d.imgEp.toNat - base) / 2 ^ 21 + 1]? = some (mb + 2 ^ 21))

/-- `os_img_load` is right for this layout, whatever the image holds. -/
def Faithful (B : Board) (id base : Nat) (mbs : List Nat) (d : OsDesc) (mm : MmStruct) : Prop :=
  ∀ e e' : Env, GuestBlocks B id e.s2 base mbs → ClearOf (InBlocks mbs) B id e.s2 d →
    osImgLoad d e mm = .ok (.eok, e') → Loaded B id mbs d e.s2 e'.s2

private theorem osImgLoad_ok {d : OsDesc} {e e' : Env} {mm : MmStruct} {ret : RtErr}
    (h : osImgLoad d e mm = .ok (ret, e')) :
    loadLoop mm.pgdTbl d.imgAddr (d.imgSize.toNat / memBlockSize + 1) e.s2 d.imgEp d.imgSize =
      .ok (ret, e'.s2) := by
  obtain ⟨⟨ret', s'⟩, hloop, hpure⟩ := bind_eq_ok.mp h
  cases hpure
  exact hloop

section Main

variable {B : Board} {id : Nat} (hid : id < maxVmNum) {base : Nat} {mbs : List Nat} {d : OsDesc}
  {mm : MmStruct}

/-- An empty image: nothing is copied. -/
theorem loaded_empty {s s' : S2} (hsize : d.imgSize.toNat = 0)
    (hrun : loadLoop (pgdTbl B id) d.imgAddr 1 s d.imgEp d.imgSize = .ok (.eok, s')) :
    Loaded B id mbs d s s' := by
  have hzero : d.imgSize = 0 := by
    rw [← BitVec.toNat_inj, hsize]
    rfl
  rw [loadLoop] at hrun
  obtain ⟨⟨ret, pa⟩, -, hrest⟩ := bind_eq_ok.mp hrun
  have hcopy : (if (0 : BitVec 64) ≥ s2PmdSize then s2PmdSize else 0) = 0 := by decide
  have hnone : ¬ (0 : BitVec 64) - 0 > 0 := by decide
  constructor
  · intro i hi
    omega
  · cases ret with
    | error => cases hrest
    | enomem => cases hrest
    | einval => cases hrest
    | eok =>
        rw [hzero] at hrest
        simp only [hcopy, hnone, if_false] at hrest
        cases hrest
        exact @copied_unchanged s (InBlocks mbs) pa.toNat d.imgAddr.toNat 0
          (fun i hi => absurd hi (Nat.not_lt_zero i))

include hid

/-- One chunk. -/
theorem loaded_chunk {s s' : S2} (hlo : base ≤ d.imgEp.toNat)
    (hhi : d.imgEp.toNat + d.imgSize.toNat ≤ guestEnd base mbs) (hpos : 0 < d.imgSize.toNat)
    (hcond : LoadCond base mbs d) (h : GuestBlocks B id s base mbs)
    (hclear : ClearOf (InBlocks mbs) B id s d) {fuel : Nat}
    (hrun : loadLoop (pgdTbl B id) d.imgAddr (fuel + 1) s d.imgEp d.imgSize = .ok (.eok, s')) :
    Loaded B id mbs d s s' := by
  rcases hcond with hzero | ⟨hsize, hlow, hfits⟩
  · omega
  · have hva : d.imgEp.toNat < guestEnd base mbs := by omega
    have hidx := block_lt hlo hva
    have hbase := h.aligned
    obtain ⟨mb, hmb⟩ : ∃ mb, mbs[(d.imgEp.toNat - base) / 2 ^ 21]? = some mb :=
      ⟨_, List.getElem?_eq_getElem hidx⟩
    have hdst : chunkAddr base mbs d.imgEp.toNat = mb + d.imgEp.toNat % 2 ^ 21 := by
      rw [chunkAddr, hmb, Option.getD_some]
      omega
    have hstep := loadLoop_step hid h hlo hva (by omega : d.imgSize.toNat ≤ 2 ^ 40) d.imgAddr fuel
    rw [BitVec.ofNat_toNat, BitVec.ofNat_toNat, BitVec.setWidth_eq, BitVec.setWidth_eq,
      if_neg (by omega), hdst] at hstep
    rw [hstep] at hrun
    cases hrun
    -- the host block of a byte of the image
    have hplace : ∀ i, i < d.imgSize.toNat → ∃ mb' ∈ mbs,
        mbs[(d.imgEp.toNat + i - base) / 2 ^ 21]? = some mb' ∧
          mb' + (d.imgEp.toNat + i) % 2 ^ 21 = mb + d.imgEp.toNat % 2 ^ 21 + i := by
      intro i hi
      by_cases hin : d.imgEp.toNat % 2 ^ 21 + i < 2 ^ 21
      · have hsame : (d.imgEp.toNat + i - base) / 2 ^ 21 = (d.imgEp.toNat - base) / 2 ^ 21 := by
          omega
        exact ⟨mb, List.mem_of_getElem? hmb, by rw [hsame, hmb], by omega⟩
      · rcases hfits with hend | ⟨mb₀, hmb₀, hnext⟩
        · omega
        · rw [hmb, Option.some.injEq] at hmb₀
          subst hmb₀
          have hsame : (d.imgEp.toNat + i - base) / 2 ^ 21 =
              (d.imgEp.toNat - base) / 2 ^ 21 + 1 := by omega
          exact ⟨mb + 2 ^ 21, List.mem_of_getElem? hnext, by rw [hsame, hnext], by omega⟩
    have hinside : UnchangedOff (InBlocks mbs) s.mem
        (copied s (mb + d.imgEp.toNat % 2 ^ 21) d.imgAddr.toNat d.imgSize.toNat).mem := by
      apply copied_unchanged
      intro i hi
      obtain ⟨mb', hmem, -, haddr⟩ := hplace i hi
      exact ⟨mb', hmem, by omega, by omega⟩
    refine ⟨?_, hinside⟩
    intro i hi
    obtain ⟨mb', -, hget, haddr⟩ := hplace i hi
    have hwalk := (h.unchanged (fun x hx => (hclear x hx).1) hinside).walk (by omega)
      (by omega) hget
    refine ⟨_, hwalk, ?_⟩
    rw [haddr]
    have hmem : (copied s (mb + d.imgEp.toNat % 2 ^ 21) d.imgAddr.toNat d.imgSize.toNat).mem
        (mb + d.imgEp.toNat % 2 ^ 21 + i) =
        if mb + d.imgEp.toNat % 2 ^ 21 ≤ mb + d.imgEp.toNat % 2 ^ 21 + i ∧
            mb + d.imgEp.toNat % 2 ^ 21 + i <
              mb + d.imgEp.toNat % 2 ^ 21 + d.imgSize.toNat then
          s.mem (d.imgAddr.toNat + (mb + d.imgEp.toNat % 2 ^ 21 + i -
            (mb + d.imgEp.toNat % 2 ^ 21)))
        else s.mem (mb + d.imgEp.toNat % 2 ^ 21 + i) := rfl
    rw [hmem, if_pos ⟨by omega, by omega⟩, Nat.add_sub_cancel_left]

omit hid in
private theorem chunkAddr_split (hhost : ∀ mb ∈ mbs, mb % 2 ^ 21 = 0) (ipa : Nat) :
    ∃ a, a % 2 ^ 21 = 0 ∧ chunkAddr base mbs ipa = a + ipa % 2 ^ 20 := by
  refine ⟨(mbs[(ipa - base) / 2 ^ 21]?).getD 0, ?_, rfl⟩
  cases hmb : mbs[(ipa - base) / 2 ^ 21]? with
  | none => rfl
  | some mb => exact hhost mb (List.mem_of_getElem? hmb)

omit hid in
/-- A layout that does not meet the condition has a byte of the image that no chunk puts at its
place. -/
theorem misplaced (hlo : base ≤ d.imgEp.toNat)
    (hhi : d.imgEp.toNat + d.imgSize.toNat ≤ guestEnd base mbs) (hbase : base % 2 ^ 21 = 0)
    (hhost : ∀ mb ∈ mbs, mb % 2 ^ 21 = 0) (hcond : ¬ LoadCond base mbs d) :
    ∃ i mb, i < d.imgSize.toNat ∧ mbs[(d.imgEp.toNat + i - base) / 2 ^ 21]? = some mb ∧
      ∀ c j, c * 2 ^ 21 < d.imgSize.toNat → j < 2 ^ 21 →
        mb + (d.imgEp.toNat + i) % 2 ^ 21 =
          chunkAddr base mbs (d.imgEp.toNat + c * 2 ^ 21) + j → j ≠ i := by
  have hget : ∀ i, i < d.imgSize.toNat →
      ∃ mb, mbs[(d.imgEp.toNat + i - base) / 2 ^ 21]? = some mb := by
    intro i hi
    exact ⟨_, List.getElem?_eq_getElem (block_lt (by omega) (by omega))⟩
  simp only [LoadCond, not_or, not_and] at hcond
  obtain ⟨hpos, hcond⟩ := hcond
  by_cases hsize : d.imgSize.toNat ≤ 2 ^ 21
  · by_cases hlow : d.imgEp.toNat / 2 ^ 20 % 2 = 0
    · -- the image leaves its block, and the next one is somewhere else
      obtain ⟨hleaves, hnext⟩ := hcond hsize hlow
      obtain ⟨mb, hmb⟩ := hget (2 ^ 21 - d.imgEp.toNat % 2 ^ 21) (by omega)
      obtain ⟨mb₀, hmb₀⟩ := hget 0 (by omega)
      rw [Nat.add_zero] at hmb₀
      refine ⟨2 ^ 21 - d.imgEp.toNat % 2 ^ 21, mb, by omega, hmb, ?_⟩
      rintro c j hc hj heq rfl
      have hc0 : c = 0 := by
        by_contra hne
        have hge : 1 * 2 ^ 21 ≤ c * 2 ^ 21 := Nat.mul_le_mul_right _ (by omega)
        omega
      subst hc0
      rw [Nat.zero_mul, Nat.add_zero, chunkAddr, hmb₀, Option.getD_some] at heq
      have hidx : (d.imgEp.toNat + (2 ^ 21 - d.imgEp.toNat % 2 ^ 21) - base) / 2 ^ 21 =
          (d.imgEp.toNat - base) / 2 ^ 21 + 1 := by omega
      rw [hidx] at hmb
      have hmb' : mb = mb₀ + 2 ^ 21 := by omega
      rw [hmb'] at hmb
      exact hnext ⟨mb₀, hmb₀, hmb⟩
    · -- the upper half: everything lands 1 MB too low
      obtain ⟨mb, hmb⟩ := hget 0 (by omega)
      refine ⟨0, mb, by omega, hmb, ?_⟩
      rintro c j hc hj heq rfl
      obtain ⟨a, ha, hsplit⟩ := @chunkAddr_split base _ hhost (d.imgEp.toNat + c * 2 ^ 21)
      have hmod : (d.imgEp.toNat + c * 2 ^ 21) % 2 ^ 20 = d.imgEp.toNat % 2 ^ 20 := by
        have htwo : c * 2 ^ 21 = 2 ^ 20 * (2 * c) := by ring
        rw [htwo, Nat.add_mul_mod_self_left]
      have halign := hhost mb (List.mem_of_getElem? hmb)
      rw [hsplit, hmod] at heq
      clear hsplit hmod hc
      omega
  · -- the second chunk starts with the first byte of the image again
    obtain ⟨mb, hmb⟩ := hget (2 ^ 21) (by omega)
    exact ⟨2 ^ 21, mb, by omega, hmb, fun c j _ hj _ => Nat.ne_of_lt hj⟩

/-- The state with an image of the byte `v`, but for its byte `i`. -/
def painted (s : S2) (d : OsDesc) (i : Nat) (v : BitVec 8) : S2 :=
  { s with
    mem := blit s.mem d.imgAddr.toNat d.imgSize.toNat fun k => if k = i then v + 1 else v }

/-- **`os_img_load`**: a layout that meets the condition is loaded right, and where the blocks and
the 2 MB behind each are clear of the tables and of the image, no other one is. -/
theorem os_img_load_faithful (hmm : mm.pgdTbl = pgdTbl B id) (hlo : base ≤ d.imgEp.toNat)
    (hhi : d.imgEp.toNat + d.imgSize.toNat ≤ guestEnd base mbs) :
    (LoadCond base mbs d → Faithful B id base mbs d mm) ∧
      ∀ e : Env, GuestBlocks B id e.s2 base mbs → ClearOf (NearBlocks mbs) B id e.s2 d →
        (∀ x, InImage d x → ¬ Reached B id e.s2.mem x) →
        Faithful B id base mbs d mm → LoadCond base mbs d := by
  constructor
  · intro hcond e e' h hclear hload
    have hrun := osImgLoad_ok hload
    rw [hmm] at hrun
    by_cases hpos : d.imgSize.toNat = 0
    · rw [hpos] at hrun
      exact loaded_empty hpos hrun
    · exact loaded_chunk hid hlo hhi (by omega) hcond h hclear hrun
  · intro e h hclear himage hfaithful
    by_contra hcond
    have hlimit := h.limit
    obtain ⟨i, mb, hi, hmb, hchunks⟩ := misplaced hlo hhi h.aligned h.host hcond
    -- an image of the byte that stands at the place of its byte `i`, with another byte there
    obtain ⟨v, hv⟩ : ∃ v, e.s2.mem (mb + (d.imgEp.toNat + i) % 2 ^ 21) = v := ⟨_, rfl⟩
    have hplace : InBlocks mbs (mb + (d.imgEp.toNat + i) % 2 ^ 21) :=
      ⟨mb, List.mem_of_getElem? hmb, by omega, by omega⟩
    have himg : ∀ j, j < d.imgSize.toNat →
        (painted e.s2 d i v).mem (d.imgAddr.toNat + j) = if j = i then v + 1 else v := by
      intro j hj
      have hread : (painted e.s2 d i v).mem (d.imgAddr.toNat + j) =
          if d.imgAddr.toNat ≤ d.imgAddr.toNat + j ∧
              d.imgAddr.toNat + j < d.imgAddr.toNat + d.imgSize.toNat then
            if d.imgAddr.toNat + j - d.imgAddr.toNat = i then v + 1 else v
          else e.s2.mem (d.imgAddr.toNat + j) := rfl
      rw [hread, if_pos ⟨by omega, by omega⟩, Nat.add_sub_cancel_left]
    have hframe : UnchangedOff (InImage d) e.s2.mem (painted e.s2 d i v).mem :=
      @unchangedOff_blit (InImage d) e.s2.mem d.imgAddr.toNat d.imgSize.toNat
        (fun k => if k = i then v + 1 else v) fun k hk => ⟨by omega, by omega⟩
    have hclear₁ : ClearOf (NearBlocks mbs) B id (painted e.s2 d i v) d := fun x hx =>
      ⟨fun hr => (hclear x hx).1 (reached_unchanged himage hframe hr), (hclear x hx).2⟩
    have h₁ := h.unchanged himage hframe
    have hoff : ∀ x, NearBlocks mbs x → ¬ Reached B id (painted e.s2 d i v).mem x :=
      fun x hx => (hclear₁ x hx).1
    have hmax : memBlockSize = 2 ^ 21 := rfl
    obtain ⟨s', hrun, hframe', htrace⟩ := @loadLoop_trace B id hid (painted e.s2 d i v) base mbs d
      h₁ hclear₁ (d.imgSize.toNat / memBlockSize + 1) d.imgEp.toNat d.imgSize.toNat (by omega)
      (by rw [hmax]; exact Nat.lt_succ_self _) (le_refl _) hlo hhi
    rw [BitVec.ofNat_toNat, BitVec.ofNat_toNat, BitVec.setWidth_eq, BitVec.setWidth_eq] at hrun
    have hload : osImgLoad d { e with s2 := painted e.s2 d i v } mm =
        .ok (.eok, { e with s2 := s' }) := by
      rw [osImgLoad, hmm]
      simp only [hrun, ok_bind]
      rfl
    have hblocks : ClearOf (InBlocks mbs) B id (painted e.s2 d i v) d :=
      fun x hx => hclear₁ x hx.near
    have hloaded := hfaithful { e with s2 := painted e.s2 d i v } { e with s2 := s' } h₁ hblocks
      hload
    obtain ⟨pa, hwalk, hbyte⟩ := hloaded.bytes i hi
    have hguest := h₁.unchanged hoff hframe'
    have hin : d.imgEp.toNat + i < guestEnd base mbs := by omega
    rw [hguest.walk (Nat.le_add_right_of_le hlo) hin hmb, Option.some.injEq] at hwalk
    have hnew : s'.mem (mb + (d.imgEp.toNat + i) % 2 ^ 21) = v + 1 := by
      rw [hwalk, hbyte, himg i hi, if_pos rfl]
    have hold : s'.mem (mb + (d.imgEp.toNat + i) % 2 ^ 21) = v := by
      rcases htrace (mb + (d.imgEp.toNat + i) % 2 ^ 21) with hsame | ⟨c, j, hc, hj, hjs, hx, hvalue⟩
      · rw [hsame, hframe _ (hclear _ hplace.near).2, hv]
      · rw [hvalue, himg j hjs, if_neg (hchunks c j hc hj hx)]
    rw [hnew] at hold
    have hne : ∀ w : BitVec 8, w + 1 ≠ w := by decide
    exact hne v hold

end Main

/-! ## Runs -/

/-- A guest with 4 MB, and what an evaluation shows of it. -/
theorem four_built {α : Type} (f : MmStruct → Env → α) {v : α}
    (hends : (vmMemoryInit roomy ⟨blank, 1, []⟩ (started 4) 0).map
      (fun r => (r.1, r.2.2.allocs, guestBlocks r.2.1, r.2.1.pgdTbl, f r.2.1 r.2.2)) =
      .ok (.eok, 5, [0x2800000, 0x2400000], pgdTbl roomy 0, v)) :
    ∃ mm e, GuestBlocks roomy 0 e.s2 0x40000000 [0x2800000, 0x2400000] ∧
      (∃ page, Formed roomy 0 e.s2 page) ∧ mm.pgdTbl = pgdTbl roomy 0 ∧ f mm e = v := by
  obtain ⟨⟨ret, mm, e⟩, hrun, hret⟩ := exists_of_map_eq_ok hends
  simp only [Prod.mk.injEq] at hret
  obtain ⟨rfl, hallocs, hblocks, htbl, hvalue⟩ := hret
  obtain ⟨hguest, hformed⟩ := @guestBlocks_of_init roomy 0 (by decide) ⟨blank, 0, []⟩
    ⟨blank, 1, []⟩ e fresh (started 4) mm 0x40000000 4 (fun n hn => roomy_block hn (by omega))
    (by decide) (by decide) blank_empty (roomy_init 4) hrun
  rw [hblocks] at hguest
  exact ⟨mm, e, hguest, hformed, htbl, hvalue⟩

/-- The tables of the board lie below the blocks. -/
theorem roomy_clear {s : S2} {page : Nat → Option Nat} (h : Formed roomy 0 s page) {d : OsDesc}
    (himg : 0x2A00000 ≤ d.imgAddr.toNat) :
    ClearOf (InBlocks [0x2800000, 0x2400000]) roomy 0 s d := by
  rintro x ⟨mb, hmb, hlo, hhi⟩
  have hrange : 0x2400000 ≤ mb ∧ mb ≤ 0x2800000 := by
    simp only [List.mem_cons, List.not_mem_nil, or_false] at hmb
    omega
  have htable : tableAddr roomy 0 = 0x100000 := rfl
  refine ⟨reached_off h (by decide) (by omega) ?_, ?_⟩
  · intro j hj
    have hpage : pageAddr roomy 0 j = 0x200000 + 4096 * (32 * 0 + j) := rfl
    have hmax : mmuTblPageNrMax = 32 := rfl
    omega
  · rintro ⟨himage, -⟩
    omega

theorem os_img_load_faithful_rtos : ∃ mm e e',
    osImgLoad (osImg 0) e mm = .ok (.eok, e') ∧
      Loaded roomy 0 [0x2800000, 0x2400000] (osImg 0) e.s2 e'.s2 := by
  obtain ⟨mm, e, hguest, ⟨page, hformed⟩, htbl, hvalue⟩ := four_built
    (fun mm e => (osImgLoad (osImg 0) e mm).map fun r => r.1) (v := .ok .eok) (by decide)
  obtain ⟨⟨ret, e'⟩, hload, hret⟩ := exists_of_map_eq_ok hvalue
  simp only at hret
  subst hret
  have hcond : LoadCond 0x40000000 [0x2800000, 0x2400000] (osImg 0) :=
    Or.inr ⟨by decide, by decide, Or.inl (by decide)⟩
  have hclear := roomy_clear hformed (d := osImg 0) (by decide)
  exact ⟨mm, e, e', hload, (os_img_load_faithful (by decide) htbl (by decide) (by decide)).1 hcond
    e e' hguest hclear hload⟩

/-- An image of 3 MB. -/
def threeMB : OsDesc := ⟨0x45000000, 0x300000, 0x40000000, 1, 0x40000000, 4, 127, true⟩

/-- Its third megabyte starts with another byte than its first one. -/
def poked (s : S2) : S2 := { s with mem := Function.update s.mem 0x45200000 1 }

/-- The third megabyte is a copy of the first one. -/
theorem os_img_load_repeats :
    ¬ ∀ (B : Board) (id base : Nat) (mbs : List Nat) (d : OsDesc) (mm : MmStruct),
      id < maxVmNum → mm.pgdTbl = pgdTbl B id → base ≤ d.imgEp.toNat →
      d.imgEp.toNat + d.imgSize.toNat ≤ guestEnd base mbs → Faithful B id base mbs d mm := by
  intro hall
  obtain ⟨mm, e, hguest, ⟨page, hformed⟩, htbl, hvalue⟩ := four_built
    (fun mm e => decide ((osImgLoad threeMB { e with s2 := poked e.s2 } mm).map (fun r =>
      (r.1, walk r.2.s2.mem (tableAddr roomy 0) 0x40200000, (r.2.s2.mem 0x2400000).toNat)) =
      .ok (.eok, some 0x2400000, 0))) (v := true) (by decide)
  obtain ⟨⟨ret, e'⟩, hload, hret⟩ := exists_of_map_eq_ok (of_decide_eq_true hvalue)
  simp only [Prod.mk.injEq] at hret
  obtain ⟨rfl, hwalk, hbyte⟩ := hret
  -- the byte that was changed is not in the tables
  have htable : tableAddr roomy 0 = 0x100000 := rfl
  have hoff : ∀ x, x = 0x45200000 → ¬ Reached roomy 0 e.s2.mem x := by
    rintro x rfl
    apply reached_off hformed (by decide)
    · omega
    · intro j hj
      have hpage : pageAddr roomy 0 j = 0x200000 + 4096 * (32 * 0 + j) := rfl
      have hmax : mmuTblPageNrMax = 32 := rfl
      omega
  have hframe : UnchangedOff (· = 0x45200000) e.s2.mem (poked e.s2).mem := fun x hx =>
    Function.update_of_ne hx ..
  have hclear := roomy_clear hformed (d := threeMB) (by decide)
  have hfaithful := hall roomy 0 0x40000000 [0x2800000, 0x2400000] threeMB mm (by decide) htbl
    (by decide) (by decide)
  have hloaded := hfaithful { e with s2 := poked e.s2 } e' (hguest.unchanged hoff hframe)
    (fun x hx => ⟨fun hr => (hclear x hx).1 (reached_unchanged hoff hframe hr), (hclear x hx).2⟩)
    hload
  obtain ⟨pa, hpa, hsame⟩ := hloaded.bytes 0x200000 (by decide)
  have hipa : threeMB.imgEp.toNat + 0x200000 = 0x40200000 := by decide
  rw [hipa, hwalk, Option.some.injEq] at hpa
  subst hpa
  have himg : (poked e.s2).mem (threeMB.imgAddr.toNat + 0x200000) = 1 := by
    have haddr : threeMB.imgAddr.toNat + 0x200000 = 0x45200000 := by decide
    rw [haddr]
    rfl
  have hone := hsame.trans himg
  rw [hone] at hbyte
  exact absurd hbyte (by decide)

end RtHypervisor.Ports.VmLife
