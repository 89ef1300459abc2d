import Mathlib.Tactic
import RtHypervisor.Ports.Mm
import RtHypervisor.Ports.Stage2Map

/-!
# What backs the memory of a guest

`alloc_vm_memory` takes `mem_size / 2` blocks and `map_vma_bk` maps one after the other.  The area
of the guest ends in units of 1 MB, its blocks in units of 2 MB: the whole area is backed exactly
when `mem_size` is even.
-/

namespace RtHypervisor.Ports.Mm

open RtHypervisor.Verified.Run
open RtHypervisor.Verified.ByteMem
open RtHypervisor.Verified.BitField
open RtHypervisor.Ports.Platform
open RtHypervisor.Ports.Stage2

/-! ## Alignment -/

theorem blockAlignDown_toNat (x : BitVec 64) :
    (blockAlignDown x).toNat = x.toNat / 2 ^ 21 * 2 ^ 21 := by
  have hmask : ~~~(s2PmdSize - 1) = bits 21 64 := by decide
  rw [blockAlignDown, hmask, toNat_and_bits _ (by decide) (by decide), Nat.mod_eq_of_lt x.isLt]

theorem blockAlign_toNat {x : BitVec 64} (hlt : x.toNat < 2 ^ 41) :
    (blockAlign x).toNat = (x.toNat + (2 ^ 21 - 1)) / 2 ^ 21 * 2 ^ 21 := by
  have hsum : (x + (s2PmdSize - 1)).toNat = x.toNat + (2 ^ 21 - 1) := by
    have hsize : (s2PmdSize - 1).toNat = 2 ^ 21 - 1 := by decide
    rw [BitVec.toNat_add, hsize]
    omega
  rw [blockAlign, blockAlignDown_toNat, hsum]

private theorem blockAlignDown_eq {x : BitVec 64} (h : x.toNat % 2 ^ 21 = 0) :
    blockAlignDown x = x := by
  rw [← BitVec.toNat_inj, blockAlignDown_toNat]
  omega

theorem blockAlign_eq {x : BitVec 64} (h : x.toNat % 2 ^ 21 = 0) (hlt : x.toNat < 2 ^ 41) :
    blockAlign x = x := by
  rw [← BitVec.toNat_inj, blockAlign_toNat hlt]
  omega

private theorem byte_toNat {n : BitVec 64} (h : n.toNat * 2 ^ 20 < 2 ^ 64) :
    (byte n).toNat = n.toNat * 2 ^ 20 := by
  rw [byte, BitVec.toNat_shiftLeft, Nat.shiftLeft_eq]
  omega

/-- The blocks of `n` megabytes. -/
theorem blocks_size_le (n : Nat) : 2 ^ 21 * (n / 2) ≤ n * 2 ^ 20 := by
  calc 2 ^ 21 * (n / 2) = n / 2 * 2 * 2 ^ 20 := by ring
    _ ≤ n * 2 ^ 20 := Nat.mul_le_mul_right _ (Nat.div_mul_le_self _ _)

/-! ## Allocation -/

section Alloc

variable {B : Board}

/-- One block: two allocations, and the address is that of the second. -/
theorem allocMemBlock_ok {e e' : Env} {mb : Nat} (h : allocMemBlock B e = .ok (some mb, e')) :
    mb = B.block (e.allocs + 1) ∧ e'.allocs = e.allocs + 2 ∧ e'.s2 = e.s2 := by
  unfold allocMemBlock Env.malloc at h
  by_cases hfirst : B.grants e.allocs = true
  · by_cases hsecond : B.grants (e.allocs + 1) = true
    · simp only [hfirst, if_true, hsecond] at h
      cases h
      exact ⟨rfl, rfl, rfl⟩
    · simp only [hfirst, if_true, hsecond, Bool.false_eq_true, if_false] at h
      cases h
  · simp only [hfirst, Bool.false_eq_true, if_false] at h
    cases h

/-- The blocks of a successful `alloc_vm_memory`, each from an allocation of its own. -/
theorem allocBlocks_ok {n : Nat} {e e' : Env} {bs bs' : List Nat} {used used' : BitVec 64}
    (h : allocBlocks B n e bs used = .ok (.eok, bs', used', e')) :
    e'.s2 = e.s2 ∧ e.allocs ≤ e'.allocs ∧
      ∃ ks : List Nat, bs' = ks.map B.block ++ bs ∧ ks.length = n ∧ ks.Nodup ∧
        ∀ k ∈ ks, e.allocs < k ∧ k < e'.allocs := by
  induction n generalizing e bs used with
  | zero =>
      cases h
      exact ⟨rfl, le_refl _, [], rfl, rfl, List.nodup_nil, by intro k hk; cases hk⟩
  | succ n ih =>
      rw [allocBlocks] at h
      obtain ⟨⟨mb, e₁⟩, halloc, hrest⟩ := bind_eq_ok.mp h
      cases mb with
      | none => cases hrest
      | some mb =>
          obtain ⟨hmb, hallocs, hs2⟩ := allocMemBlock_ok halloc
          obtain ⟨hs2', hgrow, ks, hbs, hlen, hnodup, hlater⟩ := ih hrest
          refine ⟨hs2'.trans hs2, by omega, ks ++ [e.allocs + 1], ?_, ?_, ?_, ?_⟩
          · rw [hbs, hmb, List.map_append, List.append_assoc]
            rfl
          · rw [List.length_append, hlen]
            rfl
          · apply List.Nodup.append hnodup (List.nodup_singleton _)
            intro k hk hlast
            have := hlater k hk
            rw [List.mem_singleton] at hlast
            omega
          · intro k hk
            rcases List.mem_append.mp hk with hk | hk
            · have := hlater k hk
              omega
            · rw [List.mem_singleton] at hk
              omega

end Alloc

/-! ## The loop over the blocks -/

section Blocks

variable {B : Board} {id : Nat} (hid : id < maxVmNum)

/-- The walk of `ipa` in guest memory that starts at `va` and has the blocks `mbs`. -/
def blockAt (va : Nat) (mbs : List Nat) (ipa : Nat) : Option (Nat × BitVec 64) :=
  (mbs[(ipa - va) / 2 ^ 21]?).map fun mb => (mb + ipa % 2 ^ 21, s2BlockNormal)

include hid

/-- One block. -/
theorem createVmMmap_block {s s' : S2} {page : Nat → Option Nat} {d d' : MemDesc} {va : Nat}
    (h : Formed B id s page) (hused : Used B id s page) (hattr : d.attr = s2BlockNormal)
    (hstart : d.vaddrStart.toNat = va) (hend : d.vaddrEnd.toNat = va + 2 ^ 21)
    (hva : va % 2 ^ 21 = 0) (hpa : d.paddrStart.toNat % 2 ^ 21 = 0) (hlimit : va + 2 ^ 21 ≤ 2 ^ 40)
    (hfree : ∀ ipa, va ≤ ipa → ipa < 2 ^ 40 → leaf s.mem (tableAddr B id) ipa = none)
    (hrun : createVmMmap B s (pgdTbl B id) id d = .ok (.eok, s', d')) :
    d'.vaddrStart = d.vaddrEnd ∧ d'.vaddrEnd = d.vaddrEnd ∧
      ∃ page', MapsTo B id s d s' page' ∧ Paged page page' (va / 2 ^ 30) := by
  have halign : blockAlign d.vaddrEnd = d.vaddrEnd := blockAlign_eq (by omega) (by omega)
  have halign' : blockAlignDown d.vaddrStart = d.vaddrStart := blockAlignDown_eq (by omega)
  have hsame : { d with vaddrEnd := d.vaddrEnd, vaddrStart := d.vaddrStart } = d := rfl
  have hsize : d.vaddrEnd - d.vaddrStart ≠ 0 := by
    intro hzero
    have hsub := congrArg BitVec.toNat hzero
    rw [BitVec.toNat_sub, hend, hstart] at hsub
    have hz : (0 : BitVec 64).toNat = 0 := rfl
    omega
  have hmap : s2Map B s (pgdTbl B id) id d = .ok (.eok, s', d') := by
    rw [createVmMmap] at hrun
    simp only [halign, halign', hsize, if_false] at hrun
    exact hrun
  have hreq : Request d := by
    constructor
    · rw [hattr]
      decide
    all_goals omega
  have hclean : d.attr &&& tableAddrMask = 0 := by
    rw [hattr]
    decide
  have hd := hreq.mappable hclean hmap
  have hregion : d.vaddrStart.toNat / 2 ^ 30 = (d.vaddrEnd.toNat - 1) / 2 ^ 30 := by
    rw [hstart, hend]
    omega
  have hpart : ¬ (d.vaddrStart.toNat % 2 ^ 30 = 0 ∧ d.vaddrEnd.toNat % 2 ^ 30 = 0) := by
    rw [hstart, hend]
    omega
  rcases s2Map_region h hid hused hd hregion hpart (by
      rintro ipa ⟨hlo, hhi⟩
      exact hfree ipa (by omega) (by omega)) with ⟨-, hfail⟩ |
    ⟨s₁, d₁, page', hok, h₁, h₂, hmaps, hpaged⟩
  · rw [hfail] at hmap
    cases hmap
  · rw [hok] at hmap
    cases hmap
    rw [hstart] at hpaged
    exact ⟨h₂, h₁, page', hmaps, hpaged⟩

private theorem mapBlocks_maps {mbs : List Nat} (hmbs : ∀ mb ∈ mbs, mb % 2 ^ 21 = 0 ∧ mb < 2 ^ 64)
    {s s' : S2} {page : Nat → Option Nat} {d : MemDesc} {va : Nat} (h : Formed B id s page)
    (hused : Used B id s page) (hstart : d.vaddrStart.toNat = va)
    (hend : d.vaddrEnd.toNat = va + 2 ^ 21) (hva : va % 2 ^ 21 = 0)
    (hlimit : va + 2 ^ 21 * mbs.length ≤ 2 ^ 40)
    (hfree : ∀ ipa, va ≤ ipa → ipa < 2 ^ 40 → leaf s.mem (tableAddr B id) ipa = none)
    (hrun : mapBlocks B (pgdTbl B id) id 0 mbs s d = .ok (.eok, s')) :
    (∃ page', Formed B id s' page' ∧ (∀ k j, page k = some j → page' k = some j) ∧
        ∀ ipa, va ≤ ipa → (ipa - va) / 2 ^ 21 < mbs.length → ∃ j, page' (ipa / 2 ^ 30) = some j) ∧
      ∀ ipa, ipa < 2 ^ 40 → leaf s'.mem (tableAddr B id) ipa =
        if ipa < va then leaf s.mem (tableAddr B id) ipa else blockAt va mbs ipa := by
  induction mbs generalizing s page d va with
  | nil =>
      cases hrun
      refine ⟨⟨page, h, fun _ _ hp => hp, fun _ _ hlt => absurd hlt (Nat.not_lt_zero _)⟩, ?_⟩
      intro ipa hipa
      by_cases hlt : ipa < va
      · rw [if_pos hlt]
      · rw [if_neg hlt, hfree ipa (by omega) hipa]
        rfl
  | cons mb mbs ih =>
      have hlimit' : va + 2 ^ 21 + 2 ^ 21 * mbs.length ≤ 2 ^ 40 := by
        rw [List.length_cons, Nat.mul_succ] at hlimit
        omega
      have hroom : va + 2 ^ 21 ≤ 2 ^ 40 := le_trans (Nat.le_add_right _ _) hlimit'
      clear hlimit
      obtain ⟨hmb, hmb64⟩ := hmbs mb (List.mem_cons_self ..)
      rw [mapBlocks] at hrun
      obtain ⟨⟨ret, s₁, d₁⟩, hone, hrest⟩ := bind_eq_ok.mp hrun
      have hattr : (0 : BitVec 64) ||| s2BlockNormal = s2BlockNormal := by decide
      have hpa : (BitVec.ofNat 64 mb).toNat = mb := by
        rw [BitVec.toNat_ofNat]
        omega
      cases ret with
      | error => cases hrest
      | enomem => cases hrest
      | einval => cases hrest
      | eok =>
          have hpaddr : (BitVec.ofNat 64 mb).toNat % 2 ^ 21 = 0 := by rw [hpa, hmb]
          obtain ⟨h₁, h₂, page₁, hmaps, ⟨j₁, hj₁⟩, hkeep⟩ :=
            createVmMmap_block hid
              (d := ⟨d.vaddrStart, d.vaddrEnd, BitVec.ofNat 64 mb, 0 ||| s2BlockNormal⟩)
              h hused hattr hstart hend hva hpaddr hroom hfree hone
          have hnext : (d.vaddrEnd + s2PmdSize).toNat = va + 2 ^ 21 + 2 ^ 21 := by
            have hsize : s2PmdSize.toNat = 2 ^ 21 := by decide
            rw [BitVec.toNat_add, hend, hsize]
            omega
          have hleaf : ∀ ipa, ipa < 2 ^ 40 → leaf s₁.mem (tableAddr B id) ipa =
              mapped va (2 ^ 21) mb s2BlockNormal (leaf s.mem (tableAddr B id)) ipa := by
            intro ipa hipa
            have hone' := hmaps.leaf ipa hipa
            simp only [hstart, hend, hattr, hpa, Nat.add_sub_cancel_left] at hone'
            exact hone'
          obtain ⟨⟨page', hformed, hkeep', hpaged⟩, hleaf'⟩ := @ih
            (fun mb' hmb' => hmbs mb' (List.mem_cons_of_mem _ hmb')) _ _
            { d₁ with vaddrEnd := d₁.vaddrEnd + s2PmdSize } (va + 2 ^ 21)
            hmaps.formed hmaps.used (by simp only [h₁, hend]) (by simp only [h₂, hnext])
            (by rw [Nat.add_mod_right, hva]) hlimit' (by
              intro ipa hlo hhi
              rw [hleaf ipa hhi, mapped, if_neg (by omega)]
              exact hfree ipa (by omega) hhi) hrest
          refine ⟨⟨page', hformed, fun k j hp => hkeep' k j (hkeep k j hp), ?_⟩, ?_⟩
          · intro ipa hlo hlt
            by_cases hfirst : ipa < va + 2 ^ 21
            · have hregion : ipa / 2 ^ 30 = va / 2 ^ 30 := by omega
              exact ⟨j₁, by rw [hregion]; exact hkeep' _ _ hj₁⟩
            · rw [List.length_cons] at hlt
              exact hpaged ipa (by omega) (by omega)
          intro ipa hipa
          rw [hleaf' ipa hipa]
          by_cases hbelow : ipa < va
          · rw [if_pos (by omega), if_pos hbelow, hleaf ipa hipa, mapped, if_neg (by omega)]
          · rw [if_neg hbelow]
            by_cases hfirst : ipa < va + 2 ^ 21
            · have hidx : (ipa - va) / 2 ^ 21 = 0 := by omega
              have hoff : ipa - va = ipa % 2 ^ 21 := by omega
              rw [if_pos hfirst, hleaf ipa hipa, mapped, if_pos ⟨by omega, hfirst⟩, blockAt, hidx,
                hoff]
              rfl
            · have hidx : (ipa - va) / 2 ^ 21 = (ipa - (va + 2 ^ 21)) / 2 ^ 21 + 1 := by omega
              rw [if_neg hfirst, blockAt, blockAt, hidx, List.getElem?_cons_succ]

end Blocks

/-! ## `vm_memory_init` -/

/-- The blocks of the areas of a VM. -/
def guestBlocks (mm : MmStruct) : List Nat := mm.vmAreaUsed.flatMap VmArea.mbHead

/-- The area `[base, base + size)` is backed by these blocks, and nothing else is mapped. -/
structure Backed (B : Board) (id : Nat) (s : S2) (mbs : List Nat) (base size : Nat) : Prop where
  every : ∀ ipa, base ≤ ipa → ipa < base + size → walk s.mem (tableAddr B id) ipa ≠ none
  blocks : ∃ host : Nat → Nat,
    (∀ ipa, base ≤ ipa → ipa < base + size → host (ipa / 2 ^ 21) ∈ mbs ∧
      walk s.mem (tableAddr B id) ipa = some (host (ipa / 2 ^ 21) + ipa % 2 ^ 21)) ∧
    ∀ ipa ipa', base ≤ ipa → ipa < base + size → base ≤ ipa' → ipa' < base + size →
      host (ipa / 2 ^ 21) = host (ipa' / 2 ^ 21) → ipa / 2 ^ 21 = ipa' / 2 ^ 21
  outside : ∀ ipa, ipa < 2 ^ 40 → ¬ (base ≤ ipa ∧ ipa < base + size) →
    walk s.mem (tableAddr B id) ipa = none

section Init

variable {B : Board} {id : Nat} (hid : id < maxVmNum)

/-- What `vm_mm_struct_init` leaves to `vm_memory_init`. -/
theorem vmMmStructInit_ok {e e' : Env} {mm mm' : MmStruct} {addr size : BitVec 64}
    (h : vmMmStructInit B e mm id addr size = .ok (.eok, mm', e')) :
    e'.s2 = e.s2 ∧ mm' = { mm with
      pgdTbl := pgdTbl B id
      vmAreaUsed := [⟨⟨addr, addr + byte size, 0, 0⟩, [], 0⟩] } := by
  unfold vmMmStructInit at h
  obtain ⟨pgd, hpgd, hrest⟩ := bind_eq_ok.mp h
  obtain ⟨-, -, htbl⟩ := bind_eq_ok.mp hpgd
  cases htbl
  unfold vmAreaInit Env.malloc at hrest
  by_cases hgrant : B.grants e.allocs = true
  · simp only [hgrant, if_true] at hrest
    cases hrest
    exact ⟨rfl, rfl⟩
  · simp only [hgrant, Bool.false_eq_true, if_false] at hrest
    cases hrest

include hid

/-- The walk after `vm_memory_init`: half as many blocks as megabytes. -/
theorem vmMemoryInit_maps {e e' : Env} {mm mm' : MmStruct} {addr size : BitVec 64}
    (hblocks : ∀ n, n < e'.allocs → B.block n < 2 ^ 64) (haddr : addr.toNat % 2 ^ 21 = 0)
    (hlimit : addr.toNat + size.toNat * 2 ^ 20 ≤ 2 ^ 40) (hempty : EmptyTable B id e.s2)
    (hsize : mm.memSize = size) (htbl : mm.pgdTbl = pgdTbl B id)
    (hareas : mm.vmAreaUsed = [⟨⟨addr, addr + byte size, 0, 0⟩, [], 0⟩])
    (hrun : vmMemoryInit B e mm id = .ok (.eok, mm', e')) :
    ∃ ks : List Nat, guestBlocks mm' = ks.map B.block ∧ ks.length = size.toNat / 2 ∧ ks.Nodup ∧
      (∀ ipa, ipa < 2 ^ 40 → leaf e'.s2.mem (tableAddr B id) ipa =
        if ipa < addr.toNat then none else blockAt addr.toNat (ks.map B.block) ipa) ∧
      ∃ page, Formed B id e'.s2 page ∧ ∀ ipa, addr.toNat ≤ ipa →
        (ipa - addr.toNat) / 2 ^ 21 < (ks.map B.block).length →
        ∃ j, page (ipa / 2 ^ 30) = some j := by
  have hstart : blockAlignDown addr = addr := blockAlignDown_eq haddr
  have hcount : (byte size).toNat / memBlockSize = size.toNat / 2 := by
    have hbyte : (byte size).toNat = size.toNat * 2 ^ 20 := byte_toNat (by omega)
    have hblock : memBlockSize = 2 ^ 20 * 2 := rfl
    rw [hbyte, hblock, ← Nat.div_div_eq_div_mul, Nat.mul_div_cancel _ (by decide)]
  obtain ⟨⟨ret, mm₁, e₁⟩, halloc, hmap⟩ := bind_eq_ok.mp hrun
  unfold allocVmMemory at halloc
  rw [hareas] at halloc
  simp only [hstart, ne_eq, not_true_eq_false, if_false, hsize, hcount] at halloc
  obtain ⟨⟨ret', mbHead, used, e₂⟩, hloop, hpure⟩ := bind_eq_ok.mp halloc
  cases hpure
  cases ret' with
  | error => cases hmap
  | enomem => cases hmap
  | einval => cases hmap
  | eok =>
      obtain ⟨hs2, -, ks, hbs, hlen, hnodup, hlater⟩ := allocBlocks_ok hloop
      rw [List.append_nil] at hbs
      subst hbs
      obtain ⟨⟨ret, s', areas⟩, hareas', hend⟩ := bind_eq_ok.mp hmap
      cases hend
      have hflag : (0 ||| vmMapBk) &&& vmMapTypeMask = vmMapBk := by decide
      obtain ⟨⟨ret₁, s₁, vma⟩, harea, hlast⟩ := bind_eq_ok.mp hareas'
      cases hlast
      rw [mapArea, if_pos hflag] at harea
      obtain ⟨⟨ret₂, s₂⟩, hbk, hvma⟩ := bind_eq_ok.mp harea
      cases hvma
      have hfree : ∀ ipa, ipa < 2 ^ 40 → leaf e.s2.mem (tableAddr B id) ipa = none := by
        intro ipa hipa
        rw [leaf_of_plain hempty.formed hipa rfl, hempty _ (by omega)]
        rfl
      have hend : (addr + s2PmdSize).toNat = addr.toNat + 2 ^ 21 := by
        have hpmd : s2PmdSize.toNat = 2 ^ 21 := by decide
        rw [BitVec.toNat_add, hpmd]
        omega
      rw [mapVmaBk, htbl] at hbk
      have hused : Used B id e.s2 fun _ => none := by
        intro k j hpage
        cases hpage
      have hmbs : ∀ mb ∈ ks.map B.block, mb % 2 ^ 21 = 0 ∧ mb < 2 ^ 64 := by
        intro mb hmb
        obtain ⟨k, hk, rfl⟩ := List.mem_map.mp hmb
        exact ⟨B.block_aligned k, hblocks k (hlater k hk).2⟩
      have hlen' : addr.toNat + 2 ^ 21 * (ks.map B.block).length ≤ 2 ^ 40 := by
        rw [List.length_map, hlen]
        exact le_trans (Nat.add_le_add_left (blocks_size_le _) _) hlimit
      obtain ⟨⟨page, hformed, -, hpaged⟩, hleaf⟩ :=
        mapBlocks_maps hid hmbs (d := ⟨addr, addr + s2PmdSize, 0, 0⟩)
          hempty.formed hused rfl hend haddr hlen' (fun ipa _ hipa => hfree ipa hipa)
          (by rw [← hs2]; exact hbk)
      refine ⟨ks, ?_, hlen, hnodup, ?_, page, hformed, hpaged⟩
      · simp [guestBlocks]
      · intro ipa hipa
        have hvalue := hleaf ipa hipa
        rw [hfree ipa hipa] at hvalue
        exact hvalue

/-- **`vm_memory_init` backs the guest memory** when its size is a multiple of 2 MB, and only
then: of an odd number of megabytes the last one is not mapped. -/
theorem vm_memory_init_backs {e e₁ e₂ : Env} {mm mm₁ mm₂ : MmStruct} {addr size : BitVec 64}
    (hblocks : ∀ n, n < e₂.allocs → B.block n < 2 ^ 64) (haddr : addr.toNat % 2 ^ 21 = 0)
    (hlimit : addr.toNat + size.toNat * 2 ^ 20 ≤ 2 ^ 40) (hempty : EmptyTable B id e.s2)
    (hinit : vmMmStructInit B e { mm with memSize := size } id addr size = .ok (.eok, mm₁, e₁))
    (hrun : vmMemoryInit B e₁ mm₁ id = .ok (.eok, mm₂, e₂)) :
    Backed B id e₂.s2 (guestBlocks mm₂) addr.toNat (size.toNat * 2 ^ 20) ↔
      size.toNat % 2 = 0 := by
  obtain ⟨hs2, rfl⟩ := vmMmStructInit_ok hinit
  obtain ⟨ks, hbs, hlen, hnodup, hleaf, -⟩ := vmMemoryInit_maps hid hblocks haddr hlimit
    (by rw [hs2]; exact hempty) rfl rfl rfl hrun
  have hwalk : ∀ ipa, ipa < 2 ^ 40 → walk e₂.s2.mem (tableAddr B id) ipa =
      if ipa < addr.toNat then none
      else (ks[(ipa - addr.toNat) / 2 ^ 21]?).map fun k => B.block k + ipa % 2 ^ 21 := by
    intro ipa hipa
    rw [walk_eq_leaf, hleaf ipa hipa]
    by_cases hlt : ipa < addr.toNat
    · rw [if_pos hlt, if_pos hlt]
      rfl
    · rw [if_neg hlt, if_neg hlt, blockAt, List.getElem?_map, Option.map_map, Option.map_map]
      rfl
  constructor
  · intro hbacked
    by_contra hodd
    -- the last megabyte lies behind the blocks
    have hin : addr.toNat + (size.toNat - 1) * 2 ^ 20 < 2 ^ 40 := by omega
    have hidx : (addr.toNat + (size.toNat - 1) * 2 ^ 20 - addr.toNat) / 2 ^ 21 =
        size.toNat / 2 := by omega
    have hnone : walk e₂.s2.mem (tableAddr B id) (addr.toNat + (size.toNat - 1) * 2 ^ 20) =
        none := by
      rw [hwalk _ hin, if_neg (by omega), hidx, List.getElem?_eq_none (by omega)]
      rfl
    exact hbacked.every _ (by omega) (by omega) hnone
  · intro heven
    have hrange : ∀ ipa, addr.toNat ≤ ipa → ipa < addr.toNat + size.toNat * 2 ^ 20 →
        (ipa - addr.toNat) / 2 ^ 21 < ks.length := by
      intro ipa hlo hhi
      rw [hlen]
      omega
    have hhost : ∀ ipa, addr.toNat ≤ ipa → ipa < addr.toNat + size.toNat * 2 ^ 20 →
        ∃ h : (ipa - addr.toNat) / 2 ^ 21 < ks.length,
          (ks[ipa / 2 ^ 21 - addr.toNat / 2 ^ 21]?).elim 0 B.block =
            B.block (ks[(ipa - addr.toNat) / 2 ^ 21]) := by
      intro ipa hlo hhi
      have hidx : ipa / 2 ^ 21 - addr.toNat / 2 ^ 21 = (ipa - addr.toNat) / 2 ^ 21 := by omega
      refine ⟨hrange ipa hlo hhi, ?_⟩
      rw [hidx, List.getElem?_eq_getElem (hrange ipa hlo hhi)]
      rfl
    have hmapped : ∀ ipa, addr.toNat ≤ ipa → ipa < addr.toNat + size.toNat * 2 ^ 20 →
        walk e₂.s2.mem (tableAddr B id) ipa =
          some ((ks[ipa / 2 ^ 21 - addr.toNat / 2 ^ 21]?).elim 0 B.block + ipa % 2 ^ 21) := by
      intro ipa hlo hhi
      obtain ⟨hlt, hvalue⟩ := hhost ipa hlo hhi
      rw [hwalk ipa (by omega), if_neg (by omega), List.getElem?_eq_getElem hlt, hvalue]
      rfl
    constructor
    · intro ipa hlo hhi hnone
      rw [hmapped ipa hlo hhi] at hnone
      cases hnone
    · refine ⟨fun g => (ks[g - addr.toNat / 2 ^ 21]?).elim 0 B.block, ?_, ?_⟩
      · intro ipa hlo hhi
        obtain ⟨hlt, hvalue⟩ := hhost ipa hlo hhi
        refine ⟨?_, hmapped ipa hlo hhi⟩
        rw [hbs]
        simp only [hvalue]
        exact List.mem_map_of_mem (List.getElem_mem hlt)
      · intro ipa ipa' hlo hhi hlo' hhi' heq
        obtain ⟨hlt, hvalue⟩ := hhost ipa hlo hhi
        obtain ⟨hlt', hvalue'⟩ := hhost ipa' hlo' hhi'
        simp only [hvalue, hvalue'] at heq
        have hsame : ks[(ipa - addr.toNat) / 2 ^ 21] = ks[(ipa' - addr.toNat) / 2 ^ 21] := by
          by_contra hne
          exact B.block_apart _ _ hne heq
        have hidx := (List.Nodup.getElem_inj_iff hnodup).mp hsame
        omega
    · intro ipa hipa hout
      rw [hwalk ipa hipa]
      by_cases hlt : ipa < addr.toNat
      · rw [if_pos hlt]
      · rw [if_neg hlt, List.getElem?_eq_none (by omega)]
        rfl

end Init

/-- A VM before `vm_mm_struct_init`. -/
def fresh : MmStruct := ⟨0, 0, 0, []⟩

/-- The same VM after it, with its memory at 1 GB. -/
def started (size : BitVec 64) : MmStruct :=
  ⟨size, 0, pgdTbl roomy 0, [⟨⟨0x40000000, 0x40000000 + byte size, 0, 0⟩, [], 0⟩]⟩

theorem roomy_init (size : BitVec 64) :
    vmMmStructInit roomy ⟨blank, 0, []⟩ { fresh with memSize := size } 0 0x40000000 size =
      .ok (.eok, started size, ⟨blank, 1, []⟩) := rfl

theorem roomy_block {n k : Nat} (hn : n < k) (hk : k ≤ 2 ^ 40) : roomy.block n < 2 ^ 64 := by
  have hblock : roomy.block n = 2 ^ 21 * (n + 16) := rfl
  rw [hblock]
  calc 2 ^ 21 * (n + 16) < 2 ^ 21 * (2 ^ 40 + 16) :=
        Nat.mul_lt_mul_of_pos_left (by omega) (by decide)
    _ ≤ 2 ^ 64 := by decide

theorem vm_memory_init_backs_four : ∃ mm₂ e₂,
    vmMemoryInit roomy ⟨blank, 1, []⟩ (started 4) 0 = .ok (.eok, mm₂, e₂) ∧
      Backed roomy 0 e₂.s2 (guestBlocks mm₂) 0x40000000 0x400000 := by
  have hends : (vmMemoryInit roomy ⟨blank, 1, []⟩ (started 4) 0).map
      (fun r => (r.1, r.2.2.allocs)) = .ok (.eok, 5) := by decide
  obtain ⟨⟨ret, mm₂, e₂⟩, hrun, hret⟩ := exists_of_map_eq_ok hends
  simp only [Prod.mk.injEq] at hret
  obtain ⟨rfl, hallocs⟩ := hret
  have hiff := @vm_memory_init_backs roomy 0 (by decide) ⟨blank, 0, []⟩ ⟨blank, 1, []⟩ e₂ fresh
    (started 4) mm₂ 0x40000000 4 (fun n hn => roomy_block hn (by omega)) (by decide) (by decide)
    blank_empty (roomy_init 4) hrun
  exact ⟨mm₂, e₂, hrun, hiff.mpr (by decide)⟩

/-- Of 3 MB the last one is not mapped. -/
theorem vm_memory_init_odd :
    ¬ ∀ (B : Board) (id : Nat), id < maxVmNum → ∀ (e e₁ e₂ : Env) (mm mm₁ mm₂ : MmStruct)
      (addr size : BitVec 64), (∀ n, n < e₂.allocs → B.block n < 2 ^ 64) →
      addr.toNat % 2 ^ 21 = 0 → addr.toNat + size.toNat * 2 ^ 20 ≤ 2 ^ 40 →
      EmptyTable B id e.s2 →
      vmMmStructInit B e { mm with memSize := size } id addr size = .ok (.eok, mm₁, e₁) →
      vmMemoryInit B e₁ mm₁ id = .ok (.eok, mm₂, e₂) →
      Backed B id e₂.s2 (guestBlocks mm₂) addr.toNat (size.toNat * 2 ^ 20) := by
  intro hall
  have hends : (vmMemoryInit roomy ⟨blank, 1, []⟩ (started 3) 0).map
      (fun r => (r.1, r.2.2.allocs, walk r.2.2.s2.mem (tableAddr roomy 0) 0x40200000)) =
      .ok (.eok, 3, none) := by decide
  obtain ⟨⟨ret, mm₂, e₂⟩, hrun, hret⟩ := exists_of_map_eq_ok hends
  simp only [Prod.mk.injEq] at hret
  obtain ⟨rfl, hallocs, hwalk⟩ := hret
  have hbacked := hall roomy 0 (by decide) ⟨blank, 0, []⟩ ⟨blank, 1, []⟩ e₂ fresh (started 3) mm₂
    0x40000000 3 (fun n hn => roomy_block hn (by omega)) (by decide) (by decide) blank_empty
    (roomy_init 3) hrun
  exact hbacked.every 0x40200000 (by decide) (by decide) hwalk

end RtHypervisor.Ports.Mm
