import Mathlib.Tactic
import RtHypervisor.Ports.PagePool
import RtHypervisor.Ports.Stage2Translate

/-!
# `s2_unmap`

Every entry that `s2_unmap` clears is passed to `rt_free`, although none of the tables comes from
the heap.  So it undoes a mapping in no case; it is right only where nothing is mapped and it
clears nothing.  Which entries it looks at is another matter: `s2_unmap_pud` gets `mm->pgd_tbl`
with its type bits, and reads the level-1 table three bytes off.

The functions pass the tables along with the list of what has been passed to `rt_free`.
-/

namespace RtHypervisor.Ports.Unmap

open RtHypervisor.Verified.Run
open RtHypervisor.Verified.ByteMem
open RtHypervisor.Verified.BitField
open RtHypervisor.Ports.Platform
open RtHypervisor.Ports.Stage2
open RtHypervisor.Ports.PagePool (clearS2MmuPage clearBit)

/-- The tables, and the pointers passed to `rt_free`. -/
structure Tables where
  s2 : S2
  freed : List Nat

section Model

variable (B : Board) (bitmapClrBit : BitVec 32 → Int → BitVec 32)

/-- Clear an entry and free it: `s2_clear_pte(p)`, `rt_free(p)`, and so on for the other levels. -/
def clearEntry (u : Tables) (ptr : Nat) : Except Fault Tables := do
  let s ← wr u.s2 ptr 0
  pure { s2 := s, freed := u.freed ++ [ptr] }

/-- Clear an entry whose table is given back: `s2_clear_pmd`, `rt_free`, `clear_s2_mmu_page`. -/
def clearTable (u : Tables) (id ptr tbl : Nat) : Except Fault Tables := do
  let u ← clearEntry u ptr
  let s ← clearS2MmuPage B bitmapClrBit u.s2 id tbl
  pure { u with s2 := s }

/-- The body of the loop of `s2_unmap_pte`. -/
def s2UnmapPteEntry (u : Tables) (ptr : Nat) : Except Fault Tables := do
  let pte ← rd u.s2 ptr
  if pte ≠ 0 then clearEntry u ptr else pure u

def s2UnmapPteLoop : Nat → Tables → Nat → BitVec 64 → BitVec 64 → Except Fault Tables
  | 0, _, _, _, _ => .error .fuel
  | fuel + 1, u, ptr, va, vaEnd => do
      let u ← s2UnmapPteEntry u ptr
      if va + rtMmPageSize ≠ vaEnd then
        s2UnmapPteLoop fuel u (ptr + 8) (va + rtMmPageSize) vaEnd
      else pure u

/-- `s2_unmap_pte`. -/
def s2UnmapPte (u : Tables) (pteTbl : Nat) (va vaEnd : BitVec 64) : Except Fault Tables :=
  s2UnmapPteLoop (2 ^ 20) u (pteTbl + 8 * s2PteIdx va) va vaEnd

/-- Where a round over entries of `size` bytes ends. -/
def unmapNext (size va vaEnd : BitVec 64) : BitVec 64 :=
  let next := (va + size) &&& ~~~(size - 1)
  if next > vaEnd then vaEnd else next

/-- The body of the loop of `s2_unmap_pmd`. -/
def s2UnmapPmdEntry (u : Tables) (id ptr : Nat) (va next vaEnd : BitVec 64) :
    Except Fault Tables := do
  let pmd ← rd u.s2 ptr
  if pmd = 0 then
    pure u
  else if pmd &&& mmuTypeMask = mmuTypeBlock then
    clearEntry u ptr
  else do
    let pteTbl := (pmd &&& tableAddrMask).toNat
    let u ← s2UnmapPte u pteTbl va next
    if va &&& (s2PmdSize - 1) = 0 ∧ vaEnd - va = s2PmdSize then
      clearTable B bitmapClrBit u id ptr pteTbl
    else pure u

def s2UnmapPmdLoop (id : Nat) :
    Nat → Tables → Nat → BitVec 64 → BitVec 64 → Except Fault Tables
  | 0, _, _, _, _ => .error .fuel
  | fuel + 1, u, ptr, va, vaEnd => do
      let u ← s2UnmapPmdEntry B bitmapClrBit u id ptr va (unmapNext s2PmdSize va vaEnd) vaEnd
      if unmapNext s2PmdSize va vaEnd ≠ vaEnd then
        s2UnmapPmdLoop id fuel u (ptr + 8) (unmapNext s2PmdSize va vaEnd) vaEnd
      else pure u

/-- `s2_unmap_pmd`. -/
def s2UnmapPmd (u : Tables) (id pmdTbl : Nat) (va vaEnd : BitVec 64) : Except Fault Tables :=
  s2UnmapPmdLoop B bitmapClrBit id (2 ^ 20) u (pmdTbl + 8 * s2PmdIdx va) va vaEnd

/-- The body of the loop of `s2_unmap_pud`. -/
def s2UnmapPudEntry (u : Tables) (id ptr : Nat) (va next vaEnd : BitVec 64) :
    Except Fault Tables := do
  let pud ← rd u.s2 ptr
  if pud = 0 then
    pure u
  else do
    let pmdTbl := (pud &&& tableAddrMask).toNat
    let u ← s2UnmapPmd B bitmapClrBit u id pmdTbl va next
    if va &&& (s2PudSize - 1) = 0 ∧ vaEnd - va = s2PudSize then
      clearTable B bitmapClrBit u id ptr pmdTbl
    else pure u

def s2UnmapPudLoop (id : Nat) :
    Nat → Tables → Nat → BitVec 64 → BitVec 64 → Except Fault Tables
  | 0, _, _, _, _ => .error .fuel
  | fuel + 1, u, ptr, va, vaEnd => do
      let u ← s2UnmapPudEntry B bitmapClrBit u id ptr va (unmapNext s2PudSize va vaEnd) vaEnd
      if unmapNext s2PudSize va vaEnd ≠ vaEnd then
        s2UnmapPudLoop id fuel u (ptr + 8) (unmapNext s2PudSize va vaEnd) vaEnd
      else pure u

/-- `s2_unmap_pud`: the pointer is taken from `mm->pgd_tbl` as it is. -/
def s2UnmapPud (u : Tables) (pgdTbl : BitVec 64) (id : Nat) (va vaEnd : BitVec 64) :
    Except Fault Tables :=
  s2UnmapPudLoop B bitmapClrBit id (2 ^ 11) u (pgdTbl.toNat + 8 * s2PudIdx va) va vaEnd

/-- `s2_unmap`. -/
def s2Unmap (u : Tables) (pgdTbl : BitVec 64) (id : Nat) (va vaEnd : BitVec 64) :
    Except Fault (RtErr × Tables) :=
  if va = vaEnd then
    pure (.einval, u)
  else do
    check .assertion (va < s2IpaSize && vaEnd ≤ s2IpaSize)
    let u ← s2UnmapPud B bitmapClrBit u pgdTbl id va vaEnd
    pure (.eok, u)

end Model

/-! ## Nothing is cleared in silence -/

/-- What has been freed stays in the list, and without a new pointer in it nothing has happened. -/
structure Extends (u u' : Tables) : Prop where
  grows : u.freed.length ≤ u'.freed.length
  same : u'.freed.length = u.freed.length → u' = u

theorem Extends.refl (u : Tables) : Extends u u := ⟨le_refl _, fun _ => rfl⟩

theorem Extends.trans {u u' u'' : Tables} (h : Extends u u') (h' : Extends u' u'') :
    Extends u u'' := by
  have hle := h.grows
  have hle' := h'.grows
  refine ⟨le_trans hle hle', fun heq => ?_⟩
  rw [h'.same (by omega), h.same (by omega)]

/-- A computation that only clears what it frees. -/
def Noted (f : Tables → Except Fault Tables) : Prop := ∀ u u', f u = .ok u' → Extends u u'

section Noted

variable {f g : Tables → Except Fault Tables}

theorem Noted.bind (hf : Noted f) (hg : Noted g) : Noted fun u => f u >>= g := by
  intro u u' h
  obtain ⟨u₁, h₁, h₂⟩ := bind_eq_ok.mp h
  exact (hf u u₁ h₁).trans (hg u₁ u' h₂)

theorem Noted.pure : Noted fun u => .ok u := by
  intro u u' h
  cases h
  exact Extends.refl u

theorem Noted.ite {c : Prop} [Decidable c] (hf : Noted f) (hg : Noted g) :
    Noted fun u => if c then f u else g u := by
  intro u u' h
  by_cases hc : c
  · exact hf u u' (by simpa only [hc, if_true] using h)
  · exact hg u u' (by simpa only [hc, if_false] using h)

/-- Two steps leave the state alone if and only if each of them does. -/
theorem bind_still (hf : Noted f) (hg : Noted g) (u : Tables) :
    (f u >>= g) = .ok u ↔ f u = .ok u ∧ g u = .ok u := by
  constructor
  · intro h
    obtain ⟨u₁, h₁, h₂⟩ := bind_eq_ok.mp h
    have he₁ := hf u u₁ h₁
    have he₂ := hg u₁ u h₂
    have hle₁ := he₁.grows
    have hle₂ := he₂.grows
    have hsame := he₁.same (by omega)
    subst hsame
    exact ⟨h₁, h₂⟩
  · rintro ⟨h₁, h₂⟩
    rw [h₁]
    exact h₂

end Noted

section Loops

variable (B : Board) (bitmapClrBit : BitVec 32 → Int → BitVec 32)

private theorem clearEntry_freed {u u' : Tables} {ptr : Nat} (h : clearEntry u ptr = .ok u') :
    u'.freed.length = u.freed.length + 1 := by
  obtain ⟨s, -, hpure⟩ := bind_eq_ok.mp h
  cases hpure
  simp

private theorem clearTable_freed {u u' : Tables} {id ptr tbl : Nat}
    (h : clearTable B bitmapClrBit u id ptr tbl = .ok u') :
    u'.freed.length = u.freed.length + 1 := by
  obtain ⟨u₁, h₁, h₂⟩ := bind_eq_ok.mp h
  obtain ⟨s, -, hpure⟩ := bind_eq_ok.mp h₂
  have hfreed := clearEntry_freed h₁
  cases hpure
  exact hfreed

private theorem extends_of_freed {u u' : Tables} (h : u'.freed.length = u.freed.length + 1) :
    Extends u u' := ⟨by omega, fun heq => by omega⟩

private theorem not_still_of_freed {u u' : Tables} (h : u'.freed.length = u.freed.length + 1) :
    u' ≠ u := by
  rintro rfl
  omega

private theorem rd_low {s : S2} {p : Nat} (h : ¬ 4096 ≤ p) : rd s p = .error .nullPointer := by
  rw [rd, decide_eq_false h, check_false, error_bind]

/-! ### Level 3 -/

private theorem pteEntry_noted (ptr : Nat) : Noted fun u => s2UnmapPteEntry u ptr := by
  intro u u' h
  obtain ⟨pte, -, hrest⟩ := bind_eq_ok.mp h
  by_cases hpte : pte ≠ 0
  · rw [if_pos hpte] at hrest
    exact extends_of_freed (clearEntry_freed hrest)
  · rw [if_neg hpte] at hrest
    cases hrest
    exact Extends.refl u

private theorem pteEntry_still {u : Tables} {ptr : Nat} :
    s2UnmapPteEntry u ptr = .ok u ↔ 4096 ≤ ptr ∧ load64 u.s2.mem ptr = 0 := by
  by_cases hlow : 4096 ≤ ptr
  · rw [s2UnmapPteEntry, rd_ok hlow, ok_bind]
    by_cases hpte : load64 u.s2.mem ptr = 0
    · rw [if_neg (not_not_intro hpte)]
      exact ⟨fun _ => ⟨hlow, hpte⟩, fun _ => rfl⟩
    · rw [if_pos hpte]
      exact ⟨fun h => absurd rfl (not_still_of_freed (clearEntry_freed h)),
        fun h => absurd h.2 hpte⟩
  · rw [s2UnmapPteEntry, rd_low hlow, error_bind]
    constructor
    · intro h
      cases h
    · intro h
      exact absurd h.1 hlow

private theorem pteLoop_noted (fuel ptr : Nat) (va vaEnd : BitVec 64) :
    Noted fun u => s2UnmapPteLoop fuel u ptr va vaEnd := by
  induction fuel generalizing ptr va with
  | zero =>
      intro u u' h
      cases h
  | succ fuel ih =>
      exact (pteEntry_noted ptr).bind ((ih (ptr + 8) (va + rtMmPageSize)).ite Noted.pure)

/-- The words of `n` entries are zero and can be read. -/
def QuietPte (s : S2) (ptr n : Nat) : Prop :=
  ∀ i, i < n → 4096 ≤ ptr + 8 * i ∧ load64 s.mem (ptr + 8 * i) = 0

/-- Split off the first of some entries. -/
theorem forall_lt_succ {p : Nat → Prop} {n : Nat} :
    (∀ i, i < n + 1 → p i) ↔ p 0 ∧ ∀ i, i < n → p (i + 1) := by
  constructor
  · intro h
    exact ⟨h 0 (Nat.succ_pos n), fun i hi => h (i + 1) (Nat.succ_lt_succ hi)⟩
  · rintro ⟨h0, h⟩ i hi
    cases i with
    | zero => exact h0
    | succ i => exact h i (Nat.lt_of_succ_lt_succ hi)

private theorem quietPte_succ {s : S2} {ptr n : Nat} : QuietPte s ptr (n + 1) ↔
    (4096 ≤ ptr ∧ load64 s.mem ptr = 0) ∧ QuietPte s (ptr + 8) n := by
  have hnext : ∀ i, ptr + 8 * (i + 1) = ptr + 8 + 8 * i := fun i => by omega
  simp only [QuietPte, forall_lt_succ, hnext, Nat.mul_zero, Nat.add_zero]

private theorem pteLoop_still {n fuel ptr : Nat} {u : Tables} {va vaEnd : BitVec 64} (hn : n < fuel)
    (hend : vaEnd.toNat = va.toNat + (n + 1) * 0x1000) :
    s2UnmapPteLoop fuel u ptr va vaEnd = .ok u ↔ QuietPte u.s2 ptr (n + 1) := by
  have hlt := vaEnd.isLt
  have hnext : (va + rtMmPageSize).toNat = va.toNat + 0x1000 := by
    have hsize : rtMmPageSize.toNat = 0x1000 := rfl
    rw [BitVec.toNat_add, hsize]
    omega
  obtain ⟨fuel, rfl⟩ : ∃ f, fuel = f + 1 := ⟨fuel - 1, by omega⟩
  rw [quietPte_succ]
  induction n generalizing fuel ptr va with
  | zero =>
      have hlast : va + rtMmPageSize = vaEnd := by
        rw [← BitVec.toNat_inj, hnext]
        omega
      have hstep : s2UnmapPteLoop (fuel + 1) u ptr va vaEnd =
          (s2UnmapPteEntry u ptr >>= fun u => .ok u) := by
        rw [s2UnmapPteLoop]
        simp only [hlast, ne_eq, not_true_eq_false, if_false]
        rfl
      rw [hstep, bind_still (pteEntry_noted ptr) Noted.pure, pteEntry_still]
      simp only [QuietPte, Nat.not_lt_zero, false_implies, implies_true]
  | succ n ih =>
      have hmore : va + rtMmPageSize ≠ vaEnd := by
        intro heq
        have := congrArg BitVec.toNat heq
        omega
      have hstep : s2UnmapPteLoop (fuel + 1) u ptr va vaEnd =
          (s2UnmapPteEntry u ptr >>= fun u =>
            s2UnmapPteLoop fuel u (ptr + 8) (va + rtMmPageSize) vaEnd) := by
        rw [s2UnmapPteLoop]
        simp only [hmore, ne_eq, not_false_eq_true, if_true]
      obtain ⟨fuel, rfl⟩ : ∃ f, fuel = f + 1 := ⟨fuel - 1, by omega⟩
      have hnext' : (va + rtMmPageSize + rtMmPageSize).toNat =
          (va + rtMmPageSize).toNat + 0x1000 := by
        have hsize : rtMmPageSize.toNat = 0x1000 := rfl
        rw [BitVec.toNat_add, hnext, hsize]
        omega
      rw [hstep, bind_still (pteEntry_noted ptr) (pteLoop_noted _ _ _ _), pteEntry_still,
        quietPte_succ]
      exact and_congr Iff.rfl (ih (by omega) hnext' fuel (by omega))

/-- `s2_unmap_pte` for the span of one level-2 entry. -/
theorem pte_still {u : Tables} {tbl : Nat} {va vaEnd : BitVec 64}
    (hva : va.toNat % 0x200000 = 0) (hend : vaEnd.toNat = va.toNat + 0x200000) :
    s2UnmapPte u tbl va vaEnd = .ok u ↔ QuietPte u.s2 tbl 512 := by
  have hidx : s2PteIdx va = 0 := by
    have hdef : s2PteIdx va = va.toNat / 2 ^ 12 % 512 := rfl
    omega
  rw [s2UnmapPte, hidx, Nat.mul_zero, Nat.add_zero]
  exact pteLoop_still (by decide) (by omega)

private theorem pte_noted (tbl : Nat) (va vaEnd : BitVec 64) :
    Noted fun u => s2UnmapPte u tbl va vaEnd := pteLoop_noted _ _ _ _

/-! ### Level 2 -/

/-- The entry of a level-2 table is empty, or it leads to a table of level 3 that is and that is
not given back. -/
def QuietPmd (s : S2) (ptr : Nat) (last : Prop) : Prop :=
  4096 ≤ ptr ∧ (load64 s.mem ptr = 0 ∨
    isBlock (load64 s.mem ptr) = false ∧
      QuietPte s (load64 s.mem ptr &&& tableAddrMask).toNat 512 ∧ ¬ last)

private theorem pmdEntry_noted (id ptr : Nat) (va next vaEnd : BitVec 64) :
    Noted fun u => s2UnmapPmdEntry B bitmapClrBit u id ptr va next vaEnd := by
  intro u u' h
  obtain ⟨pmd, -, hrest⟩ := bind_eq_ok.mp h
  by_cases hzero : pmd = 0
  · rw [if_pos hzero] at hrest
    cases hrest
    exact Extends.refl u
  · rw [if_neg hzero] at hrest
    by_cases hblock : pmd &&& mmuTypeMask = mmuTypeBlock
    · rw [if_pos hblock] at hrest
      exact extends_of_freed (clearEntry_freed hrest)
    · rw [if_neg hblock] at hrest
      obtain ⟨u₁, h₁, h₂⟩ := bind_eq_ok.mp hrest
      have hext := pte_noted _ _ _ u u₁ h₁
      by_cases hlast : va &&& (s2PmdSize - 1) = 0 ∧ vaEnd - va = s2PmdSize
      · rw [if_pos hlast] at h₂
        exact hext.trans (extends_of_freed (clearTable_freed B bitmapClrBit h₂))
      · rw [if_neg hlast] at h₂
        cases h₂
        exact hext

private theorem pmdEntry_still {u : Tables} {id ptr : Nat} {va next vaEnd : BitVec 64}
    (hva : va.toNat % 0x200000 = 0) (hnext : next.toNat = va.toNat + 0x200000)
    (hle : va.toNat ≤ vaEnd.toNat) :
    s2UnmapPmdEntry B bitmapClrBit u id ptr va next vaEnd = .ok u ↔
      QuietPmd u.s2 ptr (vaEnd.toNat = va.toNat + 0x200000) := by
  have halign : va &&& (s2PmdSize - 1) = 0 := by
    have := (is2MAlign_iff va).mpr (by omega)
    exact eq_of_beq this
  have hlast : (va &&& (s2PmdSize - 1) = 0 ∧ vaEnd - va = s2PmdSize) ↔
      vaEnd.toNat = va.toNat + 0x200000 := by
    have hsize : s2PmdSize.toNat = 0x200000 := rfl
    have hlt := vaEnd.isLt
    simp only [halign, true_and]
    rw [← BitVec.toNat_inj, BitVec.toNat_sub, hsize]
    omega
  by_cases hlow : 4096 ≤ ptr
  · rw [s2UnmapPmdEntry, rd_ok hlow, ok_bind, QuietPmd]
    by_cases hzero : load64 u.s2.mem ptr = 0
    · rw [if_pos hzero]
      exact ⟨fun _ => ⟨hlow, Or.inl hzero⟩, fun _ => rfl⟩
    · rw [if_neg hzero]
      by_cases hblock : load64 u.s2.mem ptr &&& mmuTypeMask = mmuTypeBlock
      · have hisBlock : isBlock (load64 u.s2.mem ptr) = true := by
          rw [isBlock, hblock, beq_self_eq_true]
        rw [if_pos hblock, hisBlock]
        constructor
        · intro h
          exact absurd rfl (not_still_of_freed (clearEntry_freed h))
        · rintro ⟨-, hz | ⟨hcontra, -⟩⟩
          · exact absurd hz hzero
          · cases hcontra
      · have hnotBlock : isBlock (load64 u.s2.mem ptr) = false := by
          rw [isBlock, beq_eq_false_iff_ne]
          exact hblock
        simp only [if_neg hblock, hlast, hnotBlock, hzero, hlow, true_and, false_or]
        by_cases hfull : vaEnd.toNat = va.toNat + 0x200000
        · simp only [hfull, if_true, not_true_eq_false, and_false, iff_false]
          intro h
          obtain ⟨u₁, h₁, h₂⟩ := bind_eq_ok.mp h
          have hgrows := (pte_noted _ _ _ u u₁ h₁).grows
          have hfreed := clearTable_freed B bitmapClrBit h₂
          omega
        · simp only [hfull, if_false, not_false_eq_true, and_true]
          have hbind : (s2UnmapPte u (load64 u.s2.mem ptr &&& tableAddrMask).toNat va next >>=
              fun u => pure u) = .ok u ↔
              s2UnmapPte u (load64 u.s2.mem ptr &&& tableAddrMask).toNat va next = .ok u := by
            rw [bind_pure]
          rw [hbind, pte_still hva hnext]
  · rw [s2UnmapPmdEntry, rd_low hlow, error_bind, QuietPmd]
    constructor
    · intro h
      cases h
    · intro h
      exact absurd h.1 hlow

private theorem pmdLoop_noted (id fuel ptr : Nat) (va vaEnd : BitVec 64) :
    Noted fun u => s2UnmapPmdLoop B bitmapClrBit id fuel u ptr va vaEnd := by
  induction fuel generalizing ptr va with
  | zero =>
      intro u u' h
      cases h
  | succ fuel ih =>
      exact (pmdEntry_noted B bitmapClrBit id ptr va _ vaEnd).bind
        ((ih (ptr + 8) (unmapNext s2PmdSize va vaEnd)).ite Noted.pure)

/-- `n` entries of level 2; the span of a level-3 table ends with the range in the last one. -/
def QuietPmds (s : S2) (ptr n : Nat) : Prop :=
  ∀ i, i < n → QuietPmd s (ptr + 8 * i) (i + 1 = n)

private theorem quietPmds_succ {s : S2} {ptr n : Nat} : QuietPmds s ptr (n + 1) ↔
    QuietPmd s ptr (0 = n) ∧ QuietPmds s (ptr + 8) n := by
  have hnext : ∀ i, ptr + 8 * (i + 1) = ptr + 8 + 8 * i := fun i => by omega
  simp only [QuietPmds, forall_lt_succ, hnext, Nat.mul_zero, Nat.add_zero,
    Nat.add_right_cancel_iff]

/-- The end of a round. -/
theorem unmapNext_toNat {b : Nat} (hb : b ≤ 40) {va vaEnd : BitVec 64} (hva : va.toNat < 2 ^ 40) :
    (unmapNext (BitVec.ofNat 64 (2 ^ b)) va vaEnd).toNat =
      min ((va.toNat / 2 ^ b + 1) * 2 ^ b) vaEnd.toNat :=
  nextBoundary_toNat hb (d := ⟨va, vaEnd, 0, 0⟩) hva

private theorem pmdLoop_still {id n fuel ptr : Nat} {u : Tables} {va vaEnd : BitVec 64}
    (hn : n < fuel)
    (hva : va.toNat % 0x200000 = 0) (hend : vaEnd.toNat = va.toNat + (n + 1) * 0x200000)
    (hlimit : vaEnd.toNat ≤ 2 ^ 40) :
    s2UnmapPmdLoop B bitmapClrBit id fuel u ptr va vaEnd = .ok u ↔
      QuietPmds u.s2 ptr (n + 1) := by
  induction n generalizing fuel ptr va with
  | zero =>
      obtain ⟨fuel, rfl⟩ : ∃ f, fuel = f + 1 := ⟨fuel - 1, by omega⟩
      have hnext : (unmapNext s2PmdSize va vaEnd).toNat = va.toNat + 0x200000 := by
        rw [s2PmdSize_eq, unmapNext_toNat (by decide) (by omega)]
        omega
      have hlast : unmapNext s2PmdSize va vaEnd = vaEnd := by
        rw [← BitVec.toNat_inj, hnext]
        omega
      have hstep : s2UnmapPmdLoop B bitmapClrBit id (fuel + 1) u ptr va vaEnd =
          (s2UnmapPmdEntry B bitmapClrBit u id ptr va (unmapNext s2PmdSize va vaEnd) vaEnd >>=
            fun u => .ok u) := by
        rw [s2UnmapPmdLoop]
        simp only [hlast, ne_eq, not_true_eq_false, if_false]
        rfl
      have hfull : (vaEnd.toNat = va.toNat + 0x200000) = (0 = 0) := by
        simp only [eq_iff_iff, iff_true]
        omega
      rw [hstep, bind_still (pmdEntry_noted B bitmapClrBit id ptr va _ vaEnd) Noted.pure,
        pmdEntry_still B bitmapClrBit hva hnext (by omega), quietPmds_succ, hfull]
      simp only [QuietPmds, Nat.not_lt_zero, false_implies, implies_true]
  | succ n ih =>
      obtain ⟨fuel, rfl⟩ : ∃ f, fuel = f + 1 := ⟨fuel - 1, by omega⟩
      have hnext : (unmapNext s2PmdSize va vaEnd).toNat = va.toNat + 0x200000 := by
        rw [s2PmdSize_eq, unmapNext_toNat (by decide) (by omega)]
        omega
      have hmore : unmapNext s2PmdSize va vaEnd ≠ vaEnd := by
        intro heq
        have := congrArg BitVec.toNat heq
        omega
      have hstep : s2UnmapPmdLoop B bitmapClrBit id (fuel + 1) u ptr va vaEnd =
          (s2UnmapPmdEntry B bitmapClrBit u id ptr va (unmapNext s2PmdSize va vaEnd) vaEnd >>=
            fun u => s2UnmapPmdLoop B bitmapClrBit id fuel u (ptr + 8)
              (unmapNext s2PmdSize va vaEnd) vaEnd) := by
        rw [s2UnmapPmdLoop]
        simp only [hmore, ne_eq, not_false_eq_true, if_true]
      have hpart : (vaEnd.toNat = va.toNat + 0x200000) = (0 = n + 1) := by
        rw [eq_iff_iff]
        omega
      rw [hstep, bind_still (pmdEntry_noted B bitmapClrBit id ptr va _ vaEnd)
        (pmdLoop_noted B bitmapClrBit id _ _ _ _),
        pmdEntry_still B bitmapClrBit hva hnext (by omega), quietPmds_succ, hpart]
      exact and_congr Iff.rfl (ih (by omega) (by omega) (by omega))

/-- `s2_unmap_pmd` for a range inside one region. -/
theorem pmd_still {u : Tables} {id tbl : Nat} {va vaEnd : BitVec 64}
    (hva : va.toNat % 0x200000 = 0) (hend : vaEnd.toNat % 0x200000 = 0)
    (hlt : va.toNat < vaEnd.toNat) (hlimit : vaEnd.toNat ≤ 2 ^ 40) :
    s2UnmapPmd B bitmapClrBit u id tbl va vaEnd = .ok u ↔
      QuietPmds u.s2 (tbl + 8 * (va.toNat / 0x200000 % 512))
        ((vaEnd.toNat - va.toNat) / 0x200000) := by
  have hidx : s2PmdIdx va = va.toNat / 0x200000 % 512 := rfl
  obtain ⟨n, hn⟩ : ∃ n, (vaEnd.toNat - va.toNat) / 0x200000 = n + 1 :=
    ⟨(vaEnd.toNat - va.toNat) / 0x200000 - 1, by omega⟩
  rw [s2UnmapPmd, hidx, hn]
  exact pmdLoop_still B bitmapClrBit (by omega) hva (by omega) hlimit

private theorem pmd_noted (id tbl : Nat) (va vaEnd : BitVec 64) :
    Noted fun u => s2UnmapPmd B bitmapClrBit u id tbl va vaEnd :=
  pmdLoop_noted B bitmapClrBit _ _ _ _ _

/-! ### Level 1 -/

/-- The word at `ptr` is zero, or it leads to a table of which the entries for `[va, next)` are
quiet and that is not given back. -/
def QuietPud (s : S2) (ptr va next vaEnd : Nat) : Prop :=
  4096 ≤ ptr ∧ (load64 s.mem ptr = 0 ∨
    QuietPmds s ((load64 s.mem ptr &&& tableAddrMask).toNat + 8 * (va / 0x200000 % 512))
      ((next - va) / 0x200000) ∧
    ¬ (va % 0x40000000 = 0 ∧ vaEnd = va + 0x40000000))

private theorem pudEntry_noted (id ptr : Nat) (va next vaEnd : BitVec 64) :
    Noted fun u => s2UnmapPudEntry B bitmapClrBit u id ptr va next vaEnd := by
  intro u u' h
  obtain ⟨pud, -, hrest⟩ := bind_eq_ok.mp h
  by_cases hzero : pud = 0
  · rw [if_pos hzero] at hrest
    cases hrest
    exact Extends.refl u
  · rw [if_neg hzero] at hrest
    obtain ⟨u₁, h₁, h₂⟩ := bind_eq_ok.mp hrest
    have hext := pmd_noted B bitmapClrBit _ _ _ _ u u₁ h₁
    by_cases hlast : va &&& (s2PudSize - 1) = 0 ∧ vaEnd - va = s2PudSize
    · rw [if_pos hlast] at h₂
      exact hext.trans (extends_of_freed (clearTable_freed B bitmapClrBit h₂))
    · rw [if_neg hlast] at h₂
      cases h₂
      exact hext

private theorem pudEntry_still {u : Tables} {id ptr : Nat} {va next vaEnd : BitVec 64}
    (hva : va.toNat % 0x200000 = 0) (hnext : next.toNat % 0x200000 = 0)
    (hlt : va.toNat < next.toNat) (hle : next.toNat ≤ vaEnd.toNat) (hlimit : vaEnd.toNat ≤ 2 ^ 40) :
    s2UnmapPudEntry B bitmapClrBit u id ptr va next vaEnd = .ok u ↔
      QuietPud u.s2 ptr va.toNat next.toNat vaEnd.toNat := by
  have halign : va &&& (s2PudSize - 1) = 0 ↔ va.toNat % 0x40000000 = 0 := by
    have hiff := is1GAlign_iff va
    rw [is1GAlign, beq_iff_eq] at hiff
    exact hiff
  have hlast : (va &&& (s2PudSize - 1) = 0 ∧ vaEnd - va = s2PudSize) ↔
      va.toNat % 0x40000000 = 0 ∧ vaEnd.toNat = va.toNat + 0x40000000 := by
    have hsize : s2PudSize.toNat = 0x40000000 := rfl
    have hlt := vaEnd.isLt
    rw [halign, ← BitVec.toNat_inj, BitVec.toNat_sub, hsize]
    omega
  by_cases hlow : 4096 ≤ ptr
  · rw [s2UnmapPudEntry, rd_ok hlow, ok_bind, QuietPud]
    by_cases hzero : load64 u.s2.mem ptr = 0
    · rw [if_pos hzero]
      exact ⟨fun _ => ⟨hlow, Or.inl hzero⟩, fun _ => rfl⟩
    · simp only [hlast, hzero, hlow, true_and, false_or]
      by_cases hfull : va.toNat % 0x40000000 = 0 ∧ vaEnd.toNat = va.toNat + 0x40000000
      · simp only [hfull, if_true, true_and, not_true_eq_false, and_false, iff_false]
        intro h
        obtain ⟨u₁, h₁, h₂⟩ := bind_eq_ok.mp h
        have hgrows := (pmd_noted B bitmapClrBit _ _ _ _ u u₁ h₁).grows
        have hfreed := clearTable_freed B bitmapClrBit h₂
        omega
      · simp only [hfull, if_false, not_false_eq_true, and_true]
        have hbind : (s2UnmapPmd B bitmapClrBit u id
            (load64 u.s2.mem ptr &&& tableAddrMask).toNat va next >>= fun u => pure u) = .ok u ↔
            s2UnmapPmd B bitmapClrBit u id (load64 u.s2.mem ptr &&& tableAddrMask).toNat va next =
              .ok u := by
          rw [bind_pure]
        rw [hbind, pmd_still B bitmapClrBit hva hnext hlt (le_trans hle hlimit)]
  · rw [s2UnmapPudEntry, rd_low hlow, error_bind, QuietPud]
    constructor
    · intro h
      cases h
    · intro h
      exact absurd h.1 hlow

private theorem pudLoop_noted (id fuel ptr : Nat) (va vaEnd : BitVec 64) :
    Noted fun u => s2UnmapPudLoop B bitmapClrBit id fuel u ptr va vaEnd := by
  induction fuel generalizing ptr va with
  | zero =>
      intro u u' h
      cases h
  | succ fuel ih =>
      exact (pudEntry_noted B bitmapClrBit id ptr va _ vaEnd).bind
        ((ih (ptr + 8) (unmapNext s2PudSize va vaEnd)).ite Noted.pure)

/-- The words from `ptr` on are quiet for the regions of `[va, vaEnd)`. -/
def QuietPuds (s : S2) (ptr va vaEnd : Nat) : Prop :=
  ∀ k, va / 0x40000000 ≤ k → k * 0x40000000 < vaEnd →
    QuietPud s (ptr + 8 * k) (max va (k * 0x40000000)) (min ((k + 1) * 0x40000000) vaEnd) vaEnd

/-- From the second region on it makes no difference where in the first one a range starts. -/
theorem max_later {a n k : Nat} (hn : n = (a / 0x40000000 + 1) * 0x40000000)
    (hk : a / 0x40000000 + 1 ≤ k) : max n (k * 0x40000000) = max a (k * 0x40000000) := by
  have hle : n ≤ k * 0x40000000 := by
    rw [hn]
    exact Nat.mul_le_mul_right 0x40000000 hk
  have hle' : a ≤ k * 0x40000000 := by omega
  rw [Nat.max_eq_right hle, Nat.max_eq_right hle']

private theorem pudLoop_still {id fuel ptr : Nat} {u : Tables} {va vaEnd : BitVec 64}
    (hva : va.toNat % 0x200000 = 0) (hend : vaEnd.toNat % 0x200000 = 0)
    (hlt : va.toNat < vaEnd.toNat) (hlimit : vaEnd.toNat ≤ 2 ^ 40)
    (hfuel : vaEnd.toNat / 0x40000000 < va.toNat / 0x40000000 + fuel) :
    s2UnmapPudLoop B bitmapClrBit id fuel u (ptr + 8 * (va.toNat / 0x40000000)) va vaEnd = .ok u ↔
      QuietPuds u.s2 ptr va.toNat vaEnd.toNat := by
  induction fuel generalizing va with
  | zero => omega
  | succ fuel ih =>
      have hnext : (unmapNext s2PudSize va vaEnd).toNat =
          min ((va.toNat / 0x40000000 + 1) * 0x40000000) vaEnd.toNat := by
        rw [s2PudSize_eq, unmapNext_toNat (by decide) (by omega)]
        simp only [Nat.reducePow]
      have hentry := @pudEntry_still B bitmapClrBit u id (ptr + 8 * (va.toNat / 0x40000000)) va
        (unmapNext s2PudSize va vaEnd) vaEnd hva (by omega) (by omega) (by omega) hlimit
      have hmax : max va.toNat (va.toNat / 0x40000000 * 0x40000000) = va.toNat := by omega
      by_cases hone : vaEnd.toNat ≤ (va.toNat / 0x40000000 + 1) * 0x40000000
      · have hlast : unmapNext s2PudSize va vaEnd = vaEnd := by
          rw [← BitVec.toNat_inj, hnext]
          omega
        have hstep : s2UnmapPudLoop B bitmapClrBit id (fuel + 1) u
            (ptr + 8 * (va.toNat / 0x40000000)) va vaEnd =
            (s2UnmapPudEntry B bitmapClrBit u id (ptr + 8 * (va.toNat / 0x40000000)) va
              (unmapNext s2PudSize va vaEnd) vaEnd >>= fun u => .ok u) := by
          rw [s2UnmapPudLoop]
          simp only [hlast, ne_eq, not_true_eq_false, if_false]
          rfl
        rw [hstep, bind_still (pudEntry_noted B bitmapClrBit id _ va _ vaEnd) Noted.pure, hentry,
          hnext]
        constructor
        · rintro ⟨hquiet, -⟩ k hk hkend
          have hsame : k = va.toNat / 0x40000000 := by omega
          rw [hsame, hmax]
          exact hquiet
        · intro hquiet
          have hfirst := hquiet (va.toNat / 0x40000000) (le_refl _) (by omega)
          rw [hmax] at hfirst
          exact ⟨hfirst, rfl⟩
      · have hmore : unmapNext s2PudSize va vaEnd ≠ vaEnd := by
          intro heq
          have := congrArg BitVec.toNat heq
          omega
        have hva' : (unmapNext s2PudSize va vaEnd).toNat =
            (va.toNat / 0x40000000 + 1) * 0x40000000 := by omega
        have hregion : (unmapNext s2PudSize va vaEnd).toNat / 0x40000000 =
            va.toNat / 0x40000000 + 1 := by omega
        have hptr : ptr + 8 * (va.toNat / 0x40000000) + 8 =
            ptr + 8 * ((unmapNext s2PudSize va vaEnd).toNat / 0x40000000) := by
          rw [hregion]
          omega
        have hstep : s2UnmapPudLoop B bitmapClrBit id (fuel + 1) u
            (ptr + 8 * (va.toNat / 0x40000000)) va vaEnd =
            (s2UnmapPudEntry B bitmapClrBit u id (ptr + 8 * (va.toNat / 0x40000000)) va
              (unmapNext s2PudSize va vaEnd) vaEnd >>= fun u =>
              s2UnmapPudLoop B bitmapClrBit id fuel u
                (ptr + 8 * ((unmapNext s2PudSize va vaEnd).toNat / 0x40000000))
                (unmapNext s2PudSize va vaEnd) vaEnd) := by
          rw [s2UnmapPudLoop]
          simp only [hmore, ne_eq, not_false_eq_true, if_true, hptr]
        rw [hstep, bind_still (pudEntry_noted B bitmapClrBit id _ va _ vaEnd)
          (pudLoop_noted B bitmapClrBit id _ _ _ _), hentry,
          ih (by omega) (by omega) (by omega)]
        constructor
        · rintro ⟨hquiet, hrest⟩ k hk hkend
          by_cases hfirst : k = va.toNat / 0x40000000
          · rw [hfirst, hmax, ← hnext]
            exact hquiet
          · have hlater := hrest k (by omega) hkend
            rwa [max_later hva' (by omega)] at hlater
        · intro hquiet
          constructor
          · have hfirst := hquiet (va.toNat / 0x40000000) (le_refl _) (by omega)
            rw [hmax, ← hnext] at hfirst
            exact hfirst
          · intro k hk hkend
            have hlater := hquiet k (by omega) hkend
            rwa [max_later hva' (by omega)]

end Loops

/-! ## `s2_unmap` -/

private theorem pgdTbl_toNat (B : Board) {id : Nat} (hid : id < maxVmNum) :
    (pgdTbl B id).toNat = tableAddr B id + 3 := by
  obtain ⟨-, hlt, halign⟩ := tableAddr_bounds B hid
  have hoff : mmuTypeTable &&& (BitVec.ofNat 64 (tableAddr B id) &&& tableAddrMask) = 0#64 := by
    have hbits : mmuTypeTable &&& tableAddrMask = 0#64 := by decide
    rw [BitVec.and_comm (BitVec.ofNat 64 (tableAddr B id)), ← BitVec.and_assoc, hbits]
    simp
  have htype : mmuTypeTable.toNat = 3 := rfl
  rw [pgdTbl, ← BitVec.add_eq_or_of_and_eq_zero _ _ hoff, BitVec.toNat_add, htype,
    tableAddrMask_eq, toNat_and_bits _ (by decide) (by decide), BitVec.toNat_ofNat]
  omega

/-- The table page `i` has lost its last entry. -/
def Emptied (B : Board) (id : Nat) (s s' : S2) (i : Nat) : Prop :=
  ∃ k, k < 1024 ∧ word1 B id s.mem k = tableEntry B id i ∧
    (∃ ipa, ipa / 2 ^ 30 = k ∧ walk s.mem (tableAddr B id) ipa ≠ none) ∧
    ∀ ipa, ipa / 2 ^ 30 = k → walk s'.mem (tableAddr B id) ipa = none

/-- What unmapping is to do. -/
structure Undone (B : Board) (id : Nat) (s : S2) (va vaEnd : Nat) (u : Tables) : Prop where
  inside : ∀ ipa, va ≤ ipa → ipa < vaEnd → walk u.s2.mem (tableAddr B id) ipa = none
  outside : ∀ ipa, ipa < 2 ^ 40 → ¬ (va ≤ ipa ∧ ipa < vaEnd) →
    walk u.s2.mem (tableAddr B id) ipa = walk s.mem (tableAddr B id) ipa
  pages : ∀ i, i < mmuTblPageNrMax → ((u.s2.pageBitmap id).getLsbD i = true ↔
    (s.pageBitmap id).getLsbD i = true ∧ ¬ Emptied B id s u.s2 i)
  freed : ∀ heap : Nat → Prop, (∀ p, heap p → ¬ Reached B id s.mem p) → ∀ p ∈ u.freed, heap p

/-- `s2_unmap` returns and does it. -/
def Unmaps (B : Board) (bitmapClrBit : BitVec 32 → Int → BitVec 32) (id : Nat) (s : S2)
    (va vaEnd : BitVec 64) : Prop :=
  ∃ ret u, s2Unmap B bitmapClrBit ⟨s, []⟩ (pgdTbl B id) id va vaEnd = .ok (ret, u) ∧
    Undone B id s va.toNat vaEnd.toNat u

/-- The range is empty; or nothing in it is mapped, and the words read three bytes off in the
level-1 table are quiet. -/
def UnmapCond (B : Board) (id : Nat) (s : S2) (va vaEnd : Nat) : Prop :=
  va = vaEnd ∨
    (∀ ipa, va ≤ ipa → ipa < vaEnd → walk s.mem (tableAddr B id) ipa = none) ∧
      QuietPuds s (tableAddr B id + 3) va vaEnd

section Main

variable {B : Board} {bitmapClrBit : BitVec 32 → Int → BitVec 32} {id : Nat} {s : S2}
  {va vaEnd : BitVec 64}

/-- A call that does nothing undoes a range without mappings. -/
theorem undone_still (h : ∀ ipa, va.toNat ≤ ipa → ipa < vaEnd.toNat →
    walk s.mem (tableAddr B id) ipa = none) : Undone B id s va.toNat vaEnd.toNat ⟨s, []⟩ where
  inside := h
  outside := fun _ _ _ => rfl
  pages := by
    intro i _
    constructor
    · intro hset
      refine ⟨hset, ?_⟩
      rintro ⟨k, -, -, ⟨ipa, hipa, hmapped⟩, hnone⟩
      exact hmapped (hnone ipa hipa)
    · exact fun hset => hset.1
  freed := by
    intro heap _ p hp
    cases hp

/-- **`s2_unmap`**, on every state of the tables: right if and only if there is nothing to undo and
it does nothing. -/
theorem s2_unmap_undoes (hid : id < maxVmNum) (hva : va.toNat % 0x200000 = 0)
    (hend : vaEnd.toNat % 0x200000 = 0) (hle : va.toNat ≤ vaEnd.toNat)
    (hlimit : vaEnd.toNat ≤ 2 ^ 40) :
    Unmaps B bitmapClrBit id s va vaEnd ↔ UnmapCond B id s va.toNat vaEnd.toNat := by
  by_cases hempty : va = vaEnd
  · have hsame : va.toNat = vaEnd.toNat := congrArg BitVec.toNat hempty
    refine ⟨fun _ => Or.inl hsame, fun _ => ⟨.einval, ⟨s, []⟩, ?_, undone_still ?_⟩⟩
    · rw [s2Unmap, if_pos hempty]
      rfl
    · intro ipa hlo hhi
      omega
  · have hlt : va.toNat < vaEnd.toNat := by
      have hne : va.toNat ≠ vaEnd.toNat := fun heq => hempty (BitVec.eq_of_toNat_eq heq)
      omega
    have hrun : s2Unmap B bitmapClrBit ⟨s, []⟩ (pgdTbl B id) id va vaEnd =
        (s2UnmapPudLoop B bitmapClrBit id (2 ^ 11) ⟨s, []⟩
          (tableAddr B id + 3 + 8 * (va.toNat / 0x40000000)) va vaEnd >>= fun u =>
          pure (.eok, u)) := by
      have hsize : s2IpaSize.toNat = 2 ^ 40 := by decide
      have hlow : va < s2IpaSize := by
        rw [BitVec.lt_def, hsize]
        omega
      have hhigh : vaEnd ≤ s2IpaSize := by
        rw [BitVec.le_def, hsize]
        exact hlimit
      have hidx : s2PudIdx va = va.toNat / 0x40000000 := by
        have hdef : s2PudIdx va = va.toNat / 0x40000000 % 1024 := rfl
        rw [hdef]
        omega
      rw [s2Unmap, if_neg hempty, s2UnmapPud, pgdTbl_toNat B hid, hidx]
      simp only [hlow, hhigh, decide_true, Bool.and_self, check_true, ok_bind]
    have hstill := @pudLoop_still B bitmapClrBit id (2 ^ 11) (tableAddr B id + 3) ⟨s, []⟩ va vaEnd
      hva hend hlt hlimit (by omega)
    have hnot : ¬ va.toNat = vaEnd.toNat := Nat.ne_of_lt hlt
    rw [Unmaps, UnmapCond, hrun]
    simp only [hnot, false_or]
    constructor
    · rintro ⟨ret, u, hok, hundone⟩
      obtain ⟨u', hloop, hpure⟩ := bind_eq_ok.mp hok
      cases hpure
      -- in a heap without any pointer nothing may be freed
      have hfreed : u.freed = [] := by
        rw [List.eq_nil_iff_forall_not_mem]
        intro p hp
        exact hundone.freed (fun _ => False) (fun _ hfalse => hfalse.elim) p hp
      have hsame := (pudLoop_noted B bitmapClrBit id _ _ _ _ _ u hloop).same (by rw [hfreed])
      rw [hsame] at hloop hundone
      exact ⟨hundone.inside, hstill.mp hloop⟩
    · rintro ⟨hnone, hquiet⟩
      refine ⟨.eok, ⟨s, []⟩, ?_, undone_still hnone⟩
      rw [hstill.mpr hquiet]
      rfl

private theorem walk_eq_none {m : Mem} {tbl ipa : Nat}
    (hzero : load64 m (tbl + 8 * (ipa / 2 ^ 30)) = 0) :
    walk m tbl ipa = none := by
  have hblock : ¬ (0 &&& mmuTypeMask = mmuTypeBlock) := by decide
  have htable : ¬ (0 &&& mmuTypeMask = mmuTypeTable) := by decide
  rw [walk, hzero]
  simp only [hblock, htable, if_false]

end Main

/-- A range behind the two blocks: nothing is mapped there. -/
theorem s2_unmap_undoes_behind : ∃ s, Built roomy 0 MapCond s [twoBlocks] ∧
    Unmaps roomy clearBit 0 s 0x80000000 0x80200000 := by
  obtain ⟨s, hbuilt, hvalue⟩ := twoBlocks_built
    (fun s => (load64 s.mem 0x100010, load64 s.mem 0x100013)) (v := (0, 0)) (by decide)
  simp only [Prod.mk.injEq] at hvalue
  obtain ⟨hentry, hmisread⟩ := hvalue
  have htbl : tableAddr roomy 0 = 0x100000 := rfl
  have hlo : (0x80000000 : BitVec 64).toNat = 0x80000000 := rfl
  have hhi : (0x80200000 : BitVec 64).toNat = 0x80200000 := rfl
  refine ⟨s, hbuilt, (s2_unmap_undoes (by decide) (by decide) (by decide) (by decide)
    (by decide)).mpr (Or.inr ⟨?_, ?_⟩)⟩
  · intro ipa hfrom hto
    have hregion : ipa / 2 ^ 30 = 2 := by omega
    apply walk_eq_none
    rw [hregion, htbl]
    exact hentry
  · intro k hk hkend
    have hregion : k = 2 := by omega
    rw [hregion, htbl]
    exact ⟨by decide, Or.inl hmisread⟩

/-- The two blocks stay mapped. -/
theorem s2_unmap_keeps :
    ¬ ∀ (B : Board) (bitmapClrBit : BitVec 32 → Int → BitVec 32),
      (∀ b (i : Nat), i < 32 → bitmapClrBit b i = b &&& ~~~BitVec.twoPow 32 i) →
      ∀ id, id < maxVmNum → ∀ (s : S2) (ds : List MemDesc), Built B id MapCond s ds →
        ∀ va vaEnd : BitVec 64, va.toNat % 0x200000 = 0 → vaEnd.toNat % 0x200000 = 0 →
          va.toNat ≤ vaEnd.toNat → vaEnd.toNat ≤ 2 ^ 40 → Unmaps B bitmapClrBit id s va vaEnd := by
  intro hall
  obtain ⟨s, hbuilt, hvalue⟩ := twoBlocks_built (fun s =>
    (s2Unmap roomy clearBit ⟨s, []⟩ (pgdTbl roomy 0) 0 0x40000000 0x40400000).map
      (fun r => (r.1, walk r.2.s2.mem (tableAddr roomy 0) 0x40000000)))
    (v := .ok (.eok, some 0x80000000)) (by decide)
  obtain ⟨⟨ret, u⟩, hrun, hret⟩ := exists_of_map_eq_ok hvalue
  simp only [Prod.mk.injEq] at hret
  obtain ⟨ret', u', hrun', hundone⟩ := hall roomy clearBit (fun _ _ _ => rfl) 0 (by decide) s
    [twoBlocks] hbuilt 0x40000000 0x40400000 (by decide) (by decide) (by decide) (by decide)
  rw [hrun] at hrun'
  cases hrun'
  have hnone := hundone.inside 0x40000000 (by decide) (by decide)
  rw [hret.2] at hnone
  cases hnone

end RtHypervisor.Ports.Unmap
