import Mathlib.Data.Finset.Card
import RtHypervisor.Ports.GuestMemory
import RtHypervisor.Ports.MapErrors

/-!
# The table pages a mapping takes

Whether `map_vm_memory` comes through is decided by what it is called with.  A table page is taken
for an empty entry of the level-1 table and for nothing else: below it an empty entry holds a
block, as `create_vm_mmap` rounds every range to 2 MB.  So when the pool has a page for each empty
entry that the areas touch, no area is refused and none is starved, and the code tells so.

The level-2 tables may be anything.  A table that is not the pool's may even lie in the level-1
table; but the mapping code stores entries, never zero, at multiples of 8, and clears only pages of
the pool, so an entry of the level-1 table that is in use stays in use.
-/

namespace RtHypervisor.Ports.Mm

open RtHypervisor.Verified.Run
open RtHypervisor.Verified.ByteMem
open RtHypervisor.Verified.BitField
open RtHypervisor.Ports.Platform
open RtHypervisor.Ports.Stage2

/-! ## Entries and pages -/

/-- Entries of the level-1 table in use stay in use, and no page is taken. -/
structure Kept (B : Board) (id : Nat) (s s' : S2) : Prop where
  entry : ∀ k, word1 B id s.mem k ≠ 0 → word1 B id s'.mem k ≠ 0
  bitmap : s'.pageBitmap = s.pageBitmap

/-- The entries among `T` that are empty. -/
def emptyEntries (B : Board) (id : Nat) (T : Finset Nat) (s : S2) : Finset Nat :=
  T.filter fun k => word1 B id s.mem k = 0

/-- The pages of the pool that are not in use. -/
def freePages (id : Nat) (s : S2) : Finset Nat :=
  (Finset.range mmuTblPageNrMax).filter fun j => (s.pageBitmap id).getLsbD j = false

/-- There is a page for every entry among `T` that is empty. -/
def Room (B : Board) (id : Nat) (T : Finset Nat) (s : S2) : Prop :=
  (emptyEntries B id T s).card ≤ (freePages id s).card

instance (B : Board) (id : Nat) (T : Finset Nat) (s : S2) : Decidable (Room B id T s) :=
  inferInstanceAs (Decidable (_ ≤ _))

section Kept

variable {B : Board} {id : Nat} {s s' s'' : S2}

theorem Kept.refl (s : S2) : Kept B id s s := ⟨fun _ h => h, rfl⟩

theorem Kept.trans (h : Kept B id s s') (h' : Kept B id s' s'') : Kept B id s s'' :=
  ⟨fun k hk => h'.entry k (h.entry k hk), h'.bitmap.trans h.bitmap⟩

theorem Kept.room {T : Finset Nat} (h : Kept B id s s') (hroom : Room B id T s) :
    Room B id T s' := by
  have hpages : freePages id s' = freePages id s := by
    rw [freePages, freePages, h.bitmap]
  have hsub : emptyEntries B id T s' ⊆ emptyEntries B id T s := by
    intro k hk
    simp only [emptyEntries, Finset.mem_filter] at hk ⊢
    refine ⟨hk.1, ?_⟩
    by_contra hne
    exact h.entry k hne hk.2
  rw [Room, hpages]
  exact le_trans (Finset.card_le_card hsub) hroom

/-- An entry is stored. -/
theorem wr_kept (hid : id < maxVmNum) {p : Nat} {v : BitVec 64} (hp : p % 8 = 0) (hv : v ≠ 0)
    (h : wr s p v = .ok s') : Kept B id s s' := by
  obtain ⟨-, -, h⟩ := bind_eq_ok.mp h
  have hs' := pure_eq_ok.mp h
  subst hs'
  refine ⟨fun k hk => ?_, rfl⟩
  obtain ⟨-, -, halign⟩ := tableAddr_bounds B hid
  by_cases hself : p = tableAddr B id + 8 * k
  · rw [word1, hself, load64_store64_self]
    exact hv
  · rw [word1, load64_store64_of_disjoint (by omega)]
    exact hk

/-- **A page for an empty entry.**  The entry is one less, and so are the pages. -/
theorem nextTable_room (hid : id < maxVmNum) {T : Finset Nat} (hT : ∀ k ∈ T, k < 1024) {k : Nat}
    (hk : k ∈ T) (hempty : word1 B id s.mem k = 0) (hroom : Room B id T s)
    {o : Option (BitVec 64 × S2)} (h : nextTable B s id (tableAddr B id + 8 * k) 0 = .ok o) :
    s.pageBitmap id ≠ BitVec.allOnes 32 ∧ ∃ tbl s', o = some (tbl, s') ∧ Room B id T s' := by
  have hmem : k ∈ emptyEntries B id T s := by
    simp only [emptyEntries, Finset.mem_filter]
    exact ⟨hk, hempty⟩
  have hsome : 0 < (freePages id s).card :=
    lt_of_lt_of_le (Finset.card_pos.mpr ⟨k, hmem⟩) hroom
  rcases kernelFreeS2Page_spec B s hid with ⟨hfull, -⟩ | ⟨j, hj, hclear, hpage⟩
  · obtain ⟨j, hj⟩ := Finset.card_pos.mp hsome
    simp only [freePages, Finset.mem_filter, Finset.mem_range, hfull, BitVec.getLsbD_allOnes] at hj
    exact absurd hj.1 (of_decide_eq_false hj.2)
  · have hnot : s.pageBitmap id ≠ BitVec.allOnes 32 := by
      intro hfull
      have hj' : j < 32 := hj
      rw [hfull, BitVec.getLsbD_allOnes, decide_eq_true hj'] at hclear
      cases hclear
    have hne : pageAddr B id j ≠ 0 := by
      have hpos := (pageAddr_bounds B hid hj).1
      omega
    have hzero : ¬ ((0 : BitVec 64) ≠ 0) := fun hno => hno rfl
    rw [nextTable, if_neg hzero, hpage, ok_bind] at h
    simp only [if_neg hne] at h
    obtain ⟨s', hwr, hret⟩ := bind_eq_ok.mp h
    obtain ⟨-, -, hwr⟩ := bind_eq_ok.mp hwr
    have hs' := pure_eq_ok.mp hwr
    refine ⟨hnot, _, s', (pure_eq_ok.mp hret).symm, ?_⟩
    have hentries : emptyEntries B id T s' ⊆ (emptyEntries B id T s).erase k := by
      intro i hi
      simp only [emptyEntries, Finset.mem_filter, Finset.mem_erase] at hi ⊢
      obtain ⟨hiT, hword⟩ := hi
      have hik : i ≠ k := by
        rintro rfl
        have htable : word1 B id s'.mem i = tableEntry B id j := by
          rw [← hs']
          exact load64_store64_self _ _ _
        have hentry := tableEntry_isTable B id j
        rw [← htable, hword] at hentry
        exact absurd hentry (by decide)
      refine ⟨hik, hiT, ?_⟩
      have hbelow := hT i hiT
      have hoff := page_off_table B hid hj
      rw [← hword, ← hs', word1, word1, load64_store64_of_disjoint (by omega)]
      exact ((@unchangedOff_fill (fun x => pageAddr B id j ≤ x ∧ x < pageAddr B id j + 4096)
        _ _ _ _ (fun x hx => ⟨by omega, by omega⟩)).load64_eq (fun i' hi' => by omega)).symm
    have hpages : freePages id s' = (freePages id s).erase j := by
      ext i
      simp only [freePages, Finset.mem_filter, Finset.mem_erase, Finset.mem_range, ← hs',
        Function.update_self, getLsbD_set _ hj, Bool.or_eq_false_iff, decide_eq_false_iff_not]
      tauto
    have hjmem : j ∈ freePages id s := by
      simp only [freePages, Finset.mem_filter, Finset.mem_range]
      exact ⟨hj, hclear⟩
    rw [Room, hpages, Finset.card_erase_of_mem hjmem]
    have hle := Finset.card_le_card hentries
    rw [Finset.card_erase_of_mem hmem] at hle
    exact le_trans hle (Nat.sub_le_sub_right hroom 1)

end Kept

/-! ## Loops that come through -/

/-- Neither refused nor starved. -/
def Sound (tr : List MapEv) : Prop := ¬ Refused tr ∧ ¬ Starved tr

@[simp] theorem sound_nil : Sound [] := by simp [Sound]

@[simp] theorem sound_append {tr tr' : List MapEv} : Sound (tr ++ tr') ↔ Sound tr ∧ Sound tr' := by
  simp only [Sound, refused_append, starved_append]
  tauto

@[simp] theorem sound_returned {α : Type} {f : MapFn} {o : Except Fault (RtErr × α)} :
    Sound (returned f o) := by
  cases o with
  | error e => exact sound_nil
  | ok p => simp [returned, Sound]

private theorem advance_vaddrEnd (size : BitVec 64) (d d1 : MemDesc) :
    (advance size d d1).vaddrEnd = d1.vaddrEnd := by
  cases d1
  rfl

private theorem advance_attr (size : BitVec 64) (d d1 : MemDesc) :
    (advance size d d1).attr = d1.attr := by
  cases d1
  rfl

/-- **The loop over a table**, when an invariant of its rounds keeps it from stopping. -/
theorem tableLoop_inv {size : BitVec 64}
    {body : S2 → MemDesc → Nat → Except Fault (Option (S2 × MemDesc))}
    {found : S2 → MemDesc → Nat → List MapEv} {I : S2 → MemDesc → Nat → Prop}
    {Q : S2 → MemDesc → Prop}
    (hbody : ∀ s d ptr o, I s d ptr → body s d ptr = .ok o → Sound (found s d ptr) ∧
      ∃ s1 d1, o = some (s1, d1) ∧
        ((advance size d d1).vaddrStart ≠ d1.vaddrEnd → I s1 (advance size d d1) (ptr + 8)) ∧
        ((advance size d d1).vaddrStart = d1.vaddrEnd → Q s1 (advance size d d1)))
    (fuel : Nat) (s : S2) (d : MemDesc) (ptr : Nat) {r : RtErr} {s' : S2} {d' : MemDesc}
    (hI : I s d ptr) (h : tableLoop size body fuel s d ptr = .ok (r, s', d')) :
    r = .eok ∧ Sound (loopTrace size body found fuel s d ptr) ∧ Q s' d' := by
  induction fuel generalizing s d ptr with
  | zero => cases h
  | succ fuel ih =>
      rw [tableLoop] at h
      obtain ⟨o, hround, hrest⟩ := bind_eq_ok.mp h
      obtain ⟨hhere, s1, d1, rfl, hmore, hlast⟩ := hbody s d ptr o hI hround
      simp only [loopTrace, hround, sound_append]
      simp only at hrest
      by_cases hgo : (advance size d d1).vaddrStart ≠ d1.vaddrEnd
      · rw [if_pos hgo] at hrest ⊢
        obtain ⟨hr, hnext, hQ⟩ := ih s1 (advance size d d1) (ptr + 8) (hmore hgo) hrest
        exact ⟨hr, ⟨hhere, hnext⟩, hQ⟩
      · rw [if_neg hgo] at hrest ⊢
        cases pure_eq_ok.mp hrest
        exact ⟨rfl, ⟨hhere, sound_nil⟩, hlast (not_not.mp hgo)⟩

/-! ## The level-2 table -/

section Level2

variable {B : Board} {id : Nat}

/-- `s2_map_pte` stores pages, which are never zero. -/
theorem s2MapPteLoop_kept (hid : id < maxVmNum) (fuel : Nat) (s : S2) (d : MemDesc) (ptr : Nat)
    (hattr : isBlock d.attr = true) (hptr : ptr % 8 = 0) {s' : S2} {d' : MemDesc}
    (h : s2MapPteLoop fuel s d ptr = .ok (s', d')) :
    Kept B id s s' ∧ d'.vaddrEnd = d.vaddrEnd ∧ d'.attr = d.attr := by
  induction fuel generalizing s d ptr with
  | zero => cases h
  | succ fuel ih =>
      obtain ⟨entry, -, h⟩ := bind_eq_ok.mp h
      have hgo : ∀ s1 d1, Kept B id s s1 → d1.vaddrEnd = d.vaddrEnd → d1.attr = d.attr →
          (if d1.vaddrStart ≠ d1.vaddrEnd then s2MapPteLoop fuel s1 d1 (ptr + 8)
            else pure (s1, d1)) = .ok (s', d') →
          Kept B id s s' ∧ d'.vaddrEnd = d.vaddrEnd ∧ d'.attr = d.attr := by
        intro s1 d1 hkept hend hattr1 hrest
        by_cases hmore : d1.vaddrStart ≠ d1.vaddrEnd
        · rw [if_pos hmore] at hrest
          obtain ⟨hkept', hend', hattr'⟩ := ih s1 d1 (ptr + 8) (by rw [hattr1]; exact hattr)
            (by omega) hrest
          exact ⟨hkept.trans hkept', hend'.trans hend, hattr'.trans hattr1⟩
        · rw [if_neg hmore] at hrest
          cases pure_eq_ok.mp hrest
          exact ⟨hkept, hend, hattr1⟩
      by_cases hentry : entry = 0
      · rw [if_pos hentry] at h
        obtain ⟨s1, hwr, hrest⟩ := bind_eq_ok.mp h
        have hne : d.paddrStart ||| d.attr ≠ 0 := by
          intro hzero
          have hz : d.attr = 0 := (BitVec.or_eq_zero_iff.mp hzero).2
          rw [hz] at hattr
          exact absurd hattr (by decide)
        rw [pure_bind] at hrest
        exact hgo s1 { d with
            vaddrStart := d.vaddrStart + rtMmPageSize
            paddrStart := d.paddrStart + rtMmPageSize }
          (wr_kept hid hptr hne hwr) rfl rfl hrest
      · rw [if_neg hentry, pure_bind] at h
        exact hgo s d (Kept.refl s) rfl rfl h

/-- A table address is a multiple of 8. -/
theorem tableAddrMask_aligned (x : BitVec 64) : (x &&& tableAddrMask).toNat % 8 = 0 := by
  rw [tableAddrMask_eq, toNat_and_bits x (by decide) (by decide)]
  omega

/-- What is left of a range of blocks after a step over a larger size. -/
theorem blocks_advance {b n : Nat} (hlo : 21 ≤ b) (hhi : b ≤ 40) {d d1 : MemDesc}
    (h : Blocks 21 d n) (hend : d1.vaddrEnd = d.vaddrEnd) (hattr : d1.attr = d.attr)
    (hmore : (advance (BitVec.ofNat 64 (2 ^ b)) d d1).vaddrStart ≠ d1.vaddrEnd) :
    (advance (BitVec.ofNat 64 (2 ^ b)) d d1).vaddrStart.toNat =
        (d.vaddrStart.toNat / 2 ^ b + 1) * 2 ^ b ∧
      ∃ m, Blocks 21 (advance (BitVec.ofNat 64 (2 ^ b)) d d1) m := by
  have hstart := h.start
  have hfinish := h.finish
  have hlimit := h.limit
  have hpos := h.pos
  have hbefore : d.vaddrStart.toNat < d.vaddrEnd.toNat := by omega
  have hnext : (nextBoundary (BitVec.ofNat 64 (2 ^ b)) d).toNat =
      min ((d.vaddrStart.toNat / 2 ^ b + 1) * 2 ^ b) d.vaddrEnd.toNat :=
    nextBoundary_toNat hhi (by omega)
  have hne : (nextBoundary (BitVec.ofNat 64 (2 ^ b)) d).toNat ≠ d.vaddrEnd.toNat := by
    intro heq
    apply hmore
    rw [hend]
    exact BitVec.eq_of_toNat_eq heq
  have hwhere : (nextBoundary (BitVec.ofNat 64 (2 ^ b)) d).toNat =
      (d.vaddrStart.toNat / 2 ^ b + 1) * 2 ^ b := by omega
  have hmult : (d.vaddrStart.toNat / 2 ^ b + 1) * 2 ^ b % 2 ^ 21 = 0 :=
    Nat.mod_eq_zero_of_dvd (Dvd.dvd.mul_left (Nat.pow_dvd_pow 2 hlo) _)
  refine ⟨hwhere, (d.vaddrEnd.toNat - (d.vaddrStart.toNat / 2 ^ b + 1) * 2 ^ b) / 2 ^ 21, ?_⟩
  constructor
  · omega
  · exact (congrArg (· % 2 ^ 21) hwhere).trans hmult
  · show d1.vaddrEnd.toNat = (nextBoundary (BitVec.ofNat 64 (2 ^ b)) d).toNat + _
    rw [hend, hwhere]
    omega
  · show d1.vaddrEnd.toNat < 2 ^ 40
    rw [hend]
    exact hlimit
  · show isBlock d1.attr = true
    rw [hattr]
    exact h.type

private theorem s2MapPmdBlock_blocks {n : Nat} {d : MemDesc} (h : Blocks 21 d n) :
    s2MapPmdBlock 0 d = true := by
  have htype := h.type
  simp only [isBlock, beq_iff_eq] at htype
  have hrest := (is2MAlign_iff _).mpr h.rest
  have hstart := (is2MAlign_iff _).mpr h.start
  simp [s2MapPmdBlock, htype, hrest, hstart]

/-- A block entry is not empty. -/
theorem block_ne_zero {attr pa : BitVec 64} (h : isBlock attr = true) : attr ||| pa ≠ 0 := by
  intro hzero
  rw [(BitVec.or_eq_zero_iff.mp hzero).1] at h
  exact absurd h (by decide)

/-- A round of `s2_map_pmd` over blocks goes on, whatever the entry is. -/
theorem s2MapPmdEntry_kept (hid : id < maxVmNum) {s : S2} {d : MemDesc} {ptr n : Nat}
    (hd : Blocks 21 d n) (hptr : ptr % 8 = 0) {o : Option (S2 × MemDesc)}
    (h : s2MapPmdEntry B s d id ptr = .ok o) :
    Sound (pmdEntryTrace id s d ptr) ∧ ∃ s1 d1, o = some (s1, d1) ∧ Kept B id s s1 ∧
      d1.vaddrEnd = d.vaddrEnd ∧ d1.attr = d.attr := by
  obtain ⟨entry, hrd, h⟩ := bind_eq_ok.mp h
  simp only [pmdEntryTrace, hrd]
  by_cases hentry : entry = 0
  · subst hentry
    rw [if_pos (s2MapPmdBlock_blocks hd)] at h
    obtain ⟨s1, hwr, hret⟩ := bind_eq_ok.mp h
    refine ⟨?_, s1, d, (pure_eq_ok.mp hret).symm, wr_kept hid hptr (block_ne_zero hd.type) hwr,
      rfl, rfl⟩
    have hnot : ¬ (s2MapPmdBlock 0 d = false ∧ (0 : BitVec 64) = 0) := by
      rintro ⟨hno, -⟩
      rw [s2MapPmdBlock_blocks hd] at hno
      cases hno
    rw [if_neg hnot]
    exact sound_nil
  · have hblock : s2MapPmdBlock entry d = false := by
      rw [s2MapPmdBlock, beq_false_of_ne hentry]
      rfl
    rw [hblock, if_neg Bool.false_ne_true, nextTable, if_pos hentry, pure_bind] at h
    obtain ⟨⟨s1, d1⟩, hpte, hret⟩ := bind_eq_ok.mp h
    have hptr' : ((entry &&& tableAddrMask).toNat + 8 * s2PteIdx d.vaddrStart) % 8 = 0 := by
      have halign := tableAddrMask_aligned entry
      omega
    rw [s2MapPte] at hpte
    obtain ⟨hkept, hend, hattr⟩ := s2MapPteLoop_kept hid _ _ _ _ hd.type hptr' hpte
    refine ⟨?_, s1, d1, (pure_eq_ok.mp hret).symm, hkept, hend, hattr⟩
    rw [if_neg (fun hboth => hentry hboth.2)]
    exact sound_nil

/-- What is left of `d₀`, and of the tables of `s₀`, while `s2_map_pmd` goes over them. -/
structure PmdInv (B : Board) (id : Nat) (s₀ : S2) (d₀ : MemDesc) (s : S2) (d : MemDesc)
    (ptr : Nat) : Prop where
  kept : Kept B id s₀ s
  finish : d.vaddrEnd = d₀.vaddrEnd
  attr : d.attr = d₀.attr
  ptr : ptr % 8 = 0
  blocks : ∃ n, Blocks 21 d n

private theorem s2MapPmdLoop_kept (hid : id < maxVmNum) {s₀ : S2} {d₀ : MemDesc} (fuel : Nat)
    (s : S2) (d : MemDesc) (ptr : Nat) (hinv : PmdInv B id s₀ d₀ s d ptr) {r : RtErr} {s' : S2}
    {d' : MemDesc}
    (h : tableLoop s2PmdSize (fun s d pmdPtr => s2MapPmdEntry B s d id pmdPtr) fuel s d ptr =
      .ok (r, s', d')) :
    r = .eok ∧ Sound (loopTrace s2PmdSize (fun s d pmdPtr => s2MapPmdEntry B s d id pmdPtr)
        (pmdEntryTrace id) fuel s d ptr) ∧
      Kept B id s₀ s' ∧ d'.vaddrEnd = d₀.vaddrEnd ∧ d'.attr = d₀.attr := by
  apply @tableLoop_inv _ _ _ (PmdInv B id s₀ d₀)
    (fun s d => Kept B id s₀ s ∧ d.vaddrEnd = d₀.vaddrEnd ∧ d.attr = d₀.attr) _ fuel s d ptr _ _ _
    hinv h
  rintro s1 d1 ptr1 o hinv hround
  obtain ⟨m, hblocks⟩ := hinv.blocks
  obtain ⟨htrace, s2, d2, ho, hkept, hend, hattr⟩ := s2MapPmdEntry_kept hid hblocks hinv.ptr hround
  have hkept' := hinv.kept.trans hkept
  have hend' := (advance_vaddrEnd s2PmdSize d1 d2).trans (hend.trans hinv.finish)
  have hattr' := (advance_attr s2PmdSize d1 d2).trans (hattr.trans hinv.attr)
  refine ⟨htrace, s2, d2, ho, fun hmore => ?_, fun _ => ⟨hkept', hend', hattr'⟩⟩
  have hptr := hinv.ptr
  rw [s2PmdSize_eq] at hmore hend' hattr' ⊢
  obtain ⟨-, hnext⟩ := blocks_advance (le_refl _) (by decide) hblocks hend hattr hmore
  exact ⟨hkept', hend', hattr', by omega, hnext⟩

/-- **`s2_map_pmd`** of a range of blocks is never starved. -/
theorem s2MapPmd_kept (hid : id < maxVmNum) {s s' : S2} {tbl : BitVec 64} {d d' : MemDesc}
    {n : Nat} (hd : Blocks 21 d n) {r : RtErr}
    (h : s2MapPmd B s (tbl &&& tableAddrMask) d id = .ok (r, s', d')) :
    Sound (s2MapPmdTrace B s (tbl &&& tableAddrMask) d id) ∧ Kept B id s s' ∧
      d'.vaddrEnd = d.vaddrEnd ∧ d'.attr = d.attr := by
  have hptr : ((tbl &&& tableAddrMask).toNat + 8 * s2PmdIdx d.vaddrStart) % 8 = 0 := by
    have halign := tableAddrMask_aligned tbl
    omega
  have hloop := h
  rw [s2MapPmd, s2MapPmdLoop_eq] at hloop
  obtain ⟨-, htrace, hkept⟩ :=
    s2MapPmdLoop_kept hid _ _ _ _ ⟨Kept.refl s, rfl, rfl, hptr, n, hd⟩ hloop
  rw [s2MapPmdTrace, sound_append]
  exact ⟨⟨htrace, sound_returned⟩, hkept⟩

end Level2

/-! ## The level-1 table -/

/-- The range `[start, finish)` has addresses in region `k` of 1 GB. -/
def Touches (start finish k : Nat) : Prop := start / 2 ^ 30 ≤ k ∧ k * 2 ^ 30 < finish

instance (start finish k : Nat) : Decidable (Touches start finish k) :=
  inferInstanceAs (Decidable (_ ∧ _))

section Level1

variable {B : Board} {id : Nat} {T : Finset Nat}

/-- A round of `s2_map_pud` at an entry among `T` finds a page when it needs one. -/
theorem s2MapPudEntry_room (hid : id < maxVmNum) (hT : ∀ k ∈ T, k < 1024) {s : S2} {d : MemDesc}
    {k n : Nat} (hk : k ∈ T) (hroom : Room B id T s) (hd : Blocks 21 d n)
    {o : Option (S2 × MemDesc)}
    (h : s2MapPudEntry B s d id (tableAddr B id + 8 * k) = .ok o) :
    Sound (pudEntryTrace B id s d (tableAddr B id + 8 * k)) ∧
      ∃ s1 d1, o = some (s1, d1) ∧ Room B id T s1 ∧ d1.vaddrEnd = d.vaddrEnd ∧
        d1.attr = d.attr := by
  obtain ⟨entry, hrd, h⟩ := bind_eq_ok.mp h
  have hentry : entry = word1 B id s.mem k := by
    obtain ⟨-, -, hret⟩ := bind_eq_ok.mp hrd
    exact (pure_eq_ok.mp hret).symm
  simp only [pudEntryTrace, hrd]
  obtain ⟨-, -, halign⟩ := tableAddr_bounds B hid
  cases hblock : s2MapPudBlock entry d with
  | true =>
      rw [hblock, if_pos rfl] at h
      obtain ⟨s1, hwr, hret⟩ := bind_eq_ok.mp h
      have hkept : Kept B id s s1 := wr_kept hid (by omega) (block_ne_zero hd.type) hwr
      rw [if_pos rfl]
      exact ⟨sound_nil, s1, d, (pure_eq_ok.mp hret).symm, hkept.room hroom, rfl, rfl⟩
  | false =>
      rw [hblock, if_neg Bool.false_ne_true] at h
      rw [if_neg Bool.false_ne_true]
      obtain ⟨o', htable, h⟩ := bind_eq_ok.mp h
      -- the page for the entry, if it is empty
      have hnext : Sound (if entry = 0 then [.emptyPud (s.pageBitmap id)] else []) ∧
          ∃ tbl s1, o' = some (tbl, s1) ∧ Room B id T s1 := by
        by_cases hzero : entry = 0
        · rw [hzero] at hentry htable
          obtain ⟨hnot, hsome⟩ := nextTable_room hid hT hk hentry.symm hroom htable
          rw [if_pos hzero]
          refine ⟨?_, hsome⟩
          simp only [Sound, Refused, Starved, List.mem_singleton, MapEv.emptyPud.injEq,
            reduceCtorEq, false_or, not_false_eq_true, and_true]
          exact fun heq => hnot heq.symm
        · rw [nextTable, if_pos hzero] at htable
          rw [if_neg hzero]
          exact ⟨sound_nil, _, s, (pure_eq_ok.mp htable).symm, hroom⟩
      obtain ⟨hask, tbl, s1, rfl, hroom1⟩ := hnext
      obtain ⟨⟨r, s2, d2⟩, hpmd, hret⟩ := bind_eq_ok.mp h
      obtain ⟨htrace, hkept, hend, hattr⟩ := s2MapPmd_kept hid hd hpmd
      rw [htable]
      exact ⟨sound_append.mpr ⟨hask, htrace⟩, s2, d2, (pure_eq_ok.mp hret).symm,
        hkept.room hroom1, hend, hattr⟩

/-- What is left of `d₀` while `s2_map_pud` goes over it. -/
structure PudInv (B : Board) (id : Nat) (T : Finset Nat) (d₀ : MemDesc) (s : S2) (d : MemDesc)
    (ptr : Nat) : Prop where
  room : Room B id T s
  finish : d.vaddrEnd = d₀.vaddrEnd
  attr : d.attr = d₀.attr
  ptr : ptr = tableAddr B id + 8 * (d.vaddrStart.toNat / 2 ^ 30)
  touched : ∀ k, Touches d.vaddrStart.toNat d.vaddrEnd.toNat k → k ∈ T
  blocks : ∃ n, Blocks 21 d n

private theorem s2MapPudLoop_room (hid : id < maxVmNum) (hT : ∀ k ∈ T, k < 1024) {d₀ : MemDesc}
    (fuel : Nat) (s : S2) (d : MemDesc) (ptr : Nat) (hinv : PudInv B id T d₀ s d ptr) {r : RtErr}
    {s' : S2} {d' : MemDesc}
    (h : tableLoop s2PudSize (fun s d pudPtr => s2MapPudEntry B s d id pudPtr) fuel s d ptr =
      .ok (r, s', d')) :
    r = .eok ∧ Sound (loopTrace s2PudSize (fun s d pudPtr => s2MapPudEntry B s d id pudPtr)
        (pudEntryTrace B id) fuel s d ptr) ∧
      Room B id T s' ∧ d'.vaddrStart = d₀.vaddrEnd ∧ d'.vaddrEnd = d₀.vaddrEnd := by
  apply @tableLoop_inv _ _ _ (PudInv B id T d₀)
    (fun s d => Room B id T s ∧ d.vaddrStart = d₀.vaddrEnd ∧ d.vaddrEnd = d₀.vaddrEnd) _ fuel s d
    ptr _ _ _ hinv h
  rintro s1 d1 ptr1 o hinv hround
  obtain ⟨m, hblocks⟩ := hinv.blocks
  have hpos := hblocks.pos
  have hfinish := hblocks.finish
  have hfirst : d1.vaddrStart.toNat / 2 ^ 30 ∈ T := hinv.touched _ ⟨le_refl _, by omega⟩
  simp only [hinv.ptr] at hround ⊢
  obtain ⟨htrace, s2, d2, ho, hroom, hend, hattr⟩ :=
    s2MapPudEntry_room hid hT hfirst hinv.room hblocks hround
  have hend' := (advance_vaddrEnd s2PudSize d1 d2).trans (hend.trans hinv.finish)
  have hattr' := (advance_attr s2PudSize d1 d2).trans (hattr.trans hinv.attr)
  refine ⟨htrace, s2, d2, ho, fun hmore => ?_,
    fun hlast => ⟨hroom, hlast.trans (hend.trans hinv.finish), hend'⟩⟩
  rw [s2PudSize_eq] at hmore hend' hattr' ⊢
  obtain ⟨hstart, hnext⟩ := blocks_advance (by decide) (by decide) hblocks hend hattr hmore
  refine ⟨hroom, hend', hattr', ?_, fun k hk => hinv.touched k ?_, hnext⟩
  · rw [hstart]
    omega
  · rw [advance_vaddrEnd, hend, hstart] at hk
    obtain ⟨hlow, hhigh⟩ := hk
    exact ⟨by omega, hhigh⟩

/-- **`s2_map_pud`** of a range of blocks, when there is a page for every empty entry. -/
theorem s2MapPud_room (hid : id < maxVmNum) (hT : ∀ k ∈ T, k < 1024) {s s' : S2} {d d' : MemDesc}
    {n : Nat} (hd : Blocks 21 d n)
    (htouched : ∀ k, Touches d.vaddrStart.toNat d.vaddrEnd.toNat k → k ∈ T)
    (hroom : Room B id T s) {r : RtErr}
    (h : s2MapPud B s (pgdTbl B id &&& tableAddrMask) d id = .ok (r, s', d')) :
    r = .eok ∧ Sound (s2MapPudTrace B s (pgdTbl B id &&& tableAddrMask) d id) ∧
      Room B id T s' ∧ d'.vaddrStart = d.vaddrEnd ∧ d'.vaddrEnd = d.vaddrEnd := by
  have hptr : (pgdTbl B id &&& tableAddrMask).toNat + 8 * s2PudIdx d.vaddrStart =
      tableAddr B id + 8 * (d.vaddrStart.toNat / 2 ^ 30) := by
    have hfinish := hd.finish
    have hlimit := hd.limit
    rw [pgdTbl_address B hid, s2PudIdx]
    omega
  have hloop := h
  rw [s2MapPud, s2MapPudLoop_eq, hptr] at hloop
  obtain ⟨hr, htrace, hout⟩ :=
    s2MapPudLoop_room hid hT _ _ _ _ ⟨hroom, rfl, rfl, rfl, htouched, n, hd⟩ hloop
  rw [s2MapPudTrace, sound_append, hptr]
  exact ⟨hr, ⟨htrace, sound_returned⟩, hout⟩

end Level1

/-! ## The areas -/

/-- Where an area ends: the blocks of a backed one count, not its descriptor. -/
def VmArea.finish (vma : VmArea) : Nat :=
  if vma.flag &&& vmMapTypeMask = vmMapBk then
    vma.desc.vaddrStart.toNat + 2 ^ 21 * vma.mbHead.length
  else vma.desc.vaddrEnd.toNat

/-- An area `map_vm_memory` can map as it is: below the limit, not empty, a backed one from the
start of a block, and with attributes that leave the type of an entry alone. -/
structure VmArea.InOrder (vma : VmArea) : Prop where
  aligned : vma.flag &&& vmMapTypeMask = vmMapBk → vma.desc.vaddrStart.toNat % 2 ^ 21 = 0
  nonempty : vma.flag &&& vmMapTypeMask ≠ vmMapBk → vma.desc.vaddrStart.toNat < vma.finish
  limit : vma.finish ≤ 2 ^ 40
  attr : vma.desc.attr &&& 2 = 0

section Areas

variable {B : Board} {id : Nat} {T : Finset Nat}

private theorem isBlock_or {attr v : BitVec 64} (hattr : attr &&& 2 = 0) (hv : isBlock v = true) :
    isBlock (attr ||| v) = true := by
  simp only [isBlock, beq_iff_eq] at hv ⊢
  have hlow : attr &&& mmuTypeMask = attr &&& 1 := by
    have hsplit : mmuTypeMask = 2 ||| 1 := by decide
    rw [hsplit, BitVec.and_or_distrib_left, hattr]
    exact BitVec.zero_or
  rw [BitVec.and_or_distrib_right, hv, hlow]
  apply BitVec.eq_of_getLsbD_eq
  intro i hi
  simp [mmuTypeBlock]

/-- A call that returns has passed the assertion on the end of the range. -/
theorem createVmMmap_limit {s s' : S2} {pgd : BitVec 64} {d d' : MemDesc} {r : RtErr}
    (hrange : (aligned d).vaddrEnd - (aligned d).vaddrStart ≠ 0)
    (h : createVmMmap B s pgd id d = .ok (r, s', d')) : (aligned d).vaddrEnd.toNat < 2 ^ 40 := by
  have hcall : (if (aligned d).vaddrEnd - (aligned d).vaddrStart = 0 then
      pure (.einval, s, aligned d) else s2Map B s pgd id (aligned d)) = .ok (r, s', d') := h
  have hne : (aligned d).vaddrStart ≠ (aligned d).vaddrEnd := by
    intro heq
    rw [heq, BitVec.sub_self] at hrange
    exact hrange rfl
  rw [if_neg hrange, s2Map, if_neg hne] at hcall
  obtain ⟨-, -, hcall⟩ := bind_eq_ok.mp hcall
  obtain ⟨u, hends, -⟩ := bind_eq_ok.mp hcall
  have hends' := check_eq_ok.mp hends
  rw [Bool.and_eq_true] at hends'
  have hend := of_decide_eq_true hends'.2
  have hsize : s2IpaSize.toNat = 2 ^ 40 := by decide
  rw [BitVec.lt_def, hsize] at hend
  exact hend

/-- The blocks of a range that is rounded to their size. -/
theorem aligned_blocks {d : MemDesc} (hattr : isBlock d.attr = true)
    (hrange : d.vaddrStart.toNat < d.vaddrEnd.toNat) (hlimit : d.vaddrEnd.toNat ≤ 2 ^ 40)
    (hend : (aligned d).vaddrEnd.toNat < 2 ^ 40) :
    (∃ n, Blocks 21 (aligned d) n) ∧
      ∀ k, Touches (aligned d).vaddrStart.toNat (aligned d).vaddrEnd.toNat k →
        Touches d.vaddrStart.toNat d.vaddrEnd.toNat k := by
  have hdown : (aligned d).vaddrStart.toNat = d.vaddrStart.toNat / 2 ^ 21 * 2 ^ 21 :=
    blockAlignDown_toNat _
  have hup : (aligned d).vaddrEnd.toNat =
      (d.vaddrEnd.toNat + (2 ^ 21 - 1)) / 2 ^ 21 * 2 ^ 21 := blockAlign_toNat (by omega)
  refine ⟨⟨((aligned d).vaddrEnd.toNat - (aligned d).vaddrStart.toNat) / 2 ^ 21, ?_⟩, ?_⟩
  · exact ⟨by omega, by omega, by omega, hend, hattr⟩
  · rintro k ⟨hlow, hhigh⟩
    exact ⟨by omega, by omega⟩

/-- **`create_vm_mmap`** of a range that is not empty. -/
theorem createVmMmap_room (hid : id < maxVmNum) (hT : ∀ k ∈ T, k < 1024) {s s' : S2}
    {d d' : MemDesc} (hattr : isBlock d.attr = true)
    (hrange : d.vaddrStart.toNat < d.vaddrEnd.toNat) (hlimit : d.vaddrEnd.toNat ≤ 2 ^ 40)
    (htouched : ∀ k, Touches d.vaddrStart.toNat d.vaddrEnd.toNat k → k ∈ T)
    (hroom : Room B id T s) {r : RtErr}
    (h : createVmMmap B s (pgdTbl B id) id d = .ok (r, s', d')) :
    r = .eok ∧ Sound (createVmMmapTrace B s (pgdTbl B id) id d) ∧ Room B id T s' ∧
      d'.vaddrStart = blockAlign d.vaddrEnd ∧ d'.vaddrEnd = blockAlign d.vaddrEnd := by
  have hdown : (aligned d).vaddrStart.toNat = d.vaddrStart.toNat / 2 ^ 21 * 2 ^ 21 :=
    blockAlignDown_toNat _
  have hup : (aligned d).vaddrEnd.toNat =
      (d.vaddrEnd.toNat + (2 ^ 21 - 1)) / 2 ^ 21 * 2 ^ 21 := blockAlign_toNat (by omega)
  have hsome : (aligned d).vaddrEnd - (aligned d).vaddrStart ≠ 0 := by
    intro hzero
    have hnat := congrArg BitVec.toNat hzero
    rw [BitVec.toNat_sub, hdown, hup] at hnat
    have hnil : (0 : BitVec 64).toNat = 0 := rfl
    rw [hnil] at hnat
    omega
  obtain ⟨⟨n, hblocks⟩, hinside⟩ :=
    aligned_blocks hattr hrange hlimit (createVmMmap_limit hsome h)
  rcases createVmMmap_cases h with ⟨hempty, -⟩ | ⟨-, hpud⟩
  · exact absurd hempty hsome
  · obtain ⟨hr, htrace, hroom', hstart, hend⟩ :=
      s2MapPud_room hid hT hblocks (fun k hk => htouched k (hinside k hk)) hroom hpud
    refine ⟨hr, ?_, hroom', hstart, hend⟩
    rw [createVmMmapTrace, if_neg hsome, sound_append]
    exact ⟨htrace, sound_returned⟩

private theorem mapVmaPt_room (hid : id < maxVmNum) (hT : ∀ k ∈ T, k < 1024) {s s' : S2}
    {v v' : VmArea} (hattr : v.desc.attr &&& 2 = 0)
    (hrange : v.desc.vaddrStart.toNat < v.desc.vaddrEnd.toNat)
    (hlimit : v.desc.vaddrEnd.toNat ≤ 2 ^ 40)
    (htouched : ∀ k, Touches v.desc.vaddrStart.toNat v.desc.vaddrEnd.toNat k → k ∈ T)
    (hroom : Room B id T s) {r : RtErr}
    (h : mapVmaPt B s (pgdTbl B id) id v = .ok (r, s', v')) :
    r = .eok ∧ Sound (mapVmaPtTrace B s (pgdTbl B id) id v) ∧ Room B id T s' := by
  unfold mapVmaPtTrace
  obtain ⟨⟨r1, s1, d1⟩, hcall, hret⟩ := bind_eq_ok.mp h
  cases pure_eq_ok.mp hret
  generalize hd : { v.desc with attr := v.desc.attr ||| s2BlockDevice } = d at hcall ⊢
  have hblock : isBlock d.attr = true := by
    rw [← hd]
    exact isBlock_or hattr (by decide)
  have hstart : d.vaddrStart = v.desc.vaddrStart := by rw [← hd]
  have hend : d.vaddrEnd = v.desc.vaddrEnd := by rw [← hd]
  rw [← hstart, ← hend] at hrange
  rw [← hend] at hlimit
  rw [← hstart, ← hend] at htouched
  obtain ⟨hr, htrace, hroom', -⟩ :=
    createVmMmap_room hid hT hblock hrange hlimit htouched hroom hcall
  exact ⟨hr, htrace, hroom'⟩

private theorem blockDesc_vaddrStart (attr : BitVec 64) (mb : Nat) (d : MemDesc) :
    (blockDesc attr mb d).vaddrStart = d.vaddrStart := by
  cases d
  rfl

private theorem blockDesc_vaddrEnd (attr : BitVec 64) (mb : Nat) (d : MemDesc) :
    (blockDesc attr mb d).vaddrEnd = d.vaddrEnd := by
  cases d
  rfl

private theorem nextBlock_vaddrStart (d : MemDesc) : (nextBlock d).vaddrStart = d.vaddrStart := by
  cases d
  rfl

private theorem nextBlock_vaddrEnd (d : MemDesc) :
    (nextBlock d).vaddrEnd = d.vaddrEnd + s2PmdSize := by
  cases d
  rfl

/-- What `createVmMmap_room` says of a call. -/
def MapsRange (B : Board) (id : Nat) (T : Finset Nat)
    (call : S2 → MemDesc → Except Fault (RtErr × S2 × MemDesc))
    (found : S2 → MemDesc → List MapEv) : Prop :=
  ∀ s d r s' d', isBlock d.attr = true → d.vaddrStart.toNat < d.vaddrEnd.toNat →
    d.vaddrEnd.toNat ≤ 2 ^ 40 →
    (∀ k, Touches d.vaddrStart.toNat d.vaddrEnd.toNat k → k ∈ T) → Room B id T s →
    call s d = .ok (r, s', d') →
    r = .eok ∧ Sound (found s d) ∧ Room B id T s' ∧ d'.vaddrStart = blockAlign d.vaddrEnd ∧
      d'.vaddrEnd = blockAlign d.vaddrEnd

/-- **The blocks of an area**, each mapped behind the one before. -/
theorem blocksLoop_room {call : S2 → MemDesc → Except Fault (RtErr × S2 × MemDesc)}
    {found : S2 → MemDesc → List MapEv} (hmaps : MapsRange B id T call found)
    {attr : BitVec 64} (hattr : attr &&& 2 = 0) (mbs : List Nat) (s : S2) (d : MemDesc)
    (hstart : d.vaddrStart.toNat % 2 ^ 21 = 0) (hend : d.vaddrEnd = d.vaddrStart + s2PmdSize)
    (hlimit : d.vaddrStart.toNat + 2 ^ 21 * mbs.length ≤ 2 ^ 40)
    (htouched : ∀ k, Touches d.vaddrStart.toNat (d.vaddrStart.toNat + 2 ^ 21 * mbs.length) k →
      k ∈ T)
    (hroom : Room B id T s) {r : RtErr} {s' : S2}
    (h : blocksLoop call attr mbs s d = .ok (r, s')) :
    r = .eok ∧ Sound (blocksTrace call found attr mbs s d) ∧ Room B id T s' := by
  induction mbs generalizing s d with
  | nil =>
      cases pure_eq_ok.mp h
      exact ⟨rfl, sound_nil, hroom⟩
  | cons mb mbs ih =>
      rw [List.length_cons] at hlimit htouched
      have hfinish : d.vaddrEnd.toNat = d.vaddrStart.toNat + 2 ^ 21 := by
        have hsize : s2PmdSize.toNat = 2 ^ 21 := by decide
        rw [hend, BitVec.toNat_add, hsize]
        omega
      have hhere : ∀ k, Touches d.vaddrStart.toNat d.vaddrEnd.toNat k → k ∈ T := by
        rintro k ⟨hlow, hhigh⟩
        exact htouched k ⟨hlow, by omega⟩
      rw [blocksLoop] at h
      obtain ⟨⟨r1, s1, d1⟩, hcall, hrest⟩ := bind_eq_ok.mp h
      have hblock : isBlock (blockDesc attr mb d).attr = true := isBlock_or hattr (by decide)
      obtain ⟨hr1, htrace, hroom1, hstart1, hend1⟩ := hmaps _ _ _ _ _ hblock
        (by rw [blockDesc_vaddrStart, blockDesc_vaddrEnd]; omega)
        (by rw [blockDesc_vaddrEnd]; omega)
        (by rw [blockDesc_vaddrStart, blockDesc_vaddrEnd]; exact hhere) hroom hcall
      have hnext : blockAlign d.vaddrEnd = d.vaddrEnd := blockAlign_eq (by omega) (by omega)
      rw [blockDesc_vaddrEnd, hnext] at hstart1 hend1
      have hlow : (nextBlock d1).vaddrStart = d.vaddrEnd := (nextBlock_vaddrStart d1).trans hstart1
      have hhigh : (nextBlock d1).vaddrEnd = (nextBlock d1).vaddrStart + s2PmdSize := by
        rw [nextBlock_vaddrStart, nextBlock_vaddrEnd, hstart1, hend1]
      simp only [blocksTrace, hcall]
      simp only at hrest
      rw [if_pos hr1] at hrest ⊢
      generalize nextBlock d1 = d2 at hrest hlow hhigh ⊢
      rw [← hlow] at hfinish
      have hahead : ∀ k, Touches d2.vaddrStart.toNat
          (d2.vaddrStart.toNat + 2 ^ 21 * mbs.length) k → k ∈ T := by
        rintro k ⟨hlow, hhigh⟩
        exact htouched k ⟨by omega, by omega⟩
      obtain ⟨hr, hmore, hroom'⟩ := ih s1 d2 (by omega) hhigh (by omega) hahead hroom1 hrest
      exact ⟨hr, sound_append.mpr ⟨htrace, hmore⟩, hroom'⟩

/-- **One area** in order, when there is a page for every empty entry it touches. -/
theorem mapArea_room (hid : id < maxVmNum) (hT : ∀ k ∈ T, k < 1024) {s s' : S2}
    {vma vma' : VmArea} (horder : vma.InOrder)
    (htouched : ∀ k, Touches vma.desc.vaddrStart.toNat vma.finish k → k ∈ T)
    (hroom : Room B id T s) {r : RtErr}
    (h : mapArea B s (pgdTbl B id) id vma = .ok (r, s', vma')) :
    r = .eok ∧ Sound (mapAreaTrace B s (pgdTbl B id) id vma) ∧ Room B id T s' := by
  have hlimit := horder.limit
  unfold mapArea at h
  unfold mapAreaTrace
  by_cases hbk : vma.flag &&& vmMapTypeMask = vmMapBk
  · have hfinish : vma.finish = vma.desc.vaddrStart.toNat + 2 ^ 21 * vma.mbHead.length :=
      if_pos hbk
    rw [hfinish] at hlimit htouched
    rw [if_pos hbk] at h ⊢
    obtain ⟨⟨r1, s1⟩, hcall, hret⟩ := bind_eq_ok.mp h
    cases pure_eq_ok.mp hret
    rw [mapVmaBk, mapBlocks_eq] at hcall
    have hmaps : MapsRange B id T (fun s d => createVmMmap B s (pgdTbl B id) id d)
        (fun s d => createVmMmapTrace B s (pgdTbl B id) id d) :=
      fun s d r s' d' hattr hrange hend htouched hroom hcall =>
        createVmMmap_room hid hT hattr hrange hend htouched hroom hcall
    exact blocksLoop_room hmaps horder.attr vma.mbHead s
      { vaddrStart := vma.desc.vaddrStart
        vaddrEnd := vma.desc.vaddrStart + s2PmdSize
        paddrStart := 0
        attr := 0 } (horder.aligned hbk) rfl hlimit htouched hroom hcall
  · have hfinish : vma.finish = vma.desc.vaddrEnd.toNat := if_neg hbk
    have hrange := horder.nonempty hbk
    rw [hfinish] at hlimit htouched hrange
    rw [if_neg hbk] at h ⊢
    by_cases hpt : vma.flag &&& vmMapTypeMask = vmMapPt
    · rw [if_pos hpt] at h ⊢
      exact mapVmaPt_room
        (v := { vma with desc := { vma.desc with paddrStart := vma.desc.vaddrStart } })
        hid hT horder.attr hrange hlimit htouched hroom h
    · rw [if_neg hpt] at h ⊢
      exact mapVmaPt_room (v := { vma with desc := { vma.desc with paddrStart := 0 } })
        hid hT horder.attr hrange hlimit htouched hroom h

/-- **The areas**, one after the other. -/
theorem areasLoop_room (hid : id < maxVmNum) (hT : ∀ k ∈ T, k < 1024) (areas : List VmArea)
    (s : S2) (horder : ∀ vma ∈ areas, vma.InOrder)
    (htouched : ∀ vma ∈ areas, ∀ k, Touches vma.desc.vaddrStart.toNat vma.finish k → k ∈ T)
    (hroom : Room B id T s) {r : RtErr} {out : S2 × List VmArea}
    (h : areasLoop (fun s vma => mapArea B s (pgdTbl B id) id vma) areas s .eok =
      .ok (r, out)) :
    r = .eok ∧ ∀ tr ∈ areasTrace (fun s vma => mapArea B s (pgdTbl B id) id vma)
      (fun s vma => mapAreaTrace B s (pgdTbl B id) id vma) areas s, Clean tr := by
  induction areas generalizing s r out with
  | nil =>
      cases pure_eq_ok.mp h
      exact ⟨rfl, fun tr htr => (by cases htr)⟩
  | cons vma rest ih =>
      rw [areasLoop] at h
      obtain ⟨⟨r1, s1, vma1⟩, harea, hrest⟩ := bind_eq_ok.mp h
      obtain ⟨⟨r2, s2, rest2⟩, hloop, hret⟩ := bind_eq_ok.mp hrest
      cases pure_eq_ok.mp hret
      obtain ⟨rfl, htrace, hroom1⟩ := mapArea_room hid hT (horder vma List.mem_cons_self)
        (htouched vma List.mem_cons_self) hroom harea
      obtain ⟨hr, hall⟩ := ih s1 (fun v hv => horder v (List.mem_cons_of_mem _ hv))
        (fun v hv => htouched v (List.mem_cons_of_mem _ hv)) hroom1 hloop
      refine ⟨hr, fun tr htr => ?_⟩
      simp only [areasTrace, harea] at htr
      rcases List.mem_cons.mp htr with rfl | htr
      · exact (mapArea_reports harea).2.mpr htrace
      · exact hall tr htr

end Areas

/-! ## From the inputs -/

/-- The level-1 entries the areas touch. -/
def touchedEntries (areas : List VmArea) : Finset Nat :=
  (Finset.range 1024).filter fun k =>
    ∃ vma ∈ areas, Touches vma.desc.vaddrStart.toNat vma.finish k

/-- **`map_vm_memory` comes through** when the pool has a page for every empty level-1 entry the
areas touch: then no call fails, and the code says so. -/
theorem map_vm_memory_fits {B : Board} {e e' : Env} {mm mm' : MmStruct} {id : Nat} {ret : RtErr}
    (hid : id < maxVmNum) (hpgd : mm.pgdTbl = pgdTbl B id)
    (horder : ∀ vma ∈ mm.vmAreaUsed, vma.InOrder)
    (hroom : Room B id (touchedEntries mm.vmAreaUsed) e.s2)
    (h : mapVmMemory B e mm id = .ok (ret, mm', e')) :
    ret = .eok ∧ ∀ tr ∈ mapVmMemoryTrace B e mm id, Clean tr := by
  obtain ⟨⟨r, s, areas⟩, hloop, hret⟩ := bind_eq_ok.mp h
  cases pure_eq_ok.mp hret
  rw [hpgd, mapAreas_eq] at hloop
  rw [mapVmMemoryTrace, hpgd]
  apply areasLoop_room hid _ _ _ horder _ hroom hloop
  · intro k hk
    exact Finset.mem_range.mp (Finset.mem_filter.mp hk).1
  · intro vma hvma k hk
    have hlimit := (horder vma hvma).limit
    obtain ⟨hlow, hhigh⟩ := hk
    exact Finset.mem_filter.mpr
      ⟨Finset.mem_range.mpr (by omega), vma, hvma, hlow, hhigh⟩

/-- Two areas in one region of 1 GB take one page together. -/
example : Room roomy 0 (touchedEntries [deviceArea 0, deviceArea 0x200000]) nearlyUsedUp.s2 := by
  decide +kernel

/-- One page is not enough for two regions. -/
example : ¬ Room roomy 0 (touchedEntries [deviceArea 0, deviceArea 0x40000000])
    nearlyUsedUp.s2 := by
  decide +kernel

end RtHypervisor.Ports.Mm
