import Mathlib.Tactic
import RtHypervisor.Ports.Stage2Rows

/-!
# The pool of table pages

`_kernel_free_s2_page` hands out the page of the lowest clear bit.  `clear_s2_mmu_page` computes
the index of the page it takes back in bytes: it is right for the first page of the pool and for
no other one.  Runs are sequences of the two calls, and of writes to pages that are handed out.

`bitmap.h` is not part of the sources: `bitmapClrBit` is a parameter, of which only what it does
for an index inside the word is known.  The index it gets is an `int`.
-/

namespace RtHypervisor.Ports.PagePool

open RtHypervisor.Verified.Run
open RtHypervisor.Verified.ByteMem
open RtHypervisor.Ports.Platform
open RtHypervisor.Ports.Stage2

section Pool

variable (B : Board) (bitmapClrBit : BitVec 32 → Int → BitVec 32)

/-- `clear_s2_mmu_page`: `page_i` is a difference of addresses, cut down to 32 bits. -/
def clearS2MmuPage (s : S2) (id page : Nat) : Except Fault S2 := do
  check .nullPointer (4096 ≤ page)
  let pageI := ((page : Int) - pageAddr B id 0).bmod (2 ^ 32)
  pure
    { mem := fill s.mem page 4096 0
      pageBitmap := Function.update s.pageBitmap id (bitmapClrBit (s.pageBitmap id) pageI) }

/-- The tables, and by VM the addresses of the pages that are handed out. -/
structure Pool where
  s2 : S2
  out : Nat → List Nat

inductive Event
  | alloc (id : Nat)
  | release (id page : Nat)
  | write (id page x : Nat) (v : BitVec 8)
deriving DecidableEq, Repr

/-- The VM whose pool an event is about. -/
def Event.vm : Event → Nat
  | .alloc id => id
  | .release id _ => id
  | .write id _ _ _ => id

/-- What callers may do: release and write what they hold. -/
def Enabled (p : Pool) : Event → Prop
  | .alloc id => id < maxVmNum
  | .release id page => id < maxVmNum ∧ page ∈ p.out id
  | .write id page x _ => id < maxVmNum ∧ page ∈ p.out id ∧ page ≤ x ∧ x < page + 4096

instance (p : Pool) (e : Event) : Decidable (Enabled p e) := by
  cases e <;> unfold Enabled <;> infer_instance

def step (p : Pool) : Event → Except Fault Pool
  | .alloc id => do
      let (page, s) ← kernelFreeS2Page B p.s2 id
      pure
        { s2 := s
          out := if page = 0 then p.out else Function.update p.out id (page :: p.out id) }
  | .release id page => do
      let s ← clearS2MmuPage B bitmapClrBit p.s2 id page
      pure { s2 := s, out := Function.update p.out id ((p.out id).erase page) }
  | .write _ _ x v =>
      pure { p with s2 := { p.s2 with mem := Function.update p.s2.mem x v } }

end Pool

/-! ## Properties -/

/-- The pools of the VMs in order: the bits are the pages handed out, and the other pages are
clean. -/
structure Pooled (B : Board) (p : Pool) : Prop where
  bits : ∀ id, id < maxVmNum → ∀ i, i < mmuTblPageNrMax →
    ((p.s2.pageBitmap id).getLsbD i = true ↔ pageAddr B id i ∈ p.out id)
  pages : ∀ id, id < maxVmNum → ∀ page ∈ p.out id,
    ∃ i, i < mmuTblPageNrMax ∧ page = pageAddr B id i
  distinct : ∀ id, id < maxVmNum → (p.out id).Nodup
  clean : ∀ id, id < maxVmNum → ∀ i, i < mmuTblPageNrMax → pageAddr B id i ∉ p.out id →
    ∀ x, pageAddr B id i ≤ x → x < pageAddr B id i + 4096 → p.s2.mem x = 0

/-- What the next allocation does: it fails if and only if every page is handed out, and else
takes the lowest page that is not. -/
structure Serves (B : Board) (p : Pool) : Prop where
  fails : ∀ id, id < maxVmNum →
    ((kernelFreeS2Page B p.s2 id).map Prod.fst = .ok 0 ↔
      ∀ i, i < mmuTblPageNrMax → pageAddr B id i ∈ p.out id)
  again : ∀ id, id < maxVmNum → ∀ i, i < mmuTblPageNrMax → pageAddr B id i ∉ p.out id →
    (∀ j, j < i → pageAddr B id j ∈ p.out id) →
    (kernelFreeS2Page B p.s2 id).map Prod.fst = .ok (pageAddr B id i)

/-- The other VMs do not notice a step. -/
def Framed (B : Board) (p : Pool) (e : Event) (p' : Pool) : Prop :=
  ∀ id, id < maxVmNum → id ≠ e.vm →
    p'.s2.pageBitmap id = p.s2.pageBitmap id ∧ p'.out id = p.out id ∧
      ∀ i, i < mmuTblPageNrMax → ∀ x, pageAddr B id i ≤ x → x < pageAddr B id i + 4096 →
        p'.s2.mem x = p.s2.mem x

/-- The first page of the pool is the only one that is taken back. -/
def FirstPageOnly (B : Board) (_ : Pool) : Event → Prop
  | .release id page => page = pageAddr B id 0
  | _ => True

instance (B : Board) (p : Pool) (e : Event) : Decidable (FirstPageOnly B p e) := by
  cases e <;> unfold FirstPageOnly <;> infer_instance

/-! ## One allocation -/

section Alloc

variable {B : Board} {s : S2} {id : Nat} (hid : id < maxVmNum)

private theorem pageAddr_inj {id id' i i' : Nat} (hi : i < mmuTblPageNrMax)
    (hi' : i' < mmuTblPageNrMax) (h : pageAddr B id i = pageAddr B id' i') : id = id' ∧ i = i' := by
  simp only [pageAddr, mmuTblPageNrMax] at hi hi' h
  omega

include hid

private theorem kernelFreeS2Page_lowest {i : Nat} (hi : i < mmuTblPageNrMax)
    (hclear : (s.pageBitmap id).getLsbD i = false)
    (hlow : ∀ j, j < i → (s.pageBitmap id).getLsbD j = true) :
    (kernelFreeS2Page B s id).map Prod.fst = .ok (pageAddr B id i) := by
  have hne : s.pageBitmap id ≠ BitVec.allOnes 32 := by
    intro hfull
    have hi' : i < 32 := hi
    rw [hfull, BitVec.getLsbD_allOnes, decide_eq_true hi'] at hclear
    cases hclear
  have hnext : B.findNext (s.pageBitmap id) = i := by
    rcases Nat.lt_trichotomy (B.findNext (s.pageBitmap id)) i with hlt | heq | hgt
    · have hset := hlow _ hlt
      rw [B.findNext_clear _ hne] at hset
      cases hset
    · exact heq
    · rw [B.findNext_lowest _ _ hgt] at hclear
      cases hclear
  have hnot : ¬ (i = mmuTblPageNrMax - 1 ∧ B.getBit (s.pageBitmap id) i = true) := by
    rintro ⟨-, hset⟩
    rw [B.getBit_eq _ _ hi, hclear] at hset
    cases hset
  simp only [kernelFreeS2Page, hid, decide_true, check_true, ok_bind, hnext]
  rw [if_neg hnot]
  rfl

end Alloc

/-! ## Steps -/

section Steps

variable {B : Board} {bitmapClrBit : BitVec 32 → Int → BitVec 32} {p p' : Pool}

theorem Pooled.serves (h : Pooled B p) : Serves B p where
  fails := by
    intro id hid
    rcases kernelFreeS2Page_spec B p.s2 hid with ⟨hfull, hrun⟩ | ⟨j, hj, hclear, hrun⟩
    · rw [hrun]
      refine ⟨fun _ i hi => (h.bits id hid i hi).mp ?_, fun _ => rfl⟩
      have hi' : i < 32 := hi
      rw [hfull, BitVec.getLsbD_allOnes, decide_eq_true hi']
    · have hpos := (pageAddr_bounds B hid hj).1
      rw [hrun]
      constructor
      · intro hzero
        have : pageAddr B id j = 0 := Except.ok.inj hzero
        omega
      · intro hall
        rw [(h.bits id hid j hj).mpr (hall j hj)] at hclear
        cases hclear
  again := by
    intro id hid i hi hnot hlow
    apply kernelFreeS2Page_lowest hid hi
    · by_contra hset
      rw [Bool.not_eq_false] at hset
      exact hnot ((h.bits id hid i hi).mp hset)
    · intro j hj
      exact (h.bits id hid j (by omega)).mpr (hlow j hj)

/-- An allocation: nothing, or the page of a clear bit. -/
theorem step_alloc {id : Nat} (hid : id < maxVmNum) :
    (p.s2.pageBitmap id = BitVec.allOnes 32 ∧ step B bitmapClrBit p (.alloc id) = .ok p) ∨
      ∃ j, j < mmuTblPageNrMax ∧ (p.s2.pageBitmap id).getLsbD j = false ∧
        step B bitmapClrBit p (.alloc id) = .ok
          { s2 := { p.s2 with
              pageBitmap := Function.update p.s2.pageBitmap id
                (p.s2.pageBitmap id ||| BitVec.twoPow 32 j) }
            out := Function.update p.out id (pageAddr B id j :: p.out id) } := by
  rcases kernelFreeS2Page_spec B p.s2 hid with ⟨hfull, hrun⟩ | ⟨j, hj, hclear, hrun⟩
  · left
    refine ⟨hfull, ?_⟩
    simp only [step, hrun, ok_bind, if_true]
    rfl
  · right
    have hpos := (pageAddr_bounds B hid hj).1
    have hne : pageAddr B id j ≠ 0 := by omega
    refine ⟨j, hj, hclear, ?_⟩
    simp only [step, hrun, ok_bind, hne, if_false]
    rfl

theorem Pooled.alloc (h : Pooled B p) {id : Nat} (hid : id < maxVmNum)
    (hstep : step B bitmapClrBit p (.alloc id) = .ok p') : Pooled B p' := by
  rcases @step_alloc B bitmapClrBit p id hid with ⟨-, hrun⟩ |
    ⟨j, hj, hclear, hrun⟩
  · rw [hrun] at hstep
    cases hstep
    exact h
  · rw [hrun] at hstep
    cases hstep
    have hnew : pageAddr B id j ∉ p.out id := by
      intro hmem
      rw [(h.bits id hid j hj).mpr hmem] at hclear
      cases hclear
    constructor
    · intro id' hid' i hi
      by_cases hsame : id' = id
      · subst hsame
        have hiff := h.bits id' hid i hi
        simp only [Function.update_self, getLsbD_set _ hj, Bool.or_eq_true, decide_eq_true_eq,
          List.mem_cons, hiff]
        constructor
        · rintro (hmem | rfl)
          · exact Or.inr hmem
          · exact Or.inl rfl
        · rintro (heq | hmem)
          · exact Or.inr (pageAddr_inj hi hj heq).2
          · exact Or.inl hmem
      · simp only [Function.update_of_ne hsame]
        exact h.bits id' hid' i hi
    · intro id' hid' page hpage
      by_cases hsame : id' = id
      · subst hsame
        simp only [Function.update_self, List.mem_cons] at hpage
        rcases hpage with rfl | hpage
        · exact ⟨j, hj, rfl⟩
        · exact h.pages id' hid page hpage
      · simp only [Function.update_of_ne hsame] at hpage
        exact h.pages id' hid' page hpage
    · intro id' hid'
      by_cases hsame : id' = id
      · subst hsame
        simp only [Function.update_self]
        exact List.nodup_cons.mpr ⟨hnew, h.distinct id' hid⟩
      · simp only [Function.update_of_ne hsame]
        exact h.distinct id' hid'
    · intro id' hid' i hi hnot
      by_cases hsame : id' = id
      · subst hsame
        simp only [Function.update_self, List.mem_cons, not_or] at hnot
        exact h.clean id' hid i hi hnot.2
      · simp only [Function.update_of_ne hsame] at hnot
        exact h.clean id' hid' i hi hnot

/-- Two pages of the pools, of one VM or of two, do not meet. -/
theorem pageAddr_apart {id id' i i' x : Nat} (hi : i < mmuTblPageNrMax)
    (hi' : i' < mmuTblPageNrMax) (hx : pageAddr B id i ≤ x ∧ x < pageAddr B id i + 4096)
    (hx' : pageAddr B id' i' ≤ x ∧ x < pageAddr B id' i' + 4096) : id = id' ∧ i = i' := by
  simp only [pageAddr, mmuTblPageNrMax] at hi hi' hx hx'
  omega

theorem Pooled.write (h : Pooled B p) {id page x : Nat} {v : BitVec 8}
    (he : Enabled p (.write id page x v))
    (hstep : step B bitmapClrBit p (.write id page x v) = .ok p') : Pooled B p' := by
  cases hstep
  obtain ⟨hid, hmem, hlo, hhi⟩ := he
  obtain ⟨j, hj, rfl⟩ := h.pages id hid page hmem
  refine ⟨h.bits, h.pages, h.distinct, ?_⟩
  intro id' hid' i hi hnot y hylo hyhi
  have hne : y ≠ x := by
    rintro rfl
    obtain ⟨rfl, rfl⟩ := pageAddr_apart hi hj ⟨hylo, hyhi⟩ ⟨hlo, hhi⟩
    exact hnot hmem
  have hsame : Function.update p.s2.mem x v y = p.s2.mem y := Function.update_of_ne hne ..
  exact hsame.trans (h.clean id' hid' i hi hnot y hylo hyhi)

/-- Taking back a page: `page_i` is its index times 4096. -/
theorem step_release {id j : Nat} (hid : id < maxVmNum) (hj : j < mmuTblPageNrMax) :
    step B bitmapClrBit p (.release id (pageAddr B id j)) = .ok
      { s2 := {
          mem := fill p.s2.mem (pageAddr B id j) 4096 0
          pageBitmap := Function.update p.s2.pageBitmap id
            (bitmapClrBit (p.s2.pageBitmap id) ((4096 * j : Nat) : Int)) }
        out := Function.update p.out id ((p.out id).erase (pageAddr B id j)) } := by
  have hpos := (pageAddr_bounds B hid hj).1
  have hidx : ((pageAddr B id j : Int) - pageAddr B id 0).bmod (2 ^ 32) =
      ((4096 * j : Nat) : Int) := by
    have hmax : mmuTblPageNrMax = 32 := rfl
    have hdiff : (pageAddr B id j : Int) - pageAddr B id 0 = ((4096 * j : Nat) : Int) := by
      simp only [pageAddr]
      omega
    rw [hdiff]
    apply Int.bmod_eq_of_le
    · omega
    · omega
  simp only [step, clearS2MmuPage, hpos, decide_true, check_true, ok_bind, hidx]
  rfl

/-- Taking back the first page of the pool. -/
theorem Pooled.release_first
    (hclr : ∀ b (i : Nat), i < 32 → bitmapClrBit b i = b &&& ~~~BitVec.twoPow 32 i) (h : Pooled B p)
    {id : Nat} (he : Enabled p (.release id (pageAddr B id 0)))
    (hstep : step B bitmapClrBit p (.release id (pageAddr B id 0)) = .ok p') : Pooled B p' := by
  obtain ⟨hid, hmem⟩ := he
  have hzero : 0 < mmuTblPageNrMax := by decide
  rw [step_release hid hzero] at hstep
  cases hstep
  have hbitmap : bitmapClrBit (p.s2.pageBitmap id) ((4096 * 0 : Nat) : Int) =
      p.s2.pageBitmap id &&& ~~~BitVec.twoPow 32 0 := hclr _ 0 (by decide)
  have hmem' : ∀ i, i < mmuTblPageNrMax →
      (pageAddr B id i ∈ (p.out id).erase (pageAddr B id 0) ↔
        i ≠ 0 ∧ pageAddr B id i ∈ p.out id) := by
    intro i hi
    rw [(h.distinct id hid).mem_erase_iff]
    constructor
    · rintro ⟨hne, hin⟩
      refine ⟨?_, hin⟩
      rintro rfl
      exact hne rfl
    · rintro ⟨hne, hin⟩
      exact ⟨fun heq => hne (pageAddr_inj hi hzero heq).2, hin⟩
  constructor
  · intro id' hid' i hi
    by_cases hsame : id' = id
    · subst hsame
      have hi' : i < 32 := hi
      simp only [Function.update_self, hbitmap, hmem' i hi, ← h.bits id' hid i hi]
      rw [BitVec.getLsbD_and, BitVec.getLsbD_not, BitVec.getLsbD_twoPow]
      by_cases hi0 : i = 0
      · simp [hi0]
      · have hne : ¬ 0 = i := fun heq => hi0 heq.symm
        simp [hi0, hne, hi']
    · simp only [Function.update_of_ne hsame]
      exact h.bits id' hid' i hi
  · intro id' hid' page hpage
    by_cases hsame : id' = id
    · subst hsame
      simp only [Function.update_self] at hpage
      exact h.pages id' hid page (List.mem_of_mem_erase hpage)
    · simp only [Function.update_of_ne hsame] at hpage
      exact h.pages id' hid' page hpage
  · intro id' hid'
    by_cases hsame : id' = id
    · subst hsame
      simp only [Function.update_self]
      exact (h.distinct id' hid).erase _
    · simp only [Function.update_of_ne hsame]
      exact h.distinct id' hid'
  · intro id' hid' i hi hnot x hlo hhi
    simp only [fill]
    by_cases hin : pageAddr B id 0 ≤ x ∧ x < pageAddr B id 0 + 4096
    · rw [if_pos hin]
    · rw [if_neg hin]
      by_cases hsame : id' = id
      · subst hsame
        simp only [Function.update_self, hmem' i hi, not_and] at hnot
        have hi0 : i ≠ 0 := by
          rintro rfl
          exact hin ⟨hlo, hhi⟩
        exact h.clean id' hid i hi (hnot hi0) x hlo hhi
      · simp only [Function.update_of_ne hsame] at hnot
        exact h.clean id' hid' i hi hnot x hlo hhi

/-- After taking back another page its bit is still set, unless the bit operation clears a bit
far away from the index it gets. -/
theorem not_pooled_of_release
    (hnear : ∀ b (i k : Nat), k ≠ i % 32 → (bitmapClrBit b i).getLsbD k = b.getLsbD k)
    (h : Pooled B p)
    {id page : Nat} (he : Enabled p (.release id page)) (hne : page ≠ pageAddr B id 0)
    (hstep : step B bitmapClrBit p (.release id page) = .ok p') : ¬ Pooled B p' := by
  obtain ⟨hid, hmem⟩ := he
  obtain ⟨j, hj, rfl⟩ := h.pages id hid page hmem
  rw [step_release hid hj] at hstep
  cases hstep
  have hj0 : j ≠ 0 := by
    rintro rfl
    exact hne rfl
  intro hnext
  have hset : (bitmapClrBit (p.s2.pageBitmap id) ((4096 * j : Nat) : Int)).getLsbD j = true := by
    rw [hnear _ _ _ (by omega)]
    exact (h.bits id hid j hj).mpr hmem
  have hbits := (hnext.bits id hid j hj).mp (by
    simp only [Function.update_self]
    exact hset)
  simp only [Function.update_self] at hbits
  exact (h.distinct id hid).not_mem_erase hbits

private theorem step_framed (h : Pooled B p) {e : Event} (he : Enabled p e)
    (hstep : step B bitmapClrBit p e = .ok p') : Framed B p e p' := by
  intro id' hid' hne
  cases e with
  | alloc id =>
      have hne' : id' ≠ id := hne
      rcases @step_alloc B bitmapClrBit p id he with ⟨-, hrun⟩ |
        ⟨j, hj, hclear, hrun⟩
      · rw [hrun] at hstep
        cases hstep
        exact ⟨rfl, rfl, fun _ _ _ _ _ => rfl⟩
      · rw [hrun] at hstep
        cases hstep
        simp only [Function.update_of_ne hne']
        exact ⟨trivial, trivial, fun _ _ _ _ _ => trivial⟩
  | release id page =>
      have hne' : id' ≠ id := hne
      obtain ⟨hid, hmem⟩ := he
      obtain ⟨j, hj, rfl⟩ := h.pages id hid page hmem
      rw [step_release hid hj] at hstep
      cases hstep
      simp only [Function.update_of_ne hne', true_and]
      intro i hi x hlo hhi
      rw [fill, if_neg]
      intro hin
      exact hne' (pageAddr_apart hi hj ⟨hlo, hhi⟩ hin).1
  | write id page x v =>
      have hne' : id' ≠ id := hne
      obtain ⟨hid, hmem, hlo, hhi⟩ := he
      obtain ⟨j, hj, rfl⟩ := h.pages id hid page hmem
      cases hstep
      refine ⟨rfl, rfl, ?_⟩
      intro i hi y hylo hyhi
      have hy : y ≠ x := by
        rintro rfl
        exact hne' (pageAddr_apart hi hj ⟨hylo, hyhi⟩ ⟨hlo, hhi⟩).1
      exact Function.update_of_ne hy ..

end Steps

/-! ## Every run -/

/-- The pools after `rt_init_s2_mmu_table`. -/
structure Fresh (B : Board) (p : Pool) : Prop where
  bits : ∀ id, id < maxVmNum → p.s2.pageBitmap id = 0
  clean : ∀ id, id < maxVmNum → ∀ i, i < mmuTblPageNrMax → ∀ x, pageAddr B id i ≤ x →
    x < pageAddr B id i + 4096 → p.s2.mem x = 0
  out : ∀ id, p.out id = []

theorem Fresh.pooled {B : Board} {p : Pool} (h : Fresh B p) : Pooled B p where
  bits := by
    intro id hid i hi
    rw [h.bits id hid, h.out id]
    simp
  pages := by
    intro id hid page hpage
    rw [h.out id] at hpage
    cases hpage
  distinct := by
    intro id hid
    rw [h.out id]
    exact List.nodup_nil
  clean := fun id hid i hi _ => h.clean id hid i hi

section Main

variable {B : Board} {bitmapClrBit : BitVec 32 → Int → BitVec 32} {p : Pool} {es : List Event}

theorem step_returns {p : Pool} {e : Event} (h : Pooled B p) (he : Enabled p e) :
    ∃ p', step B bitmapClrBit p e = .ok p' := by
  cases e with
  | alloc id =>
      rcases @step_alloc B bitmapClrBit p id he with ⟨-, hrun⟩ |
        ⟨j, -, -, hrun⟩
      · exact ⟨_, hrun⟩
      · exact ⟨_, hrun⟩
  | release id page =>
      obtain ⟨hid, hmem⟩ := he
      obtain ⟨j, hj, rfl⟩ := h.pages id hid page hmem
      exact ⟨_, step_release hid hj⟩
  | write id page x v => exact ⟨_, rfl⟩

theorem Pooled.step {p p' : Pool} {e : Event}
    (hclr : ∀ b (i : Nat), i < 32 → bitmapClrBit b i = b &&& ~~~BitVec.twoPow 32 i) (h : Pooled B p)
    (he : Enabled p e) (hfirst : FirstPageOnly B p e)
    (hstep : step B bitmapClrBit p e = .ok p') : Pooled B p' := by
  cases e with
  | alloc id => exact h.alloc he hstep
  | release id page =>
      have hpage : page = pageAddr B id 0 := hfirst
      subst hpage
      exact h.release_first hclr he hstep
  | write id page x v => exact h.write he hstep

/-- The pools are in order in every state of a run, the allocations included, and no step is
noticed by another VM. -/
structure PoolsRight (B : Board) (bitmapClrBit : BitVec 32 → Int → BitVec 32) (p : Pool)
    (es : List Event) : Prop where
  states : Always (step B bitmapClrBit) (fun p => Pooled B p ∧ Serves B p) p es
  steps : Guarded (step B bitmapClrBit)
    (fun p e => ∀ p', step B bitmapClrBit p e = .ok p' → Framed B p e p') p es

/-- **The pool of table pages**, over every run from a new one: right as long as only the first
page is taken back.  Where `bitmap_clr_bit` changes no bit but that of its index modulo 32, it is
not right in any other run. -/
theorem page_pool_right
    (hclr : ∀ b (i : Nat), i < 32 → bitmapClrBit b i = b &&& ~~~BitVec.twoPow 32 i) (hp : Fresh B p)
    (hes : Guarded (step B bitmapClrBit) Enabled p es) :
    (Guarded (step B bitmapClrBit) (FirstPageOnly B) p es → PoolsRight B bitmapClrBit p es) ∧
      ((∀ b (i k : Nat), k ≠ i % 32 → (bitmapClrBit b i).getLsbD k = b.getLsbD k) →
        PoolsRight B bitmapClrBit p es →
          Guarded (step B bitmapClrBit) (FirstPageOnly B) p es) := by
  constructor
  · intro hfirst
    have hboth := hes.and hfirst
    constructor
    · apply @always_of_guarded _ _ _ _ _ _ (Pooled B) _ _ (fun p hp => ⟨hp, hp.serves⟩)
        _ hp.pooled hboth
      intro p e hpooled he
      obtain ⟨p', hstep⟩ := @step_returns B bitmapClrBit p e hpooled he.1
      exact ⟨p', hstep, hpooled.step hclr he.1 he.2 hstep⟩
    · apply @Guarded.of_inv _ _ _ _ _ _ (Pooled B) _ _ _ _ hp.pooled hboth
      · intro p e p' hpooled he hstep
        exact hpooled.step hclr he.1 he.2 hstep
      · intro p e hpooled he p' hstep
        exact step_framed hpooled he.1 hstep
  · intro hnear hright
    obtain ⟨t, hrun⟩ := hright.states.returns (fun p e hp he => step_returns hp.1 he) hes
    have hnext : ∀ p e p', True → Pooled B p ∧ Serves B p → Enabled p e →
        step B bitmapClrBit p e = .ok p' →
        True ∧ (Pooled B p' ∧ Serves B p' ↔ FirstPageOnly B p e) := by
      intro p e p' _ hP he hstep
      refine ⟨trivial, ?_, ?_⟩
      · intro hP'
        by_contra hcond
        cases e with
        | alloc id => exact hcond trivial
        | release id page => exact not_pooled_of_release hnear hP.1 he hcond hstep hP'.1
        | write id page x v => exact hcond trivial
      · intro hcond
        have hpooled := hP.1.step hclr he hcond hstep
        exact ⟨hpooled, hpooled.serves⟩
    exact (always_iff_guarded_of_both hnext trivial ⟨hp.pooled, hp.pooled.serves⟩ hes hrun).mp
      hright.states

end Main

/-- One way to clear a bit of the word. -/
def clearBit (b : BitVec 32) (i : Int) : BitVec 32 := b &&& ~~~BitVec.twoPow 32 i.toNat

def blankPool : Pool := ⟨⟨fun _ => 0, fun _ => 0⟩, fun _ => []⟩

private theorem blankPool_fresh : Fresh roomy blankPool :=
  ⟨fun _ _ => rfl, fun _ _ _ _ _ _ _ => rfl, fun _ => rfl⟩

/-- Two VMs take pages and write them; the first page of VM 0 comes back while its second is out,
is handed out again, and then a third is. -/
def twoPools : List Event :=
  [.alloc 0, .alloc 0, .alloc 1, .write 0 0x200000 0x200008 7, .write 1 0x220000 0x220010 9,
    .release 0 0x200000, .alloc 0, .alloc 0]

theorem page_pool_right_twoPools :
    PoolsRight roomy clearBit blankPool twoPools ∧
      (run (step roomy clearBit) blankPool twoPools).map
        (fun p => (p.out 0, p.out 1, p.s2.mem 0x200008, p.s2.mem 0x220010)) =
        .ok ([0x202000, 0x200000, 0x201000], [0x220000], 0, 9) :=
  ⟨(page_pool_right (fun _ _ _ => rfl) blankPool_fresh (by decide)).1
    (by decide), by decide⟩

/-- The second page is taken back: its bit stays set. -/
theorem page_pool_leaks :
    ¬ ∀ (B : Board) (bitmapClrBit : BitVec 32 → Int → BitVec 32),
      (∀ b (i : Nat), i < 32 → bitmapClrBit b i = b &&& ~~~BitVec.twoPow 32 i) → ∀ (p : Pool)
      (es : List Event), Fresh B p → Guarded (step B bitmapClrBit) Enabled p es →
      PoolsRight B bitmapClrBit p es := by
  intro hall
  have hends : (run (step roomy clearBit) blankPool
      [.alloc 0, .alloc 0, .release 0 0x201000]).map
      (fun p => ((p.s2.pageBitmap 0).getLsbD 1, p.out 0)) = .ok (true, [0x200000]) := by
    decide
  obtain ⟨p, hrun, hread⟩ := exists_of_map_eq_ok hends
  simp only [Prod.mk.injEq] at hread
  obtain ⟨hbit, hout⟩ := hread
  have hright := hall roomy clearBit (fun _ _ _ => rfl) blankPool
    [.alloc 0, .alloc 0, .release 0 0x201000] blankPool_fresh (by decide)
  have hmem := ((hright.states.of_run hrun).1.bits 0 (by decide) 1 (by decide)).mp hbit
  rw [hout] at hmem
  exact absurd hmem (by decide)

end RtHypervisor.Ports.PagePool
