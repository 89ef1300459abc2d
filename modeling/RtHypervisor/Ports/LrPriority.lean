import RtHypervisor.Ports.LrOrder

/-!
# Which interrupts an injection loads

The list registers should hold the most urgent of what is pending, and none of them should be idle
while something waits in `lr_list`.  `lr_list_heap_create` puts the least urgent in front, which is
what the registers are filled from, and the index of the refill meets the end of the list half way.

`most_urgent_loaded` says of the values there are before a call when it comes right all the same:
when all priorities are equal, or when the most urgent are in front already and the first of them
keeps every sift from moving anything.  A sift only moves less urgent values to the front, so that
they must have been in front; where the first one sinks, it has to come to rest among them.
-/

namespace RtHypervisor.Ports.LrList

open RtHypervisor.Verified.Run
open RtHypervisor.Verified.PrefixArray
open RtHypervisor.Verified.HeapOrder
open RtHypervisor.Ports.ListRegister

def Pending (lr : Lr) : Prop := lrState lr = lrPending

instance (lr : Lr) : Decidable (Pending lr) := inferInstanceAs (Decidable (lrState lr = lrPending))

/-- Nothing pending waits behind something less urgent, and nothing waits for an idle register. -/
structure MostUrgentLoaded (s : VgicSlice) : Prop where
  order : ∀ e ∈ entries s.gicr, Pending e → ∀ i, i < s.ctxt.nrLr → Pending (s.ich.lrAt i) →
    getLrPrio (s.ich.lrAt i) ≤ getLrPrio e
  busy : entries s.gicr ≠ [] → ∀ i, i < s.ctxt.nrLr → lrIdle (s.ich.lrAt i) = false

/-- The same of the entries `vals` loaded from the front into `nrLr` registers. -/
structure FrontUrgent (nrLr : Nat) (vals : List Lr) : Prop where
  order : ∀ e ∈ vals.drop nrLr, Pending e → ∀ x ∈ vals.take nrLr, Pending x →
    getLrPrio x ≤ getLrPrio e
  busy : ∀ x ∈ vals.take nrLr, lrIdle x = false

/-- Nothing is idle, and what is pending has one priority. -/
structure Level (vals : List Lr) : Prop where
  live : ∀ e ∈ vals, lrIdle e = false
  equal : ∀ e ∈ vals, Pending e → ∀ x ∈ vals, Pending x → getLrPrio x = getLrPrio e

/-- The most urgent are in front, and the first of them has a larger priority number than the next
two. -/
structure Headed (nrLr : Nat) (vals : List Lr) : Prop where
  fits : Fits vals
  front : FrontUrgent nrLr vals
  head : ∀ c, IsSon c 0 → c < vals.length → prioOf vals c < prioOf vals 0

/-- The interrupt is listed, and all is well as it is; or there is at most one entry; or there are
enough for the index to reach the last register, and the priorities are equal or in order. -/
def UrgentCond (s : VgicSlice) (lr : Lr) : Prop :=
  if Queued s.gicr lr then MostUrgentLoaded s
  else s.ctxt.nrLr = 0 ∨ admitted s lr ≤ 1 ∨
    2 * s.ctxt.nrLr ≤ admitted s lr + 1 ∧
      (Level (candidates s lr) ∨ Headed s.ctxt.nrLr (candidates s lr))

/-- The most urgent are in front.  If none of the rest is as urgent, the first of them sinks to a
place in front, above less urgent sons. -/
structure InFront (nrLr : Nat) (vals : List Lr) : Prop where
  front : FrontUrgent nrLr vals
  rests : FrontLt nrLr (prioOf vals) vals.length →
    ∃ i, Way (prioOf vals) vals.length 0 i ∧ i < nrLr ∧
      ∀ c, IsSon c i → c < vals.length → c < nrLr ∧ prioOf vals c < prioOf vals 0

/-- What a call that comes right has found: where everything is pending and the list takes it, the
most urgent were in front. -/
def UrgentNeed (s : VgicSlice) (lr : Lr) : Prop :=
  if Queued s.gicr lr then MostUrgentLoaded s
  else s.ctxt.nrLr = 0 ∨ admitted s lr ≤ 1 ∨
    2 * s.ctxt.nrLr ≤ admitted s lr + 1 ∧
      (Fits (candidates s lr) → (∀ e ∈ candidates s lr, Pending e) →
        InFront s.ctxt.nrLr (candidates s lr))

/-- The injection returns, and the most urgent are loaded. -/
def LoadsUrgent [Bitmap] (s : VgicSlice) (virq : Virq) : Prop :=
  ∃ s' virq' reached, vgicInject s virq = .ok (s', virq', reached) ∧ MostUrgentLoaded s'

section Urgent

variable {s s' : VgicSlice} {vals : List Lr} {lr : Lr}

private theorem not_pending_of_idle (h : lrIdle lr = true) : ¬ Pending lr := by
  intro hpending
  have hlive : lrIdle lr = false := lrIdle_eq_false_of_state (by rw [hpending]; decide)
  rw [h] at hlive
  cases hlive

/-- What the registers hold is what was loaded. -/
theorem Reloaded.mem_take (h : Reloaded vals s s') {i : Nat} (hi : i < s.ctxt.nrLr)
    (hlive : lrIdle (s'.ich.lrAt i) = false) :
    s'.ich.lrAt i ∈ vals.take (loadCount s.ctxt.nrLr vals.length) := by
  by_cases hlt : i < loadCount s.ctxt.nrLr vals.length
  · have hlen : i < vals.length := by
      have hcount : loadCount s.ctxt.nrLr vals.length ≤ (vals.length + 1) / 2 :=
        Nat.min_le_right _ _
      omega
    rw [h.loaded i hlt, List.mem_take_iff_getElem]
    exact ⟨i, by omega, by simp [hlen]⟩
  · rw [h.idle i (by omega) hi] at hlive
    cases hlive

theorem Reloaded.exists_reg (h : Reloaded vals s s') {x : Lr}
    (hx : x ∈ vals.take (loadCount s.ctxt.nrLr vals.length)) :
    ∃ i, i < s.ctxt.nrLr ∧ s'.ich.lrAt i = x := by
  obtain ⟨i, hi, rfl⟩ := List.mem_take_iff_getElem.mp hx
  have hcount : loadCount s.ctxt.nrLr vals.length ≤ s.ctxt.nrLr := Nat.min_le_left _ _
  refine ⟨i, by omega, ?_⟩
  rw [h.loaded i (by omega)]
  have hlen : i < vals.length := by omega
  simp [hlen]

/-- An index that stops half way leaves a register idle and an entry waiting. -/
theorem Reloaded.urgent_iff (h : Reloaded vals s s') : MostUrgentLoaded s' ↔
    s.ctxt.nrLr = 0 ∨ vals.length ≤ 1 ∨
      2 * s.ctxt.nrLr ≤ vals.length + 1 ∧ FrontUrgent s.ctxt.nrLr vals := by
  have hnr : s'.ctxt.nrLr = s.ctxt.nrLr := by rw [h.ctxt_eq]
  by_cases hzero : s.ctxt.nrLr = 0
  · simp only [hzero, true_or, iff_true]
    refine ⟨fun e _ _ i hi _ => ?_, fun _ i hi => ?_⟩
    · omega
    · omega
  by_cases hone : vals.length ≤ 1
  · simp only [hone, true_or, or_true, iff_true]
    have hnil : entries s'.gicr = [] := by
      have hdrop : vals.drop (loadCount s.ctxt.nrLr vals.length) = [] := by
        rw [List.drop_eq_nil_iff]
        unfold loadCount
        omega
      have hrest := h.rest
      rw [hdrop] at hrest
      exact hrest.eq_nil
    refine ⟨fun e he => ?_, fun hne => absurd hnil hne⟩
    rw [hnil] at he
    cases he
  simp only [hzero, hone, false_or]
  by_cases hfull : 2 * s.ctxt.nrLr ≤ vals.length + 1
  · have hcount : loadCount s.ctxt.nrLr vals.length = s.ctxt.nrLr := by
      unfold loadCount
      omega
    have hwait : entries s'.gicr ≠ [] := by
      intro hnil
      have hlen := h.rest.length_eq
      rw [hnil, hcount, List.length_drop, List.length_nil] at hlen
      omega
    have hrest := h.rest
    have htake := fun i hi hlive => h.mem_take (i := i) hi hlive
    have hreg := fun x hx => h.exists_reg (x := x) hx
    rw [hcount] at hrest htake hreg
    simp only [hfull, true_and]
    constructor
    · intro hurgent
      constructor
      · intro e he hpe x hx hpx
        obtain ⟨i, hi, rfl⟩ := hreg x hx
        exact hurgent.order e (hrest.mem_iff.mpr he) hpe i (by omega) hpx
      · intro x hx
        obtain ⟨i, hi, rfl⟩ := hreg x hx
        exact hurgent.busy hwait i (by omega)
    · intro hfront
      constructor
      · intro e he hpe i hi hpi
        have hlive : lrIdle (s'.ich.lrAt i) = false := by
          by_contra hidle
          exact not_pending_of_idle (by simpa using hidle) hpi
        exact hfront.order e (hrest.mem_iff.mp he) hpe _ (htake i (by omega) hlive) hpi
      · intro _ i hi
        have hloaded := h.loaded i (by rw [hcount]; omega)
        have hlen : i < vals.length := by omega
        apply hfront.busy
        rw [hloaded, List.mem_take_iff_getElem]
        exact ⟨i, by omega, by simp [hlen]⟩
  · simp only [hfull, false_and, iff_false]
    intro hurgent
    have hcount : loadCount s.ctxt.nrLr vals.length = (vals.length + 1) / 2 := by
      unfold loadCount
      omega
    have hwait : entries s'.gicr ≠ [] := by
      intro hnil
      have hlen := h.rest.length_eq
      rw [hnil, hcount, List.length_drop, List.length_nil] at hlen
      omega
    have hlive := hurgent.busy hwait ((vals.length + 1) / 2) (by omega)
    rw [h.idle _ (by omega) (by omega)] at hlive
    cases hlive

/-! ## From the order back to the candidates -/

/-- A call that is not cut short is judged by the order. -/
theorem loadsUrgent_iff_front [Bitmap] {virq : Virq} (h : ListInv s)
    (hq : ¬Queued s.gicr (vgicGetLrFromVirq virq).1) :
    LoadsUrgent s virq ↔ s.ctxt.nrLr = 0 ∨ admitted s (vgicGetLrFromVirq virq).1 ≤ 1 ∨
      2 * s.ctxt.nrLr ≤ admitted s (vgicGetLrFromVirq virq).1 + 1 ∧
        FrontUrgent s.ctxt.nrLr (heapOrder (gathered s (vgicGetLrFromVirq virq).1)) := by
  obtain ⟨s', hrun, hreloaded⟩ := vgicInject_order h hq
  have hiff := hreloaded.urgent_iff
  rw [(heapOrder_perm (length_gathered_le h.rep _)).length_eq, length_gathered h.rep] at hiff
  rw [← hiff, LoadsUrgent, hrun]
  constructor
  · rintro ⟨s'', virq', reached, heq, hurgent⟩
    cases heq
    exact hurgent
  · intro hurgent
    exact ⟨s', _, _, rfl, hurgent⟩

private theorem loadsUrgent_queued [Bitmap] {virq : Virq} (h : ListInv s)
    (hq : Queued s.gicr (vgicGetLrFromVirq virq).1) : LoadsUrgent s virq ↔ MostUrgentLoaded s := by
  rw [LoadsUrgent, vgicInject_queued h.rep.bounds hq]
  constructor
  · rintro ⟨s', virq', reached, heq, hurgent⟩
    cases heq
    exact hurgent
  · intro hurgent
    exact ⟨s, _, _, rfl, hurgent⟩

theorem FrontUrgent.of_level {n : Nat} (h : Level vals) : FrontUrgent n vals where
  order e he hpe x hx hpx := by
    rw [h.equal e (List.mem_of_mem_drop he) hpe x (List.mem_of_mem_take hx) hpx]
    exact BitVec.le_refl _
  busy x hx := h.live x (List.mem_of_mem_take hx)

theorem Level.subset {l : List Lr} (h : Level vals) (hsub : ∀ e ∈ l, e ∈ vals) : Level l where
  live e he := h.live e (hsub e he)
  equal e he hpe x hx hpx := h.equal e (hsub e he) hpe x (hsub x hx) hpx

/-- Either way the front of the order is as it should be. -/
theorem frontUrgent_heapOrder (h : RepInv s.gicr)
    (hcond : Level (candidates s lr) ∨ Headed s.ctxt.nrLr (candidates s lr)) :
    FrontUrgent s.ctxt.nrLr (heapOrder (gathered s lr)) := by
  rcases hcond with hlevel | hheaded
  · apply FrontUrgent.of_level
    apply hlevel.subset
    intro e he
    exact mem_candidates ((heapOrder_perm (length_gathered_le h lr)).mem_iff.mp he)
  · rw [gathered_of_fits hheaded.fits, heapOrder_stays hheaded.fits.1 hheaded.head]
    exact hheaded.front

/-- Where everything is pending, the front is a matter of priorities. -/
theorem frontUrgent_iff {n : Nat} (h : ∀ e ∈ vals, Pending e) :
    FrontUrgent n vals ↔ FrontLe n (prioOf vals) vals.length := by
  have hlive : ∀ e ∈ vals, lrIdle e = false := fun e he =>
    Bool.eq_false_iff.mpr fun hidle => not_pending_of_idle hidle (h e he)
  constructor
  · intro hfront i j hi hj hjn
    have hin : i < vals.length := by omega
    have hx : vals[i] ∈ vals.take n := List.mem_take_iff_getElem.mpr ⟨i, by omega, rfl⟩
    have he : vals[j] ∈ vals.drop n :=
      List.mem_drop_iff_getElem.mpr ⟨j - n, by omega, by simp [Nat.add_sub_cancel' hj]⟩
    rw [prioOf_eq hin, prioOf_eq hjn]
    exact hfront.order _ he (h _ (List.getElem_mem hjn)) _ hx (h _ (List.getElem_mem hin))
  · intro hle
    refine ⟨fun e he _ x hx _ => ?_, fun x hx => hlive x (List.mem_of_mem_take hx)⟩
    obtain ⟨j, hj, rfl⟩ := List.mem_drop_iff_getElem.mp he
    obtain ⟨i, hi, rfl⟩ := List.mem_take_iff_getElem.mp hx
    have hprio := hle i (n + j) (by omega) (by omega) (by omega)
    rw [prioOf_eq (by omega), prioOf_eq (by omega)] at hprio
    exact hprio

/-- What the front of the order says of the candidates. -/
theorem inFront_of_heapOrder {n : Nat} (hpos : 0 < n) (hone : 1 < vals.length)
    (hlen : vals.length ≤ gicLrListNum) (hpending : ∀ e ∈ vals, Pending e)
    (h : FrontUrgent n (heapOrder vals)) : InFront n vals := by
  have hperm := heapOrder_perm hlen
  have hpending' : ∀ e ∈ heapOrder vals, Pending e :=
    fun e he => hpending e (hperm.mem_iff.mp he)
  have hle := (frontUrgent_iff hpending').mp h
  rw [hperm.length_eq] at hle
  exact ⟨(frontUrgent_iff hpending).mpr (heapOrder_front hlen hle),
    fun hlt => heapOrder_inside hlen hone hpos hlt hle⟩

/-- With four registers the first one has a place in front only where it is. -/
theorem InFront.headed (h : InFront 4 vals) (hfits : Fits vals) (hmany : 7 ≤ vals.length)
    (hlt : FrontLt 4 (prioOf vals) vals.length) : Headed 4 vals := by
  obtain ⟨i, hway, hi, hsons⟩ := h.rests hlt
  have hroot : i = 0 := by
    by_contra hne
    have hfour : i = 3 := by
      by_contra hthree
      -- the right son of the second and of the third is not in front
      have hson := (hsons (2 * i + 2) (Or.inr rfl) (by omega)).1
      omega
    -- the way does not lead to the fourth, whose sibling has the larger priority number
    subst hfour
    cases hway with
    | @down _ s _ hs hj =>
        have hson := hs.isSon
        cases hj with
        | here =>
            unfold IsSon at hson
            omega
        | @down _ t _ ht hj =>
            have hson' := ht.isSon
            have hle := hj.le
            unfold IsSon at hson hson'
            obtain ⟨rfl, rfl⟩ : s = 1 ∧ t = 3 := ⟨by omega, by omega⟩
            have hgt := hlt 3 4 (by decide) (by decide) (by omega)
            exact not_lt.mpr (ht.le (Or.inr rfl) (by omega)) hgt
  subst hroot
  exact ⟨hfits, h.front, fun c hc hcn => (hsons c hc hcn).2⟩

/-- **The most urgent interrupts**, for every list, every content of the list registers and every
interrupt injected: what is enough for them to be loaded, and what is needed. -/
theorem most_urgent_loaded [Bitmap] (h : ListInv s) (virq : Virq) :
    (UrgentCond s (vgicGetLrFromVirq virq).1 → LoadsUrgent s virq) ∧
      (LoadsUrgent s virq → UrgentNeed s (vgicGetLrFromVirq virq).1) := by
  by_cases hq : Queued s.gicr (vgicGetLrFromVirq virq).1
  · rw [UrgentCond, UrgentNeed, if_pos hq, if_pos hq, loadsUrgent_queued h hq]
    exact ⟨id, id⟩
  · rw [UrgentCond, UrgentNeed, if_neg hq, if_neg hq, loadsUrgent_iff_front h hq]
    constructor
    · rintro (hzero | hone | ⟨hmany, hcond⟩)
      · exact Or.inl hzero
      · exact Or.inr (Or.inl hone)
      · exact Or.inr (Or.inr ⟨hmany, frontUrgent_heapOrder h.rep hcond⟩)
    · rintro (hzero | hone | ⟨hmany, hfront⟩)
      · exact Or.inl hzero
      · exact Or.inr (Or.inl hone)
      · by_cases hzero : s.ctxt.nrLr = 0
        · exact Or.inl hzero
        by_cases hone : admitted s (vgicGetLrFromVirq virq).1 ≤ 1
        · exact Or.inr (Or.inl hone)
        refine Or.inr (Or.inr ⟨hmany, fun hfits hpending => ?_⟩)
        have hlen := length_gathered h.rep (vgicGetLrFromVirq virq).1
        rw [gathered_of_fits hfits] at hfront hlen
        exact inFront_of_heapOrder (by omega) (by omega) hfits.1 hpending hfront

/-- With four registers, and nothing behind that is as urgent as what is in front, the condition is
exact. -/
theorem loadsUrgent_four_iff [Bitmap] {virq : Virq} (h : ListInv s) (hfour : s.ctxt.nrLr = 4)
    (hq : ¬Queued s.gicr (vgicGetLrFromVirq virq).1)
    (hfits : Fits (candidates s (vgicGetLrFromVirq virq).1))
    (hpending : ∀ e ∈ candidates s (vgicGetLrFromVirq virq).1, Pending e)
    (hlt : FrontLt 4 (prioOf (candidates s (vgicGetLrFromVirq virq).1))
      (candidates s (vgicGetLrFromVirq virq).1).length) :
    LoadsUrgent s virq ↔ UrgentCond s (vgicGetLrFromVirq virq).1 := by
  have hlen := length_gathered h.rep (vgicGetLrFromVirq virq).1
  rw [gathered_of_fits hfits] at hlen
  rw [UrgentCond, if_neg hq, loadsUrgent_iff_front h hq]
  refine or_congr Iff.rfl (or_congr Iff.rfl (and_congr_right fun hmany => ?_))
  refine ⟨fun hfront => Or.inr ?_, frontUrgent_heapOrder h.rep⟩
  rw [gathered_of_fits hfits, hfour] at hfront
  rw [hfour] at hmany ⊢
  exact (inFront_of_heapOrder (by decide) (by omega) hfits.1 hpending hfront).headed hfits
    (by omega) hlt

end Urgent

/-! ## Some interrupts -/

/-- Interrupt 40 is in list register 0. -/
def oneLoaded [Bitmap] (nrLr : Nat) : VgicSlice :=
  { idleSlice nrLr with ich := (idleSlice nrLr).ich.setLr 0 (vgicGetLrFromVirq (spi 40)).1 }

private theorem listInv_oneLoaded [Bitmap] {nrLr : Nat} (h : nrLr ≤ maxLrRegs) :
    ListInv (oneLoaded nrLr) :=
  ⟨repInv_vgicrInit_iff.mpr rfl, h⟩

/-- The value of the interrupt `n` with the priority `prio`. -/
def spiLr [Bitmap] (n : BitVec 16) (prio : BitVec 8) : Lr :=
  (vgicGetLrFromVirq { spi n with prio := prio }).1

/-- Of three registers two hold the interrupts 40 and 41 of the priorities 0xC0 and 0xA0, and the
list the interrupts 42 and 43 of the priorities 0x80 and 0x60. -/
def twoAndTwo : VgicSlice :=
  { idleSlice 3 with
    ich := ((idleSlice 3).ich.setLr 0 (spiLr 40 0xC0)).setLr 2 (spiLr 41 0xA0)
    gicr := { zeroGicr with
      lrList := (zeroGicr.lrList.set 0 (spiLr 42 0x80 ||| lrTag)).set 1 (spiLr 43 0x60 ||| lrTag)
      tail := 2 } }

/-- The interrupt 44 of the priority 0x40. -/
def urgent44 : Virq := { spi 44 with prio := 0x40 }

private theorem entries_twoAndTwo :
    entries twoAndTwo.gicr = [spiLr 42 0x80 ||| lrTag, spiLr 43 0x60 ||| lrTag] := by
  decide

private theorem listInv_twoAndTwo : ListInv twoAndTwo := by
  have hblank : ∀ i : Fin gicLrListNum, 2 ≤ i.val → twoAndTwo.gicr.lrList[i] = 0 := by
    decide
  refine ⟨⟨⟨by decide, fun i hi hle => hblank ⟨i, hi⟩ hle⟩, ?_, ?_⟩, by decide⟩
  · rw [entries_twoAndTwo]
    intro e he
    rcases List.mem_pair.mp he with rfl | rfl
    · exact getLrRes0_tag_ne_zero _
    · exact getLrRes0_tag_ne_zero _
  · rw [entries_twoAndTwo]
    decide

/-- The three most urgent of five interrupts are loaded: the new one and the two that were
waiting, in the place of the two that were in registers. -/
theorem most_urgent_loaded_three :
    LoadsUrgent twoAndTwo urgent44 ∧ UrgentNeed twoAndTwo (vgicGetLrFromVirq urgent44).1 := by
  have hvals : candidates twoAndTwo (vgicGetLrFromVirq urgent44).1 =
      [spiLr 42 0x80 ||| lrTag, spiLr 43 0x60 ||| lrTag, spiLr 44 0x40 ||| lrTag,
        spiLr 40 0xC0 ||| lrTag, spiLr 41 0xA0 ||| lrTag] := by
    decide
  have hq : ¬Queued twoAndTwo.gicr (vgicGetLrFromVirq urgent44).1 := by decide
  have hheaded : Headed 3 (candidates twoAndTwo (vgicGetLrFromVirq urgent44).1) := by
    rw [hvals]
    refine ⟨by decide, ⟨?_, ?_⟩, ?_⟩
    · intro e he _ x hx _
      simp only [List.take, List.drop, List.mem_cons, List.not_mem_nil, or_false] at he hx
      rcases he with rfl | rfl <;> rcases hx with rfl | rfl | rfl <;> decide
    · intro x hx
      simp only [List.take, List.mem_cons, List.not_mem_nil, or_false] at hx
      rcases hx with rfl | rfl | rfl <;> decide
    · intro c hc _
      rcases hc with rfl | rfl <;> decide
  have hcond : UrgentCond twoAndTwo (vgicGetLrFromVirq urgent44).1 := by
    have hnr : twoAndTwo.ctxt.nrLr = 3 := rfl
    rw [UrgentCond, if_neg hq, hnr]
    exact Or.inr (Or.inr ⟨by decide, Or.inr hheaded⟩)
  have hloads := (most_urgent_loaded listInv_twoAndTwo urgent44).1 hcond
  exact ⟨hloads, (most_urgent_loaded listInv_twoAndTwo urgent44).2 hloads⟩

/-- With four list registers a more urgent interrupt waits while three of them are idle. -/
theorem more_urgent_waits :
    ¬ ∀ (s : VgicSlice) (virq : Virq), ListInv s → 0 < s.ctxt.nrLr → virq.enable = true →
      virq.inLr = false → LoadsUrgent s virq := by
  intro hall
  have hends : (vgicInject (oneLoaded 4) { spi 41 with prio := 0x80 }).map
      (fun r => ((entries r.1.gicr).map getLrVint, r.1.ctxt.nrLr, lrIdle (r.1.ich.lrAt 1))) =
      .ok ([41], 4, true) := by
    decide
  obtain ⟨⟨s, virq, reached⟩, hrun, hval⟩ := exists_of_map_eq_ok hends
  simp only [Prod.mk.injEq] at hval
  obtain ⟨hwait, hnr, hidle⟩ := hval
  obtain ⟨s', virq', reached', hrun', hurgent⟩ :=
    hall (oneLoaded 4) { spi 41 with prio := 0x80 } (listInv_oneLoaded (by decide)) (by decide)
      rfl rfl
  rw [hrun] at hrun'
  cases hrun'
  have hne : entries s.gicr ≠ [] := by
    intro hnil
    rw [hnil] at hwait
    cases hwait
  have hlive := hurgent.busy hne 1 (by omega)
  rw [hidle] at hlive
  cases hlive

end RtHypervisor.Ports.LrList
