import RtHypervisor.Ports.LrPriority

/-!
# Injecting a disabled interrupt

`vgic_get_lr_from_virq` returns zero for an interrupt that is not enabled, and `vgic_inject` goes on
with that value: it is an entry for interrupt 0, and the injection leaves no trace only if it is
not accepted or is loaded into a list register, where its state is invalid.

`ZeroLoaded` says of the state before the call when it is loaded.  Its priority is 0, so that no
sift moves it as long as the first entry of the list has another one; in an empty list it comes
first itself, and sinks below the values of the registers in use.
-/

namespace RtHypervisor.Ports.LrList

open RtHypervisor.Verified.Run
open RtHypervisor.Verified.PrefixArray
open RtHypervisor.Verified.HeapOrder
open RtHypervisor.Ports.ListRegister

/-- A value without the tag of the list. -/
def strip (lr : Lr) : Lr := lr &&& ~~~lrTag

/-- What the vCPU holds, in any order. -/
def heldValues (s : VgicSlice) : List Lr := (places s).map strip

/-- The interrupt is disabled, or marked as loaded: there is nothing to deliver. -/
def Masked (virq : Virq) : Prop := virq.inLr = true ∨ virq.enable = false

instance (virq : Virq) : Decidable (Masked virq) :=
  inferInstanceAs (Decidable (virq.inLr = true ∨ virq.enable = false))

/-- A masked interrupt changes nothing, another one adds nothing but itself. -/
structure InjectsOwn (s : VgicSlice) (virq : Virq) (s' : VgicSlice) : Prop where
  masked : Masked virq → (heldValues s').Perm (heldValues s)
  own : ∀ e ∈ places s', strip e ∈ heldValues s ∨ getLrVint e = vintOf virq ∧ ¬ Masked virq

/-- `vgic_inject` returns and does so. -/
def Keeps [Bitmap] (s : VgicSlice) (virq : Virq) : Prop :=
  ∃ s' virq' reached, vgicInject s virq = .ok (s', virq', reached) ∧ InjectsOwn s virq s'

/-- The list registers in use. -/
def inUse (s : VgicSlice) : Nat := (lrs s.ich (List.range s.ctxt.nrLr)).length

/-- The first of the candidates has a priority other than 0; or the zero value comes first, and is
alone or one of the next two has a priority other than 0. -/
def Untied (s : VgicSlice) : Prop :=
  0 < prioOf (candidates s 0) 0 ∨
    s.gicr.tail = 0 ∧
      (inUse s = 0 ∨ 0 < prioOf (candidates s 0) 1 ∨ 0 < prioOf (candidates s 0) 2)

/-- The zero value is loaded.  Behind other entries it keeps its cell, which half of the registers
in use must lie behind; in an empty list the larger priorities of the registers in use must lead
down to the middle of them. -/
def ZeroLoaded (s : VgicSlice) : Prop :=
  (0 < prioOf (candidates s 0) 0 → s.gicr.tail ≤ inUse s ∧ s.gicr.tail < s.ctxt.nrLr) ∧
    (s.gicr.tail = 0 → Even (inUse s) ∧ inUse s / 2 < s.ctxt.nrLr ∧
      Way (prioOf (candidates s 0)) (inUse s + 1) 0 (inUse s / 2))

/-- The entry for interrupt 0 is there already; or the list is full and no register is in use; or
the list takes everything and the zero value is loaded. -/
def MaskedCond (s : VgicSlice) : Prop :=
  Queued s.gicr 0 ∨ s.gicr.tail = gicLrListNum ∧ inUse s = 0 ∨
    Fits (candidates s 0) ∧ Untied s ∧ ZeroLoaded s

section Strip

variable {lr : Lr}

private theorem getLsbD_strip (lr : Lr) (i : Nat) :
    (strip lr).getLsbD i = (lr.getLsbD i && !decide (i = 56)) := by
  have htag : lrTag = BitVec.twoPow 64 56 := by decide
  rw [strip, htag, BitVec.getLsbD_and, BitVec.getLsbD_not, BitVec.getLsbD_twoPow]
  by_cases h : i = 56
  · subst h
    simp
  · by_cases hlt : i < 64
    · simp [h, hlt, Ne.symm h]
    · rw [BitVec.getLsbD_of_ge lr i (by omega)]
      simp

@[simp] theorem strip_tag (lr : Lr) : strip (lr ||| lrTag) = strip lr := by
  apply BitVec.eq_of_getLsbD_eq
  intro i _
  rw [getLsbD_strip, getLsbD_strip]
  by_cases h : i = 56
  · simp [h]
  · rw [getLsbD_tag lr h]

private theorem lrIdle_strip (lr : Lr) : lrIdle (strip lr) = lrIdle lr := by
  have hbit : ∀ i, i ≠ 56 → (strip lr).getLsbD i = lr.getLsbD i := by
    intro i hi
    rw [getLsbD_strip]
    simp [hi]
  have hstate : lrState (strip lr) = lrState lr :=
    lrState_congr (hbit 62 (by decide)) (hbit 63 (by decide))
  have h61 : (strip lr).getLsbD 61 = lr.getLsbD 61 := hbit 61 (by decide)
  have h41 : (strip lr).getLsbD 41 = lr.getLsbD 41 := hbit 41 (by decide)
  simp only [lrIdle, hstate, ichLrHwOff, h61, h41]

private theorem strip_ne_zero (h : lrIdle lr = false) : strip lr ≠ 0 := by
  intro hzero
  have hidle : lrIdle (strip lr) = true := by rw [hzero]; exact lrIdle_zero
  rw [lrIdle_strip, h] at hidle
  cases hidle

private theorem vgicGetLrFromVirq_masked [Bitmap] {virq : Virq} (h : Masked virq) :
    (vgicGetLrFromVirq virq).1 = 0 := by
  have hcond : (virq.inLr || !virq.enable) = true := by
    rcases h with h | h
    · rw [h, Bool.true_or]
    · rw [h, Bool.not_false, Bool.or_true]
  rw [vgicGetLrFromVirq, if_pos hcond]

end Strip

private theorem map_strip_tag (l : List Lr) : (l.map (· ||| lrTag)).map strip = l.map strip := by
  rw [List.map_map]
  apply List.map_congr_left
  intro lr _
  exact strip_tag lr

/-! ## Where the zero value comes to stand -/

section Zero

variable {s : VgicSlice}

private theorem length_candidates (h : InBounds s.gicr) :
    (candidates s 0).length = s.gicr.tail + 1 + inUse s := by
  rw [candidates, List.length_append, List.length_map, List.length_cons, h.length_entries, inUse]
  omega

private theorem getElem_candidates (h : InBounds s.gicr)
    (ht : s.gicr.tail < (candidates s 0).length) :
    (candidates s 0)[s.gicr.tail] = 0 ||| lrTag := by
  have hlen : (entries s.gicr).length = s.gicr.tail := h.length_entries
  have hget : (candidates s 0)[s.gicr.tail]? = some (0 ||| lrTag) := by
    rw [candidates, List.getElem?_append_right (by omega), hlen, Nat.sub_self]
    rfl
  exact (List.getElem?_eq_some_iff.mp hget).choose_spec

private theorem prioOf_candidates_tail (h : InBounds s.gicr) :
    prioOf (candidates s 0) s.gicr.tail = 0 := by
  have ht : s.gicr.tail < (candidates s 0).length := by
    rw [length_candidates h]
    omega
  rw [prioOf_eq ht, getElem_candidates h ht]
  decide

/-- The place of a value in a list without duplicates. -/
theorem mem_take_iff_lt {l : List Lr} {a : Lr} {m p : Nat} (hnd : l.Nodup) (hp : l[p]? = some a) :
    a ∈ l.take m ↔ p < m := by
  obtain ⟨hpl, hget⟩ := List.getElem?_eq_some_iff.mp hp
  rw [List.mem_take_iff_getElem]
  constructor
  · rintro ⟨i, hi, hai⟩
    have hsame : i = p := hnd.getElem_inj_iff.mp (hai.trans hget.symm)
    omega
  · intro hlt
    exact ⟨p, by omega, hget⟩

/-- The cell of the zero value in the order. -/
theorem zero_cell (h : InBounds s.gicr) (hfits : Fits (candidates s 0)) (hu : Untied s) :
    ∃ p, (heapOrder (candidates s 0))[p]? = some (0 ||| lrTag) ∧
      (p < loadCount s.ctxt.nrLr (candidates s 0).length ↔ ZeroLoaded s) := by
  have hlen := length_candidates h
  have ht : s.gicr.tail < (candidates s 0).length := by omega
  have hcell := getElem_candidates h ht
  have htail := prioOf_candidates_tail h
  unfold ZeroLoaded loadCount
  rw [hlen]
  by_cases hhead : 0 < prioOf (candidates s 0) 0
  · -- nothing moves it
    have hpos : s.gicr.tail ≠ 0 := by
      intro hzero
      rw [hzero] at htail
      omega
    refine ⟨s.gicr.tail, ?_, ?_⟩
    · rw [heapOrder_smaller hfits.1 ht (by rw [htail]; exact hhead), hcell]
    · simp only [hhead, hpos, true_imp_iff, false_imp_iff, and_true]
      omega
  · obtain ⟨hzero, hnext⟩ := hu.resolve_left hhead
    have hfirst : (candidates s 0).getD 0 0 = 0 ||| lrTag := by
      rw [List.getD_eq_getElem _ _ (by omega), ← hcell]
      congr 1
      exact hzero.symm
    simp only [hhead, hzero, true_imp_iff, false_imp_iff, true_and, zero_add]
    by_cases halone : inUse s = 0
    · refine ⟨0, ?_, ?_⟩
      · rw [heapOrder_of_le_one (by omega), List.getElem?_eq_getElem (by omega), ← hfirst,
          List.getD_eq_getElem _ _ (by omega)]
      · rw [halone]
        refine ⟨fun hlt => ⟨Even.zero, by omega, Way.here 0⟩, fun hloaded => ?_⟩
        have hlt := hloaded.2.1
        omega
    · obtain ⟨c, hc, hprio⟩ : ∃ c, IsSon c 0 ∧ 0 < prioOf (candidates s 0) c := by
        rcases hnext.resolve_left halone with hone | htwo
        · exact ⟨1, Or.inl rfl, hone⟩
        · exact ⟨2, Or.inr rfl, htwo⟩
      have hcn : c < (candidates s 0).length := by
        by_contra hout
        rw [prioOf, List.getD_eq_default _ _ (by omega)] at hprio
        revert hprio
        decide
      obtain ⟨j, hway, hjn, hend, hj⟩ :=
        heapOrder_sinks hfits.1 (Nat.eq_zero_of_not_pos hhead) hc hcn hprio
      have hn : (candidates s 0).length = inUse s + 1 := by omega
      rw [hfirst] at hj
      rw [hn] at hway hend
      refine ⟨j, hj, ?_⟩
      constructor
      · intro hlt
        have hmiddle : inUse s = 2 * j := by omega
        have hhalf : inUse s / 2 = j := by omega
        rw [hhalf]
        exact ⟨⟨j, by omega⟩, by omega, hway⟩
      · rintro ⟨heven, hlt, hmid⟩
        obtain ⟨q, hq⟩ := heven
        have hhalf : inUse s / 2 = q := by omega
        rw [hhalf] at hmid hlt
        have hsame : j = q := hway.unique hmid hend (by omega)
        omega

/-- In time for a register, or not. -/
theorem zero_loaded_iff (h : InBounds s.gicr) (hfits : Fits (candidates s 0)) (hu : Untied s) :
    (0 ||| lrTag) ∈ (heapOrder (candidates s 0)).take
        (loadCount s.ctxt.nrLr (candidates s 0).length) ↔ ZeroLoaded s := by
  have hnd : (heapOrder (candidates s 0)).Nodup :=
    (heapOrder_perm hfits.1).nodup_iff.mpr (List.Nodup.of_map _ hfits.2)
  obtain ⟨p, hp, hiff⟩ := zero_cell h hfits hu
  rw [mem_take_iff_lt hnd hp, hiff]

end Zero

/-! ## One injection -/

/-- A well-formed list in which only entries for interrupt 0 are idle. -/
structure LiveInv (s : VgicSlice) : Prop extends ListInv s where
  idle : ∀ e ∈ entries s.gicr, lrIdle e = true → getLrVint e = 0

section Inject

variable {s s' : VgicSlice} {virq : Virq}

private theorem live_of_not_queued (h : LiveInv s) (hnew : ¬Queued s.gicr 0) :
    ∀ e ∈ entries s.gicr, lrIdle e = false := by
  intro e he
  by_contra hidle
  apply hnew
  refine ⟨e, he, ?_⟩
  rw [h.idle e he (by simpa using hidle)]
  decide

private theorem lrs_live {e : Lr} (he : e ∈ lrs s.ich (List.range s.ctxt.nrLr)) :
    lrIdle e = false :=
  (mem_lrs.mp he).choose_spec.2.2

private theorem length_heldValues (s : VgicSlice) : (heldValues s).length =
    (lrs s.ich (List.range s.ctxt.nrLr)).length + (entries s.gicr).length := by
  rw [heldValues, places, List.length_map, List.length_append]

/-- Everything held is live, so none of it is zero. -/
theorem zero_not_held (hlive : ∀ e ∈ entries s.gicr, lrIdle e = false) : 0 ∉ heldValues s := by
  intro hmem
  obtain ⟨e, he, hzero⟩ := List.mem_map.mp hmem
  rcases List.mem_append.mp he with hreg | hent
  · exact strip_ne_zero (lrs_live hreg) hzero
  · exact strip_ne_zero (hlive e hent) hzero

private theorem filter_live {l : List Lr} (h : ∀ e ∈ l, lrIdle e = false) :
    l.filter (fun lr => !lrIdle lr) = l := by
  apply List.filter_eq_self.mpr
  intro e he
  rw [h e he]
  rfl

/-- A full list refuses everything, and what the registers held is gone. -/
theorem full_keeps_iff (h : LiveInv s) (hnew : ¬Queued s.gicr 0)
    (hfull : s.gicr.tail = gicLrListNum)
    (hrel : Reloaded (heapOrder (gathered s 0)) s s') :
    (heldValues s').Perm (heldValues s) ↔ lrs s.ich (List.range s.ctxt.nrLr) = [] := by
  have hlive := live_of_not_queued h hnew
  have hlen : (entries s.gicr).length = gicLrListNum := by rw [h.rep.bounds.length_entries, hfull]
  have hgathered : gathered s 0 = entries s.gicr := by
    have hoffer : offer (entries s.gicr) 0 = entries s.gicr :=
      foldl_offer_full (l := [0]) hlen
    rw [gathered, hoffer]
    exact foldl_offer_full hlen
  have hperm : (heapOrder (gathered s 0)).Perm (entries s.gicr) := by
    rw [hgathered]
    exact heapOrder_perm (by rw [hlen])
  have hall : ∀ e ∈ heapOrder (gathered s 0), lrIdle e = false :=
    fun e he => hlive e (hperm.mem_iff.mp he)
  have hplaces : (places s').Perm (entries s.gicr) := by
    have hp := hrel.places_perm
    rw [filter_live fun e he => hall e (List.mem_of_mem_take he), List.take_append_drop] at hp
    exact hp.trans hperm
  constructor
  · intro hsame
    have hcount := hsame.length_eq
    rw [length_heldValues s, heldValues, List.length_map, hplaces.length_eq] at hcount
    exact List.eq_nil_of_length_eq_zero (by omega)
  · intro hnone
    rw [heldValues, heldValues, places.eq_def s, hnone, List.nil_append]
    exact hplaces.map strip

/-- Otherwise the zero value becomes an entry, and vanishes only when it is loaded. -/
theorem room_keeps_iff (h : LiveInv s) (hnew : ¬Queued s.gicr 0)
    (hroom : s.gicr.tail < gicLrListNum)
    (hrel : Reloaded (heapOrder (gathered s 0)) s s') :
    (heldValues s').Perm (heldValues s) ↔
      (gathered s 0).length = s.gicr.tail + 1 + (lrs s.ich (List.range s.ctxt.nrLr)).length ∧
      (0 ||| lrTag) ∈ (heapOrder (gathered s 0)).take
        (loadCount s.ctxt.nrLr (gathered s 0).length) := by
  have hlive := live_of_not_queued h hnew
  have hlen : (entries s.gicr).length = s.gicr.tail := h.rep.bounds.length_entries
  have hoffer : offer (entries s.gicr) 0 = entries s.gicr ++ [0 ||| lrTag] := by
    rw [offer, if_pos ⟨by rw [hlen]; exact hroom, hnew⟩]
  obtain ⟨l', hsub, hfold⟩ := foldl_offer_eq (lrs s.ich (List.range s.ctxt.nrLr))
    (entries s.gicr ++ [0 ||| lrTag])
  have hgathered : gathered s 0 =
      entries s.gicr ++ [0 ||| lrTag] ++ l'.map (· ||| lrTag) := by
    rw [gathered, hoffer, hfold]
  have hglen : (gathered s 0).length = s.gicr.tail + 1 + l'.length := by
    rw [hgathered, List.length_append, List.length_append, List.length_map, hlen,
      List.length_singleton]
  obtain ⟨vals, hvals⟩ : ∃ vals, vals = heapOrder (gathered s 0) := ⟨_, rfl⟩
  have hperm : vals.Perm (gathered s 0) := by
    rw [hvals]
    exact heapOrder_perm (length_gathered_le h.rep 0)
  have hzero : lrIdle (0 ||| lrTag) = true := by rw [lrIdle_tag, lrIdle_zero]
  have hl' : ∀ e ∈ l'.map (· ||| lrTag), lrIdle e = false := by
    intro e he
    obtain ⟨x, hx, rfl⟩ := List.mem_map.mp he
    rw [lrIdle_tag]
    exact lrs_live (hsub.subset hx)
  -- the zero entry is the only idle one
  have hnone : ∀ l : List Lr, (∀ e ∈ l, lrIdle e = false) → l.countP lrIdle = 0 := by
    intro l hl
    apply List.countP_eq_zero.mpr
    intro e he
    rw [hl e he]
    decide
  have hcount : vals.countP lrIdle = 1 := by
    have hone : [0 ||| lrTag].countP lrIdle = 1 := by decide
    rw [hperm.countP_eq, hgathered, List.countP_append, List.countP_append, hnone _ hlive,
      hnone _ hl', hone]
  have hothers : (vals.filter fun lr => !lrIdle lr).Perm
      (entries s.gicr ++ l'.map (· ||| lrTag)) := by
    refine (hperm.filter _).trans ?_
    rw [hgathered, List.filter_append, List.filter_append, filter_live hlive, filter_live hl',
      List.filter_singleton, hzero]
    simp
  have hplen : (heapOrder (gathered s 0)).length = (gathered s 0).length := by
    rw [← hvals]
    exact hperm.length_eq
  have hplaces := hrel.places_perm
  rw [hplen] at hplaces
  rw [← hvals] at hplaces ⊢
  obtain ⟨m, hm⟩ : ∃ m, m = loadCount s.ctxt.nrLr (gathered s 0).length := ⟨_, rfl⟩
  rw [← hm] at hplaces ⊢
  have hsplit : vals.take m ++ vals.drop m = vals := List.take_append_drop m vals
  have hmem : (0 ||| lrTag) ∈ vals := by
    rw [hperm.mem_iff, hgathered]
    simp
  by_cases hload : (0 ||| lrTag) ∈ vals.take m
  · have hdrop : ∀ e ∈ vals.drop m, lrIdle e = false := by
      have htake : 0 < (vals.take m).countP lrIdle := List.countP_pos_iff.mpr ⟨_, hload, hzero⟩
      have hsum : (vals.take m).countP lrIdle + (vals.drop m).countP lrIdle = 1 := by
        rw [← List.countP_append, hsplit, hcount]
      have hrest : (vals.drop m).countP lrIdle = 0 := by omega
      intro e he
      simpa using List.countP_eq_zero.mp hrest e he
    have hall : (places s').Perm (entries s.gicr ++ l'.map (· ||| lrTag)) := by
      refine hplaces.trans ?_
      rw [← filter_live hdrop, ← List.filter_append, hsplit]
      exact hothers
    have hheld : (heldValues s').Perm (l'.map strip ++ (entries s.gicr).map strip) := by
      have hmap := hall.map strip
      rw [List.map_append, map_strip_tag] at hmap
      exact hmap.trans List.perm_append_comm
    simp only [hload, and_true]
    constructor
    · intro hsame
      have hsizes := hsame.length_eq.symm.trans hheld.length_eq
      rw [length_heldValues, List.length_append, List.length_map, List.length_map] at hsizes
      omega
    · intro hsize
      have hl : l' = lrs s.ich (List.range s.ctxt.nrLr) := hsub.eq_of_length (by omega)
      rw [hl] at hheld
      rw [heldValues.eq_def s, places, List.map_append]
      exact hheld
  · simp only [hload, and_false, iff_false]
    intro hsame
    have hwaits : (0 ||| lrTag) ∈ vals.drop m := by
      rw [← hsplit] at hmem
      exact (List.mem_append.mp hmem).resolve_left hload
    have hheld : strip (0 ||| lrTag) ∈ heldValues s' :=
      List.mem_map_of_mem (hplaces.mem_iff.mpr (List.mem_append_right _ hwaits))
    have hstrip : strip (0 ||| lrTag) = 0 := by decide
    rw [hstrip] at hheld
    exact zero_not_held hlive (hsame.mem_iff.mp hheld)

/-- A masked interrupt is judged by the order. -/
theorem masked_keeps_iff [Bitmap] (h : LiveInv s) (hm : Masked virq) :
    Keeps s virq ↔ Queued s.gicr 0 ∨ s.gicr.tail = gicLrListNum ∧ inUse s = 0 ∨
      Fits (candidates s 0) ∧ (0 ||| lrTag) ∈ (heapOrder (candidates s 0)).take
        (loadCount s.ctxt.nrLr (candidates s 0).length) := by
  have hlr := vgicGetLrFromVirq_masked hm
  have hlen := length_candidates h.rep.bounds
  have hown : ∀ s', InjectsOwn s virq s' ↔ (heldValues s').Perm (heldValues s) := by
    intro s'
    refine ⟨fun hi => hi.masked hm, fun hp => ⟨fun _ => hp, fun e he => Or.inl ?_⟩⟩
    exact hp.mem_iff.mp (List.mem_map_of_mem he)
  by_cases hq : Queued s.gicr 0
  · have hrun : vgicInject s virq = .ok (s, (vgicGetLrFromVirq virq).2, false) :=
      vgicInject_queued h.rep.bounds (by rw [hlr]; exact hq)
    exact ⟨fun _ => Or.inl hq, fun _ => ⟨s, _, _, hrun, (hown s).mpr (.refl _)⟩⟩
  · obtain ⟨s', hrun, hrel⟩ := @vgicInject_order _ virq _ h.toListInv (by rw [hlr]; exact hq)
    rw [hlr] at hrel
    have hkeeps : Keeps s virq ↔ (heldValues s').Perm (heldValues s) := by
      rw [← hown, Keeps, hrun]
      constructor
      · rintro ⟨s'', virq', reached, heq, hi⟩
        cases heq
        exact hi
      · intro hi
        exact ⟨s', _, _, rfl, hi⟩
    rw [hkeeps]
    by_cases hfull : s.gicr.tail = gicLrListNum
    · have hnofit : ¬ Fits (candidates s 0) := fun hfits => by
        have hle := hfits.1
        omega
      rw [full_keeps_iff h hq hfull hrel, ← List.length_eq_zero_iff]
      simp only [hq, hfull, hnofit, false_and, or_false, false_or, true_and, inUse]
    · have hroom : s.gicr.tail < gicLrListNum := by
        have hle := h.rep.bounds.tail_le
        omega
      rw [room_keeps_iff h hq hroom hrel]
      simp only [hq, hfull, false_and, false_or]
      constructor
      · rintro ⟨hall, hload⟩
        have hfits := fits_of_length h.rep (hall.trans hlen.symm)
        rw [gathered_of_fits hfits] at hload
        exact ⟨hfits, hload⟩
      · rintro ⟨hfits, hload⟩
        rw [gathered_of_fits hfits]
        exact ⟨hlen, hload⟩

private theorem masked_keeps [Bitmap] (h : LiveInv s) (hm : Masked virq) (hcond : MaskedCond s) :
    Keeps s virq := by
  rw [masked_keeps_iff h hm]
  rcases hcond with hq | hfull | ⟨hfits, hu, hloaded⟩
  · exact Or.inl hq
  · exact Or.inr (Or.inl hfull)
  · exact Or.inr (Or.inr ⟨hfits, (zero_loaded_iff h.rep.bounds hfits hu).mpr hloaded⟩)

private theorem maskedCond_of_keeps [Bitmap] (h : LiveInv s) (hm : Masked virq) (hu : Untied s)
    (hkeeps : Keeps s virq) : MaskedCond s := by
  rcases (masked_keeps_iff h hm).mp hkeeps with hq | hfull | ⟨hfits, hload⟩
  · exact Or.inl hq
  · exact Or.inr (Or.inl hfull)
  · exact Or.inr (Or.inr ⟨hfits, hu, (zero_loaded_iff h.rep.bounds hfits hu).mp hload⟩)

/-- An interrupt that is not masked adds nothing but itself. -/
theorem enabled_keeps [Bitmap] (h : LiveInv s) (hm : ¬ Masked virq) : Keeps s virq := by
  have hin : virq.inLr = false := by
    cases hv : virq.inLr with
    | false => rfl
    | true => exact absurd (Or.inl hv) hm
  have hen : virq.enable = true := by
    cases hv : virq.enable with
    | true => rfl
    | false => exact absurd (Or.inr hv) hm
  by_cases hq : Queued s.gicr (vgicGetLrFromVirq virq).1
  · refine ⟨s, _, _, vgicInject_queued h.rep.bounds hq, fun hmask => absurd hmask hm, ?_⟩
    intro e he
    exact Or.inl (List.mem_map_of_mem he)
  · obtain ⟨s', hrun, hs'⟩ := vgicInject_spec h.ready hq
    refine ⟨s', _, _, hrun, fun hmask => absurd hmask hm, ?_⟩
    intro e he
    obtain ⟨x, hx, hcase⟩ := hs'.origin e he
    have hstrip : strip e = strip x ∧ getLrVint e = getLrVint x := by
      rcases hcase with rfl | rfl
      · exact ⟨rfl, rfl⟩
      · exact ⟨strip_tag x, getLrVint_tag x⟩
    rcases List.mem_cons.mp hx with hnew | hold
    · right
      rw [hstrip.2, hnew]
      exact ⟨getLrVint_of_enabled hen hin, hm⟩
    · left
      rw [hstrip.1]
      exact List.mem_map_of_mem hold

end Inject

/-! ## Runs -/

/-- What the code hands to the functions of the list: the tags it has seen, and a value to insert
that is live or zero. -/
def Handed (s : VgicSlice) (op : ListOp) : Prop :=
  Called s op ∧ ∀ lr, op = .insert lr → lrIdle lr = true → getLrVint lr = 0

/-- Every injection of a run does as it should. -/
def InjectKeeps [Bitmap] (s : VgicSlice) : ListOp → Prop
  | .inject virq => Keeps s virq
  | _ => True

/-- The condition on an injection. -/
def InjectCond (s : VgicSlice) : ListOp → Prop
  | .inject virq => Masked virq → MaskedCond s
  | _ => True

/-- No priority 0 comes before the zero value, or level with it. -/
def InjectUntied (s : VgicSlice) : ListOp → Prop
  | .inject virq => Masked virq → Untied s
  | _ => True

section Runs

variable {s s' : VgicSlice}

/-- Idle entries are for interrupt 0, if the new ones are. -/
theorem LiveInv.of_entries (h : LiveInv s) (hs' : ListInv s')
    (hent : ∀ e ∈ entries s'.gicr,
      e ∈ entries s.gicr ∨ (lrIdle e = true → getLrVint e = 0)) : LiveInv s' where
  toListInv := hs'
  idle := by
    intro e he hidle
    rcases hent e he with hold | hnew
    · exact h.idle e hold hidle
    · exact hnew hidle

private theorem idle_of_value [Bitmap] (virq : Virq)
    (h : lrIdle (vgicGetLrFromVirq virq).1 = true) :
    getLrVint (vgicGetLrFromVirq virq).1 = 0 := by
  by_cases hm : Masked virq
  · rw [vgicGetLrFromVirq_masked hm]
    decide
  · have hin : virq.inLr = false := by
      cases hv : virq.inLr with
      | false => rfl
      | true => exact absurd (Or.inl hv) hm
    have hen : virq.enable = true := by
      cases hv : virq.enable with
      | true => rfl
      | false => exact absurd (Or.inr hv) hm
    have hlive : lrIdle (vgicGetLrFromVirq virq).1 = false :=
      lrIdle_eq_false_of_state (by rw [lrState_of_enabled hen hin]; decide)
    rw [hlive] at h
    cases h

/-- What an injection leaves in the list. -/
theorem inject_entries [Bitmap] (h : LiveInv s) {virq virq' : Virq} {reached : Bool}
    (hrun : vgicInject s virq = .ok (s', virq', reached)) : ∀ e ∈ entries s'.gicr,
      e ∈ entries s.gicr ∨ (lrIdle e = true → getLrVint e = 0) := by
  by_cases hq : Queued s.gicr (vgicGetLrFromVirq virq).1
  · rw [vgicInject_queued h.rep.bounds hq] at hrun
    cases hrun
    exact fun e he => Or.inl he
  · obtain ⟨s'', hrun', hs''⟩ := vgicInject_spec h.ready hq
    rw [hrun'] at hrun
    cases hrun
    intro e he
    obtain ⟨x, hx, hcase⟩ := hs''.origin e (List.mem_append_right _ he)
    have hsame : lrIdle e = lrIdle x ∧ getLrVint e = getLrVint x := by
      rcases hcase with rfl | rfl
      · exact ⟨rfl, rfl⟩
      · exact ⟨lrIdle_tag x, getLrVint_tag x⟩
    right
    rw [hsame.1, hsame.2]
    intro hidle
    rcases List.mem_cons.mp hx with rfl | hold
    · exact idle_of_value virq hidle
    · rcases List.mem_append.mp hold with hreg | hent
      · rw [lrs_live hreg] at hidle
        cases hidle
      · exact h.idle x hent hidle

/-- Every call keeps the invariant. -/
theorem listStep_live [Bitmap] {op : ListOp} (h : LiveInv s) (hop : Handed s op)
    (hrun : listStep s op = .ok s') : LiveInv s' := by
  obtain ⟨s'', hrun', hinv⟩ := listStep_inv s op h.toListInv hop.1
  have hsame : s'' = s' := Except.ok.inj (hrun'.symm.trans hrun)
  rw [hsame] at hinv
  apply h.of_entries hinv
  cases op with
  | inject virq =>
      simp only [listStep, bind_eq_ok] at hrun
      obtain ⟨⟨s₁, virq', reached⟩, hinject, hpure⟩ := hrun
      cases hpure
      exact inject_entries h hinject
  | insert lr =>
      obtain ⟨s₁, hinsert, -, -, -, hent⟩ := vgicLrListInsert_offer h.rep.bounds lr
      rw [listStep, hinsert] at hrun
      cases hrun
      intro e he
      rw [hent] at he
      rcases mem_offer he with hold | rfl
      · exact Or.inl hold
      · rw [lrIdle_tag, getLrVint_tag]
        exact Or.inr (hop.2 lr rfl)
  | remove rmIdx =>
      obtain ⟨hlt, htag⟩ := hop.1
      obtain ⟨g, hremove, -, -, -, hperm⟩ :=
        vgicLrListRemove_spec h.rep.bounds (h.rep.bounds.lt_tail hlt htag) hlt
      simp only [listStep, hremove, ok_bind] at hrun
      cases hrun
      exact fun e he => Or.inl (hperm.mem_iff.mpr (List.mem_cons_of_mem _ he))
  | sort =>
      obtain ⟨g, hsort, -, -, -, hperm⟩ := vgicLrListSort_spec h.rep.bounds
      simp only [listStep, hsort, ok_bind] at hrun
      cases hrun
      exact fun e he => Or.inl (hperm.mem_iff.mp he)
  | save =>
      obtain ⟨s₁, hsave, hs₁⟩ := hookVgicContextSave_spec h.ready
      rw [listStep, hsave] at hrun
      cases hrun
      intro e he
      rcases hs₁.origin e he with hold | ⟨x, hx, rfl⟩
      · exact Or.inl hold
      · rw [lrIdle_tag, lrs_live hx]
        exact Or.inr fun hidle => by cases hidle
  | restore =>
      obtain ⟨s₁, hrestore, hs₁⟩ := hookVgicContextRestore_spec h.ready
      rw [listStep, hrestore] at hrun
      cases hrun
      exact fun e he => Or.inl (hs₁.origin e he)
  | elsewhere ich ctxt =>
      cases hrun
      exact fun e he => Or.inl he

private theorem injectKeeps_of_cond [Bitmap] (h : LiveInv s) {op : ListOp}
    (hcond : InjectCond s op) :
    InjectKeeps s op := by
  cases op with
  | inject virq =>
      by_cases hm : Masked virq
      · exact masked_keeps h hm (hcond hm)
      · exact enabled_keeps h hm
  | insert lr => trivial
  | remove rmIdx => trivial
  | sort => trivial
  | save => trivial
  | restore => trivial
  | elsewhere ich ctxt => trivial

private theorem injectCond_of_keeps [Bitmap] (h : LiveInv s) {op : ListOp} (hu : InjectUntied s op)
    (hkeeps : InjectKeeps s op) : InjectCond s op := by
  cases op with
  | inject virq => exact fun hm => maskedCond_of_keeps h hm (hu hm) hkeeps
  | insert lr => trivial
  | remove rmIdx => trivial
  | sort => trivial
  | save => trivial
  | restore => trivial
  | elsewhere ich ctxt => trivial

/-- **Masked interrupts**, over every run from `vgicr_init`: no injection has an effect it should
not have if every masked interrupt is injected in a state that meets the condition; and only then,
unless an interrupt of priority 0 comes first. -/
theorem masked_injects_keep [Bitmap] {old : Vgicr} (htail : old.tail = 0) (iidr : BitVec 32)
    (vcpuId nrVcpus : Nat) (mpidr : BitVec 64) (ich : IchRegs) (ctxt : VgicContext)
    (hnr : ctxt.nrLr ≤ maxLrRegs) (ops : List ListOp)
    (hops : Guarded listStep Handed ⟨ich, vgicrInit old iidr vcpuId nrVcpus mpidr, ctxt⟩ ops) :
    (Guarded listStep InjectCond ⟨ich, vgicrInit old iidr vcpuId nrVcpus mpidr, ctxt⟩ ops →
      Guarded listStep InjectKeeps ⟨ich, vgicrInit old iidr vcpuId nrVcpus mpidr, ctxt⟩ ops) ∧
    (Guarded listStep InjectUntied ⟨ich, vgicrInit old iidr vcpuId nrVcpus mpidr, ctxt⟩ ops →
      Guarded listStep InjectKeeps ⟨ich, vgicrInit old iidr vcpuId nrVcpus mpidr, ctxt⟩ ops →
      Guarded listStep InjectCond ⟨ich, vgicrInit old iidr vcpuId nrVcpus mpidr, ctxt⟩ ops) := by
  have hstart : LiveInv ⟨ich, vgicrInit old iidr vcpuId nrVcpus mpidr, ctxt⟩ := by
    refine ⟨⟨repInv_vgicrInit_iff.mpr htail, hnr⟩, ?_⟩
    intro e he
    rw [entries_vgicrInit htail] at he
    cases he
  constructor
  · intro hcond
    exact Guarded.of_inv (fun s op s' h hg hrun => listStep_live h hg.1 hrun)
      (fun s op h hg => injectKeeps_of_cond h hg.2) hstart (hops.and hcond)
  · intro huntied hkeeps
    exact Guarded.of_inv (fun s op s' h hg hrun => listStep_live h hg.1 hrun)
      (fun s op h hg => injectCond_of_keeps h hg.2.1 hg.2.2) hstart
      (hops.and (huntied.and hkeeps))

end Runs

/-! ## A disabled interrupt and others -/

def disabled41 : Virq := { spi 41 with enable := false }

/-- The interrupts 40 and 42 are in list registers, with the priorities 0xC0 and 0xA0. -/
def twoInUse : IchRegs := ((idleSlice 4).ich.setLr 0 (spiLr 40 0xC0)).setLr 1 (spiLr 42 0xA0)

/-- A disabled interrupt is injected while the list is empty, and again when 42 has come to wait
there. -/
def maskedTwice : List ListOp :=
  [.elsewhere twoInUse (idleSlice 4).ctxt, .inject disabled41, .inject disabled41]

private theorem handed_maskedTwice : Guarded listStep Handed (idleSlice 4) maskedTwice :=
  ⟨⟨rfl, fun lr heq => by cases heq⟩, fun _ _ => ⟨⟨trivial, fun lr heq => by cases heq⟩,
    fun _ _ => ⟨⟨trivial, fun lr heq => by cases heq⟩, fun _ _ => trivial⟩⟩⟩

/-- The first time the zero value sinks below 40, the second time it stays behind 42. -/
theorem cond_maskedTwice : Guarded listStep InjectCond (idleSlice 4) maskedTwice := by
  refine ⟨trivial, fun s hs => ⟨fun _ => ?_, fun s' hs' => ⟨fun _ => ?_, fun _ _ => trivial⟩⟩⟩
  · cases hs
    obtain ⟨s, hs⟩ : ∃ s, s = ({ idleSlice 4 with ich := twoInUse } : VgicSlice) := ⟨_, rfl⟩
    have hprio : prioOf (candidates s 0) 0 = 0 ∧ prioOf (candidates s 0) 1 = 0xC0 ∧
        prioOf (candidates s 0) 2 = 0xA0 := by
      rw [hs]
      decide
    have huse : s.gicr.tail = 0 ∧ inUse s = 2 ∧ s.ctxt.nrLr = 4 ∧ Fits (candidates s 0) := by
      rw [hs]
      decide
    have hway : Way (prioOf (candidates s 0)) 3 0 1 :=
      Way.down ⟨by decide, Or.inl ⟨rfl, fun _ => by rw [hprio.2.1, hprio.2.2]; decide⟩⟩
        (Way.here 1)
    have hcond : MaskedCond s := by
      refine Or.inr (Or.inr ⟨huse.2.2.2, Or.inr ⟨huse.1, Or.inr (Or.inl ?_)⟩, fun hpos => ?_,
        fun _ => ?_⟩)
      · rw [hprio.2.1]
        decide
      · rw [hprio.1] at hpos
        exact absurd hpos (lt_irrefl 0)
      · rw [huse.2.1, huse.2.2.1]
        exact ⟨by decide, by decide, hway⟩
    rw [hs] at hcond
    exact hcond
  · have hvals : (run listStep (idleSlice 4) (maskedTwice.take 2)).map
        (fun s => (prioOf (candidates s 0) 0, s.gicr.tail, inUse s, s.ctxt.nrLr,
          decide (Fits (candidates s 0)))) = .ok (0xA0, 1, 1, 4, true) := by
      decide
    obtain ⟨s₂, hrun, heq⟩ := exists_of_map_eq_ok hvals
    have hsame : run listStep (idleSlice 4) (maskedTwice.take 2) = .ok s' := by
      rw [maskedTwice, List.take_succ_cons, run_cons_ok hs]
      exact run_cons_ok hs'
    cases hrun.symm.trans hsame
    simp only [Prod.mk.injEq, decide_eq_true_eq] at heq
    obtain ⟨hprio, htail, huse, hnr, hfits⟩ := heq
    refine Or.inr (Or.inr ⟨hfits, Or.inl (by rw [hprio]; decide), fun _ => by omega,
      fun hzero => ?_⟩)
    omega

/-- Neither time is anything lost or added: 40 and 42 are held as before. -/
theorem masked_injects_keep_two :
    Guarded listStep InjectKeeps (idleSlice 4) maskedTwice ∧
      (run listStep (idleSlice 4) maskedTwice).map (fun s => (heldValues s).map getLrVint) =
        .ok [40, 42] :=
  ⟨(@masked_injects_keep _ zeroGicr rfl 0 0 1 0 (idleSlice 4).ich (idleSlice 4).ctxt (by decide)
    maskedTwice handed_maskedTwice).1 cond_maskedTwice, by decide⟩

/-- Interrupt 40 is in a list register: the zero entry stays behind in the list. -/
theorem disabled_leaves_entry :
    ¬ ∀ (old : Vgicr), old.tail = 0 → ∀ (iidr : BitVec 32) (vcpuId nrVcpus : Nat)
      (mpidr : BitVec 64) (ich : IchRegs) (ctxt : VgicContext), ctxt.nrLr ≤ maxLrRegs →
      0 < ctxt.nrLr → ∀ ops : List ListOp,
      Guarded listStep Handed ⟨ich, vgicrInit old iidr vcpuId nrVcpus mpidr, ctxt⟩ ops →
      Guarded listStep InjectKeeps ⟨ich, vgicrInit old iidr vcpuId nrVcpus mpidr, ctxt⟩ ops := by
  intro hall
  have hends : (listStep (idleSlice 4) (.inject (spi 40)) >>= fun s =>
      (vgicInject s disabled41).map fun r => ((heldValues s).length, (heldValues r.1).length)) =
      .ok (1, 2) := by
    decide
  obtain ⟨s, hstep, hmap⟩ := bind_eq_ok.mp hends
  obtain ⟨⟨s', virq, reached⟩, hrun, hlens⟩ := exists_of_map_eq_ok hmap
  simp only [Prod.mk.injEq] at hlens
  have hkeeps := hall zeroGicr rfl 0 0 1 0 (idleSlice 4).ich (idleSlice 4).ctxt (by decide)
    (by decide) [.inject (spi 40), .inject disabled41]
    ⟨⟨trivial, fun lr heq => by cases heq⟩, fun _ _ =>
      ⟨⟨trivial, fun lr heq => by cases heq⟩, fun _ _ => trivial⟩⟩
  obtain ⟨s'', virq', reached', hrun', howns⟩ := (hkeeps.2 s hstep).1
  rw [hrun] at hrun'
  cases hrun'
  have hsame := (howns.masked (Or.inr rfl)).length_eq
  rw [hlens.1, hlens.2] at hsame
  cases hsame

end RtHypervisor.Ports.LrList
