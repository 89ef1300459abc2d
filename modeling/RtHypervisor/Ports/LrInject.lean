import RtHypervisor.Ports.LrMoves

/-!
# `vgic_inject` and the two context hooks

`vgic_inject` offers a new value to `lr_list`, empties the list registers into
it, sorts, and fills the registers again; the hooks save on a switch away from a
vCPU and restore on a switch to it.  Each gets one specification in terms of
`places`, assembled from the ones of the moves.
-/

namespace RtHypervisor.Ports.LrList

open RtHypervisor.Verified.Run
open RtHypervisor.Verified.PrefixArray
open RtHypervisor.Ports.ListRegister

/-- The values that belong to another interrupt than `lr`. -/
def apart (lr : Lr) (vals : List Lr) : List Lr :=
  vals.filter fun x => !decide (getLrVint x = getLrVint lr)

/-- The state after the new value has been offered to the list. -/
structure Inserted (s s₁ : VgicSlice) (lr : Lr) : Prop where
  bounds : InBounds s₁.gicr
  ctxt_eq : s₁.ctxt = s.ctxt
  virqs_eq : s₁.gicr.virqs = s.gicr.virqs
  regs : ∀ j, s₁.ich.lrAt j = s.ich.lrAt j
  fate : entries s₁.gicr = entries s.gicr ++ [lr ||| lrTag] ∨
    ((entries s.gicr).length = gicLrListNum ∧ entries s₁.gicr = entries s.gicr)

private theorem vgicLrListInsert_spec {s : VgicSlice} {lr : Lr} (hb : InBounds s.gicr)
    (hnew : ¬Queued s.gicr lr) : ∃ s₁, vgicLrListInsert s lr = .ok s₁ ∧ Inserted s s₁ lr := by
  by_cases hlt : s.gicr.tail < gicLrListNum
  · refine ⟨_, vgicLrListInsert_accepted hlt hnew, ?_⟩
    exact ⟨hb.pushed _ hlt, rfl, rfl, fun _ => rfl, Or.inl (entries_pushed s.gicr _ hlt)⟩
  · have hfull : s.gicr.tail = gicLrListNum := by
      have := hb.tail_le
      omega
    refine ⟨_, vgicLrListInsert_refused hb.tail_le (Or.inl hfull), ?_⟩
    exact ⟨hb, rfl, rfl, fun _ => rfl, Or.inr ⟨by rw [hb.length_entries, hfull], rfl⟩⟩

/-- A maintenance request touches nothing the moves depend on. -/
theorem Inserted.maintenance {s s₁ : VgicSlice} {lr : Lr} (h : Inserted s s₁ lr)
    (c : Prop) [Decidable c] :
    Inserted s (if c then vgicCallMaintenanceIrq s₁ else s₁) lr := by
  split
  · exact ⟨h.bounds, h.ctxt_eq, h.virqs_eq, h.regs, h.fate⟩
  · exact h

/-- What an injection that was not cut short by the duplicate test does. -/
structure Injected (s s' : VgicSlice) (lr : Lr) : Prop where
  bounds : InBounds s'.gicr
  ctxt_eq : s'.ctxt = s.ctxt
  virqs_eq : s'.gicr.virqs = s.gicr.virqs
  regs : ∀ j, s.ctxt.nrLr ≤ j → s'.ich.lrAt j = s.ich.lrAt j
  origin : ∀ e ∈ places s', ∃ x ∈ lr :: places s, e = x ∨ e = x ||| lrTag
  conserved : ((places s).map getLrVint).Nodup →
    (∀ e ∈ entries s.gicr, lrIdle e = false) → lrIdle lr = false →
    (apart lr (places s)).length < gicLrListNum →
    ((places s').map key).Perm (key lr :: (apart lr (places s)).map key)
  drained : (places s).length ≤ 1 → apart lr (places s) = [] → 0 < s.ctxt.nrLr →
    entries s'.gicr = []

theorem nodup_map_of_length_le_one {α β : Type} {l : List α} {f : α → β}
    (h : l.length ≤ 1) : (l.map f).Nodup := by
  match l, h with
  | [], _ => exact List.nodup_nil
  | [a], _ => exact List.nodup_singleton _

section Inject

variable {s s₁ s₂ s₃ : VgicSlice} {g : Vgicr} {lr : Lr}

private theorem lrs_eq_of_regs (h : Inserted s s₁ lr) (is : List Nat) :
    lrs s₁.ich is = lrs s.ich is :=
  lrs_congr fun j _ => h.regs j

/-- With every interrupt in one place, the registers a save finds fresh after the
insertion are those of the other interrupts. -/
theorem fresh_of_inserted (h : entries s₁.gicr = entries s.gicr ++ [lr ||| lrTag])
    (hnd : ((places s).map getLrVint).Nodup) :
    fresh s₁.gicr (lrs s.ich (List.range s.ctxt.nrLr)) =
      apart lr (lrs s.ich (List.range s.ctxt.nrLr)) := by
  rw [places, List.map_append, List.nodup_append] at hnd
  apply List.filter_congr
  intro x hx
  have hiff : Queued s₁.gicr x ↔ getLrVint x = getLrVint lr := by
    simp only [Queued, h, List.mem_append, List.mem_singleton]
    constructor
    · rintro ⟨e, hold | rfl, heq⟩
      · exact absurd heq.symm
          (hnd.2.2 _ (List.mem_map_of_mem hx) _ (List.mem_map_of_mem hold))
      · rw [← heq, getLrVint_tag]
    · intro heq
      exact ⟨_, Or.inr rfl, by rw [getLrVint_tag, heq]⟩
  simp only [hiff]

private theorem apart_eq_self_of_not_queued (h : ¬Queued s.gicr lr) :
    apart lr (entries s.gicr) = entries s.gicr := by
  apply List.filter_eq_self.mpr
  intro e he
  have hne : ¬getLrVint e = getLrVint lr := fun heq => h ⟨e, he, heq⟩
  simp [hne]

private theorem apart_places (h : ¬Queued s.gicr lr) :
    apart lr (places s) =
      apart lr (lrs s.ich (List.range s.ctxt.nrLr)) ++ entries s.gicr := by
  rw [places, apart, List.filter_append]
  congr 1
  exact apart_eq_self_of_not_queued h

/-- Insert and save together: the list holds the new interrupt and everything
else that was held. -/
theorem entries_of_insert_save (hins : Inserted s s₁ lr) (hnew : ¬Queued s.gicr lr)
    (hsave : SavedFrom s₁ s₂ (List.range s.ctxt.nrLr))
    (hnd : ((places s).map getLrVint).Nodup)
    (hroom : (apart lr (places s)).length < gicLrListNum) :
    entries s₁.gicr = entries s.gicr ++ [lr ||| lrTag] ∧
    ((entries s₂.gicr).map key).Perm (key lr :: (apart lr (places s)).map key) := by
  rw [apart_places hnew, List.length_append] at hroom
  have hent : entries s₁.gicr = entries s.gicr ++ [lr ||| lrTag] := by
    rcases hins.fate with hent | ⟨hfull, -⟩
    · exact hent
    · omega
  refine ⟨hent, ?_⟩
  have hlrs := lrs_eq_of_regs hins (List.range s.ctxt.nrLr)
  have hfresh := fresh_of_inserted hent hnd
  have hnd' : ((lrs s.ich (List.range s.ctxt.nrLr)).map getLrVint).Nodup := by
    rw [places, List.map_append, List.nodup_append] at hnd
    exact hnd.1
  have hperm := hsave.conserved (by rw [hlrs]; exact hnd') (by
    rw [hlrs, hfresh, hent, List.length_append, List.length_singleton]
    omega)
  rw [hlrs, hfresh, hent, List.map_append, List.map_singleton, key_tag] at hperm
  rw [apart_places hnew, List.map_append]
  refine hperm.trans ?_
  rw [List.append_assoc]
  refine List.perm_append_comm.trans ?_
  simp

private theorem tagged_of_saved (hsave : SavedFrom s₁ s₂ (List.range s.ctxt.nrLr))
    (htag : ∀ e ∈ entries s₁.gicr, getLrRes0 e ≠ 0) :
    ∀ e ∈ entries s₂.gicr, getLrRes0 e ≠ 0 := by
  intro e he
  rcases hsave.origin e he with hold | ⟨x, -, rfl⟩
  · exact htag e hold
  · exact getLrRes0_tag_ne_zero x

private theorem live_of_saved (hsave : SavedFrom s₁ s₂ (List.range s.ctxt.nrLr))
    (hlive : ∀ e ∈ entries s₁.gicr, lrIdle e = false) :
    ∀ e ∈ entries s₂.gicr, lrIdle e = false := by
  intro e he
  rcases hsave.origin e he with hold | ⟨x, hx, rfl⟩
  · exact hlive e hold
  · obtain ⟨i, -, -, hx'⟩ := mem_lrs.mp hx
    rw [lrIdle_tag, hx']

/-- Insert, save, sort and restore, put together. -/
theorem Injected.of_moves (hins : Inserted s s₁ lr) (hnew : ¬Queued s.gicr lr)
    (hsave : SavedFrom s₁ s₂ (List.range s.ctxt.nrLr))
    (hvirqs : g.virqs = s₂.gicr.virqs) (hsort : (entries g).Perm (entries s₂.gicr))
    (hrest : RestoredFrom { s₂ with gicr := g } s₃ (List.range s.ctxt.nrLr))
    (hlone : (∃ i ∈ List.range s.ctxt.nrLr, lrIdle (s₂.ich.lrAt i) = true) →
      (entries g).length ≤ 1 → (∀ e ∈ entries g, getLrRes0 e ≠ 0) →
      entries s₃.gicr = []) : Injected s s₃ lr := by
  have hctxt : s₃.ctxt = s.ctxt :=
    hrest.ctxt_eq.trans (hsave.ctxt_eq.trans hins.ctxt_eq)
  have hnone : lrs s₂.ich (List.range s.ctxt.nrLr) = [] := lrs_eq_nil hsave.idle
  refine
    { bounds := hrest.bounds
      ctxt_eq := hctxt
      virqs_eq := hrest.virqs_eq.trans (hvirqs.trans (hsave.virqs_eq.trans hins.virqs_eq))
      regs := ?_
      origin := ?_
      conserved := ?_
      drained := ?_ }
  · intro j hj
    have hmem : j ∉ List.range s.ctxt.nrLr := by
      rw [List.mem_range]
      omega
    have h3 : s₃.ich.lrAt j = s₂.ich.lrAt j := hrest.others j hmem
    rw [h3, hsave.others j hmem, hins.regs j]
  · -- every value passes through the list after the save
    have hlist : ∀ e ∈ entries s₂.gicr, ∃ x ∈ lr :: places s, e = x ∨ e = x ||| lrTag := by
      intro e he
      rcases hsave.origin e he with hold | ⟨x, hx, rfl⟩
      · have hmem : e ∈ entries s.gicr ∨ e = lr ||| lrTag := by
          rcases hins.fate with hent | ⟨-, hent⟩
          · rw [hent, List.mem_append, List.mem_singleton] at hold
            exact hold
          · exact Or.inl (hent ▸ hold)
        rcases hmem with hmem | rfl
        · exact ⟨e, List.mem_cons_of_mem lr (List.mem_append_right _ hmem), Or.inl rfl⟩
        · exact ⟨lr, List.mem_cons_self .., Or.inr rfl⟩
      · rw [lrs_eq_of_regs hins] at hx
        exact ⟨x, List.mem_cons_of_mem lr (List.mem_append_left _ hx), Or.inr rfl⟩
    intro e he
    rw [places, hctxt] at he
    rcases List.mem_append.mp he with hreg | hent
    · obtain ⟨i, hi, rfl, hlive⟩ := mem_lrs.mp hreg
      rcases hrest.source i hi with heq | hmem
      · have hidle : lrIdle (s₃.ich.lrAt i) = true := by
          rw [heq]
          exact hsave.idle i hi
        rw [hidle] at hlive
        cases hlive
      · exact hlist _ (hsort.mem_iff.mp hmem)
    · exact hlist e (hsort.mem_iff.mp (hrest.origin e hent))
  · intro hnd hlive hlr hroom
    obtain ⟨hent, hperm⟩ := entries_of_insert_save hins hnew hsave hnd hroom
    have hlive₁ : ∀ e ∈ entries s₁.gicr, lrIdle e = false := by
      intro e he
      rw [hent, List.mem_append, List.mem_singleton] at he
      rcases he with he | rfl
      · exact hlive e he
      · rw [lrIdle_tag, hlr]
    have hlive₂ := live_of_saved hsave hlive₁
    have hcons := hrest.conserved fun e he => hlive₂ e (hsort.mem_iff.mp he)
    have hplaces : (places s₃).Perm (entries s₂.gicr) := by
      rw [places, hctxt]
      refine hcons.trans ?_
      show (lrs s₂.ich (List.range s.ctxt.nrLr) ++ entries g).Perm _
      rw [hnone]
      exact hsort
    exact (hplaces.map key).trans hperm
  · intro hle hapart hnr
    have hnd : ((places s).map getLrVint).Nodup := nodup_map_of_length_le_one hle
    have hroom : (apart lr (places s)).length < gicLrListNum := by
      rw [hapart]
      decide
    obtain ⟨hent, hperm⟩ := entries_of_insert_save hins hnew hsave hnd hroom
    have hempty : entries s.gicr = [] := by
      rw [apart_places hnew] at hapart
      exact (List.append_eq_nil_iff.mp hapart).2
    have htag₁ : ∀ e ∈ entries s₁.gicr, getLrRes0 e ≠ 0 := by
      intro e he
      rw [hent, hempty, List.nil_append, List.mem_singleton] at he
      rw [he]
      exact getLrRes0_tag_ne_zero lr
    have hlen := hperm.length_eq
    rw [hapart, List.length_map] at hlen
    apply hlone
    · exact ⟨0, List.mem_range.mpr hnr, hsave.idle 0 (List.mem_range.mpr hnr)⟩
    · rw [hsort.length_eq, hlen]
      simp
    · intro e he
      exact tagged_of_saved hsave htag₁ e (hsort.mem_iff.mp he)

end Inject

/-- An interrupt found in the list is dropped and the call returns. -/
theorem vgicInject_queued [Bitmap] {s : VgicSlice} {virq : Virq} (hb : InBounds s.gicr)
    (hq : Queued s.gicr (vgicGetLrFromVirq virq).1) :
    vgicInject s virq = .ok (s, (vgicGetLrFromVirq virq).2, false) := by
  simp only [vgicInject, vgicIsLrInList_eq hb.tail_le, ok_bind, hq, decide_true]
  rfl

theorem vgicInject_spec [Bitmap] {s : VgicSlice} {virq : Virq} (h : Ready s)
    (hnew : ¬Queued s.gicr (vgicGetLrFromVirq virq).1) :
    ∃ s', vgicInject s virq = .ok (s', (vgicGetLrFromVirq virq).2, true) ∧
      Injected s s' (vgicGetLrFromVirq virq).1 := by
  obtain ⟨s₀, hinsert, hins₀⟩ := vgicLrListInsert_spec h.bounds hnew
  have hins := hins₀.maintenance (virqSize s₀ > s₀.ctxt.nrLr + gicLrListNum)
  have hinsEq : ∃ s₁, s₁ = (if virqSize s₀ > s₀.ctxt.nrLr + gicLrListNum then
      vgicCallMaintenanceIrq s₀ else s₀) := ⟨_, rfl⟩
  obtain ⟨s₁, hs₁⟩ := hinsEq
  rw [← hs₁] at hins
  have hready₁ : Ready s₁ := ⟨hins.bounds, by rw [hins.ctxt_eq]; exact h.nrLr_le⟩
  obtain ⟨s₂, hsaveRun, hsave⟩ := vgicContextSaveLr_spec hready₁
  obtain ⟨g, hsortRun, hbg, -, hvirqs, hsort⟩ := vgicLrListSort_spec hsave.bounds
  have hready₂ : Ready { s₂ with gicr := g } :=
    ⟨hbg, by
      show s₂.ctxt.nrLr ≤ 16
      rw [hsave.ctxt_eq]
      exact hready₁.nrLr_le⟩
  obtain ⟨s₃, hrestRun, hrest, hlone⟩ := vgicContextRestoreLr_spec hready₂
  have hnr₁ : s₁.ctxt.nrLr = s.ctxt.nrLr := by rw [hins.ctxt_eq]
  have hnr₂ : s₂.ctxt.nrLr = s.ctxt.nrLr := by rw [hsave.ctxt_eq, hnr₁]
  have hnr₀ : s₀.ctxt.nrLr = s.ctxt.nrLr := by rw [hins₀.ctxt_eq]
  rw [hnr₁] at hsaveRun hsave
  have hrestRun' : vgicContextRestoreLr { s₂ with gicr := g } s.ctxt.nrLr = .ok s₃ := by
    rw [← hnr₂]
    exact hrestRun
  have hrest' : RestoredFrom { s₂ with gicr := g } s₃ (List.range s.ctxt.nrLr) := by
    rw [← hnr₂]
    exact hrest
  refine ⟨s₃, ?_, Injected.of_moves hins hnew hsave hvirqs hsort hrest' ?_⟩
  · rw [hnr₀] at hs₁
    simp only [vgicInject, vgicIsLrInList_eq h.bounds.tail_le, ok_bind, hnew, decide_false,
      hinsert, hnr₀, ← hs₁, hsaveRun, hsortRun, hrestRun']
    rfl
  · rw [← hnr₂]
    exact hlone

/-! ## The context hooks -/

@[simp] theorem lrAt_vgicContextSaveArp (s : VgicSlice) (j : Nat) :
    (vgicContextSaveArp s).ich.lrAt j = s.ich.lrAt j := by
  unfold vgicContextSaveArp
  split <;> rfl

@[simp] theorem gicr_vgicContextSaveArp (s : VgicSlice) :
    (vgicContextSaveArp s).gicr = s.gicr := by
  unfold vgicContextSaveArp
  split <;> rfl

@[simp] theorem ctxt_vgicContextSaveArp (s : VgicSlice) :
    (vgicContextSaveArp s).ctxt = s.ctxt := by
  unfold vgicContextSaveArp
  split <;> rfl

private theorem places_congr {s t : VgicSlice} (hg : t.gicr = s.gicr)
    (hnr : t.ctxt.nrLr = s.ctxt.nrLr) (hreg : ∀ j, t.ich.lrAt j = s.ich.lrAt j) :
    places t = places s := by
  rw [places, places, hg, hnr, lrs_congr fun j _ => hreg j]

/-- What `hook_vgic_context_save` does to the interrupts a vCPU holds. -/
structure Saved (s s' : VgicSlice) : Prop where
  bounds : InBounds s'.gicr
  nrLr_eq : s'.ctxt.nrLr = s.ctxt.nrLr
  virqs_eq : s'.gicr.virqs = s.gicr.virqs
  regs : ∀ j, s.ctxt.nrLr ≤ j → s'.ich.lrAt j = s.ich.lrAt j
  idle : ∀ i, i < s.ctxt.nrLr → lrIdle (s'.ich.lrAt i) = true
  origin : ∀ e ∈ entries s'.gicr,
    e ∈ entries s.gicr ∨ ∃ x ∈ lrs s.ich (List.range s.ctxt.nrLr), e = x ||| lrTag
  conserved : ((places s).map getLrVint).Nodup → (places s).length ≤ gicLrListNum →
    ((places s').map key).Perm ((places s).map key)

theorem Saved.places_eq {s s' : VgicSlice} (h : Saved s s') :
    places s' = entries s'.gicr := by
  have hnone : lrs s'.ich (List.range s'.ctxt.nrLr) = [] := by
    apply lrs_eq_nil
    intro i hi
    rw [h.nrLr_eq] at hi
    exact h.idle i (List.mem_range.mp hi)
  rw [places, hnone, List.nil_append]

/-- When every interrupt has one place, a save finds all registers fresh. -/
theorem fresh_eq_self {s : VgicSlice} (hnd : ((places s).map getLrVint).Nodup) :
    fresh s.gicr (lrs s.ich (List.range s.ctxt.nrLr)) =
      lrs s.ich (List.range s.ctxt.nrLr) := by
  rw [places, List.map_append, List.nodup_append] at hnd
  apply List.filter_eq_self.mpr
  intro x hx
  have hnq : ¬Queued s.gicr x := by
    rintro ⟨e, he, heq⟩
    exact hnd.2.2 _ (List.mem_map_of_mem hx) _ (List.mem_map_of_mem he) heq.symm
  simp [hnq]

theorem hookVgicContextSave_spec [Bitmap] {s : VgicSlice} (h : Ready s) :
    ∃ s', hookVgicContextSave s = .ok s' ∧ Saved s s' := by
  obtain ⟨s₁, hrun, hs₁⟩ := vgicContextSaveLr_spec h
  refine ⟨_, by simp only [hookVgicContextSave, hrun, ok_bind]; rfl, ?_⟩
  refine
    { bounds := ?_
      nrLr_eq := ?_
      virqs_eq := ?_
      regs := ?_
      idle := ?_
      origin := ?_
      conserved := ?_ }
  · simpa using hs₁.bounds
  · simp [hs₁.ctxt_eq]
  · simpa using hs₁.virqs_eq
  · intro j hj
    have hmem : j ∉ List.range s.ctxt.nrLr := by
      rw [List.mem_range]
      omega
    simpa using hs₁.others j hmem
  · intro i hi
    simpa using hs₁.idle i (List.mem_range.mpr hi)
  · simpa using hs₁.origin
  · intro hnd hroom
    have hfresh := fresh_eq_self hnd
    have hnd' : ((lrs s.ich (List.range s.ctxt.nrLr)).map getLrVint).Nodup := by
      rw [places, List.map_append, List.nodup_append] at hnd
      exact hnd.1
    have hperm := hs₁.conserved hnd' (by
      rw [hfresh]
      rw [places, List.length_append] at hroom
      omega)
    rw [hfresh] at hperm
    have hnone : lrs s₁.ich (List.range s.ctxt.nrLr) = [] := lrs_eq_nil hs₁.idle
    have hplaces : places s₁ = entries s₁.gicr := by
      rw [places, hs₁.ctxt_eq, hnone, List.nil_append]
    rw [places_congr (s := s₁) (by simp) (by simp) (by exact lrAt_vgicContextSaveArp s₁),
      hplaces]
    refine hperm.trans ?_
    rw [places, List.map_append]
    exact List.perm_append_comm

/-- What `hook_vgic_context_restore` does to the interrupts a vCPU holds. -/
structure Restored (s s' : VgicSlice) : Prop where
  bounds : InBounds s'.gicr
  nrLr_eq : s'.ctxt.nrLr = s.ctxt.nrLr
  virqs_eq : s'.gicr.virqs = s.gicr.virqs
  regs : ∀ j, s.ctxt.nrLr ≤ j → s'.ich.lrAt j = s.ich.lrAt j
  source : ∀ i, i < s.ctxt.nrLr →
    s'.ich.lrAt i = s.ich.lrAt i ∨ s'.ich.lrAt i ∈ entries s.gicr
  origin : ∀ e ∈ entries s'.gicr, e ∈ entries s.gicr
  conserved : (∀ e ∈ entries s.gicr, lrIdle e = false) → (places s').Perm (places s)
  drained : (∃ i, i < s.ctxt.nrLr ∧ lrIdle (s.ich.lrAt i) = true) →
    (entries s.gicr).length ≤ 1 → (∀ e ∈ entries s.gicr, getLrRes0 e ≠ 0) →
    entries s'.gicr = []

theorem hookVgicContextRestore_spec [Bitmap] {s : VgicSlice} (h : Ready s) :
    ∃ s', hookVgicContextRestore s = .ok s' ∧ Restored s s' := by
  obtain ⟨s₁, hrun, hs₁, hlone⟩ := vgicContextRestoreLr_spec h
  refine ⟨_, by simp only [hookVgicContextRestore, hrun, ok_bind]; rfl, ?_⟩
  refine
    { bounds := ?_
      nrLr_eq := ?_
      virqs_eq := ?_
      regs := ?_
      source := ?_
      origin := ?_
      conserved := ?_
      drained := ?_ }
  · simpa [vgicContextRestoreArp] using hs₁.bounds
  · simp [vgicContextRestoreArp, hs₁.ctxt_eq]
  · simpa [vgicContextRestoreArp] using hs₁.virqs_eq
  · intro j hj
    have hmem : j ∉ List.range s.ctxt.nrLr := by
      rw [List.mem_range]
      omega
    exact (lrAt_vgicContextSaveArp s₁ j).trans (hs₁.others j hmem)
  · intro i hi
    have hreg : (vgicContextSaveArp s₁).ich.lrAt i = s₁.ich.lrAt i :=
      lrAt_vgicContextSaveArp s₁ i
    rcases hs₁.source i (List.mem_range.mpr hi) with heq | hmem
    · exact Or.inl (hreg.trans heq)
    · right
      show (vgicContextSaveArp s₁).ich.lrAt i ∈ entries s.gicr
      rwa [hreg]
  · simpa [vgicContextRestoreArp] using hs₁.origin
  · intro hlive
    have hperm := hs₁.conserved hlive
    rw [places_congr (s := s₁) (by simp [vgicContextRestoreArp])
      (by simp [vgicContextRestoreArp]) (by exact lrAt_vgicContextSaveArp s₁), places,
      hs₁.ctxt_eq]
    exact hperm
  · rintro ⟨i, hi, hidle⟩ hlen htag
    have hnil := hlone ⟨i, List.mem_range.mpr hi, hidle⟩ hlen htag
    simpa [vgicContextRestoreArp] using hnil

/-! ## One list register changes -/

/-- Writing one list register replaces what it contributed to the places. -/
theorem places_setLr (s : VgicSlice) (hnr : s.ctxt.nrLr ≤ 16) {i : Nat}
    (hi : i < s.ctxt.nrLr) (lr : Lr) :
    ∃ rest, (places s).Perm (keep (s.ich.lrAt i) ++ rest) ∧
      (places { s with ich := s.ich.setLr i lr }).Perm (keep lr ++ rest) := by
  have hmem : i ∈ List.range s.ctxt.nrLr := List.mem_range.mpr hi
  refine ⟨lrs s.ich ((List.range s.ctxt.nrLr).erase i) ++ entries s.gicr, ?_, ?_⟩
  · rw [places, ← List.append_assoc]
    exact (lrs_perm_erase s.ich hmem).append_right _
  · rw [places, ← List.append_assoc]
    exact (lrs_setLr_perm s.ich hmem List.nodup_range (by omega) lr).append_right _

/-! ## Concrete values -/

/-- A redistributor as `vgicr_init` leaves it in a zeroed block. -/
def zeroGicr : Vgicr :=
  { ctlr := 0, iidr := 0, typer := 0
    virqs := Vector.replicate 32
      { vINIID := 0, pINTID := 0, state := .inactive, prio := 0, cfg := 0, inLr := false
        enable := false, hw := false }
    lrList := Vector.replicate gicLrListNum 0, tail := 0 }

def idleSlice (nrLr : Nat) : VgicSlice :=
  { ich := ⟨Vector.replicate 16 0, 0, 0, 0, 0, 0, 0, 0⟩
    gicr := vgicrInit zeroGicr 0 0 1 0
    ctxt := ⟨0, 0, 0, 0, ichHcrEn, 0, nrLr, 5⟩ }

/-- An enabled shared peripheral interrupt. -/
def spi (n : BitVec 16) : Virq :=
  { vINIID := n, pINTID := 0, state := .inactive, prio := 0xA0, cfg := 0, inLr := false
    enable := true, hw := false }

end RtHypervisor.Ports.LrList
