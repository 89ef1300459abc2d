import RtHypervisor.Ports.LrListSpec

/-!
# Moving entries between list registers and `lr_list`

Specifications of `vgic_context_save_lr` and `vgic_context_restore_lr`.
`places` collects everything a vCPU holds: the non-idle list
registers and the list entries.  Two kinds of facts are stated for each
function.

* *Origin*, without side conditions: whatever is found afterwards was there
  before, up to the tag bit (`SavedFrom.origin`, `RestoredFrom.origin`).
* *Conservation*: the multiset of `(vINTID, state)` pairs is preserved.
  Restoring always conserves; saving does so when the list has room and the
  registers hold distinct interrupts, since an insertion that is refused loses
  the register it came from.
-/

namespace RtHypervisor.Ports.LrList

open RtHypervisor.Verified.Run
open RtHypervisor.Verified.PrefixArray
open RtHypervisor.Ports.ListRegister

/-- A list register contributes its value unless it is idle. -/
def keep (lr : Lr) : List Lr := if lrIdle lr then [] else [lr]

/-- The non-idle values among the list registers `is`. -/
def lrs (h : IchRegs) (is : List Nat) : List Lr := is.flatMap fun i => keep (h.lrAt i)

/-- Everything the vCPU of the slice holds. -/
def places (s : VgicSlice) : List Lr :=
  lrs s.ich (List.range s.ctxt.nrLr) ++ entries s.gicr

/-- What identifies an interrupt and its progress. -/
def key (lr : Lr) : Lr × BitVec 2 := (getLrVint lr, lrState lr)

@[simp] theorem key_tag (lr : Lr) : key (lr ||| lrTag) = key lr := by
  simp [key]

theorem mem_keep {lr e : Lr} : e ∈ keep lr ↔ e = lr ∧ lrIdle lr = false := by
  unfold keep
  cases h : lrIdle lr <;> simp

theorem mem_lrs {h : IchRegs} {is : List Nat} {e : Lr} :
    e ∈ lrs h is ↔ ∃ i ∈ is, h.lrAt i = e ∧ lrIdle e = false := by
  simp only [lrs, List.mem_flatMap, mem_keep]
  constructor
  · rintro ⟨i, hi, rfl, hidle⟩
    exact ⟨i, hi, rfl, hidle⟩
  · rintro ⟨i, hi, rfl, hidle⟩
    exact ⟨i, hi, rfl, hidle⟩

theorem lrs_congr {h h' : IchRegs} {is : List Nat}
    (heq : ∀ i ∈ is, h'.lrAt i = h.lrAt i) : lrs h' is = lrs h is := by
  induction is with
  | nil => rfl
  | cons i is ih =>
      have htail := ih fun j hj => heq j (List.mem_cons_of_mem i hj)
      simp only [lrs, List.flatMap_cons] at htail ⊢
      rw [htail, heq i (List.mem_cons_self ..)]

theorem lrs_eq_nil {h : IchRegs} {is : List Nat}
    (hidle : ∀ i ∈ is, lrIdle (h.lrAt i) = true) : lrs h is = [] := by
  induction is with
  | nil => rfl
  | cons i is ih =>
      have htail := ih fun j hj => hidle j (List.mem_cons_of_mem i hj)
      have hhead : lrIdle (h.lrAt i) = true := hidle i (List.mem_cons_self ..)
      simp only [lrs, List.flatMap_cons] at htail ⊢
      rw [htail, keep, if_pos hhead]
      rfl

theorem lrs_cons_idle {h : IchRegs} {i : Nat} {is : List Nat}
    (hidle : lrIdle (h.lrAt i) = true) : lrs h (i :: is) = lrs h is := by
  simp [lrs, keep, hidle]

theorem lrs_cons_live {h : IchRegs} {i : Nat} {is : List Nat}
    (hlive : lrIdle (h.lrAt i) = false) : lrs h (i :: is) = h.lrAt i :: lrs h is := by
  simp [lrs, keep, hlive]

/-- Single out one register of a duplicate-free index list. -/
theorem lrs_perm_erase (h : IchRegs) {is : List Nat} {i : Nat} (hi : i ∈ is) :
    (lrs h is).Perm (keep (h.lrAt i) ++ lrs h (is.erase i)) := by
  have hperm := (List.perm_cons_erase hi).flatMap_right fun j => keep (h.lrAt j)
  simpa only [lrs, List.flatMap_cons] using hperm

/-- Writing one register replaces its contribution. -/
theorem lrs_setLr_perm (h : IchRegs) {is : List Nat} {i : Nat} (hi : i ∈ is)
    (hnd : is.Nodup) (h16 : i < 16) (lr : Lr) :
    (lrs (h.setLr i lr) is).Perm (keep lr ++ lrs h (is.erase i)) := by
  have hperm := lrs_perm_erase (h.setLr i lr) hi
  rw [lrAt_setLr_self h h16] at hperm
  have hrest : lrs (h.setLr i lr) (is.erase i) = lrs h (is.erase i) := by
    apply lrs_congr
    intro j hj
    have hne : j ≠ i := fun heq => (hnd.mem_erase_iff.mp hj).1 heq
    exact lrAt_setLr_ne h hne lr
  rwa [hrest] at hperm

/-- The side conditions under which the move loops never fault. -/
structure Ready (s : VgicSlice) : Prop where
  bounds : InBounds s.gicr
  nrLr_le : s.ctxt.nrLr ≤ 16

/-! ## Saving -/

/-- The values a save can add to the list: those not queued yet. -/
def fresh (g : Vgicr) (vals : List Lr) : List Lr :=
  vals.filter fun lr => !decide (Queued g lr)

/-- What one save over the registers `is` does. -/
structure SavedFrom (s s' : VgicSlice) (is : List Nat) : Prop where
  bounds : InBounds s'.gicr
  ctxt_eq : s'.ctxt = s.ctxt
  virqs_eq : s'.gicr.virqs = s.gicr.virqs
  others : ∀ j, j ∉ is → s'.ich.lrAt j = s.ich.lrAt j
  idle : ∀ i ∈ is, lrIdle (s'.ich.lrAt i) = true
  origin : ∀ e ∈ entries s'.gicr,
    e ∈ entries s.gicr ∨ ∃ lr ∈ lrs s.ich is, e = lr ||| lrTag
  conserved : ((lrs s.ich is).map getLrVint).Nodup →
    (entries s.gicr).length + (fresh s.gicr (lrs s.ich is)).length ≤ gicLrListNum →
    ((entries s'.gicr).map key).Perm
      ((entries s.gicr).map key ++ (fresh s.gicr (lrs s.ich is)).map key)

theorem SavedFrom.refl_nil {s : VgicSlice} (hb : InBounds s.gicr) : SavedFrom s s [] where
  bounds := hb
  ctxt_eq := rfl
  virqs_eq := rfl
  others := fun _ _ => rfl
  idle := by simp
  origin := fun e he => Or.inl he
  conserved := by
    intro _ _
    simp [lrs, fresh]

/-- An idle register is skipped. -/
theorem SavedFrom.skip {s s' : VgicSlice} {i : Nat} {is : List Nat} (hi : i ∉ is)
    (hidle : lrIdle (s.ich.lrAt i) = true) (h : SavedFrom s s' is) :
    SavedFrom s s' (i :: is) where
  bounds := h.bounds
  ctxt_eq := h.ctxt_eq
  virqs_eq := h.virqs_eq
  others := fun j hj => h.others j fun hmem => hj (List.mem_cons_of_mem i hmem)
  idle := by
    intro j hj
    rcases List.mem_cons.mp hj with rfl | hj
    · rw [h.others j hi, hidle]
    · exact h.idle j hj
  origin := by
    intro e he
    rcases h.origin e he with hold | ⟨lr, hlr, rfl⟩
    · exact Or.inl hold
    · refine Or.inr ⟨lr, ?_, rfl⟩
      obtain ⟨j, hj, heq, hid⟩ := mem_lrs.mp hlr
      exact mem_lrs.mpr ⟨j, List.mem_cons_of_mem i hj, heq, hid⟩
  conserved := by
    rw [lrs_cons_idle hidle]
    exact h.conserved

/-- What happens to a non-idle register: its value is appended, or refused and
lost. -/
structure MovedOut (s s₁ : VgicSlice) (i : Nat) : Prop where
  bounds : InBounds s₁.gicr
  ctxt_eq : s₁.ctxt = s.ctxt
  virqs_eq : s₁.gicr.virqs = s.gicr.virqs
  others : ∀ j, j ≠ i → s₁.ich.lrAt j = s.ich.lrAt j
  idle : lrIdle (s₁.ich.lrAt i) = true
  fate : (¬Queued s.gicr (s.ich.lrAt i) ∧
      entries s₁.gicr = entries s.gicr ++ [s.ich.lrAt i ||| lrTag]) ∨
    ((Queued s.gicr (s.ich.lrAt i) ∨ (entries s.gicr).length = gicLrListNum) ∧
      entries s₁.gicr = entries s.gicr)

theorem saveLrStep_idle [Bitmap] {elrsr : BitVec 64} {s : VgicSlice} {i : Nat}
    (h : bitGet elrsr i = true) : saveLrStep elrsr s i = .ok s := by
  simp only [saveLrStep, h, if_true]
  rfl

/-- A non-idle register is inserted, or refused with a maintenance request. -/
theorem saveLrStep_live [Bitmap] {elrsr : BitVec 64} {s : VgicSlice} {i : Nat}
    (hb : InBounds s.gicr) (h : bitGet elrsr i = false) (hnr : i < s.ctxt.nrLr) :
    saveLrStep elrsr s i =
      if hroom : s.gicr.tail < gicLrListNum ∧ ¬Queued s.gicr (s.ich.lrAt i) then
        .ok ⟨s.ich.setLr i 0, pushed s.gicr (s.ich.lrAt i) hroom.1, s.ctxt⟩
      else .ok { s with ich := (vgicCallMaintenanceIrq s).ich.setLr i 0 } := by
  have hread : readLr s i = .ok (s.ich.lrAt i) := by
    simp only [readLr, hnr, decide_true, check_true, ok_bind]
    rfl
  split
  · rename_i hroom
    simp only [saveLrStep, h, hread, ok_bind, vgicLrListInsert_accepted hroom.1 hroom.2,
      writeLr, hnr, decide_true, check_true]
    rfl
  · rename_i hroom
    have hrefused : s.gicr.tail = gicLrListNum ∨ Queued s.gicr (s.ich.lrAt i) := by
      by_cases hlt : s.gicr.tail < gicLrListNum
      · exact Or.inr (by_contra fun hq => hroom ⟨hlt, hq⟩)
      · have := hb.tail_le
        exact Or.inl (by omega)
    simp only [saveLrStep, h, hread, ok_bind,
      vgicLrListInsert_refused hb.tail_le hrefused, writeLr, vgicCallMaintenanceIrq,
      hnr, decide_true, check_true]
    rfl

theorem saveLrStep_moved [Bitmap] {elrsr : BitVec 64} {s : VgicSlice} {i : Nat}
    (hb : InBounds s.gicr) (h : bitGet elrsr i = false) (hnr : i < s.ctxt.nrLr)
    (h16 : i < 16) : ∃ s₁, saveLrStep elrsr s i = .ok s₁ ∧ MovedOut s s₁ i := by
  rw [saveLrStep_live hb h hnr]
  split
  · rename_i hroom
    obtain ⟨hlt, hnew⟩ := hroom
    refine ⟨_, rfl, ?_⟩
    exact
      { bounds := hb.pushed _ hlt
        ctxt_eq := rfl
        virqs_eq := rfl
        others := fun j hj => lrAt_setLr_ne s.ich hj 0
        idle := by
          show lrIdle ((s.ich.setLr i 0).lrAt i) = true
          rw [lrAt_setLr_self s.ich h16, lrIdle_zero]
        fate := Or.inl ⟨hnew, entries_pushed s.gicr _ hlt⟩ }
  · rename_i hroom
    have hrefused : Queued s.gicr (s.ich.lrAt i) ∨ (entries s.gicr).length = gicLrListNum := by
      by_cases hq : Queued s.gicr (s.ich.lrAt i)
      · exact Or.inl hq
      · have hge : ¬s.gicr.tail < gicLrListNum := fun hlt => hroom ⟨hlt, hq⟩
        have hle := hb.tail_le
        rw [hb.length_entries]
        exact Or.inr (by omega)
    refine ⟨_, rfl, ?_⟩
    exact
      { bounds := hb
        ctxt_eq := rfl
        virqs_eq := rfl
        others := fun j hj => lrAt_setLr_ne _ hj 0
        idle := by
          show lrIdle (((vgicCallMaintenanceIrq s).ich.setLr i 0).lrAt i) = true
          rw [lrAt_setLr_self _ h16, lrIdle_zero]
        fate := Or.inr ⟨hrefused, rfl⟩ }

private theorem fresh_pushed {g g₁ : Vgicr} {lr : Lr} {vals : List Lr}
    (hent : entries g₁ = entries g ++ [lr ||| lrTag])
    (hne : ∀ x ∈ vals, getLrVint x ≠ getLrVint lr) : fresh g₁ vals = fresh g vals := by
  apply List.filter_congr
  intro x hx
  have hiff : Queued g₁ x ↔ Queued g x := by
    simp only [Queued, hent, List.mem_append, List.mem_singleton]
    constructor
    · rintro ⟨e, hold | rfl, heq⟩
      · exact ⟨e, hold, heq⟩
      · rw [getLrVint_tag] at heq
        exact absurd heq.symm (hne x hx)
    · rintro ⟨e, hold, heq⟩
      exact ⟨e, Or.inl hold, heq⟩
  simp only [hiff]

/-- Saving one non-idle register and then the rest. -/
theorem SavedFrom.move {s s₁ s' : VgicSlice} {i : Nat} {is : List Nat} (hi : i ∉ is)
    (hlive : lrIdle (s.ich.lrAt i) = false) (hm : MovedOut s s₁ i)
    (h : SavedFrom s₁ s' is) : SavedFrom s s' (i :: is) := by
  have hrest : lrs s₁.ich is = lrs s.ich is :=
    lrs_congr fun j hj => hm.others j fun heq => hi (heq ▸ hj)
  have hcons : lrs s.ich (i :: is) = s.ich.lrAt i :: lrs s.ich is := lrs_cons_live hlive
  refine
    { bounds := h.bounds
      ctxt_eq := h.ctxt_eq.trans hm.ctxt_eq
      virqs_eq := h.virqs_eq.trans hm.virqs_eq
      others := ?_
      idle := ?_
      origin := ?_
      conserved := ?_ }
  · intro j hj
    have hji : j ≠ i := fun heq => hj (heq ▸ List.mem_cons_self ..)
    rw [h.others j fun hmem => hj (List.mem_cons_of_mem i hmem), hm.others j hji]
  · intro j hj
    rcases List.mem_cons.mp hj with rfl | hj
    · rw [h.others j hi, hm.idle]
    · exact h.idle j hj
  · intro e he
    rw [hcons]
    rcases h.origin e he with hold | ⟨lr, hlr, rfl⟩
    · rcases hm.fate with ⟨-, hent⟩ | ⟨-, hent⟩
      · rw [hent] at hold
        rcases List.mem_append.mp hold with hold | hnew
        · exact Or.inl hold
        · exact Or.inr ⟨_, List.mem_cons_self .., List.mem_singleton.mp hnew⟩
      · exact Or.inl (hent ▸ hold)
    · rw [hrest] at hlr
      exact Or.inr ⟨lr, List.mem_cons_of_mem _ hlr, rfl⟩
  · intro hnd hroom
    rw [hcons, List.map_cons, List.nodup_cons] at hnd
    have hne : ∀ x ∈ lrs s.ich is, getLrVint x ≠ getLrVint (s.ich.lrAt i) := by
      intro x hx heq
      exact hnd.1 (heq ▸ List.mem_map_of_mem hx)
    have hind := h.conserved (by rw [hrest]; exact hnd.2)
    rw [hrest] at hind
    rw [hcons] at hroom ⊢
    rcases hm.fate with ⟨hnew, hent⟩ | ⟨hq, hent⟩
    · -- accepted: the value is the first of the fresh ones
      have hfresh : fresh s.gicr (s.ich.lrAt i :: lrs s.ich is) =
          s.ich.lrAt i :: fresh s.gicr (lrs s.ich is) := by
        simp [fresh, hnew]
      rw [fresh_pushed hent hne] at hind
      rw [hfresh] at hroom ⊢
      have hlen : (entries s₁.gicr).length = (entries s.gicr).length + 1 := by
        simp [hent]
      have hperm := hind (by rw [hlen]; simp only [List.length_cons] at hroom; omega)
      rw [hent] at hperm
      simpa using hperm
    · -- refused because queued; a full list leaves no room for a fresh value
      have hsame : fresh s₁.gicr (lrs s.ich is) = fresh s.gicr (lrs s.ich is) := by
        apply List.filter_congr
        intro x _
        have hiff : Queued s₁.gicr x ↔ Queued s.gicr x := by simp only [Queued, hent]
        simp only [hiff]
      rw [hsame, hent] at hind
      by_cases hqueued : Queued s.gicr (s.ich.lrAt i)
      · have hfresh : fresh s.gicr (s.ich.lrAt i :: lrs s.ich is) =
            fresh s.gicr (lrs s.ich is) := by
          simp [fresh, hqueued]
        rw [hfresh] at hroom ⊢
        exact hind hroom
      · have hfull : (entries s.gicr).length = gicLrListNum := hq.resolve_left hqueued
        have hfresh : fresh s.gicr (s.ich.lrAt i :: lrs s.ich is) =
            s.ich.lrAt i :: fresh s.gicr (lrs s.ich is) := by
          simp [fresh, hqueued]
        rw [hfresh, hfull, List.length_cons] at hroom
        omega

/-- The save loop over a duplicate-free list of registers. -/
theorem saveLr_foldlM [Bitmap] {elrsr : BitVec 64} {is : List Nat} :
    ∀ {s : VgicSlice}, InBounds s.gicr → is.Nodup →
      (∀ i ∈ is, i < s.ctxt.nrLr ∧ i < 16 ∧
        bitGet elrsr i = lrIdle (s.ich.lrAt i)) →
      ∃ s', is.foldlM (saveLrStep elrsr) s = .ok s' ∧ SavedFrom s s' is := by
  induction is with
  | nil => exact fun hb _ _ => ⟨_, rfl, SavedFrom.refl_nil hb⟩
  | cons i is ih =>
      intro s hb hnd hidx
      rw [List.nodup_cons] at hnd
      obtain ⟨hnr, h16, hbit⟩ := hidx i (List.mem_cons_self ..)
      rw [List.foldlM_cons]
      cases hidle : lrIdle (s.ich.lrAt i) with
      | true =>
          obtain ⟨s', hrun, hs'⟩ := ih hb hnd.2 fun j hj =>
            hidx j (List.mem_cons_of_mem i hj)
          refine ⟨s', ?_, hs'.skip hnd.1 hidle⟩
          rw [saveLrStep_idle (hbit.trans hidle), ok_bind, hrun]
      | false =>
          obtain ⟨s₁, hstep, hm⟩ := saveLrStep_moved hb (hbit.trans hidle) hnr h16
          obtain ⟨s', hrun, hs'⟩ := ih hm.bounds hnd.2 fun j hj => by
            obtain ⟨hjnr, hj16, hjbit⟩ := hidx j (List.mem_cons_of_mem i hj)
            have hji : j ≠ i := fun heq => hnd.1 (heq ▸ hj)
            rw [hm.ctxt_eq, hm.others j hji]
            exact ⟨hjnr, hj16, hjbit⟩
          exact ⟨s', by rw [hstep, ok_bind, hrun], hs'.move hnd.1 hidle hm⟩

theorem register_index [Bitmap] {s : VgicSlice} (h : Ready s) :
    ∀ i ∈ List.range s.ctxt.nrLr, i < s.ctxt.nrLr ∧ i < 16 ∧
      bitGet (readIdleLrReg s.ich) i = lrIdle (s.ich.lrAt i) := by
  intro i hi
  have hlt : i < s.ctxt.nrLr := List.mem_range.mp hi
  have h16 : i < 16 := Nat.lt_of_lt_of_le hlt h.nrLr_le
  exact ⟨hlt, h16, bitGet_readIdleLrReg s.ich h16⟩

theorem vgicContextSaveLr_spec [Bitmap] {s : VgicSlice} (h : Ready s) :
    ∃ s', vgicContextSaveLr s s.ctxt.nrLr = .ok s' ∧
      SavedFrom s s' (List.range s.ctxt.nrLr) :=
  saveLr_foldlM h.bounds List.nodup_range (register_index h)

/-! ## Restoring -/

/-- What one restore over the registers `is` does. -/
structure RestoredFrom (s s' : VgicSlice) (is : List Nat) : Prop where
  bounds : InBounds s'.gicr
  ctxt_eq : s'.ctxt = s.ctxt
  virqs_eq : s'.gicr.virqs = s.gicr.virqs
  others : ∀ j, j ∉ is → s'.ich.lrAt j = s.ich.lrAt j
  busy : ∀ i ∈ is, lrIdle (s.ich.lrAt i) = false → s'.ich.lrAt i = s.ich.lrAt i
  source : ∀ i ∈ is, s'.ich.lrAt i = s.ich.lrAt i ∨ s'.ich.lrAt i ∈ entries s.gicr
  origin : ∀ e ∈ entries s'.gicr, e ∈ entries s.gicr
  conserved : (∀ e ∈ entries s.gicr, lrIdle e = false) →
    (lrs s'.ich is ++ entries s'.gicr).Perm (lrs s.ich is ++ entries s.gicr)

theorem RestoredFrom.refl {s : VgicSlice} (hb : InBounds s.gicr) (is : List Nat) :
    RestoredFrom s s is where
  bounds := hb
  ctxt_eq := rfl
  virqs_eq := rfl
  others := fun _ _ => rfl
  busy := fun _ _ _ => rfl
  source := fun _ _ => Or.inl rfl
  origin := fun _ he => he
  conserved := fun _ => .refl _

/-- A register that is in use is left alone. -/
theorem RestoredFrom.skip {s s' : VgicSlice} {i : Nat} {is : List Nat} (hi : i ∉ is)
    (h : RestoredFrom s s' is) : RestoredFrom s s' (i :: is) := by
  have hsame : s'.ich.lrAt i = s.ich.lrAt i := h.others i hi
  refine
    { bounds := h.bounds
      ctxt_eq := h.ctxt_eq
      virqs_eq := h.virqs_eq
      others := fun j hj => h.others j fun hmem => hj (List.mem_cons_of_mem i hmem)
      busy := ?_
      source := ?_
      origin := h.origin
      conserved := ?_ }
  · intro j hj hlive
    rcases List.mem_cons.mp hj with rfl | hj
    · exact hsame
    · exact h.busy j hj hlive
  · intro j hj
    rcases List.mem_cons.mp hj with rfl | hj
    · exact Or.inl hsame
    · exact h.source j hj
  · intro hlive
    have hperm := (h.conserved hlive).append_left (keep (s.ich.lrAt i))
    simpa only [lrs, List.flatMap_cons, hsame, List.append_assoc] using hperm

/-- What loading list entry `e` into the idle register `i` does. -/
structure MovedIn (s s₁ : VgicSlice) (i : Nat) (e : Lr) : Prop where
  bounds : InBounds s₁.gicr
  ctxt_eq : s₁.ctxt = s.ctxt
  virqs_eq : s₁.gicr.virqs = s.gicr.virqs
  others : ∀ j, j ≠ i → s₁.ich.lrAt j = s.ich.lrAt j
  loaded : s₁.ich.lrAt i = e
  taken : (entries s.gicr).Perm (e :: entries s₁.gicr)

theorem moveIn_spec {s : VgicSlice} (hb : InBounds s.gicr) {i rm : Nat}
    (hnr : i < s.ctxt.nrLr) (h16 : i < 16) (hrm : rm < gicLrListNum)
    (htag : getLrRes0 s.gicr.lrList[rm] ≠ 0) :
    ∃ s₁ g, writeLr s i s.gicr.lrList[rm] = .ok s₁ ∧
      vgicLrListRemove s₁.gicr rm = .ok g ∧
      MovedIn s { s₁ with gicr := g } i s.gicr.lrList[rm] := by
  obtain ⟨g, hrun, hbg, -, hvirqs, hperm⟩ :=
    vgicLrListRemove_spec hb (hb.lt_tail hrm htag) hrm
  refine ⟨{ s with ich := s.ich.setLr i s.gicr.lrList[rm] }, g, ?_, hrun, ?_⟩
  · simp only [writeLr, hnr, decide_true, check_true, ok_bind]
    rfl
  · exact
      { bounds := hbg
        ctxt_eq := rfl
        virqs_eq := hvirqs
        others := fun j hj => lrAt_setLr_ne s.ich hj _
        loaded := lrAt_setLr_self s.ich h16 _
        taken := hperm }

/-- Loading one idle register and then the rest. -/
theorem RestoredFrom.move {s s₁ s' : VgicSlice} {i : Nat} {is : List Nat} {e : Lr}
    (hi : i ∉ is) (hidle : lrIdle (s.ich.lrAt i) = true) (hm : MovedIn s s₁ i e)
    (h : RestoredFrom s₁ s' is) : RestoredFrom s s' (i :: is) := by
  have hloaded : s'.ich.lrAt i = e := (h.others i hi).trans hm.loaded
  have hsame : ∀ j ∈ is, s₁.ich.lrAt j = s.ich.lrAt j :=
    fun j hj => hm.others j fun heq => hi (heq ▸ hj)
  have hold : ∀ x ∈ entries s₁.gicr, x ∈ entries s.gicr :=
    fun x hx => hm.taken.mem_iff.mpr (List.mem_cons_of_mem e hx)
  refine
    { bounds := h.bounds
      ctxt_eq := h.ctxt_eq.trans hm.ctxt_eq
      virqs_eq := h.virqs_eq.trans hm.virqs_eq
      others := ?_
      busy := ?_
      source := ?_
      origin := fun x hx => hold x (h.origin x hx)
      conserved := ?_ }
  · intro j hj
    have hji : j ≠ i := fun heq => hj (heq ▸ List.mem_cons_self ..)
    rw [h.others j fun hmem => hj (List.mem_cons_of_mem i hmem), hm.others j hji]
  · intro j hj hlive
    rcases List.mem_cons.mp hj with rfl | hj
    · rw [hidle] at hlive
      cases hlive
    · rw [h.busy j hj (by rw [hsame j hj]; exact hlive), hsame j hj]
  · intro j hj
    rcases List.mem_cons.mp hj with rfl | hj
    · right
      rw [hloaded]
      exact hm.taken.mem_iff.mpr (List.mem_cons_self ..)
    · rcases h.source j hj with heq | hmem
      · exact Or.inl (heq.trans (hsame j hj))
      · exact Or.inr (hold _ hmem)
  · intro hlive
    have he : lrIdle e = false :=
      hlive e (hm.taken.mem_iff.mpr (List.mem_cons_self ..))
    have hperm := h.conserved fun x hx => hlive x (hold x hx)
    rw [lrs_congr hsame] at hperm
    have hafter : lrs s'.ich (i :: is) = e :: lrs s'.ich is := by
      rw [lrs_cons_live (by rw [hloaded, he]), hloaded]
    rw [hafter, lrs_cons_idle hidle]
    calc (e :: lrs s'.ich is ++ entries s'.gicr).Perm
          (e :: (lrs s.ich is ++ entries s₁.gicr)) := hperm.cons e
      _ |>.Perm (lrs s.ich is ++ e :: entries s₁.gicr) := List.perm_middle.symm
      _ |>.Perm (lrs s.ich is ++ entries s.gicr) := hm.taken.symm.append_left _

section RestoreLoop

variable {elrsr : BitVec 64} {s : VgicSlice} {i rm : Nat} {is : List Nat}

theorem restoreLrFrom_busy [Bitmap] (h : bitGet elrsr i = false) :
    restoreLrFrom elrsr (i :: is) rm s = restoreLrFrom elrsr is rm s := by
  rw [restoreLrFrom, h]
  rfl

theorem restoreLrFrom_break [Bitmap] (h : bitGet elrsr i = true) (hrm : rm < gicLrListNum)
    (htag : getLrRes0 s.gicr.lrList[rm] = 0) :
    restoreLrFrom elrsr (i :: is) rm s = .ok s := by
  simp only [restoreLrFrom, h, readAt_ok _ hrm, ok_bind, htag, if_true]
  rfl

theorem restoreLrFrom_load [Bitmap] (h : bitGet elrsr i = true) (hrm : rm < gicLrListNum)
    (htag : getLrRes0 s.gicr.lrList[rm] ≠ 0) {s₁ : VgicSlice} {g : Vgicr}
    (hwrite : writeLr s i s.gicr.lrList[rm] = .ok s₁)
    (hremove : vgicLrListRemove s₁.gicr rm = .ok g) :
    restoreLrFrom elrsr (i :: is) rm s =
      restoreLrFrom elrsr is (rm + 1) { s₁ with gicr := g } := by
  simp only [restoreLrFrom, h, readAt_ok _ hrm, ok_bind, htag, if_true, if_false, hwrite,
    hremove]

end RestoreLoop

/-- The restore loop over a duplicate-free list of registers. -/
theorem restoreLrFrom_spec [Bitmap] {elrsr : BitVec 64} {is : List Nat} :
    ∀ {s : VgicSlice} (rm : Nat), InBounds s.gicr → is.Nodup →
      rm + is.length ≤ gicLrListNum →
      (∀ i ∈ is, i < s.ctxt.nrLr ∧ i < 16 ∧
        bitGet elrsr i = lrIdle (s.ich.lrAt i)) →
      ∃ s', restoreLrFrom elrsr is rm s = .ok s' ∧ RestoredFrom s s' is := by
  induction is with
  | nil => exact fun _ hb _ _ _ => ⟨_, rfl, RestoredFrom.refl hb []⟩
  | cons i is ih =>
      intro s rm hb hnd hroom hidx
      rw [List.nodup_cons] at hnd
      rw [List.length_cons] at hroom
      have hrm : rm < gicLrListNum := by omega
      obtain ⟨hnr, h16, hbit⟩ := hidx i (List.mem_cons_self ..)
      cases hidle : lrIdle (s.ich.lrAt i) with
      | false =>
          obtain ⟨s', hrun, hs'⟩ := ih rm hb hnd.2 (by omega)
            fun j hj => hidx j (List.mem_cons_of_mem i hj)
          exact ⟨s', by rw [restoreLrFrom_busy (hbit.trans hidle), hrun], hs'.skip hnd.1⟩
      | true =>
          by_cases htag : getLrRes0 s.gicr.lrList[rm] = 0
          · exact ⟨s, restoreLrFrom_break (hbit.trans hidle) hrm htag,
              RestoredFrom.refl hb _⟩
          · obtain ⟨s₁, g, hwrite, hremove, hm⟩ := moveIn_spec hb hnr h16 hrm htag
            obtain ⟨s', hrun, hs'⟩ := ih (rm + 1) hm.bounds hnd.2 (by omega)
              fun j hj => by
                obtain ⟨hjnr, hj16, hjbit⟩ := hidx j (List.mem_cons_of_mem i hj)
                have hji : j ≠ i := fun heq => hnd.1 (heq ▸ hj)
                rw [hm.ctxt_eq, hm.others j hji]
                exact ⟨hjnr, hj16, hjbit⟩
            exact ⟨s', by rw [restoreLrFrom_load (hbit.trans hidle) hrm htag hwrite hremove,
              hrun], hs'.move hnd.1 hidle hm⟩

/-- A lone tagged entry is loaded as soon as the loop meets an idle register. -/
theorem restoreLrFrom_lone [Bitmap] {elrsr : BitVec 64} {is : List Nat} :
    ∀ {s s' : VgicSlice}, InBounds s.gicr → is.Nodup → is.length < gicLrListNum →
      (∀ i ∈ is, i < s.ctxt.nrLr ∧ i < 16 ∧
        bitGet elrsr i = lrIdle (s.ich.lrAt i)) →
      (∃ i ∈ is, lrIdle (s.ich.lrAt i) = true) →
      (entries s.gicr).length ≤ 1 → (∀ e ∈ entries s.gicr, getLrRes0 e ≠ 0) →
      restoreLrFrom elrsr is 0 s = .ok s' → entries s'.gicr = [] := by
  induction is with
  | nil => simp
  | cons i is ih =>
      intro s s' hb hnd hroom hidx hex hlone htagged hrun
      rw [List.nodup_cons] at hnd
      rw [List.length_cons] at hroom
      have hzero : 0 < gicLrListNum := by decide
      obtain ⟨hnr, h16, hbit⟩ := hidx i (List.mem_cons_self ..)
      have hidx' : ∀ j ∈ is, j < s.ctxt.nrLr ∧ j < 16 ∧
          bitGet elrsr j = lrIdle (s.ich.lrAt j) :=
        fun j hj => hidx j (List.mem_cons_of_mem i hj)
      cases hidle : lrIdle (s.ich.lrAt i) with
      | false =>
          rw [restoreLrFrom_busy (hbit.trans hidle)] at hrun
          refine ih hb hnd.2 (by omega) hidx' ?_ hlone htagged hrun
          obtain ⟨j, hj, hjidle⟩ := hex
          rcases List.mem_cons.mp hj with rfl | hj
          · rw [hidle] at hjidle
            cases hjidle
          · exact ⟨j, hj, hjidle⟩
      | true =>
          by_cases htag : getLrRes0 s.gicr.lrList[0] = 0
          · -- an untagged front cell can only be a blank one: the list is empty
            rw [restoreLrFrom_break (hbit.trans hidle) hzero htag] at hrun
            cases hrun
            rw [List.eq_nil_iff_length_eq_zero, hb.length_entries]
            by_contra htail
            have hmem : s.gicr.lrList[0] ∈ entries s.gicr :=
              getElem_mem_pre _ hzero (by omega)
            exact htagged _ hmem htag
          · obtain ⟨s₁, g, hwrite, hremove, hm⟩ := moveIn_spec hb hnr h16 hzero htag
            rw [restoreLrFrom_load (hbit.trans hidle) hzero htag hwrite hremove] at hrun
            have hempty : entries g = [] := by
              have hlen : (entries s.gicr).length = (entries g).length + 1 :=
                hm.taken.length_eq
              exact List.eq_nil_iff_length_eq_zero.mpr (by omega)
            have hidx₁ : ∀ j ∈ is, j < ({ s₁ with gicr := g } : VgicSlice).ctxt.nrLr ∧
                j < 16 ∧ bitGet elrsr j =
                  lrIdle (({ s₁ with gicr := g } : VgicSlice).ich.lrAt j) := by
              intro j hj
              obtain ⟨hjnr, hj16, hjbit⟩ := hidx' j hj
              have hji : j ≠ i := fun heq => hnd.1 (heq ▸ hj)
              rw [hm.ctxt_eq, hm.others j hji]
              exact ⟨hjnr, hj16, hjbit⟩
            obtain ⟨s'', hrun', hs''⟩ := restoreLrFrom_spec (0 + 1) hm.bounds hnd.2
              (by omega) hidx₁
            rw [hrun] at hrun'
            cases hrun'
            apply List.eq_nil_iff_forall_not_mem.mpr
            intro e he
            have hmem := hs''.origin e he
            rw [hempty] at hmem
            cases hmem

/-- Sorting the list afterwards changes none of what a restore promises. -/
theorem RestoredFrom.sorted {s s₁ : VgicSlice} {is : List Nat} (h : RestoredFrom s s₁ is)
    {g : Vgicr} (hb : InBounds g) (hvirqs : g.virqs = s₁.gicr.virqs)
    (hperm : (entries g).Perm (entries s₁.gicr)) :
    RestoredFrom s { s₁ with gicr := g } is where
  bounds := hb
  ctxt_eq := h.ctxt_eq
  virqs_eq := hvirqs.trans h.virqs_eq
  others := h.others
  busy := h.busy
  source := h.source
  origin := fun e he => h.origin e (hperm.mem_iff.mp he)
  conserved := fun hlive => (hperm.append_left _).trans (h.conserved hlive)

theorem vgicContextRestoreLr_spec [Bitmap] {s : VgicSlice} (h : Ready s) :
    ∃ s', vgicContextRestoreLr s s.ctxt.nrLr = .ok s' ∧
      RestoredFrom s s' (List.range s.ctxt.nrLr) ∧
      ((∃ i ∈ List.range s.ctxt.nrLr, lrIdle (s.ich.lrAt i) = true) →
        (entries s.gicr).length ≤ 1 → (∀ e ∈ entries s.gicr, getLrRes0 e ≠ 0) →
        entries s'.gicr = []) := by
  have hlen : (List.range s.ctxt.nrLr).length < gicLrListNum := by
    have := h.nrLr_le
    simp only [List.length_range, gicLrListNum]
    omega
  obtain ⟨s₁, hloop, hs₁⟩ := restoreLrFrom_spec 0 h.bounds List.nodup_range
    (by omega) (register_index h)
  obtain ⟨g, hsort, hbg, -, hvirqs, hperm⟩ := vgicLrListSort_spec hs₁.bounds
  refine ⟨{ s₁ with gicr := g }, ?_, hs₁.sorted hbg hvirqs hperm, ?_⟩
  · simp only [vgicContextRestoreLr, hloop, hsort, ok_bind]
    rfl
  · intro hex hlone htagged
    have hnil := restoreLrFrom_lone h.bounds List.nodup_range hlen (register_index h) hex
      hlone htagged hloop
    rw [hnil] at hperm
    exact hperm.eq_nil

end RtHypervisor.Ports.LrList
