import RtHypervisor.Ports.LrInject

/-!
# Counting an interrupt in the registers and the list

A physical interrupt handed to a guest is completed through a value with `HW` set and
its number in the `pINTID` field: when the guest retires that value, the hardware
deactivates the physical interrupt.  `held P s` counts the values of one vCPU that pass
a test `P`, in the list registers and in `lr_list`.  Saving can lose some of them,
sorting and restoring only move them (`vgicContextRestoreLr_held`), and an injection
into a vCPU that holds none leaves one exactly when the new value passes the test and
the list takes it (`vgicInject_held`).
-/

namespace RtHypervisor.Ports.LrList

open RtHypervisor.Verified.Run
open RtHypervisor.Ports.ListRegister

/-- A test that does not look at the tag and that no idle value passes. -/
structure LiveTest (P : Lr → Bool) : Prop where
  tag : ∀ lr, P (lr ||| lrTag) = P lr
  live : ∀ lr, P lr = true → lrIdle lr = false

/-- How many of the values a vCPU holds pass the test. -/
def held (P : Lr → Bool) (s : VgicSlice) : Nat :=
  (lrs s.ich (List.range s.ctxt.nrLr)).countP P + (entries s.gicr).countP P

variable {P : Lr → Bool} {s s' : VgicSlice}

/-! ## The physical interrupt of a value -/

/-- The `pINTID` field, bits 32 to 44. -/
def getLrPint (lr : Lr) : BitVec 13 := lr.extractLsb' ichLrPintOff 13

/-- A live value that deactivates physical interrupt `ir` when the guest retires it. -/
def isRecord (ir : Nat) (lr : Lr) : Bool :=
  !lrIdle lr && lr.getLsbD ichLrHwOff && (getLrPint lr).toNat == ir

private theorem getLrPint_congr {a b : Lr}
    (h : ∀ i, 32 ≤ i → i < 45 → a.getLsbD i = b.getLsbD i) : getLrPint a = getLrPint b := by
  apply BitVec.eq_of_getLsbD_eq
  intro i hi
  simp only [getLrPint, ichLrPintOff, BitVec.getLsbD_extractLsb']
  rw [h (32 + i) (by omega) (by omega)]

@[simp] theorem getLrPint_tag (lr : Lr) : getLrPint (lr ||| lrTag) = getLrPint lr :=
  getLrPint_congr fun _ _ hlt => getLsbD_tag lr (by omega)

theorem liveTest_isRecord (ir : Nat) : LiveTest (isRecord ir) where
  tag lr := by
    have h61 : (lr ||| lrTag).getLsbD 61 = lr.getLsbD 61 := getLsbD_tag lr (by decide)
    simp only [isRecord, lrIdle_tag, getLrPint_tag, ichLrHwOff, h61]
  live lr h := by
    simp only [isRecord, Bool.and_eq_true, Bool.not_eq_true'] at h
    exact h.1.1

/-- The interrupt number an interrupt's `pINTID` comes to in a list register. -/
def pintOf (virq : Virq) : Nat := virq.pINTID.toNat % 2 ^ 13

private theorem getLrPint_of_hw [Bitmap] {virq : Virq} (hen : virq.enable = true)
    (hin : virq.inLr = false) (hhw : virq.hw = true) :
    (vgicGetLrFromVirq virq).1.getLsbD ichLrHwOff = true ∧
      getLrPint (vgicGetLrFromVirq virq).1 = virq.pINTID.setWidth 13 := by
  have hbit : (lrFields virq).getLsbD ichLrHwOff = true := by
    rw [← bitGet_eq _ _ (by decide), bitGet_lrFields, hhw]
  have hval : (vgicGetLrFromVirq virq).1 =
      lrFields virq ||| (virq.pINTID.setWidth 64 <<< ichLrPintOff) := by
    rw [vgicGetLrFromVirq_of_enabled hen hin, if_pos hhw]
  constructor
  · rw [hval, BitVec.getLsbD_or, hbit, Bool.true_or]
  · -- the other fields leave bits 32 to 44 alone
    apply BitVec.eq_of_getLsbD_eq
    intro i hi
    have h48 : 32 + i < ichLrPrioOff := by simp only [ichLrPrioOff]; omega
    have h60 : 32 + i < ichLrGroupOff := by simp only [ichLrGroupOff]; omega
    have h61 : 32 + i < ichLrHwOff := by simp only [ichLrHwOff]; omega
    have h62 : 32 + i < ichLrStatOff := by simp only [ichLrStatOff]; omega
    have hfields : (lrFields virq).getLsbD (32 + i) = false := by
      simp only [lrFields, BitVec.getLsbD_or, getLsbD_shiftLeft_low _ h48,
        getLsbD_shiftLeft_low _ h60, getLsbD_shiftLeft_low _ h61, getLsbD_shiftLeft_low _ h62]
      simp [ichLrVintOff, BitVec.getLsbD_of_ge virq.vINIID (32 + i) (by omega)]
    simp only [getLrPint, hval, ichLrPintOff, BitVec.getLsbD_extractLsb', BitVec.getLsbD_or,
      hfields, BitVec.getLsbD_shiftLeft, BitVec.getLsbD_setWidth]
    have h64 : 32 + i < 64 := by omega
    have hlow : ¬32 + i < 32 := by omega
    simp [hi, h64, hlow, show 32 + i - 32 = i by omega]
    intro _
    omega

/-- A hardware interrupt that is enabled is recorded under its `pINTID`, unless it is
marked as loaded. -/
theorem isRecord_lr_iff [Bitmap] {virq : Virq} (hen : virq.enable = true) (hhw : virq.hw = true)
    (ir : Nat) :
    isRecord ir (vgicGetLrFromVirq virq).1 = true ↔ virq.inLr = false ∧ pintOf virq = ir := by
  cases hin : virq.inLr with
  | true =>
      have hzero : (vgicGetLrFromVirq virq).1 = 0 := by
        simp [vgicGetLrFromVirq, hin]
      have hidle : isRecord ir 0 = false := by
        rw [isRecord, lrIdle_zero]
        rfl
      rw [hzero, hidle]
      simp
  | false =>
      obtain ⟨hbit, hpint⟩ := getLrPint_of_hw hen hin hhw
      have hlive : lrIdle (vgicGetLrFromVirq virq).1 = false := by
        apply lrIdle_eq_false_of_state
        rw [lrState_of_enabled hen hin]
        decide
      simp only [isRecord, hlive, hbit, hpint, Bool.not_false, Bool.and_self, Bool.true_and,
        beq_iff_eq, true_and, pintOf, BitVec.toNat_setWidth]

/-! ## Saving -/

/-- A save appends some of the registers to the list and empties them all. -/
theorem saveLrLoop_appends [Bitmap] {elrsr : BitVec 64} {is : List Nat} :
    ∀ {s s' : VgicSlice}, InBounds s.gicr → is.Nodup →
      (∀ i ∈ is, i < s.ctxt.nrLr ∧ i < 16 ∧ bitGet elrsr i = lrIdle (s.ich.lrAt i)) →
      is.foldlM (saveLrStep elrsr) s = .ok s' →
      ∃ extra, entries s'.gicr = entries s.gicr ++ extra ∧
        ∀ e ∈ extra, ∃ x ∈ lrs s.ich is, e = x ||| lrTag := by
  induction is with
  | nil =>
      intro s s' _ _ _ hrun
      rw [List.foldlM_nil] at hrun
      obtain rfl := pure_eq_ok.mp hrun
      exact ⟨[], by simp, by simp⟩
  | cons i is ih =>
      intro s s' hb hnd hidx hrun
      rw [List.nodup_cons] at hnd
      obtain ⟨hnr, h16, hbit⟩ := hidx i (List.mem_cons_self ..)
      rw [List.foldlM_cons] at hrun
      cases hidle : lrIdle (s.ich.lrAt i) with
      | true =>
          rw [saveLrStep_idle (hbit.trans hidle), ok_bind] at hrun
          rw [lrs_cons_idle hidle]
          exact ih hb hnd.2 (fun j hj => hidx j (List.mem_cons_of_mem i hj)) hrun
      | false =>
          obtain ⟨s₁, hstep, hm⟩ := saveLrStep_moved hb (hbit.trans hidle) hnr h16
          rw [hstep, ok_bind] at hrun
          have hne : ∀ j ∈ is, j ≠ i := by
            rintro j hj rfl
            exact hnd.1 hj
          obtain ⟨extra, hent, hextra⟩ := ih hm.bounds hnd.2 (fun j hj => by
            obtain ⟨hjnr, hj16, hjbit⟩ := hidx j (List.mem_cons_of_mem i hj)
            rw [hm.ctxt_eq, hm.others j (hne j hj)]
            exact ⟨hjnr, hj16, hjbit⟩) hrun
          rw [lrs_congr fun j hj => hm.others j (hne j hj)] at hextra
          rw [lrs_cons_live hidle]
          rcases hm.fate with ⟨-, hfate⟩ | ⟨-, hfate⟩
          · refine ⟨(s.ich.lrAt i ||| lrTag) :: extra, ?_, ?_⟩
            · rw [hent, hfate, List.append_assoc]
              rfl
            · intro e he
              rcases List.mem_cons.mp he with rfl | he
              · exact ⟨_, List.mem_cons_self .., rfl⟩
              · obtain ⟨x, hx, rfl⟩ := hextra e he
                exact ⟨x, List.mem_cons_of_mem _ hx, rfl⟩
          · refine ⟨extra, by rw [hent, hfate], ?_⟩
            intro e he
            obtain ⟨x, hx, rfl⟩ := hextra e he
            exact ⟨x, List.mem_cons_of_mem _ hx, rfl⟩

private theorem countP_eq_zero_of_forall {l : List Lr} (h : ∀ e ∈ l, P e = false) :
    l.countP P = 0 := by
  rw [List.countP_eq_zero]
  intro e he
  rw [h e he]
  decide

private theorem forall_of_countP_eq_zero {l : List Lr} (h : l.countP P = 0) :
    ∀ e ∈ l, P e = false := by
  intro e he
  have hnot := List.countP_eq_zero.mp h e he
  simpa using hnot

/-- When no register passes the test, a save leaves what the list held of it. -/
theorem vgicContextSaveLr_held [Bitmap] (hP : LiveTest P) (hs : Ready s)
    (hnone : (lrs s.ich (List.range s.ctxt.nrLr)).countP P = 0)
    (hok : vgicContextSaveLr s s.ctxt.nrLr = .ok s') :
    held P s' = (entries s.gicr).countP P := by
  obtain ⟨s₁, hrun, hsaved⟩ := vgicContextSaveLr_spec hs
  obtain rfl := Except.ok.inj (hok.symm.trans hrun)
  obtain ⟨extra, hent, hextra⟩ :=
    saveLrLoop_appends hs.bounds List.nodup_range (register_index hs) hok
  have hzero : extra.countP P = 0 := by
    apply countP_eq_zero_of_forall
    intro e he
    obtain ⟨x, hx, rfl⟩ := hextra e he
    rw [hP.tag]
    exact forall_of_countP_eq_zero hnone x hx
  rw [held, hsaved.ctxt_eq, lrs_eq_nil hsaved.idle, hent, List.countP_append, hzero]
  simp

/-! ## Restoring -/

/-- A register counts for the test as the value in it does. -/
theorem countP_keep (hP : LiveTest P) (lr : Lr) : (keep lr).countP P = [lr].countP P := by
  cases hidle : lrIdle lr with
  | true =>
      have hno : P lr = false := by
        by_contra hyes
        have hlive := hP.live lr (by simpa using hyes)
        rw [hidle] at hlive
        cases hlive
      simp [keep, hidle, hno]
  | false => simp [keep, hidle]

private theorem lrs_cons (h : IchRegs) (i : Nat) (is : List Nat) :
    lrs h (i :: is) = keep (h.lrAt i) ++ lrs h is := rfl

private theorem restoreLrFrom_held [Bitmap] (hP : LiveTest P) {elrsr : BitVec 64} {is : List Nat} :
    ∀ {s s' : VgicSlice} (rm : Nat), InBounds s.gicr → is.Nodup →
      rm + is.length ≤ gicLrListNum →
      (∀ i ∈ is, i < s.ctxt.nrLr ∧ i < 16 ∧ bitGet elrsr i = lrIdle (s.ich.lrAt i)) →
      restoreLrFrom elrsr is rm s = .ok s' →
      (lrs s'.ich is).countP P + (entries s'.gicr).countP P =
        (lrs s.ich is).countP P + (entries s.gicr).countP P := by
  induction is with
  | nil =>
      intro s s' rm _ _ _ _ hrun
      rw [← pure_eq_ok.mp hrun]
  | cons i is ih =>
      intro s s' rm hb hnd hroom hidx hrun
      rw [List.nodup_cons] at hnd
      rw [List.length_cons] at hroom
      have hrm : rm < gicLrListNum := by omega
      obtain ⟨hnr, h16, hbit⟩ := hidx i (List.mem_cons_self ..)
      have hidx' : ∀ j ∈ is, j < s.ctxt.nrLr ∧ j < 16 ∧
          bitGet elrsr j = lrIdle (s.ich.lrAt j) :=
        fun j hj => hidx j (List.mem_cons_of_mem i hj)
      cases hidle : lrIdle (s.ich.lrAt i) with
      | false =>
          rw [restoreLrFrom_busy (hbit.trans hidle)] at hrun
          obtain ⟨t, hrun', hrest⟩ := restoreLrFrom_spec rm hb hnd.2 (by omega) hidx'
          obtain rfl := Except.ok.inj (hrun.symm.trans hrun')
          have hsame := ih rm hb hnd.2 (by omega) hidx' hrun
          rw [lrs_cons, lrs_cons, hrest.others i hnd.1, List.countP_append, List.countP_append]
          omega
      | true =>
          by_cases htag : getLrRes0 s.gicr.lrList[rm] = 0
          · rw [restoreLrFrom_break (hbit.trans hidle) hrm htag] at hrun
            cases hrun
            rfl
          · obtain ⟨s₁, g, hwrite, hremove, hm⟩ := moveIn_spec hb hnr h16 hrm htag
            rw [restoreLrFrom_load (hbit.trans hidle) hrm htag hwrite hremove] at hrun
            have hne : ∀ j ∈ is, j ≠ i := by
              rintro j hj rfl
              exact hnd.1 hj
            have hidx₁ : ∀ j ∈ is, j < ({ s₁ with gicr := g } : VgicSlice).ctxt.nrLr ∧
                j < 16 ∧ bitGet elrsr j =
                  lrIdle (({ s₁ with gicr := g } : VgicSlice).ich.lrAt j) := by
              intro j hj
              obtain ⟨hjnr, hj16, hjbit⟩ := hidx' j hj
              rw [hm.ctxt_eq, hm.others j (hne j hj)]
              exact ⟨hjnr, hj16, hjbit⟩
            obtain ⟨t, hrun', hrest⟩ :=
              restoreLrFrom_spec (rm + 1) hm.bounds hnd.2 (by omega) hidx₁
            obtain rfl := Except.ok.inj (hrun.symm.trans hrun')
            have hsame := ih (rm + 1) hm.bounds hnd.2 (by omega) hidx₁ hrun
            rw [lrs_congr fun j hj => hm.others j (hne j hj)] at hsame
            -- the entry taken out of the list is what the register holds now
            have hloaded : s'.ich.lrAt i = s.gicr.lrList[rm] :=
              (hrest.others i hnd.1).trans hm.loaded
            have htaken := hm.taken.countP_eq P
            rw [← List.singleton_append, List.countP_append] at htaken
            rw [lrs_cons, lrs_cons_idle hidle, hloaded, List.countP_append,
              countP_keep hP, htaken]
            omega

/-- A restore moves what passes the test, and loses none of it. -/
theorem vgicContextRestoreLr_held [Bitmap] (hP : LiveTest P) (hs : Ready s)
    (hok : vgicContextRestoreLr s s.ctxt.nrLr = .ok s') : held P s' = held P s := by
  simp only [vgicContextRestoreLr, bind_eq_ok, pure_eq_ok] at hok
  obtain ⟨s₁, hloop, g, hsort, rfl⟩ := hok
  have hroom : 0 + (List.range s.ctxt.nrLr).length ≤ gicLrListNum := by
    have hle := hs.nrLr_le
    simp only [List.length_range, gicLrListNum]
    omega
  obtain ⟨t, hrun, hrest⟩ :=
    restoreLrFrom_spec 0 hs.bounds List.nodup_range hroom (register_index hs)
  obtain rfl := Except.ok.inj (hloop.symm.trans hrun)
  have hsame := restoreLrFrom_held hP 0 hs.bounds List.nodup_range hroom (register_index hs) hloop
  obtain ⟨g', hsort', -, -, -, hperm⟩ := vgicLrListSort_spec hrest.bounds
  obtain rfl := Except.ok.inj (hsort.symm.trans hsort')
  rw [held, held, hrest.ctxt_eq, hperm.countP_eq P]
  exact hsame

theorem hookVgicContextRestore_held [Bitmap] (hP : LiveTest P) (hs : Ready s)
    (hok : hookVgicContextRestore s = .ok s') : held P s' = held P s := by
  simp only [hookVgicContextRestore, bind_eq_ok, pure_eq_ok] at hok
  obtain ⟨s₁, hrun, rfl⟩ := hok
  rw [← vgicContextRestoreLr_held hP hs hrun]
  simp only [held, vgicContextRestoreArp, ctxt_vgicContextSaveArp, gicr_vgicContextSaveArp]
  congr 2
  exact lrs_congr fun j _ => lrAt_vgicContextSaveArp s₁ j

/-! ## Injecting -/

/-- The list takes the value of the interrupt. -/
def Accepts (g : Vgicr) (lr : Lr) : Prop := g.tail < gicLrListNum ∧ ¬Queued g lr

/-- Insertion, before anything else moves. -/
theorem vgicLrListInsert_held (hP : LiveTest P) (hb : InBounds s.gicr) {lr : Lr}
    (hnone : held P s = 0) (hok : vgicLrListInsert s lr = .ok s') :
    s'.ctxt = s.ctxt ∧ InBounds s'.gicr ∧
      (lrs s'.ich (List.range s'.ctxt.nrLr)).countP P = 0 ∧
      ((entries s'.gicr).countP P = 1 ↔ Accepts s.gicr lr ∧ P lr = true) := by
  have hlrs : (lrs s.ich (List.range s.ctxt.nrLr)).countP P = 0 := by
    rw [held] at hnone
    omega
  have hent : (entries s.gicr).countP P = 0 := by
    rw [held] at hnone
    omega
  by_cases hacc : Accepts s.gicr lr
  · rw [vgicLrListInsert_accepted hacc.1 hacc.2] at hok
    cases hok
    refine ⟨rfl, hb.pushed lr hacc.1, hlrs, ?_⟩
    show (entries (pushed s.gicr lr hacc.1)).countP P = 1 ↔ _
    rw [entries_pushed, List.countP_append, hent, List.countP_singleton, hP.tag]
    simp [hacc]
  · have hrefused : s.gicr.tail = gicLrListNum ∨ Queued s.gicr lr := by
      by_cases hq : Queued s.gicr lr
      · exact Or.inr hq
      · have hge : ¬s.gicr.tail < gicLrListNum := fun hlt => hacc ⟨hlt, hq⟩
        have hle := hb.tail_le
        exact Or.inl (by omega)
    rw [vgicLrListInsert_refused hb.tail_le hrefused] at hok
    cases hok
    refine ⟨rfl, hb, hlrs, ?_⟩
    simp [hacc, show (entries (vgicCallMaintenanceIrq s).gicr).countP P = 0 from hent]

/-- An injection into a vCPU that holds nothing of the kind leaves one value exactly when
the list accepts it and it passes the test. -/
theorem vgicInject_held [Bitmap] (hP : LiveTest P) (hs : Ready s) {virq virq' : Virq} {b : Bool}
    (hnone : held P s = 0) (hok : vgicInject s virq = .ok (s', virq', b)) :
    held P s' = 1 ↔ Accepts s.gicr (vgicGetLrFromVirq virq).1 ∧
      P (vgicGetLrFromVirq virq).1 = true := by
  by_cases hq : Queued s.gicr (vgicGetLrFromVirq virq).1
  · rw [vgicInject_queued hs.bounds hq] at hok
    cases hok
    simp [hnone, Accepts, hq]
  · unfold vgicInject at hok
    dsimp only at hok
    simp only [vgicIsLrInList_eq hs.bounds.tail_le, ok_bind, hq, decide_false, bind_eq_ok,
      pure_eq_ok, Prod.mk.injEq, Bool.false_eq_true, if_false] at hok
    obtain ⟨s₁, hinsert, s₂, hsave, g, hsort, s₃, hrestore, hs₃, -, -⟩ := hok
    subst hs₃
    obtain ⟨hctxt, hb₁, hlrs₁, hiff⟩ := vgicLrListInsert_held hP hs.bounds hnone hinsert
    -- the maintenance request changes neither the registers nor the list
    have hreq : ∃ s₀, s₀ = (if virqSize s₁ > s₁.ctxt.nrLr + gicLrListNum then
        vgicCallMaintenanceIrq s₁ else s₁) := ⟨_, rfl⟩
    obtain ⟨s₀, hs₀⟩ := hreq
    rw [← hs₀] at hsave
    have hsame : s₀.gicr = s₁.gicr ∧ s₀.ctxt = s₁.ctxt ∧
        lrs s₀.ich (List.range s₁.ctxt.nrLr) = lrs s₁.ich (List.range s₁.ctxt.nrLr) := by
      rw [hs₀]
      split
      · exact ⟨rfl, rfl, rfl⟩
      · exact ⟨rfl, rfl, rfl⟩
    have hready₀ : Ready s₀ := by
      refine ⟨by rw [hsame.1]; exact hb₁, ?_⟩
      rw [hsame.2.1, hctxt]
      exact hs.nrLr_le
    have hheld₂ : held P s₂ = (entries s₁.gicr).countP P := by
      rw [← hsame.1]
      refine vgicContextSaveLr_held hP hready₀ ?_ (by rw [hsame.2.1]; exact hsave)
      rw [hsame.2.1, hsame.2.2]
      exact hlrs₁
    obtain ⟨t, hrun, hsaved⟩ := vgicContextSaveLr_spec hready₀
    rw [hsame.2.1] at hrun
    obtain rfl := Except.ok.inj (hsave.symm.trans hrun)
    obtain ⟨g', hsort', hbg, -, -, hperm⟩ := vgicLrListSort_spec hsaved.bounds
    obtain rfl := Except.ok.inj (hsort.symm.trans hsort')
    have hnr : s₂.ctxt.nrLr = s₁.ctxt.nrLr := by rw [hsaved.ctxt_eq, hsame.2.1]
    have hready₂ : Ready { s₂ with gicr := g } := by
      refine ⟨hbg, ?_⟩
      show s₂.ctxt.nrLr ≤ 16
      rw [hnr, hctxt]
      exact hs.nrLr_le
    have hrestore' : vgicContextRestoreLr { s₂ with gicr := g } s₂.ctxt.nrLr = .ok s₃ := by
      rw [hnr]
      exact hrestore
    have hheld₃ : held P s₃ = held P s₂ := by
      rw [vgicContextRestoreLr_held hP hready₂ hrestore']
      simp only [held, hperm.countP_eq P]
    rw [hheld₃, hheld₂, hiff]

end RtHypervisor.Ports.LrList
