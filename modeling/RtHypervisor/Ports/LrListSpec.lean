import RtHypervisor.Ports.LrList

/-!
# What the list functions do, one lemma per function

`entries` is the abstract content of an `lr_list`, `lrs` the non-idle content
of some list registers.  Each function of `LrList` gets one specification in
these terms, and nothing below unfolds the functions again: insertion appends
or is refused, removal and sorting permute, saving moves registers into the
list, restoring moves entries into registers.
-/

namespace RtHypervisor.Ports.LrList

open RtHypervisor.Verified.Run
open RtHypervisor.Verified.PrefixArray
open RtHypervisor.Ports.ListRegister

/-- The entries of a redistributor's list. -/
def entries (g : Vgicr) : List Lr := pre g.lrList g.tail

/-- What keeps every access of the list functions inside `lr_list`: the counter
does not exceed the array, and the cells from the counter on are blank. -/
structure InBounds (g : Vgicr) : Prop where
  tail_le : g.tail ≤ gicLrListNum
  blank : ∀ i (h : i < gicLrListNum), g.tail ≤ i → g.lrList[i] = 0

theorem InBounds.length_entries {g : Vgicr} (h : InBounds g) :
    (entries g).length = g.tail :=
  length_pre _ h.tail_le

/-- A cell that carries a tag lies below the counter. -/
theorem InBounds.lt_tail {g : Vgicr} (h : InBounds g) {i : Nat} (hi : i < gicLrListNum)
    (htag : getLrRes0 g.lrList[i] ≠ 0) : i < g.tail := by
  by_contra hge
  rw [h.blank i hi (by omega)] at htag
  exact htag getLrRes0_zero

theorem entries_vgicrInit {old : Vgicr} {iidr : BitVec 32} {c n : Nat} {mpidr : BitVec 64}
    (htail : old.tail = 0) : entries (vgicrInit old iidr c n mpidr) = [] := by
  simp [entries, vgicrInit, htail]

/-- `vgicr_init` leaves the list in bounds when the word it forgets is. -/
theorem inBounds_vgicrInit {old : Vgicr} {iidr : BitVec 32} {c n : Nat} {mpidr : BitVec 64}
    (htail : old.tail ≤ gicLrListNum) : InBounds (vgicrInit old iidr c n mpidr) where
  tail_le := htail
  blank := by
    intro i hi _
    simp [vgicrInit]

/-! ## Scanning and inserting -/

/-- Does the list hold an entry for the interrupt of `lr`? -/
def Queued (g : Vgicr) (lr : Lr) : Prop := ∃ e ∈ entries g, getLrVint e = getLrVint lr

-- the instance for `∃ e : BitVec 64` would try all values
instance (g : Vgicr) (lr : Lr) : Decidable (Queued g lr) :=
  List.decidableBEx (fun e => getLrVint e = getLrVint lr) (entries g)

private theorem lrInListFrom_range' (g : Vgicr) (lr : Lr) (m : Nat) :
    ∀ a, a + m ≤ gicLrListNum →
      lrInListFrom g lr (List.range' a m) =
        .ok (decide (∃ e ∈ (g.lrList.toList.drop a).take m,
          getLrVint e = getLrVint lr)) := by
  induction m with
  | zero =>
      intro a _
      simp [lrInListFrom]
      rfl
  | succ m ih =>
      intro a ha
      have hlt : a < gicLrListNum := by omega
      have hdrop : g.lrList.toList.drop a =
          g.lrList[a] :: g.lrList.toList.drop (a + 1) := by
        rw [List.drop_eq_getElem_cons (by simpa using hlt)]
        simp
      rw [List.range'_succ]
      simp only [lrInListFrom, readAt_ok _ hlt, ok_bind]
      rw [ih (a + 1) (by omega), hdrop, List.take_succ_cons]
      by_cases hhit : getLrVint g.lrList[a] = getLrVint lr
      · simp [hhit]
        rfl
      · simp [hhit]

theorem vgicIsLrInList_eq {g : Vgicr} (h : g.tail ≤ gicLrListNum) (lr : Lr) :
    vgicIsLrInList g lr = .ok (decide (Queued g lr)) := by
  rw [vgicIsLrInList, List.range_eq_range', lrInListFrom_range' g lr g.tail 0 (by omega),
    List.drop_zero]
  exact congrArg Except.ok (decide_eq_decide.mpr Iff.rfl)

private theorem vgicIsLrListFull_iff (g : Vgicr) :
    vgicIsLrListFull g = true ↔ g.tail = gicLrListNum := by
  simp [vgicIsLrListFull]

/-- The redistributor after an accepted insertion. -/
def pushed (g : Vgicr) (lr : Lr) (h : g.tail < gicLrListNum) : Vgicr :=
  { g with lrList := g.lrList.set g.tail (lr ||| lrTag), tail := g.tail + 1 }

theorem entries_pushed (g : Vgicr) (lr : Lr) (h : g.tail < gicLrListNum) :
    entries (pushed g lr h) = entries g ++ [lr ||| lrTag] :=
  pre_set_self _ h _

theorem InBounds.pushed {g : Vgicr} (hb : InBounds g) (lr : Lr)
    (h : g.tail < gicLrListNum) : InBounds (pushed g lr h) where
  tail_le := h
  blank := by
    intro i hi hle
    have hle' : g.tail + 1 ≤ i := hle
    have hne : g.tail ≠ i := by omega
    show (g.lrList.set g.tail (lr ||| lrTag))[i] = 0
    rw [Vector.getElem_set_ne h hi hne]
    exact hb.blank i hi (by omega)

theorem vgicLrListInsert_accepted {s : VgicSlice} {lr : Lr}
    (h : s.gicr.tail < gicLrListNum) (hnew : ¬Queued s.gicr lr) :
    vgicLrListInsert s lr = .ok { s with gicr := pushed s.gicr lr h } := by
  have hfull : vgicIsLrListFull s.gicr = false := by
    rw [Bool.eq_false_iff, Ne, vgicIsLrListFull_iff]
    omega
  simp only [vgicLrListInsert, hfull, vgicIsLrInList_eq (Nat.le_of_lt h), ok_bind,
    writeAt_ok _ h, hnew]
  rfl

theorem vgicLrListInsert_refused {s : VgicSlice} {lr : Lr}
    (hb : s.gicr.tail ≤ gicLrListNum)
    (h : s.gicr.tail = gicLrListNum ∨ Queued s.gicr lr) :
    vgicLrListInsert s lr = .ok (vgicCallMaintenanceIrq s) := by
  by_cases hfull : vgicIsLrListFull s.gicr = true
  · simp only [vgicLrListInsert, hfull, if_true]
    rfl
  · have hq : Queued s.gicr lr := by
      rcases h with heq | hq
      · exact absurd ((vgicIsLrListFull_iff _).mpr heq) hfull
      · exact hq
    simp only [vgicLrListInsert, hfull, vgicIsLrInList_eq hb, ok_bind, hq]
    rfl

/-! ## Removing and sorting -/

theorem vgicLrListRemove_spec {g : Vgicr} (hb : InBounds g) {rm : Nat}
    (hrm : rm < g.tail) (hlt : rm < gicLrListNum) :
    ∃ g', vgicLrListRemove g rm = .ok g' ∧ InBounds g' ∧ g'.tail + 1 = g.tail ∧
      g'.virqs = g.virqs ∧ (entries g).Perm (g.lrList[rm] :: entries g') := by
  obtain ⟨k, hk⟩ : ∃ k, g.tail = k + 1 := ⟨g.tail - 1, by omega⟩
  have hkn : k < gicLrListNum := by have := hb.tail_le; omega
  have hsub : g.tail - 1 = k := by omega
  refine ⟨{ g with lrList := (g.lrList.swap rm k hlt hkn).set k 0, tail := k },
    ?_, ⟨?_, ?_⟩, hk.symm, rfl, ?_⟩
  · simp only [vgicLrListRemove, hrm, decide_true, check_true, ok_bind, hsub,
      swapAt_ok _ hlt hkn, writeAt_ok _ hkn]
    rfl
  · exact Nat.le_of_lt hkn
  · intro i hi hle
    have hle' : k ≤ i := hle
    show ((g.lrList.swap rm k).set k 0)[i] = 0
    by_cases heq : i = k
    · subst heq
      rw [Vector.getElem_set_self]
    · have hrmi : rm ≠ i := by omega
      rw [Vector.getElem_set_ne hkn hi (Ne.symm heq),
        Vector.getElem_swap_of_ne (Ne.symm hrmi) heq]
      exact hb.blank i hi (by omega)
  · have hperm := pre_swapRemove_perm g.lrList hkn hlt (by omega) (0 : Lr)
    simpa only [entries, hk] using hperm

private theorem heapSon_spec (arr : Vector Lr gicLrListNum) {dad last : Nat}
    (hlast : last < gicLrListNum) (hson : dad * 2 + 1 ≤ last) :
    ∃ son, heapSon arr dad last = .ok son ∧ dad < son ∧ son ≤ last := by
  by_cases hright : dad * 2 + 1 + 1 ≤ last
  · have hl : dad * 2 + 1 < gicLrListNum := by omega
    have hr : dad * 2 + 1 + 1 < gicLrListNum := by omega
    refine ⟨_, by
      simp only [heapSon, hright, if_true, readAt_ok _ hl, readAt_ok _ hr, ok_bind]
      rfl, ?_, ?_⟩
    · split <;> omega
    · split <;> omega
  · refine ⟨dad * 2 + 1, by
      simp only [heapSon, hright, if_false]
      rfl, ?_, ?_⟩ <;> omega

/-- Sifting permutes the entries up to `last` and touches nothing above. -/
theorem lrListHeapSort_spec {last : Nat} (hlast : last < gicLrListNum) (fuel : Nat) :
    ∀ (arr : Vector Lr gicLrListNum) (dad : Nat), dad ≤ last → last < dad + fuel →
      ∃ arr', lrListHeapSort arr dad last fuel = .ok arr' ∧
        (pre arr' (last + 1)).Perm (pre arr (last + 1)) ∧
        ∀ i (h : i < gicLrListNum), last < i → arr'[i] = arr[i] := by
  induction fuel with
  | zero =>
      intro arr dad hdad hfuel
      omega
  | succ fuel ih =>
      intro arr dad hdad hfuel
      by_cases hson : dad * 2 + 1 ≤ last
      · obtain ⟨son, hs, hgt, hle⟩ := heapSon_spec arr hlast hson
        have hsl : son < gicLrListNum := by omega
        have hdl : dad < gicLrListNum := by omega
        by_cases hprio : getLrPrio arr[son] < getLrPrio arr[dad]
        · refine ⟨arr, ?_, .refl _, fun _ _ _ => rfl⟩
          simp only [lrListHeapSort, hson, if_true, hs, ok_bind, readAt_ok _ hsl,
            readAt_ok _ hdl, hprio]
          rfl
        · obtain ⟨arr', hrun, hperm, habove⟩ :=
            ih (arr.swap dad son) son hle (by omega)
          refine ⟨arr', ?_, ?_, ?_⟩
          · simp only [lrListHeapSort, hson, if_true, hs, ok_bind, readAt_ok _ hsl,
              readAt_ok _ hdl, hprio, if_false, swapAt_ok _ hdl hsl, hrun]
          · exact hperm.trans (pre_swap_perm arr hdl hsl (by omega) (by omega))
          · intro i hi hlt
            rw [habove i hi hlt,
              Vector.getElem_swap_of_ne (by omega) (by omega)]
      · refine ⟨arr, ?_, .refl _, fun _ _ _ => rfl⟩
        simp only [lrListHeapSort, hson, if_false]
        rfl

theorem lrListHeapCreate_spec {last : Nat} (hlast : last < gicLrListNum) (passes : Nat) :
    ∀ arr : Vector Lr gicLrListNum,
      ∃ arr', lrListHeapCreate arr 0 last passes = .ok arr' ∧
        (pre arr' (last + 1)).Perm (pre arr (last + 1)) ∧
        ∀ i (h : i < gicLrListNum), last < i → arr'[i] = arr[i] := by
  induction passes with
  | zero => exact fun arr => ⟨arr, rfl, .refl _, fun _ _ _ => rfl⟩
  | succ passes ih =>
      intro arr
      obtain ⟨arr₁, hrun₁, hperm₁, habove₁⟩ :=
        lrListHeapSort_spec hlast (last + 1) arr 0 (Nat.zero_le _) (by omega)
      obtain ⟨arr₂, hrun₂, hperm₂, habove₂⟩ := ih arr₁
      refine ⟨arr₂, ?_, hperm₂.trans hperm₁, ?_⟩
      · simp only [lrListHeapCreate, hrun₁, ok_bind, hrun₂]
      · intro i hi hlt
        rw [habove₂ i hi hlt, habove₁ i hi hlt]

/-- Sorting permutes the entries. -/
theorem vgicLrListSort_spec {g : Vgicr} (hb : InBounds g) :
    ∃ g', vgicLrListSort g = .ok g' ∧ InBounds g' ∧ g'.tail = g.tail ∧
      g'.virqs = g.virqs ∧ (entries g').Perm (entries g) := by
  by_cases hempty : g.tail = 0
  · refine ⟨g, ?_, hb, rfl, rfl, .refl _⟩
    have hflag : vgicIsLrListEmpty g = true := by simp [vgicIsLrListEmpty, hempty]
    simp only [vgicLrListSort, hflag, if_true]
    rfl
  · have hle := hb.tail_le
    obtain ⟨list, hrun, hperm, habove⟩ := lrListHeapCreate_spec
      (show g.tail - 1 < gicLrListNum by omega) (heapPasses 0 (g.tail - 1)) g.lrList
    have hsucc : g.tail - 1 + 1 = g.tail := by omega
    rw [hsucc] at hperm
    have hflag : vgicIsLrListEmpty g = false := by simp [vgicIsLrListEmpty, hempty]
    refine ⟨{ g with lrList := list }, ?_, ⟨hle, ?_⟩, rfl, rfl, hperm⟩
    · simp only [vgicLrListSort, hflag, hrun, ok_bind]
      rfl
    · intro i hi hge
      have hge' : g.tail ≤ i := hge
      show list[i] = 0
      rw [habove i hi (by omega)]
      exact hb.blank i hi hge'

end RtHypervisor.Ports.LrList
