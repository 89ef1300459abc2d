import Mathlib.Data.List.GetD
import RtHypervisor.Verified.HeapOrder
import RtHypervisor.Ports.LrListSpec

/-!
# Heap construction of `lr_list`

`lr_list_heap_create` means to build a heap: its loop counts `i` from the last inner node down to
0, but every pass sifts from `start`.  The root is sifted again and again and the inner nodes below
it never are, so that the result is a heap where these were in order beforehand.
-/

namespace RtHypervisor.Ports.LrList

open RtHypervisor.Verified.Run
open RtHypervisor.Verified.PrefixArray
open RtHypervisor.Verified.HeapOrder
open RtHypervisor.Ports.ListRegister

/-- The priority that is compared of the entry in cell `i`. -/
def prioAt (arr : Vector Lr gicLrListNum) (i : Nat) : Nat := (getLrPrio (arr.toList.getD i 0)).toNat

/-- `end` for a list of `n` entries, a `rt_size_t`. -/
def lastOf (n : Nat) : Nat := (n + 2 ^ 64 - 1) % 2 ^ 64

/-- `lr_list_heap_create` of the first `n` entries. -/
def heapCreate (arr : Vector Lr gicLrListNum) (n : Nat) : Except Fault (Vector Lr gicLrListNum) :=
  lrListHeapCreate arr 0 (lastOf n) (heapPasses 0 (lastOf n))

/-- The loops end, and exchange entries among the first `n` cells only. -/
def Permutes (arr : Vector Lr gicLrListNum) (n : Nat) : Prop :=
  ∃ arr', heapCreate arr n = .ok arr' ∧ (pre arr' n).Perm (pre arr n) ∧
    ∀ i (h : i < gicLrListNum), n ≤ i → arr'[i] = arr[i]

/-- The first `n` entries come out as a heap. -/
def Heapifies (arr : Vector Lr gicLrListNum) (n : Nat) : Prop :=
  ∃ arr', heapCreate arr n = .ok arr' ∧ (pre arr' n).Perm (pre arr n) ∧
    (∀ i (h : i < gicLrListNum), n ≤ i → arr'[i] = arr[i]) ∧ IsHeap (prioAt arr') n

variable {arr : Vector Lr gicLrListNum} {last dad n : Nat}

theorem prioAt_eq {i : Nat} (hi : i < gicLrListNum) : prioAt arr i = (getLrPrio arr[i]).toNat := by
  unfold prioAt
  rw [List.getD_eq_getElem _ _ (by simpa using hi), Vector.getElem_toList]

private theorem lastOf_pos (hn : 0 < n) (hle : n ≤ gicLrListNum) : lastOf n = n - 1 := by
  unfold lastOf
  unfold gicLrListNum at hle
  omega

/-! ## One sift -/

section Swap

variable {son : Nat} (hdad : dad < gicLrListNum) (hson : son < gicLrListNum)

private theorem prioAt_swap_left : prioAt (arr.swap dad son) dad = prioAt arr son := by
  rw [prioAt_eq hdad, Vector.getElem_swap_left, prioAt_eq hson]

private theorem prioAt_swap_right : prioAt (arr.swap dad son) son = prioAt arr dad := by
  rw [prioAt_eq hson, Vector.getElem_swap_right, prioAt_eq hdad]

private theorem prioAt_swap_of_ne {i : Nat} (hid : i ≠ dad) (his : i ≠ son) :
    prioAt (arr.swap dad son) i = prioAt arr i := by
  by_cases hi : i < gicLrListNum
  · rw [prioAt_eq hi, prioAt_eq hi, Vector.getElem_swap_of_ne hid his]
  · unfold prioAt
    rw [List.getD_eq_default _ _ (by simpa using hi),
      List.getD_eq_default _ _ (by simpa using hi)]

end Swap

/-- The loop goes on with the larger son. -/
theorem heapSon_larger (hlast : last < gicLrListNum) (hson : dad * 2 + 1 ≤ last) :
    ∃ son, heapSon arr dad last = .ok son ∧ IsLarger (prioAt arr) (last + 1) son dad := by
  have hleft : dad * 2 + 1 < gicLrListNum := by omega
  unfold heapSon IsLarger
  rw [Nat.mul_comm 2 dad]
  by_cases hright : dad * 2 + 1 + 1 ≤ last
  · have hr : dad * 2 + 2 < gicLrListNum := by omega
    have hl := @prioAt_eq arr _ hleft
    have hr' := @prioAt_eq arr _ hr
    simp only [hright, if_true, readAt_ok _ hleft, readAt_ok _ hr, ok_bind]
    by_cases hlt : getLrPrio arr[dad * 2 + 1] < getLrPrio arr[dad * 2 + 2]
    · refine ⟨dad * 2 + 2, by rw [if_pos hlt]; rfl, by omega, Or.inr ⟨rfl, ?_⟩⟩
      rw [BitVec.lt_def] at hlt
      omega
    · refine ⟨dad * 2 + 1, by rw [if_neg hlt]; rfl, by omega, Or.inl ⟨rfl, fun _ => ?_⟩⟩
      rw [BitVec.lt_def] at hlt
      omega
  · refine ⟨dad * 2 + 1, by rw [if_neg hright]; rfl, by omega, Or.inl ⟨rfl, fun hlt => ?_⟩⟩
    omega

/-- One round of a sift: it stops at a node that is larger than its sons, or exchanges it with the
larger son and goes on there. -/
theorem lrListHeapSort_round (hlast : last < gicLrListNum) (fuel : Nat) :
    (lrListHeapSort arr dad last (fuel + 1) = .ok arr ∧
      ∀ c, IsSon c dad → c < last + 1 → prioAt arr c < prioAt arr dad) ∨
    ∃ (son : Nat) (hd : dad < gicLrListNum) (hs : son < gicLrListNum),
      IsLarger (prioAt arr) (last + 1) son dad ∧ dad < son ∧ prioAt arr dad ≤ prioAt arr son ∧
      lrListHeapSort arr dad last (fuel + 1) =
        lrListHeapSort (arr.swap dad son) son last fuel := by
  rw [lrListHeapSort]
  by_cases hleft : dad * 2 + 1 ≤ last
  · obtain ⟨son, hson, hlarger⟩ := @heapSon_larger arr last dad hlast hleft
    have hlt : son < last + 1 := hlarger.1
    have hgt : dad < son := by
      have his := hlarger.isSon
      unfold IsSon at his
      omega
    have hsl : son < gicLrListNum := by omega
    have hdl : dad < gicLrListNum := by omega
    have hps := @prioAt_eq arr _ hsl
    have hpd := @prioAt_eq arr _ hdl
    simp only [hleft, if_true, hson, ok_bind, readAt_ok _ hsl, readAt_ok _ hdl]
    by_cases hprio : getLrPrio arr[son] < getLrPrio arr[dad]
    · rw [if_pos hprio]
      rw [BitVec.lt_def, ← hps, ← hpd] at hprio
      exact Or.inl ⟨rfl, fun c hc hcn => (hlarger.le hc hcn).trans_lt hprio⟩
    · rw [if_neg hprio, swapAt_ok _ hdl hsl, ok_bind]
      rw [BitVec.lt_def, ← hps, ← hpd, Nat.not_lt] at hprio
      exact Or.inr ⟨son, hdl, hsl, hlarger, hgt, hprio, rfl⟩
  · rw [if_neg hleft]
    refine Or.inl ⟨rfl, fun c hc hcn => ?_⟩
    unfold IsSon at hc
    omega

/-- A sift from a node whose tree is in order but for the node itself leaves a heap. -/
theorem lrListHeapSort_heap (hlast : last < gicLrListNum) {fuel : Nat}
    (hdad : dad ≤ last) (hfuel : last < dad + fuel) (h : Sifting (prioAt arr) (last + 1) dad) :
    ∃ arr', lrListHeapSort arr dad last fuel = .ok arr' ∧ IsHeap (prioAt arr') (last + 1) := by
  induction fuel generalizing arr dad with
  | zero => omega
  | succ fuel ih =>
      rcases @lrListHeapSort_round arr last dad hlast fuel with
        ⟨hrun, hstop⟩ | ⟨son, hd, hs, hlarger, hgt, hle, hrun⟩
      · exact ⟨arr, hrun, h.stop fun c hc hcn => (hstop c hc hcn).le⟩
      · rw [hrun]
        have hlt : son < last + 1 := hlarger.1
        exact ih (by omega) (by omega) (h.descend hlarger.isSon hlt (fun c hc => hlarger.le hc) hle
          (prioAt_swap_left hd hs) (prioAt_swap_right hd hs)
          fun i hid his => prioAt_swap_of_ne hd hs hid his)

/-- What a sift leaves in front was in front. -/
theorem lrListHeapSort_front (hlast : last < gicLrListNum) {fuel m : Nat} (hdad : dad ≤ last)
    {arr' : Vector Lr gicLrListNum} (hrun : lrListHeapSort arr dad last fuel = .ok arr')
    (h : FrontLe m (prioAt arr') (last + 1)) : FrontLe m (prioAt arr) (last + 1) := by
  induction fuel generalizing arr dad with
  | zero => cases hrun
  | succ fuel ih =>
      rcases @lrListHeapSort_round arr last dad hlast fuel with
        ⟨hstop, -⟩ | ⟨son, hd, hs, hlarger, hgt, hle, hgo⟩
      · rw [hstop] at hrun
        cases hrun
        exact h
      · rw [hgo] at hrun
        have hlt : son < last + 1 := hlarger.1
        exact (ih (by omega) hrun).of_exchange hgt hlt hle (prioAt_swap_left hd hs)
          (prioAt_swap_right hd hs) fun i hid his => prioAt_swap_of_ne hd hs hid his

/-- A sift leaves the cells with a smaller priority than the one that sinks. -/
theorem lrListHeapSort_smaller (hlast : last < gicLrListNum) {fuel t : Nat} (hdad : dad ≤ last)
    {arr' : Vector Lr gicLrListNum} (hrun : lrListHeapSort arr dad last fuel = .ok arr')
    (ht : t < gicLrListNum) (hlt : prioAt arr t < prioAt arr dad) : arr'[t] = arr[t] := by
  induction fuel generalizing arr dad with
  | zero => cases hrun
  | succ fuel ih =>
      rcases @lrListHeapSort_round arr last dad hlast fuel with
        ⟨hstop, -⟩ | ⟨son, hd, hs, hlarger, hgt, hle, hgo⟩
      · rw [hstop] at hrun
        cases hrun
        rfl
      · rw [hgo] at hrun
        have hin : son < last + 1 := hlarger.1
        have htd : t ≠ dad := by
          rintro rfl
          exact lt_irrefl _ hlt
        have hts : t ≠ son := by
          rintro rfl
          exact not_lt.mpr hle hlt
        have hsunk : prioAt (arr.swap dad son) t < prioAt (arr.swap dad son) son := by
          rw [prioAt_swap_of_ne hd hs htd hts, prioAt_swap_right hd hs]
          exact hlt
        rw [ih (by omega) hrun hsunk, Vector.getElem_swap_of_ne htd hts]

/-- A sift leaves the cells in front of its start. -/
theorem lrListHeapSort_above (hlast : last < gicLrListNum) {fuel i : Nat} (hdad : dad ≤ last)
    {arr' : Vector Lr gicLrListNum} (hrun : lrListHeapSort arr dad last fuel = .ok arr')
    (hi : i < dad) : prioAt arr' i = prioAt arr i := by
  induction fuel generalizing arr dad with
  | zero => cases hrun
  | succ fuel ih =>
      rcases @lrListHeapSort_round arr last dad hlast fuel with
        ⟨hstop, -⟩ | ⟨son, hd, hs, hlarger, hgt, -, hgo⟩
      · rw [hstop] at hrun
        cases hrun
        rfl
      · rw [hgo] at hrun
        have hin : son < last + 1 := hlarger.1
        rw [ih (by omega) hrun (by omega), prioAt_swap_of_ne hd hs (by omega) (by omega)]

/-- Where a sift starts the priority does not become smaller, and no smaller than those of the
sons. -/
theorem lrListHeapSort_start (hlast : last < gicLrListNum) {fuel c : Nat} (hdad : dad ≤ last)
    {arr' : Vector Lr gicLrListNum} (hrun : lrListHeapSort arr dad last fuel = .ok arr')
    (hc : c = dad ∨ IsSon c dad) (hcn : c < last + 1) : prioAt arr c ≤ prioAt arr' dad := by
  cases fuel with
  | zero => cases hrun
  | succ fuel =>
      rcases @lrListHeapSort_round arr last dad hlast fuel with
        ⟨hstop, hsons⟩ | ⟨son, hd, hs, hlarger, hgt, hle, hgo⟩
      · rw [hstop] at hrun
        cases hrun
        rcases hc with rfl | hc
        · exact le_rfl
        · exact (hsons c hc hcn).le
      · rw [hgo] at hrun
        have hin : son < last + 1 := hlarger.1
        rw [lrListHeapSort_above hlast (by omega) hrun hgt, prioAt_swap_left hd hs]
        rcases hc with rfl | hc
        · exact hle
        · exact hlarger.le hc hcn

/-- A priority that nothing falls short of sinks along the larger sons to the end. -/
theorem lrListHeapSort_sinks (hlast : last < gicLrListNum) {fuel : Nat} (hdad : dad ≤ last)
    {arr' : Vector Lr gicLrListNum} (hrun : lrListHeapSort arr dad last fuel = .ok arr')
    (hmin : ∀ c, c < last + 1 → prioAt arr dad ≤ prioAt arr c) :
    ∃ (j : Nat) (hj : j < gicLrListNum) (hd : dad < gicLrListNum),
      Way (prioAt arr) (last + 1) dad j ∧ j ≤ last ∧ last + 1 ≤ 2 * j + 1 ∧
        arr'[j] = arr[dad] := by
  induction fuel generalizing arr dad with
  | zero => cases hrun
  | succ fuel ih =>
      rcases @lrListHeapSort_round arr last dad hlast fuel with
        ⟨hstop, hsons⟩ | ⟨son, hd, hs, hlarger, hgt, -, hgo⟩
      · rw [hstop] at hrun
        cases hrun
        refine ⟨dad, by omega, by omega, Way.here dad, hdad, ?_, rfl⟩
        by_contra hend
        have hlt := hsons (2 * dad + 1) (Or.inl rfl) (by omega)
        exact not_lt.mpr (hmin _ (by omega)) hlt
      · rw [hgo] at hrun
        have hin : son < last + 1 := hlarger.1
        have hmin' : ∀ c, c < last + 1 →
            prioAt (arr.swap dad son) son ≤ prioAt (arr.swap dad son) c := by
          intro c hc
          rw [prioAt_swap_right hd hs]
          by_cases hcd : c = dad
          · rw [hcd, prioAt_swap_left hd hs]
            exact hmin son hin
          · by_cases hcs : c = son
            · rw [hcs, prioAt_swap_right hd hs]
            · rw [prioAt_swap_of_ne hd hs hcd hcs]
              exact hmin c hc
        obtain ⟨j, hj, _, hway, hjn, hend, hcell⟩ := ih (by omega) hrun hmin'
        have hway' : Way (prioAt arr) (last + 1) son j := by
          apply hway.congr
          intro c hc
          rw [prioAt_swap_of_ne hd hs (by omega) (by omega)]
        exact ⟨j, hj, hd, Way.down hlarger hway', hjn, hend, by
          rw [hcell, Vector.getElem_swap_right]⟩

/-- Where the first cells have smaller priorities than the others and keep them, what sinks from
one of them comes to rest among them, above smaller ones. -/
theorem lrListHeapSort_inside (hlast : last < gicLrListNum) {fuel m : Nat} (hdad : dad ≤ last)
    {arr' : Vector Lr gicLrListNum} (hrun : lrListHeapSort arr dad last fuel = .ok arr')
    (hm : dad < m) (h : FrontLt m (prioAt arr) (last + 1))
    (h' : FrontLe m (prioAt arr') (last + 1)) :
    ∃ i, Way (prioAt arr) (last + 1) dad i ∧ i < m ∧
      ∀ c, IsSon c i → c < last + 1 → c < m ∧ prioAt arr c < prioAt arr dad := by
  induction fuel generalizing arr dad with
  | zero => cases hrun
  | succ fuel ih =>
      rcases @lrListHeapSort_round arr last dad hlast fuel with
        ⟨hstop, hsons⟩ | ⟨son, hd, hs, hlarger, hgt, -, hgo⟩
      · refine ⟨dad, Way.here dad, hm, fun c hc hcn => ⟨?_, hsons c hc hcn⟩⟩
        by_contra hout
        exact lt_asymm (hsons c hc hcn) (h dad c hm (by omega) hcn)
      · rw [hgo] at hrun
        have hin : son < last + 1 := hlarger.1
        have hfront := lrListHeapSort_front hlast (by omega) hrun h'
        have hleft := @prioAt_swap_left arr dad son hd hs
        have hright := @prioAt_swap_right arr dad son hd hs
        have hsm : son < m := h.inside hfront hm hin hleft hright
        have hlt := h.exchange hm hsm hleft hright fun i hid his =>
          prioAt_swap_of_ne hd hs hid his
        obtain ⟨i, hway, him, hrest⟩ := ih (by omega) hrun hsm hlt
        have hle : son ≤ i := hway.le
        have hway' : Way (prioAt arr) (last + 1) son i := by
          apply hway.congr
          intro c hc
          rw [prioAt_swap_of_ne hd hs (by omega) (by omega)]
        refine ⟨i, Way.down hlarger hway', him, fun c hc hcn => ?_⟩
        obtain ⟨hcm, hlt'⟩ := hrest c hc hcn
        unfold IsSon at hc
        rw [hright, prioAt_swap_of_ne hd hs (by omega) (by omega)] at hlt'
        exact ⟨hcm, hlt'⟩

/-! ## The passes -/

private theorem lrListHeapSort_root (hlast : last < gicLrListNum)
    (h : OrderedFrom 1 (prioAt arr) (last + 1)) :
    ∃ arr', lrListHeapSort arr 0 last (last + 1) = .ok arr' ∧ IsHeap (prioAt arr') (last + 1) :=
  lrListHeapSort_heap hlast (Nat.zero_le _) (by omega) h.sifting

/-- The first pass finishes the heap, and the others find one. -/
theorem lrListHeapCreate_heap (hlast : last < gicLrListNum) {passes : Nat}
    (h : OrderedFrom 1 (prioAt arr) (last + 1)) :
    ∃ arr', lrListHeapCreate arr 0 last (passes + 1) = .ok arr' ∧
      IsHeap (prioAt arr') (last + 1) := by
  induction passes generalizing arr with
  | zero =>
      obtain ⟨arr', hrun, hheap⟩ := lrListHeapSort_root hlast h
      refine ⟨arr', ?_, hheap⟩
      simp only [lrListHeapCreate, hrun, ok_bind]
      rfl
  | succ passes ih =>
      obtain ⟨arr₁, hrun₁, hheap₁⟩ := lrListHeapSort_root hlast h
      obtain ⟨arr₂, hrun₂, hheap₂⟩ := ih hheap₁.orderedFrom
      refine ⟨arr₂, ?_, hheap₂⟩
      rw [lrListHeapCreate, hrun₁, ok_bind, hrun₂]

theorem heapPasses_pos (hlast : last < gicLrListNum) : 0 < heapPasses 0 last := by
  unfold heapPasses
  unfold gicLrListNum at hlast
  have hsmall : (BitVec.ofNat 16 ((last - 0) / 2)).toNat = (last - 0) / 2 := by
    rw [BitVec.toNat_ofNat]
    exact Nat.mod_eq_of_lt (by omega)
  rw [BitVec.toInt_eq_toNat_of_lt (by rw [hsmall]; omega), hsmall]
  omega

private theorem heapPasses_none : heapPasses 0 (lastOf 0) = 0 := by decide

private theorem heapCreate_permutes (hn : n ≤ gicLrListNum) : Permutes arr n := by
  unfold Permutes heapCreate
  rcases Nat.eq_zero_or_pos n with rfl | hpos
  · rw [heapPasses_none]
    exact ⟨arr, rfl, .refl _, fun _ _ _ => rfl⟩
  · rw [lastOf_pos hpos hn]
    obtain ⟨arr', hrun, hperm, habove⟩ :=
      lrListHeapCreate_spec (show n - 1 < gicLrListNum by omega) (heapPasses 0 (n - 1)) arr
    rw [Nat.sub_add_cancel hpos] at hperm
    exact ⟨arr', hrun, hperm, fun i hi hle => habove i hi (by omega)⟩

private theorem heapCreate_heapifies (hn : n ≤ gicLrListNum) (h : OrderedFrom 1 (prioAt arr) n) :
    Heapifies arr n := by
  obtain ⟨arr', hrun, hperm, habove⟩ := @heapCreate_permutes arr n hn
  refine ⟨arr', hrun, hperm, habove, ?_⟩
  rcases Nat.eq_zero_or_pos n with rfl | hpos
  · intro i c _ hc
    exact absurd hc (Nat.not_lt_zero c)
  · have hlast : n - 1 < gicLrListNum := by omega
    have hsucc : n - 1 + 1 = n := Nat.sub_add_cancel hpos
    obtain ⟨passes, hpasses⟩ : ∃ k, heapPasses 0 (n - 1) = k + 1 :=
      ⟨heapPasses 0 (n - 1) - 1, by have := heapPasses_pos hlast; omega⟩
    rw [← hsucc] at h
    obtain ⟨arr'', hrun', hheap⟩ := @lrListHeapCreate_heap arr (n - 1) hlast passes h
    unfold heapCreate at hrun
    rw [lastOf_pos hpos hn, hpasses, hrun'] at hrun
    rw [← Except.ok.inj hrun, ← hsucc]
    exact hheap

theorem lrListHeapCreate_front (hlast : last < gicLrListNum) {passes m : Nat}
    {arr' : Vector Lr gicLrListNum} (hrun : lrListHeapCreate arr 0 last passes = .ok arr')
    (h : FrontLe m (prioAt arr') (last + 1)) : FrontLe m (prioAt arr) (last + 1) := by
  induction passes generalizing arr with
  | zero =>
      cases hrun
      exact h
  | succ passes ih =>
      obtain ⟨arr₁, hsort, hrest⟩ := bind_eq_ok.mp hrun
      exact lrListHeapSort_front hlast (Nat.zero_le last) hsort (ih hrest)

theorem lrListHeapCreate_inside (hlast : last < gicLrListNum) {passes m : Nat}
    {arr' : Vector Lr gicLrListNum} (hrun : lrListHeapCreate arr 0 last (passes + 1) = .ok arr')
    (hm : 0 < m) (h : FrontLt m (prioAt arr) (last + 1))
    (h' : FrontLe m (prioAt arr') (last + 1)) :
    ∃ i, Way (prioAt arr) (last + 1) 0 i ∧ i < m ∧
      ∀ c, IsSon c i → c < last + 1 → c < m ∧ prioAt arr c < prioAt arr 0 := by
  obtain ⟨arr₁, hsort, hrest⟩ := bind_eq_ok.mp hrun
  exact lrListHeapSort_inside hlast (Nat.zero_le last) hsort hm h
    (lrListHeapCreate_front hlast hrest h')

/-- The passes leave the cells with a smaller priority than the root. -/
theorem lrListHeapCreate_smaller (hlast : last < gicLrListNum) {passes t : Nat}
    {arr' : Vector Lr gicLrListNum} (hrun : lrListHeapCreate arr 0 last passes = .ok arr')
    (ht : t < gicLrListNum) (hlt : prioAt arr t < prioAt arr 0) : arr'[t] = arr[t] := by
  induction passes generalizing arr with
  | zero =>
      cases hrun
      rfl
  | succ passes ih =>
      obtain ⟨arr₁, hsort, hrest⟩ := bind_eq_ok.mp hrun
      have hcell := lrListHeapSort_smaller hlast (Nat.zero_le last) hsort ht hlt
      have hroot : prioAt arr 0 ≤ prioAt arr₁ 0 :=
        lrListHeapSort_start hlast (Nat.zero_le last) hsort (Or.inl rfl) (Nat.succ_pos last)
      have hlt₁ : prioAt arr₁ t < prioAt arr₁ 0 := by
        rw [prioAt_eq ht, hcell, ← prioAt_eq ht]
        exact hlt.trans_le hroot
      rw [ih hrest hlt₁, hcell]

/-- A root that no entry falls short of sinks in the first pass, and stays there when a son was
larger. -/
theorem lrListHeapCreate_sinks (hlast : last < gicLrListNum) {passes c : Nat}
    {arr' : Vector Lr gicLrListNum} (hrun : lrListHeapCreate arr 0 last (passes + 1) = .ok arr')
    (hmin : ∀ i, i < last + 1 → prioAt arr 0 ≤ prioAt arr i) (hc : IsSon c 0)
    (hcn : c < last + 1) (hlt : prioAt arr 0 < prioAt arr c) :
    ∃ (j : Nat) (hj : j < gicLrListNum) (h0 : 0 < gicLrListNum),
      Way (prioAt arr) (last + 1) 0 j ∧ j ≤ last ∧ last + 1 ≤ 2 * j + 1 ∧ arr'[j] = arr[0] := by
  obtain ⟨arr₁, hsort, hrest⟩ := bind_eq_ok.mp hrun
  obtain ⟨j, hj, h0, hway, hjn, hend, hcell⟩ :=
    lrListHeapSort_sinks hlast (Nat.zero_le last) hsort hmin
  have hroot : prioAt arr c ≤ prioAt arr₁ 0 :=
    lrListHeapSort_start hlast (Nat.zero_le last) hsort (Or.inr hc) hcn
  have hlt₁ : prioAt arr₁ j < prioAt arr₁ 0 := by
    rw [prioAt_eq hj, hcell, ← prioAt_eq h0]
    exact hlt.trans_le hroot
  exact ⟨j, hj, h0, hway, hjn, hend, by rw [lrListHeapCreate_smaller hlast hrest hj hlt₁, hcell]⟩

/-! ## The nodes that are not visited -/

/-- A root that is larger than its sons ends every pass at once. -/
theorem lrListHeapCreate_stays (hlast : last < gicLrListNum) (hone : 1 ≤ last) {passes : Nat}
    (hroot : ∀ c, IsSon c 0 → c ≤ last → prioAt arr c < prioAt arr 0) :
    lrListHeapCreate arr 0 last passes = .ok arr := by
  induction passes with
  | zero => rfl
  | succ passes ih =>
      have hsift : lrListHeapSort arr 0 last (last + 1) = .ok arr := by
        obtain ⟨son, hson, hlarger⟩ := @heapSon_larger arr last 0 hlast (by omega)
        have hin : son < last + 1 := hlarger.1
        have hlt := hroot son hlarger.isSon (by omega)
        have hsl : son < gicLrListNum := by omega
        have hdl : 0 < gicLrListNum := by omega
        rw [prioAt_eq hsl, prioAt_eq hdl, ← BitVec.lt_def] at hlt
        simp only [lrListHeapSort, show 0 * 2 + 1 ≤ last by omega, if_true, hson, ok_bind,
          readAt_ok _ hsl, readAt_ok _ hdl, hlt]
        rfl
      rw [lrListHeapCreate, hsift, ok_bind, ih]

/-- Priorities 3, 1, 0 and, below the second entry, 2. -/
def unsifted : Vector Lr gicLrListNum := Vector.ofFn fun i =>
  if i.val = 0 then 3 <<< ichLrPrioOff else if i.val = 1 then 1 <<< ichLrPrioOff
  else if i.val = 3 then 2 <<< ichLrPrioOff else 0

private theorem prioAt_unsifted : prioAt unsifted 0 = 3 ∧ prioAt unsifted 1 = 1 ∧
    prioAt unsifted 2 = 0 ∧ prioAt unsifted 3 = 2 := by
  refine ⟨?_, ?_, ?_, ?_⟩ <;>
    (rw [prioAt_eq (by decide)]; simp only [unsifted, Vector.getElem_ofFn]; decide)

private theorem not_heapifies_unsifted (hn : 4 ≤ n) (hle : n ≤ gicLrListNum) :
    ¬Heapifies unsifted n := by
  obtain ⟨h0, h1, h2, h3⟩ := prioAt_unsifted
  have hstays : heapCreate unsifted n = .ok unsifted := by
    unfold heapCreate
    rw [lastOf_pos (by omega) hle]
    apply lrListHeapCreate_stays (by omega) (by omega)
    intro c hc _
    rcases hc with rfl | rfl
    · rw [h0, h1]
      decide
    · rw [h0, h2]
      decide
  intro h
  obtain ⟨arr', hrun, _, _, hheap⟩ := h
  rw [hstays] at hrun
  have hson := hheap 1 3 (Or.inl rfl) (by omega)
  rw [← Except.ok.inj hrun, h1, h3] at hson
  omega

/-- Up to three entries only the root has sons. -/
theorem orderedFrom_of_le (hn : n ≤ 3) : OrderedFrom 1 (prioAt arr) n := by
  intro i hi c hc hcn
  unfold IsSon at hc
  omega

/-- The loops of `lr_list_heap_create` end with a permutation.  It is a heap where the nodes below
the root were in order, and for every array only up to three entries. -/
theorem lrListHeapCreate_heapifies (n : Nat) (hn : n ≤ gicLrListNum) :
    (∀ arr, Permutes arr n ∧ (OrderedFrom 1 (prioAt arr) n → Heapifies arr n)) ∧
      ((∀ arr, Heapifies arr n) ↔ n ≤ 3) := by
  refine ⟨fun arr => ⟨heapCreate_permutes hn, heapCreate_heapifies hn⟩, ?_, ?_⟩
  · intro hall
    by_contra hlt
    exact not_heapifies_unsifted (by omega) hn (hall unsifted)
  · intro hle arr
    exact heapCreate_heapifies hn (orderedFrom_of_le hle)

theorem lrListHeapCreate_heapifies_three : 3 ≤ gicLrListNum ∧ Heapifies unsifted 3 :=
  ⟨by decide, ((lrListHeapCreate_heapifies 3 (by decide)).1 unsifted).2
    (orderedFrom_of_le (by decide))⟩

/-- The second of four entries keeps its priority 1 above the 2 of its son. -/
theorem lrListHeapCreate_leaves_son : ¬Heapifies unsifted 4 :=
  not_heapifies_unsifted (by decide) (by decide)

end RtHypervisor.Ports.LrList
