import RtHypervisor.Ports.LrHeap
import RtHypervisor.Ports.LrListInv

/-!
# The order in which an injection refills the list registers

The specifications of `LrInject` say which values an injection keeps, and not where.  Here the
whole pipeline is followed: the new value and those of the list registers are offered to the list
one after the other (`gathered`), `lr_list_heap_create` brings them into an order (`heapOrder`),
and the registers are filled from the front.  The removal moves the last entry over the one
removed and the index goes on, so what is loaded is the front of the order, but of `n` entries
never more than half.

`candidates` are the values there are before the call, in the order in which they come to stand in
the list, and `admitted` says how many of them the list takes.  Of the order only what the sifts
are sure to do is used: what is in front afterwards was in front, a small priority stays where it
is below a larger first one, and sinks to the end when it is the first.
-/

namespace RtHypervisor.Ports.LrList

open RtHypervisor.Verified.Run
open RtHypervisor.Verified.PrefixArray
open RtHypervisor.Verified.HeapOrder
open RtHypervisor.Ports.ListRegister

/-! ## Orders of entries -/

/-- An `lr_list` with the entries `vals`. -/
def arrayOf (vals : List Lr) : Vector Lr gicLrListNum := Vector.ofFn fun i => vals.getD i.val 0

/-- The order `lr_list_heap_create` brings entries into. -/
def heapOrder (vals : List Lr) : List Lr :=
  match lrListHeapCreate (arrayOf vals) 0 (vals.length - 1) (heapPasses 0 (vals.length - 1)) with
  | .ok arr => pre arr vals.length
  | .error _ => vals

/-- `vals` has an entry for the interrupt of `lr`. -/
def Listed (vals : List Lr) (lr : Lr) : Prop := ∃ e ∈ vals, getLrVint e = getLrVint lr

instance (vals : List Lr) (lr : Lr) : Decidable (Listed vals lr) :=
  List.decidableBEx (fun e => getLrVint e = getLrVint lr) vals

/-- `vgic_lr_list_insert`, on the entries. -/
def offer (vals : List Lr) (lr : Lr) : List Lr :=
  if vals.length < gicLrListNum ∧ ¬ Listed vals lr then vals ++ [lr ||| lrTag] else vals

/-- The entries after `lr` has been inserted and the list registers have been saved. -/
def gathered (s : VgicSlice) (lr : Lr) : List Lr :=
  (lrs s.ich (List.range s.ctxt.nrLr)).foldl offer (offer (entries s.gicr) lr)

/-- How many of `n` entries are loaded into `nrLr` registers. -/
def loadCount (nrLr n : Nat) : Nat := min nrLr ((n + 1) / 2)

/-- What there is to choose from, as it comes to stand in the list: the entries, the new value and
the values of the registers in use. -/
def candidates (s : VgicSlice) (lr : Lr) : List Lr :=
  entries s.gicr ++ (lr :: lrs s.ich (List.range s.ctxt.nrLr)).map (· ||| lrTag)

/-- The list takes them all: no two are for the same interrupt, and there is room. -/
def Fits (vals : List Lr) : Prop :=
  vals.length ≤ gicLrListNum ∧ (vals.map getLrVint).Nodup

instance (vals : List Lr) : Decidable (Fits vals) := inferInstanceAs (Decidable (_ ∧ _))

/-- How many of the candidates the list takes: one for each interrupt, until it is full. -/
def admitted (s : VgicSlice) (lr : Lr) : Nat :=
  min gicLrListNum ((candidates s lr).map getLrVint).toFinset.card

/-- The priority that is compared of the `i`th value. -/
def prioOf (vals : List Lr) (i : Nat) : Nat := (getLrPrio (vals.getD i 0)).toNat

section Order

variable {g g' : Vgicr} {vals : List Lr} {lr : Lr}

private theorem arrayOf_entries (hb : InBounds g) : arrayOf (entries g) = g.lrList := by
  apply Vector.ext
  intro i hi
  have hcell : (arrayOf (entries g))[i] = (entries g).getD i 0 := by simp [arrayOf]
  rw [hcell, List.getD_eq_getElem?_getD]
  by_cases hlt : i < g.tail
  · have hlen : i < (entries g).length := by rwa [hb.length_entries]
    have hget : (entries g)[i] = g.lrList[i] := getElem_pre g.lrList hlen hi
    rw [List.getElem?_eq_getElem hlen, Option.getD_some, hget]
  · have hlen : (entries g).length ≤ i := by
      rw [hb.length_entries]
      omega
    rw [List.getElem?_eq_none hlen, Option.getD_none, hb.blank i hi (by omega)]

/-- `vgic_lr_list_sort` brings the entries into `heapOrder`. -/
theorem entries_sorted (hb : InBounds g) (hrun : vgicLrListSort g = .ok g') :
    entries g' = heapOrder (entries g) := by
  have hlen : (entries g).length = g.tail := hb.length_entries
  unfold heapOrder
  rw [arrayOf_entries hb, hlen]
  by_cases hempty : g.tail = 0
  · have hflag : vgicIsLrListEmpty g = true := by simp [vgicIsLrListEmpty, hempty]
    simp only [vgicLrListSort, hflag, if_true] at hrun
    cases hrun
    have hnil : entries g = [] := by
      rw [entries, hempty]
      rfl
    rw [hnil, hempty]
    split <;> rfl
  · have hflag : vgicIsLrListEmpty g = false := by simp [vgicIsLrListEmpty, hempty]
    simp only [vgicLrListSort, hflag, Bool.false_eq_true, if_false] at hrun
    obtain ⟨list, hlist, hpure⟩ := bind_eq_ok.mp hrun
    rw [hlist]
    cases hpure
    rfl

private theorem getElem_arrayOf {i : Nat} (hi : i < vals.length) (hin : i < gicLrListNum) :
    (arrayOf vals)[i] = vals[i] := by
  simp [arrayOf, hi]

private theorem pre_arrayOf (hlen : vals.length ≤ gicLrListNum) :
    pre (arrayOf vals) vals.length = vals := by
  apply List.ext_getElem
  · rw [length_pre _ hlen]
  · intro i hi hi'
    rw [getElem_pre _ hi (by omega), getElem_arrayOf hi' (by omega)]

theorem heapOrder_perm (hlen : vals.length ≤ gicLrListNum) : (heapOrder vals).Perm vals := by
  by_cases hempty : vals = []
  · subst hempty
    unfold heapOrder
    split <;> exact .refl _
  · have hpos : 0 < vals.length := List.length_pos_of_ne_nil hempty
    obtain ⟨arr, hrun, hperm, -⟩ := lrListHeapCreate_spec
      (show vals.length - 1 < gicLrListNum by omega) (heapPasses 0 (vals.length - 1))
      (arrayOf vals)
    have hsucc : vals.length - 1 + 1 = vals.length := by omega
    rw [hsucc, pre_arrayOf hlen] at hperm
    unfold heapOrder
    rw [hrun]
    exact hperm

/-! What the sifts do to the order. -/

theorem prioOf_eq {i : Nat} (hi : i < vals.length) : prioOf vals i = (getLrPrio vals[i]).toNat := by
  rw [prioOf, List.getD_eq_getElem _ _ hi]

private theorem prioAt_arrayOf (hlen : vals.length ≤ gicLrListNum) (i : Nat) :
    prioAt (arrayOf vals) i = prioOf vals i := by
  by_cases hi : i < gicLrListNum
  · rw [prioAt_eq hi, prioOf]
    simp [arrayOf]
  · rw [prioAt, prioOf, List.getD_eq_default _ _ (by simpa using hi),
      List.getD_eq_default _ _ (by omega)]

/-- The run of `lr_list_heap_create` behind the order of at least two entries. -/
theorem heapOrder_run (hlen : vals.length ≤ gicLrListNum) (hone : 1 < vals.length) :
    ∃ (last passes : Nat) (arr : Vector Lr gicLrListNum), last + 1 = vals.length ∧
      last < gicLrListNum ∧ lrListHeapCreate (arrayOf vals) 0 last (passes + 1) = .ok arr ∧
      heapOrder vals = pre arr vals.length ∧
      ∀ i, i < vals.length → prioAt arr i = prioOf (heapOrder vals) i := by
  have hlast : vals.length - 1 < gicLrListNum := by omega
  obtain ⟨arr, hrun, -, -⟩ :=
    lrListHeapCreate_spec hlast (heapPasses 0 (vals.length - 1)) (arrayOf vals)
  have hpasses : heapPasses 0 (vals.length - 1) - 1 + 1 = heapPasses 0 (vals.length - 1) :=
    Nat.sub_add_cancel (heapPasses_pos hlast)
  have horder : heapOrder vals = pre arr vals.length := by
    unfold heapOrder
    rw [hrun]
  refine ⟨vals.length - 1, heapPasses 0 (vals.length - 1) - 1, arr, by omega, hlast, ?_, horder,
    fun i hi => ?_⟩
  · rw [hpasses]
    exact hrun
  · have hin : i < (pre arr vals.length).length := by rw [length_pre _ hlen]; exact hi
    rw [horder, prioOf_eq hin, getElem_pre arr hin (by omega), prioAt_eq]

theorem heapOrder_of_le_one (hone : vals.length ≤ 1) : heapOrder vals = vals := by
  have hperm := @heapOrder_perm vals (hone.trans (by decide))
  rcases Nat.le_one_iff_eq_zero_or_eq_one.mp hone with hzero | hsingle
  · rw [List.eq_nil_of_length_eq_zero hzero] at hperm ⊢
    exact List.perm_nil.mp hperm
  · obtain ⟨lr, rfl⟩ := List.length_eq_one_iff.mp hsingle
    exact List.perm_singleton.mp hperm

/-- Entries behind a first one with a larger priority than the next two stay where they are. -/
theorem heapOrder_stays (hlen : vals.length ≤ gicLrListNum)
    (hhead : ∀ c, IsSon c 0 → c < vals.length → prioOf vals c < prioOf vals 0) :
    heapOrder vals = vals := by
  by_cases hone : vals.length ≤ 1
  · exact heapOrder_of_le_one hone
  · obtain ⟨last, passes, arr, hlast, hlt, hrun, horder, -⟩ := heapOrder_run hlen (by omega)
    have hsame : lrListHeapCreate (arrayOf vals) 0 last (passes + 1) = .ok (arrayOf vals) := by
      apply lrListHeapCreate_stays hlt (by omega)
      intro c hc hcn
      rw [prioAt_arrayOf hlen, prioAt_arrayOf hlen]
      exact hhead c hc (by omega)
    rw [hsame] at hrun
    rw [horder, ← Except.ok.inj hrun, pre_arrayOf hlen]

/-- What is in front of the order was in front. -/
theorem heapOrder_front {m : Nat} (hlen : vals.length ≤ gicLrListNum)
    (h : FrontLe m (prioOf (heapOrder vals)) vals.length) :
    FrontLe m (prioOf vals) vals.length := by
  by_cases hone : vals.length ≤ 1
  · rw [heapOrder_of_le_one hone] at h
    exact h
  · obtain ⟨last, passes, arr, hlast, hlt, hrun, -, hprio⟩ := heapOrder_run hlen (by omega)
    have hfront : FrontLe m (prioAt (arrayOf vals)) (last + 1) := by
      apply lrListHeapCreate_front hlt hrun
      intro i j hi hj hjn
      rw [hprio i (by omega), hprio j (by omega)]
      exact h i j hi hj (by omega)
    intro i j hi hj hjn
    rw [← prioAt_arrayOf hlen, ← prioAt_arrayOf hlen]
    exact hfront i j hi hj (by omega)

/-- Where the front of the order has smaller priorities than the rest and had them before, the
first entry comes to rest in front, above smaller ones. -/
theorem heapOrder_inside {m : Nat} (hlen : vals.length ≤ gicLrListNum) (hone : 1 < vals.length)
    (hm : 0 < m) (hlt : FrontLt m (prioOf vals) vals.length)
    (h : FrontLe m (prioOf (heapOrder vals)) vals.length) :
    ∃ i, Way (prioOf vals) vals.length 0 i ∧ i < m ∧
      ∀ c, IsSon c i → c < vals.length → c < m ∧ prioOf vals c < prioOf vals 0 := by
  obtain ⟨last, passes, arr, hlast, hin, hrun, -, hprio⟩ := heapOrder_run hlen hone
  have hsame : prioAt (arrayOf vals) = prioOf vals := funext fun i => prioAt_arrayOf hlen i
  have hfront : FrontLe m (prioAt arr) (last + 1) := by
    intro i j hi hj hjn
    rw [hprio i (by omega), hprio j (by omega)]
    exact h i j hi hj (by omega)
  have hinside := lrListHeapCreate_inside hin hrun hm (by rw [hsame, hlast]; exact hlt) hfront
  rw [hsame, hlast] at hinside
  exact hinside

/-- An entry with a smaller priority than the first one stays where it is. -/
theorem heapOrder_smaller {t : Nat} (hlen : vals.length ≤ gicLrListNum) (ht : t < vals.length)
    (hlt : prioOf vals t < prioOf vals 0) : (heapOrder vals)[t]? = some vals[t] := by
  have hpos : t ≠ 0 := by
    rintro rfl
    exact lt_irrefl _ hlt
  obtain ⟨last, passes, arr, hlast, hin, hrun, horder, -⟩ := heapOrder_run hlen (by omega)
  have ht' : t < gicLrListNum := by omega
  have hin' : t < (pre arr vals.length).length := by rw [length_pre _ hlen]; exact ht
  have hcell := lrListHeapCreate_smaller hin hrun ht'
    (by rw [prioAt_arrayOf hlen, prioAt_arrayOf hlen]; exact hlt)
  rw [horder, List.getElem?_eq_getElem hin', getElem_pre arr hin' ht', hcell,
    getElem_arrayOf ht ht']

/-- A first entry without priority sinks along the larger ones to the end, if one of the next two
has a priority. -/
theorem heapOrder_sinks {c : Nat} (hlen : vals.length ≤ gicLrListNum) (hzero : prioOf vals 0 = 0)
    (hc : IsSon c 0) (hcn : c < vals.length) (hlt : 0 < prioOf vals c) :
    ∃ j, Way (prioOf vals) vals.length 0 j ∧ j < vals.length ∧ vals.length ≤ 2 * j + 1 ∧
      (heapOrder vals)[j]? = some (vals.getD 0 0) := by
  have hone : 1 < vals.length := by
    unfold IsSon at hc
    omega
  have hsame : prioAt (arrayOf vals) = prioOf vals := funext fun i => prioAt_arrayOf hlen i
  obtain ⟨last, passes, arr, hlast, hin, hrun, horder, -⟩ := heapOrder_run hlen hone
  obtain ⟨j, hj, h0, hway, hjn, hend, hcell⟩ :=
    lrListHeapCreate_sinks hin hrun (by rw [hsame, hzero]; exact fun _ _ => Nat.zero_le _)
      hc (by omega) (by rw [hsame, hzero]; exact hlt)
  rw [hsame, hlast] at hway
  have hin' : j < (pre arr vals.length).length := by
    rw [length_pre _ hlen]
    omega
  refine ⟨j, hway, by omega, by omega, ?_⟩
  rw [horder, List.getElem?_eq_getElem hin', getElem_pre arr hin' hj, hcell,
    getElem_arrayOf (by omega) h0, List.getD_eq_getElem _ _ (by omega)]

/-- Every entry is an old one or the value offered. -/
theorem mem_offer {e : Lr} (he : e ∈ offer vals lr) : e ∈ vals ∨ e = lr ||| lrTag := by
  unfold offer at he
  split at he
  · rcases List.mem_append.mp he with hold | hnew
    · exact Or.inl hold
    · exact Or.inr (List.mem_singleton.mp hnew)
  · exact Or.inl he

end Order

/-! ## What the list takes -/

section Offers

variable {s : VgicSlice} {vals l : List Lr} {lr : Lr}

/-- Offering adds values of its own, tagged, at the end. -/
theorem foldl_offer_eq (l vals : List Lr) :
    ∃ l' : List Lr, l'.Sublist l ∧ l.foldl offer vals = vals ++ l'.map (· ||| lrTag) := by
  induction l generalizing vals with
  | nil => exact ⟨[], List.Sublist.refl _, (List.append_nil vals).symm⟩
  | cons x l ih =>
      obtain ⟨l', hsub, heq⟩ := ih (offer vals x)
      rw [List.foldl_cons, heq]
      by_cases hroom : vals.length < gicLrListNum ∧ ¬ Listed vals x
      · refine ⟨x :: l', hsub.cons_cons x, ?_⟩
        rw [offer, if_pos hroom, List.append_assoc, List.map_cons]
        rfl
      · exact ⟨l', hsub.cons x, by rw [offer, if_neg hroom]⟩

theorem foldl_offer_full (h : vals.length = gicLrListNum) : l.foldl offer vals = vals := by
  induction l with
  | nil => rfl
  | cons x l ih =>
      have hfull : ¬(vals.length < gicLrListNum ∧ ¬ Listed vals x) := by
        omega
      rw [List.foldl_cons, offer, if_neg hfull]
      exact ih

/-- Values that fit are all taken. -/
theorem foldl_offer_fits (h : Fits (vals ++ l.map (· ||| lrTag))) :
    l.foldl offer vals = vals ++ l.map (· ||| lrTag) := by
  induction l generalizing vals with
  | nil => exact (List.append_nil vals).symm
  | cons x l ih =>
      have happ : vals ++ (x :: l).map (· ||| lrTag) =
          vals ++ [x ||| lrTag] ++ l.map (· ||| lrTag) := by
        rw [List.map_cons, List.append_assoc]
        rfl
      have hroom : vals.length < gicLrListNum := by
        have hlen := h.1
        rw [List.length_append, List.map_cons, List.length_cons] at hlen
        omega
      have hnew : ¬ Listed vals x := by
        rintro ⟨e, he, hvint⟩
        have hnd := h.2
        rw [List.map_append, List.map_cons, List.map_cons, getLrVint_tag] at hnd
        have hdisjoint := (List.nodup_append.mp hnd).2.2
        exact hdisjoint _ (List.mem_map_of_mem he) _ List.mem_cons_self hvint
      rw [List.foldl_cons, offer, if_pos ⟨hroom, hnew⟩, happ]
      rw [happ] at h
      exact ih h

/-- One entry is kept for each interrupt, until the list is full. -/
theorem length_foldl_offer (hnd : (vals.map getLrVint).Nodup) (hle : vals.length ≤ gicLrListNum) :
    (l.foldl offer vals).length =
      min gicLrListNum ((vals ++ l.map (· ||| lrTag)).map getLrVint).toFinset.card := by
  induction l generalizing vals with
  | nil =>
      rw [List.map_nil, List.append_nil, List.toFinset_card_of_nodup hnd, List.length_map,
        Nat.min_eq_right hle]
      rfl
  | cons x l ih =>
      rw [List.foldl_cons]
      by_cases hlisted : Listed vals x
      · -- an interrupt that is listed counts once
        obtain ⟨e, he, hvint⟩ := hlisted
        have hsame : ((vals ++ (x :: l).map (· ||| lrTag)).map getLrVint).toFinset =
            ((vals ++ l.map (· ||| lrTag)).map getLrVint).toFinset := by
          have hmem : getLrVint x ∈ vals.map getLrVint := hvint ▸ List.mem_map_of_mem he
          ext v
          simp only [List.map_append, List.map_cons, List.mem_toFinset, List.mem_append,
            List.mem_cons, getLrVint_tag]
          constructor
          · rintro (h | rfl | h)
            · exact Or.inl h
            · exact Or.inl hmem
            · exact Or.inr h
          · rintro (h | h)
            · exact Or.inl h
            · exact Or.inr (Or.inr h)
        have hno : ¬(vals.length < gicLrListNum ∧ ¬ Listed vals x) :=
          fun h => h.2 ⟨e, he, hvint⟩
        rw [offer, if_neg hno, hsame]
        exact ih hnd hle
      · by_cases hroom : vals.length < gicLrListNum
        · have hnd' : ((vals ++ [x ||| lrTag]).map getLrVint).Nodup := by
            rw [List.map_append, List.map_singleton, getLrVint_tag]
            refine List.nodup_append.mpr ⟨hnd, List.nodup_singleton _, ?_⟩
            rintro v hv w hw rfl
            obtain ⟨e, he, heq⟩ := List.mem_map.mp hv
            exact hlisted ⟨e, he, heq.trans (List.mem_singleton.mp hw)⟩
          have hlen : (vals ++ [x ||| lrTag]).length ≤ gicLrListNum := by
            rw [List.length_append, List.length_singleton]
            exact hroom
          rw [offer, if_pos ⟨hroom, hlisted⟩, ih hnd' hlen, List.append_assoc]
          rfl
        · -- a full list stays as it is
          have hfull : vals.length = gicLrListNum := by omega
          have hcard : gicLrListNum ≤
              ((vals ++ (x :: l).map (· ||| lrTag)).map getLrVint).toFinset.card := by
            rw [← hfull, ← List.length_map getLrVint, ← List.toFinset_card_of_nodup hnd]
            apply Finset.card_le_card
            intro v hv
            rw [List.map_append, List.toFinset_append]
            exact Finset.mem_union_left _ hv
          rw [offer, if_neg (fun h => hroom h.1), foldl_offer_full hfull, hfull,
            Nat.min_eq_left hcard]

theorem length_gathered (h : RepInv s.gicr) (lr : Lr) : (gathered s lr).length = admitted s lr :=
  length_foldl_offer (l := lr :: lrs s.ich (List.range s.ctxt.nrLr)) h.distinct (by
    rw [h.bounds.length_entries]
    exact h.bounds.tail_le)

theorem length_gathered_le (h : RepInv s.gicr) (lr : Lr) :
    (gathered s lr).length ≤ gicLrListNum := by
  rw [length_gathered h]
  exact Nat.min_le_left _ _

theorem gathered_of_fits (h : Fits (candidates s lr)) : gathered s lr = candidates s lr :=
  foldl_offer_fits (l := lr :: lrs s.ich (List.range s.ctxt.nrLr)) h

theorem mem_candidates {e : Lr} (he : e ∈ gathered s lr) : e ∈ candidates s lr := by
  obtain ⟨l', hsub, heq⟩ :=
    foldl_offer_eq (lr :: lrs s.ich (List.range s.ctxt.nrLr)) (entries s.gicr)
  have hgathered : gathered s lr = entries s.gicr ++ l'.map (· ||| lrTag) := heq
  rw [hgathered] at he
  rcases List.mem_append.mp he with hold | hnew
  · exact List.mem_append_left _ hold
  · exact List.mem_append_right _ ((hsub.map _).subset hnew)

/-- Candidates that are all taken fit. -/
theorem fits_of_length (h : RepInv s.gicr)
    (hlen : (gathered s lr).length = (candidates s lr).length) : Fits (candidates s lr) := by
  have hcard := List.toFinset_card_le ((candidates s lr).map getLrVint)
  rw [List.length_map] at hcard
  rw [length_gathered h, admitted] at hlen
  have hsame : ((candidates s lr).map getLrVint).toFinset.card =
      ((candidates s lr).map getLrVint).length := by
    rw [List.length_map]
    omega
  exact ⟨by omega, Multiset.coe_nodup.mp (Multiset.toFinset_card_eq_card_iff_nodup.mp hsame)⟩

end Offers

/-! ## Insertion and saving -/

section Save

variable {s s' : VgicSlice} {lr : Lr}

theorem vgicLrListInsert_offer (hb : InBounds s.gicr) (lr : Lr) :
    ∃ s₁, vgicLrListInsert s lr = .ok s₁ ∧ InBounds s₁.gicr ∧ s₁.ctxt = s.ctxt ∧
      (∀ j, s₁.ich.lrAt j = s.ich.lrAt j) ∧ entries s₁.gicr = offer (entries s.gicr) lr := by
  by_cases hroom : s.gicr.tail < gicLrListNum ∧ ¬Queued s.gicr lr
  · refine ⟨_, vgicLrListInsert_accepted hroom.1 hroom.2, hb.pushed lr hroom.1, rfl,
      fun _ => rfl, ?_⟩
    have hlen : (entries s.gicr).length < gicLrListNum := by rw [hb.length_entries]; exact hroom.1
    rw [offer, if_pos ⟨hlen, hroom.2⟩]
    exact entries_pushed s.gicr lr hroom.1
  · have hrefused : s.gicr.tail = gicLrListNum ∨ Queued s.gicr lr := by
      by_cases hlt : s.gicr.tail < gicLrListNum
      · exact Or.inr (by_contra fun hq => hroom ⟨hlt, hq⟩)
      · have hle := hb.tail_le
        exact Or.inl (by omega)
    refine ⟨_, vgicLrListInsert_refused hb.tail_le hrefused, hb, rfl, fun _ => rfl, ?_⟩
    have hno : ¬((entries s.gicr).length < gicLrListNum ∧ ¬Listed (entries s.gicr) lr) := by
      rw [hb.length_entries]
      exact hroom
    rw [offer, if_neg hno]
    rfl

/-- Saving offers the values of the registers in turn. -/
theorem saveLr_offers [Bitmap] {elrsr : BitVec 64} {is : List Nat} (hb : InBounds s.gicr)
    (hnd : is.Nodup)
    (hidx : ∀ i ∈ is, i < s.ctxt.nrLr ∧ i < 16 ∧ bitGet elrsr i = lrIdle (s.ich.lrAt i))
    (hrun : is.foldlM (saveLrStep elrsr) s = .ok s') :
    entries s'.gicr = (lrs s.ich is).foldl offer (entries s.gicr) := by
  induction is generalizing s with
  | nil =>
      cases hrun
      rfl
  | cons i is ih =>
      rw [List.nodup_cons] at hnd
      obtain ⟨hnr, h16, hbit⟩ := hidx i List.mem_cons_self
      rw [List.foldlM_cons] at hrun
      obtain ⟨s₁, hstep, hrest⟩ := bind_eq_ok.mp hrun
      cases hidle : lrIdle (s.ich.lrAt i) with
      | true =>
          rw [saveLrStep_idle (hbit.trans hidle)] at hstep
          cases hstep
          rw [lrs_cons_idle hidle]
          exact ih hb hnd.2 (fun j hj => hidx j (List.mem_cons_of_mem i hj)) hrest
      | false =>
          obtain ⟨s₂, hstep₂, hm⟩ := saveLrStep_moved hb (hbit.trans hidle) hnr h16
          rw [hstep₂] at hstep
          cases hstep
          have hoffer : entries s₁.gicr = offer (entries s.gicr) (s.ich.lrAt i) := by
            rcases hm.fate with ⟨hnew, hent⟩ | ⟨hq, hent⟩
            · rw [hent, offer]
              by_cases hlt : (entries s.gicr).length < gicLrListNum
              · rw [if_pos ⟨hlt, hnew⟩]
              · have hlen := hm.bounds.length_entries
                have hle := hm.bounds.tail_le
                rw [hent, List.length_append, List.length_singleton] at hlen
                omega
            · rw [hent, offer, if_neg]
              rintro ⟨hlt, hnew⟩
              rcases hq with hq | hfull
              · exact hnew hq
              · omega
          have hsame : lrs s₁.ich is = lrs s.ich is :=
            lrs_congr fun j hj => hm.others j fun heq => hnd.1 (heq ▸ hj)
          rw [lrs_cons_live hidle, List.foldl_cons, ← hoffer, ← hsame]
          apply ih hm.bounds hnd.2 _ hrest
          intro j hj
          obtain ⟨hjnr, hj16, hjbit⟩ := hidx j (List.mem_cons_of_mem i hj)
          have hji : j ≠ i := fun heq => hnd.1 (heq ▸ hj)
          rw [hm.ctxt_eq, hm.others j hji]
          exact ⟨hjnr, hj16, hjbit⟩

end Save

/-! ## Refilling -/

/-- The removed entry gives its cell to the last one. -/
theorem vgicLrListRemove_cells {g g' : Vgicr} {rm : Nat} (hb : InBounds g) (hrm : rm < g.tail)
    (hrun : vgicLrListRemove g rm = .ok g') : g'.tail = g.tail - 1 ∧
      ∀ j (hj : j < gicLrListNum), j ≠ rm → j < g.tail - 1 → g'.lrList[j] = g.lrList[j] := by
  have hlast : g.tail - 1 < gicLrListNum := by
    have := hb.tail_le
    omega
  have hlt : rm < gicLrListNum := by omega
  simp only [vgicLrListRemove, hrm, decide_true, check_true, ok_bind, swapAt_ok _ hlt hlast,
    writeAt_ok _ hlast] at hrun
  cases hrun
  refine ⟨rfl, ?_⟩
  intro j hj hne hbelow
  have hnelast : j ≠ g.tail - 1 := by omega
  show ((g.lrList.swap rm (g.tail - 1)).set (g.tail - 1) 0)[j] = g.lrList[j]
  rw [Vector.getElem_set_ne hlast hj (Ne.symm hnelast), Vector.getElem_swap_of_ne hne hnelast]

/-- The list after the loads from the cells below `k`: it is shorter by `k`, and from cell `k` on
as it was. -/
structure Unread (vals : List Lr) (g : Vgicr) (k : Nat) : Prop where
  bounds : InBounds g
  tail_eq : g.tail = vals.length - k
  cells : ∀ j (hj : j < gicLrListNum), k ≤ j → j < vals.length - k → g.lrList[j] = vals.getD j 0

theorem Unread.start {g : Vgicr} (hb : InBounds g) : Unread (entries g) g 0 where
  bounds := hb
  tail_eq := by rw [hb.length_entries, Nat.sub_zero]
  cells := by
    intro j hj _ hlt
    have hlen : j < (entries g).length := by omega
    have hget : (entries g)[j] = g.lrList[j] := getElem_pre g.lrList hlen hj
    rw [List.getD_eq_getElem?_getD, List.getElem?_eq_getElem hlen, Option.getD_some, hget]

/-- What a restore over the registers `k ≤ i < k + c` does with the order `vals`. -/
structure Refilled (vals : List Lr) (s s' : VgicSlice) (k c : Nat) : Prop where
  bounds : InBounds s'.gicr
  ctxt_eq : s'.ctxt = s.ctxt
  loaded : ∀ i, k ≤ i → i < k + c → 2 * i < vals.length → s'.ich.lrAt i = vals.getD i 0
  others : ∀ i, ¬ (k ≤ i ∧ i < k + c ∧ 2 * i < vals.length) → s'.ich.lrAt i = s.ich.lrAt i
  rest : (entries s.gicr).Perm
    ((vals.drop k).take (min c ((vals.length + 1) / 2 - k)) ++ entries s'.gicr)

/-- Nothing is left to be loaded. -/
theorem Refilled.stop {vals : List Lr} {s : VgicSlice} {k c : Nat} (hb : InBounds s.gicr)
    (h : c = 0 ∨ vals.length ≤ 2 * k) : Refilled vals s s k c where
  bounds := hb
  ctxt_eq := rfl
  loaded := by
    intro i hlo hhi hhalf
    omega
  others := fun _ _ => rfl
  rest := by
    have hnone : min c ((vals.length + 1) / 2 - k) = 0 := by omega
    rw [hnone, List.take_zero, List.nil_append]

/-- One entry is loaded, then the rest. -/
theorem Refilled.cons {vals : List Lr} {s s₁ s' : VgicSlice} {k c : Nat}
    (hhalf : 2 * k < vals.length) (hm : MovedIn s s₁ k (vals.getD k 0))
    (h : Refilled vals s₁ s' (k + 1) c) : Refilled vals s s' k (c + 1) where
  bounds := h.bounds
  ctxt_eq := h.ctxt_eq.trans hm.ctxt_eq
  loaded := by
    intro i hlo hhi hi
    by_cases heq : i = k
    · rw [heq, h.others k (by omega), hm.loaded]
    · exact h.loaded i (by omega) (by omega) hi
  others := by
    intro i hi
    have hne : i ≠ k := by
      intro heq
      apply hi
      omega
    rw [h.others i (by omega), hm.others i hne]
  rest := by
    have hlt : k < vals.length := by omega
    have hcount : min (c + 1) ((vals.length + 1) / 2 - k) =
        min c ((vals.length + 1) / 2 - (k + 1)) + 1 := by omega
    have hhead : vals.getD k 0 = vals[k] := by simp [hlt]
    rw [hcount, List.drop_eq_getElem_cons hlt, List.take_succ_cons, List.cons_append, ← hhead]
    exact hm.taken.trans (h.rest.cons _)

/-- The loop of `vgic_context_restore_lr` over registers that are all idle. -/
theorem restoreLrFrom_refills [Bitmap] {elrsr : BitVec 64} {vals : List Lr}
    (htag : ∀ e ∈ vals, getLrRes0 e ≠ 0) {c k : Nat} {s : VgicSlice} (hu : Unread vals s.gicr k)
    (hnr : k + c ≤ s.ctxt.nrLr) (h16 : k + c ≤ 16)
    (hidle : ∀ i, k ≤ i → i < k + c → bitGet elrsr i = true) :
    ∃ s', restoreLrFrom elrsr (List.range' k c) k s = .ok s' ∧ Refilled vals s s' k c := by
  induction c generalizing k s with
  | zero => exact ⟨s, rfl, Refilled.stop hu.bounds (Or.inl rfl)⟩
  | succ c ih =>
      have hk : k < gicLrListNum := by
        have hnum : gicLrListNum = 64 := rfl
        omega
      have hbit := hidle k (le_refl k) (by omega)
      have htail := hu.tail_eq
      rw [List.range'_succ]
      by_cases hhalf : 2 * k < vals.length
      · have hcell : s.gicr.lrList[k] = vals.getD k 0 := hu.cells k hk (le_refl k) (by omega)
        have hlt : k < vals.length := by omega
        have hmem : vals.getD k 0 ∈ vals := by simp [hlt]
        obtain ⟨s₁, g, hwrite, hremove, hm⟩ := moveIn_spec hu.bounds (i := k) (by omega) (by omega)
          hk (by rw [hcell]; exact htag _ hmem)
        have hgicr : s₁.gicr = s.gicr := by
          simp only [writeLr, bind_eq_ok] at hwrite
          obtain ⟨-, -, hpure⟩ := hwrite
          cases hpure
          rfl
        rw [hgicr] at hremove
        obtain ⟨htail', hcells⟩ := vgicLrListRemove_cells hu.bounds (by omega) hremove
        have hu' : Unread vals ({ s₁ with gicr := g } : VgicSlice).gicr (k + 1) := by
          refine ⟨hm.bounds, ?_, ?_⟩
          · show g.tail = vals.length - (k + 1)
            omega
          · intro j hj hlo hhi
            show g.lrList[j] = vals.getD j 0
            rw [hcells j hj (by omega) (by omega)]
            exact hu.cells j hj (by omega) (by omega)
        obtain ⟨s', hrun, hs'⟩ := ih hu' (by rw [hm.ctxt_eq]; omega) (by omega)
          fun i hlo hhi => hidle i (by omega) (by omega)
        refine ⟨s', ?_, Refilled.cons hhalf (by rw [← hcell]; exact hm) hs'⟩
        rw [restoreLrFrom_load hbit hk (by rw [hcell]; exact htag _ hmem) hwrite
          (by rw [hgicr]; exact hremove), hrun]
      · -- the index has met the end of the list: the cell is blank
        have hblank : s.gicr.lrList[k] = 0 := hu.bounds.blank k hk (by omega)
        refine ⟨s, restoreLrFrom_break hbit hk ?_, Refilled.stop hu.bounds (Or.inr (by omega))⟩
        rw [hblank]
        exact getLrRes0_zero

/-! ## `vgic_inject` -/

/-- The registers and the list after `vals` has been loaded from the front. -/
structure Reloaded (vals : List Lr) (s s' : VgicSlice) : Prop where
  bounds : InBounds s'.gicr
  ctxt_eq : s'.ctxt = s.ctxt
  loaded : ∀ i, i < loadCount s.ctxt.nrLr vals.length → s'.ich.lrAt i = vals.getD i 0
  idle : ∀ i, loadCount s.ctxt.nrLr vals.length ≤ i → i < s.ctxt.nrLr →
    lrIdle (s'.ich.lrAt i) = true
  rest : (entries s'.gicr).Perm (vals.drop (loadCount s.ctxt.nrLr vals.length))

section Inject

variable {s s' : VgicSlice} {vals : List Lr} {virq : Virq}

theorem Reloaded.of_refilled {s₀ : VgicSlice} (hctxt : s.ctxt = s₀.ctxt)
    (hvals : entries s.gicr = vals) (hidle : ∀ i, i < s.ctxt.nrLr → lrIdle (s.ich.lrAt i) = true)
    (h : Refilled vals s s' 0 s.ctxt.nrLr) : Reloaded vals s₀ s' where
  bounds := h.bounds
  ctxt_eq := h.ctxt_eq.trans hctxt
  loaded := by
    intro i hi
    rw [← hctxt, loadCount] at hi
    exact h.loaded i (Nat.zero_le i) (by omega) (by omega)
  idle := by
    intro i hlo hhi
    rw [← hctxt, loadCount] at hlo
    rw [← hctxt] at hhi
    rw [h.others i (by omega)]
    exact hidle i hhi
  rest := by
    have hperm := h.rest
    rw [hvals, List.drop_zero, Nat.sub_zero] at hperm
    have hsplit := List.take_append_drop (loadCount s₀.ctxt.nrLr vals.length) vals
    rw [← hctxt] at hsplit ⊢
    exact ((List.perm_append_left_iff _).mp ((List.Perm.of_eq hsplit).trans hperm)).symm

/-- The values in the registers after the load. -/
theorem Reloaded.lrs_eq (h : Reloaded vals s s') :
    lrs s'.ich (List.range s.ctxt.nrLr) =
      (vals.take (loadCount s.ctxt.nrLr vals.length)).filter fun lr => !lrIdle lr := by
  have hle : loadCount s.ctxt.nrLr vals.length ≤ s.ctxt.nrLr := Nat.min_le_left _ _
  have hlen : loadCount s.ctxt.nrLr vals.length ≤ vals.length := by
    unfold loadCount
    omega
  have hrange : List.range s.ctxt.nrLr = List.range (loadCount s.ctxt.nrLr vals.length) ++
      (List.range (s.ctxt.nrLr - loadCount s.ctxt.nrLr vals.length)).map
        fun i => loadCount s.ctxt.nrLr vals.length + i := by
    rw [← List.range_add, Nat.add_sub_cancel' hle]
  have hidle : lrs s'.ich ((List.range (s.ctxt.nrLr - loadCount s.ctxt.nrLr vals.length)).map
      fun i => loadCount s.ctxt.nrLr vals.length + i) = [] := by
    apply lrs_eq_nil
    intro i hi
    obtain ⟨j, hj, rfl⟩ := List.mem_map.mp hi
    rw [List.mem_range] at hj
    exact h.idle _ (Nat.le_add_right _ _) (by omega)
  have htake : (List.range (loadCount s.ctxt.nrLr vals.length)).map (fun i => s'.ich.lrAt i) =
      vals.take (loadCount s.ctxt.nrLr vals.length) := by
    apply List.ext_getElem
    · simp [hlen]
    · intro i hi hi'
      have hlt : i < loadCount s.ctxt.nrLr vals.length := by simpa using hi
      have hget : i < vals.length := by omega
      simp [h.loaded i hlt, hget]
  have hkeep : ∀ l : List Lr, l.flatMap keep = l.filter fun lr => !lrIdle lr := by
    intro l
    induction l with
    | nil => rfl
    | cons lr l ih =>
        rw [List.flatMap_cons, ih, List.filter_cons, keep]
        cases lrIdle lr <;> rfl
  rw [hrange, lrs, List.flatMap_append]
  rw [lrs] at hidle
  rw [hidle, List.append_nil, ← htake, ← hkeep, List.flatMap_map]

theorem Reloaded.places_perm (h : Reloaded vals s s') :
    (places s').Perm ((vals.take (loadCount s.ctxt.nrLr vals.length)).filter (fun lr => !lrIdle lr)
      ++ vals.drop (loadCount s.ctxt.nrLr vals.length)) := by
  rw [places, h.ctxt_eq, h.lrs_eq]
  exact h.rest.append_left _

/-- Where an injection that is not cut short puts everything. -/
theorem vgicInject_order [Bitmap] (h : ListInv s)
    (hnew : ¬Queued s.gicr (vgicGetLrFromVirq virq).1) :
    ∃ s', vgicInject s virq = .ok (s', (vgicGetLrFromVirq virq).2, true) ∧
      Reloaded (heapOrder (gathered s (vgicGetLrFromVirq virq).1)) s s' := by
  obtain ⟨s₀, hinsert, hrep₀, -⟩ := vgicLrListInsert_repInv h.rep (vgicGetLrFromVirq virq).1
  obtain ⟨s₀', hinsert', -, hctxt₀, hregs₀, hent₀⟩ :=
    vgicLrListInsert_offer h.rep.bounds (vgicGetLrFromVirq virq).1
  rw [hinsert] at hinsert'
  cases hinsert'
  -- a maintenance request touches nothing of this
  obtain ⟨s₁, hs₁⟩ : ∃ s₁, s₁ = (if virqSize s₀ > s₀.ctxt.nrLr + gicLrListNum then
      vgicCallMaintenanceIrq s₀ else s₀) := ⟨_, rfl⟩
  have hrep₁ : RepInv s₁.gicr := by
    rw [hs₁]
    split
    · exact hrep₀
    · exact hrep₀
  have hctxt₁ : s₁.ctxt = s.ctxt := by
    rw [hs₁]
    split
    · exact hctxt₀
    · exact hctxt₀
  have hregs₁ : ∀ j, s₁.ich.lrAt j = s.ich.lrAt j := by
    rw [hs₁]
    split
    · exact hregs₀
    · exact hregs₀
  have hent₁ : entries s₁.gicr = offer (entries s.gicr) (vgicGetLrFromVirq virq).1 := by
    rw [hs₁]
    split
    · exact hent₀
    · exact hent₀
  have hready₁ : Ready s₁ := ⟨hrep₁.bounds, by rw [hctxt₁]; exact h.nrLr_le⟩
  obtain ⟨s₂, hsaveRun, hsave⟩ := vgicContextSaveLr_spec hready₁
  have hrep₂ := saveLrLoop_repInv hrep₁ hsaveRun
  have hent₂ : entries s₂.gicr = gathered s (vgicGetLrFromVirq virq).1 := by
    rw [saveLr_offers hrep₁.bounds List.nodup_range (register_index hready₁) hsaveRun, hent₁,
      hctxt₁, lrs_congr fun j _ => hregs₁ j]
    rfl
  obtain ⟨g, hsortRun, hrepg⟩ := vgicLrListSort_repInv hrep₂
  obtain ⟨vals, hvals⟩ : ∃ vals, vals = heapOrder (gathered s (vgicGetLrFromVirq virq).1) :=
    ⟨_, rfl⟩
  have hentg : entries g = vals := by rw [hvals, entries_sorted hrep₂.bounds hsortRun, hent₂]
  obtain ⟨t, ht⟩ : ∃ t : VgicSlice, t = { s₂ with gicr := g } := ⟨_, rfl⟩
  have htgicr : t.gicr = g := by rw [ht]
  have hctxtt : t.ctxt = s.ctxt := by
    rw [ht]
    exact hsave.ctxt_eq.trans hctxt₁
  have h16 : s.ctxt.nrLr ≤ 16 := h.nrLr_le
  have hidlet : ∀ i, i < t.ctxt.nrLr → lrIdle (t.ich.lrAt i) = true := by
    intro i hi
    rw [hctxt₁] at hsave
    rw [hctxtt] at hi
    rw [ht]
    exact hsave.idle i (List.mem_range.mpr hi)
  have hbits : ∀ i, 0 ≤ i → i < 0 + t.ctxt.nrLr → bitGet (readIdleLrReg t.ich) i = true := by
    intro i _ hi
    rw [hctxtt] at hi
    rw [bitGet_readIdleLrReg t.ich (by omega)]
    exact hidlet i (by rw [hctxtt]; omega)
  have hunread : Unread vals t.gicr 0 := by
    rw [htgicr, ← hentg]
    exact Unread.start hrepg.bounds
  have htagged : ∀ e ∈ vals, getLrRes0 e ≠ 0 := by
    rw [← hentg]
    exact hrepg.tagged
  obtain ⟨s₃, hloopRun, hrefilled⟩ := restoreLrFrom_refills htagged hunread
    (c := t.ctxt.nrLr) (by omega) (by rw [hctxtt]; omega) hbits
  have hrange : List.range' 0 t.ctxt.nrLr = List.range t.ctxt.nrLr :=
    (List.range_eq_range' ..).symm
  rw [hrange] at hloopRun
  have hreloaded : Reloaded vals s s₃ :=
    Reloaded.of_refilled hctxtt (by rw [htgicr, hentg]) hidlet hrefilled
  -- the restore sorts what is left once more
  obtain ⟨g', hsortRun', hbg', -, -, hperm'⟩ := vgicLrListSort_spec hreloaded.bounds
  have hrestRun : vgicContextRestoreLr t s.ctxt.nrLr = .ok { s₃ with gicr := g' } := by
    rw [← hctxtt]
    simp only [vgicContextRestoreLr, hloopRun, hsortRun', ok_bind]
    rfl
  rw [ht] at hrestRun
  refine ⟨{ s₃ with gicr := g' }, ?_, ?_⟩
  · have hsaveRun' : vgicContextSaveLr s₁ s.ctxt.nrLr = .ok s₂ := by
      rw [← hctxt₁]
      exact hsaveRun
    rw [hctxt₀] at hs₁
    simp only [vgicInject, vgicIsLrInList_eq h.rep.bounds.tail_le, ok_bind, hnew, decide_false,
      hinsert, hctxt₀, ← hs₁, hsaveRun', hsortRun, hrestRun]
    rfl
  · rw [← hvals]
    exact
      { bounds := hbg'
        ctxt_eq := hreloaded.ctxt_eq
        loaded := hreloaded.loaded
        idle := hreloaded.idle
        rest := hperm'.trans hreloaded.rest }

end Inject

end RtHypervisor.Ports.LrList
