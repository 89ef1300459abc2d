import Mathlib.Tactic
import RtHypervisor.Ports.VgicBounds

/-!
# Whether the look-up of an owner finds it

`vcpu_get_irq_owner` goes through the VMs, and for a private interrupt through their vCPUs.  A VM
that has not been initialised has no distributor and no redistributors, and at the first null
pointer the function returns `RT_NULL`: an owner is found when the search does not come to such a
place before it.
-/

namespace RtHypervisor.Ports.TrapIrq

open RtHypervisor.Verified.Run
open RtHypervisor.Verified.PrefixArray
open RtHypervisor.Ports.ListRegister
open RtHypervisor.Ports.LrList
open RtHypervisor.Ports.Platform
open RtHypervisor.Ports.SwitchContext
open RtHypervisor.Ports.Vcpu
open RtHypervisor.Ports.VgicEmulate

/-! ## What the look-up is for -/

/-- A vCPU whose record of the interrupt is enabled and belongs to the hardware. -/
def Owner (h : Host) (ir : Nat) (v : VcpuId) : Prop :=
  ∃ slot virq, slotOf h v = .ok slot ∧ (∃ st, readAt slot.vcpus v.id = .ok (some st)) ∧
    vgicGetVirq h v ir = .ok virq ∧ virq.enable = true ∧ virq.hw = true

/-- The look-up returns an owner if there is one, and `RT_NULL` otherwise. -/
def Complete (h : Host) (ir : Nat) : Prop :=
  ∃ r, vcpuGetIrqOwner h ir = .ok r ∧
    match r with
    | some v => Owner h ir v
    | none => ∀ v, ¬ Owner h ir v

/-- The VM table as `vcpus_create` fills it: no VM has more vCPUs than the arrays hold, or one
beyond `nr_vcpus`. -/
structure Populated (h : Host) : Prop where
  fit : VcpusFit h
  beyond : ∀ i slot, readAt h.vms i = .ok (some slot) → ∀ j st,
    readAt slot.vcpus j = .ok (some st) → j < slot.nrVcpus

/-- `rt_hyp.vms[i]`. -/
def vmAt (h : Host) (i : Nat) : Option VmSlot := h.vms[i]?.join

/-- The record of the interrupt that the search reads at a vCPU, unless the distributor or
redistributor is missing. -/
def recordAt (h : Host) (ir : Nat) (slot : VmSlot) (v : VcpuId) : Option Virq :=
  if ir < virqPrivNum then
    if slot.gicrSet[v.id]? = some true then (h.machine.gicr v).virqs[ir]? else none
  else slot.gicd.bind fun gicd => gicd[ir - virqPrivNum]?

/-- The vCPUs of VM `i` that the search looks at: for a shared interrupt the first one stands for
the VM. -/
def vcpusOf (h : Host) (ir i : Nat) : List Nat :=
  match vmAt h i with
  | some slot => if ir < virqPrivNum then List.range slot.nrVcpus else [0]
  | none => []

/-- The search ends at `v` with `RT_NULL`: its distributor or redistributor is missing, or the
interrupt is taken and there is no vCPU. -/
def Stops (h : Host) (ir : Nat) (v : VcpuId) : Prop :=
  ∃ slot, vmAt h v.vm = some slot ∧ v.id ∈ vcpusOf h ir v.vm ∧
    match recordAt h ir slot v with
    | none => True
    | some virq => (virq.enable && virq.hw) = true ∧ slot.vcpus[v.id]?.join = none

/-- The order of the search. -/
def Before (u v : VcpuId) : Prop := u.vm < v.vm ∨ u.vm = v.vm ∧ u.id < v.id

/-- There is no owner, or one that the search reaches. -/
def Reached (h : Host) (ir : Nat) : Prop :=
  (∀ v, ¬ Owner h ir v) ∨ ∃ v, Owner h ir v ∧ ∀ u, Before u v → ¬ Stops h ir u

/-! ## The search as one pass -/

/-- All places, in order. -/
def places (h : Host) (ir : Nat) : List VcpuId :=
  (List.range maxVmNum).flatMap fun i => (vcpusOf h ir i).map fun j => ⟨i, j⟩

/-- What the search does at one place: go on, or return. -/
def probe (h : Host) (ir : Nat) (v : VcpuId) : Option (Option VcpuId) :=
  match vmAt h v.vm with
  | none => none
  | some slot =>
      match recordAt h ir slot v with
      | none => some none
      | some virq =>
          if virq.enable && virq.hw then some (slot.vcpus[v.id]?.join.map fun _ => v) else none

section Search

variable {h : Host} {ir i : Nat} {slot : VmSlot} {v u : VcpuId}

theorem readAt_getElem? {α : Type} {n : Nat} {vec : Vector α n} {j : Nat} {a : α} :
    readAt vec j = .ok a ↔ vec[j]? = some a := by
  rw [readAt_eq_ok, Vector.getElem?_eq_some_iff]

private theorem vmAt_eq_some : vmAt h i = some slot ↔ readAt h.vms i = .ok (some slot) := by
  rw [readAt_getElem?, vmAt, Option.join_eq_some_iff]

private theorem slotOf_eq_ok : slotOf h v = .ok slot ↔ vmAt h v.vm = some slot := by
  rw [vmAt_eq_some]
  simp only [slotOf, bind_eq_ok, deref_eq_ok]
  constructor
  · rintro ⟨p, hread, rfl⟩
    exact hread
  · intro hread
    exact ⟨some slot, hread, rfl⟩

private theorem vcpuAt_eq {j : Nat} (hj : j < maxVcpuNum) :
    vcpuAt slot i j = .ok (slot.vcpus[j]?.join.map fun _ => ⟨i, j⟩) := by
  simp only [vcpuAt, readAt_ok slot.vcpus hj, ok_bind, Vector.getElem?_eq_getElem hj,
    Option.join_some]
  rfl

private theorem privOwner_eq (hvm : vmAt h i = some slot) (hir : ir < virqPrivNum) {js : List Nat}
    (hjs : ∀ j ∈ js, j < maxVcpuNum) :
    privOwner h.machine slot i ir js = .ok ((js.map fun j => ⟨i, j⟩).findSome? (probe h ir)) := by
  induction js with
  | nil => rfl
  | cons j js ih =>
      have hj : j < maxVcpuNum := hjs j List.mem_cons_self
      have hrest := ih fun k hk => hjs k (List.mem_cons_of_mem j hk)
      simp only [privOwner, readAt_ok slot.gicrSet hj, ok_bind, List.map_cons, List.findSome?_cons,
        probe, hvm, recordAt, hir, if_true, Vector.getElem?_eq_getElem hj, Option.some.injEq]
      cases hset : slot.gicrSet[j] with
      | false => rfl
      | true =>
          have hrecord : (h.machine.gicr ⟨i, j⟩).virqs[ir]? =
              some (h.machine.gicr ⟨i, j⟩).virqs[ir] := Vector.getElem?_eq_getElem hir
          simp only [if_true, readAt_ok (h.machine.gicr ⟨i, j⟩).virqs hir, ok_bind, hrecord]
          split
          · rw [vcpuAt_eq hj, Vector.getElem?_eq_getElem hj]
            rfl
          · exact hrest

private theorem ownerIn_eq (hfit : slot.nrVcpus ≤ maxVcpuNum) (hvm : vmAt h i = some slot)
    (hir : ir < virqPrivNum + gicdVirqNum) :
    ownerIn h.machine slot i ir =
      .ok (((vcpusOf h ir i).map fun j => ⟨i, j⟩).findSome? (probe h ir)) := by
  simp only [ownerIn, vcpusOf, hvm]
  by_cases hpriv : ir < virqPrivNum
  · rw [if_pos hpriv, if_pos hpriv]
    exact privOwner_eq hvm hpriv fun j hj => lt_of_lt_of_le (List.mem_range.mp hj) hfit
  · have hzero : 0 < maxVcpuNum := by decide
    rw [if_neg hpriv, if_neg hpriv]
    simp only [List.map_cons, List.map_nil, List.findSome?_cons, List.findSome?_nil, probe, hvm,
      recordAt, hpriv, if_false]
    cases slot.gicd with
    | none => rfl
    | some gicd =>
        have hlt : ir - virqPrivNum < gicdVirqNum := by omega
        simp only [readAt_ok gicd hlt, ok_bind, Option.bind_some, Vector.getElem?_eq_getElem hlt]
        split
        · rw [vcpuAt_eq hzero]
          rfl
        · rfl

private theorem ownerFrom_eq (hfit : VcpusFit h) (hir : ir < virqPrivNum + gicdVirqNum)
    {is : List Nat} (his : ∀ i ∈ is, i < maxVmNum) :
    ownerFrom h ir is = .ok ((is.flatMap fun i => (vcpusOf h ir i).map fun j =>
      (⟨i, j⟩ : VcpuId)).findSome? (probe h ir)).join := by
  induction is with
  | nil => rfl
  | cons i is ih =>
      have hi : i < maxVmNum := his i List.mem_cons_self
      have hrest := ih fun k hk => his k (List.mem_cons_of_mem i hk)
      simp only [ownerFrom, readAt_ok h.vms hi, ok_bind, List.flatMap_cons, List.findSome?_append]
      cases hvm : h.vms[i] with
      | none =>
          have hnone : vcpusOf h ir i = [] := by
            simp only [vcpusOf, vmAt, Vector.getElem?_eq_getElem hi, hvm, Option.join_some]
          simp only [hnone, List.map_nil, List.findSome?_nil, Option.none_or]
          exact hrest
      | some slot =>
          have hslot : vmAt h i = some slot := by
            simp only [vmAt, Vector.getElem?_eq_getElem hi, hvm, Option.join_some]
          simp only [ownerIn_eq (hfit i hi slot hvm) hslot hir, ok_bind]
          cases ((vcpusOf h ir i).map fun j => (⟨i, j⟩ : VcpuId)).findSome? (probe h ir) with
          | none => exact hrest
          | some r => rfl

private theorem vcpuGetIrqOwner_eq (hfit : VcpusFit h) (hir : ir < virqPrivNum + gicdVirqNum) :
    vcpuGetIrqOwner h ir = .ok ((places h ir).findSome? (probe h ir)).join :=
  ownerFrom_eq hfit hir fun _ hi => List.mem_range.mp hi

/-! ## Places -/

private theorem mem_places : v ∈ places h ir ↔ v.id ∈ vcpusOf h ir v.vm := by
  unfold places
  rw [List.mem_flatMap]
  constructor
  · rintro ⟨i, -, hv⟩
    obtain ⟨j, hj, rfl⟩ := List.mem_map.mp hv
    exact hj
  · intro hj
    refine ⟨v.vm, ?_, List.mem_map.mpr ⟨v.id, hj, rfl⟩⟩
    rw [List.mem_range]
    by_contra hout
    have hnone : vmAt h v.vm = none := by
      rw [vmAt, Vector.getElem?_eq_none (by omega)]
      rfl
    simp [vcpusOf, hnone] at hj

private theorem vcpusOf_pairwise : (vcpusOf h ir i).Pairwise (· < ·) := by
  unfold vcpusOf
  split
  · split
    · exact List.pairwise_lt_range
    · exact List.pairwise_singleton _ _
  · exact List.Pairwise.nil

private theorem places_pairwise : (places h ir).Pairwise Before := by
  refine List.pairwise_flatMap.mpr ⟨?_, ?_⟩
  · intro i _
    rw [List.pairwise_map]
    exact vcpusOf_pairwise.imp fun hlt => Or.inr ⟨rfl, hlt⟩
  · refine List.pairwise_lt_range.imp ?_
    rintro i₁ i₂ hlt u hu v hv
    obtain ⟨j₁, -, rfl⟩ := List.mem_map.mp hu
    obtain ⟨j₂, -, rfl⟩ := List.mem_map.mp hv
    exact Or.inl hlt

theorem Before.asymm (huv : Before u v) : ¬ Before v u := by
  intro hvu
  unfold Before at huv hvu
  omega

private theorem recordAt_eq_some {virq : Virq} (hslot : slotOf h v = .ok slot) :
    recordAt h ir slot v = some virq ↔ vgicGetVirq h v ir = .ok virq := by
  unfold recordAt
  by_cases hpriv : ir < virqPrivNum
  · simp only [vgicGetVirq, hslot, ok_bind, hpriv, if_true, bind_eq_ok]
    constructor
    · intro hrecord
      split at hrecord
      · rename_i hset
        refine ⟨true, readAt_getElem?.mpr hset, ?_⟩
        rw [check_true]
        exact ⟨(), rfl, readAt_getElem?.mpr hrecord⟩
      · cases hrecord
    · rintro ⟨set, hset, u, hcheck, hread⟩
      cases set with
      | false => cases hcheck
      | true =>
          rw [if_pos (readAt_getElem?.mp hset)]
          exact readAt_getElem?.mp hread
  · simp only [vgicGetVirq, hslot, ok_bind, hpriv, if_false, bind_eq_ok, deref_eq_ok,
      Option.bind_eq_some_iff, readAt_getElem?]

private theorem probe_eq_some_none (hmem : v ∈ places h ir) :
    probe h ir v = some none ↔ Stops h ir v := by
  rw [mem_places] at hmem
  obtain ⟨slot, hvm⟩ : ∃ slot, vmAt h v.vm = some slot := by
    unfold vcpusOf at hmem
    split at hmem
    · exact ⟨_, by assumption⟩
    · cases hmem
  have hstops : Stops h ir v ↔ match recordAt h ir slot v with
      | none => True
      | some virq => (virq.enable && virq.hw) = true ∧ slot.vcpus[v.id]?.join = none := by
    constructor
    · rintro ⟨slot', hvm', -, hcase⟩
      obtain rfl := Option.some.inj (hvm.symm.trans hvm')
      exact hcase
    · intro hcase
      exact ⟨slot, hvm, hmem, hcase⟩
  rw [hstops]
  simp only [probe, hvm]
  cases recordAt h ir slot v with
  | none => exact iff_of_true rfl trivial
  | some virq =>
      simp only
      split
      · rename_i hon
        simp [hon]
      · rename_i hoff
        simp [hoff]

/-- What is returned is an owner. -/
theorem probe_owner (hprobe : probe h ir v = some (some u)) : u = v ∧ Owner h ir v := by
  unfold probe at hprobe
  split at hprobe
  · cases hprobe
  · rename_i slot hvm
    split at hprobe
    · cases hprobe
    · rename_i virq hrecord
      split at hprobe
      · rename_i hon
        rw [Option.some.injEq, Option.map_eq_some_iff] at hprobe
        obtain ⟨st, hst, rfl⟩ := hprobe
        rw [Bool.and_eq_true] at hon
        have hslot := slotOf_eq_ok.mpr hvm
        refine ⟨rfl, slot, virq, hslot, ⟨st, ?_⟩, (recordAt_eq_some hslot).mp hrecord, hon⟩
        rw [readAt_getElem?]
        exact Option.join_eq_some_iff.mp hst
      · cases hprobe

/-- The search comes to a place of the VM of an owner, and goes no further. -/
theorem Owner.place (hp : Populated h) (hv : Owner h ir v) :
    ∃ w ∈ places h ir, (w = v ∨ Before w v) ∧ probe h ir w ≠ none := by
  obtain ⟨slot, virq, hslot, ⟨st, hst⟩, hvirq, hen, hhw⟩ := hv
  have hvm := slotOf_eq_ok.mp hslot
  have hrecord := (recordAt_eq_some hslot).mpr hvirq
  by_cases hpriv : ir < virqPrivNum
  · refine ⟨v, ?_, Or.inl rfl, ?_⟩
    · rw [mem_places]
      simp only [vcpusOf, hvm, hpriv, if_true, List.mem_range]
      exact hp.beyond v.vm slot (vmAt_eq_some.mp hvm) v.id st hst
    · simp only [probe, hvm, hrecord, hen, hhw]
      simp
  · refine ⟨⟨v.vm, 0⟩, ?_, ?_, ?_⟩
    · rw [mem_places]
      simp only [vcpusOf, hvm, hpriv, if_false, List.mem_singleton]
    · by_cases hzero : v.id = 0
      · left
        rw [← hzero]
      · exact Or.inr (Or.inr ⟨rfl, Nat.pos_of_ne_zero hzero⟩)
    · have hsame : recordAt h ir slot ⟨v.vm, 0⟩ = recordAt h ir slot v := by
        simp only [recordAt, hpriv, if_false]
      simp only [probe, hvm, hsame, hrecord, hen, hhw]
      simp

end Search

/-- **The owner of an interrupt**, for every population of the VM table: the look-up is complete if
and only if nothing that ends the search comes before some owner. -/
theorem irq_owner_complete_iff {h : Host} {ir : Nat} (hp : Populated h)
    (hir : ir < virqPrivNum + gicdVirqNum) : Complete h ir ↔ Reached h ir := by
  have hrun := vcpuGetIrqOwner_eq hp.fit hir
  have hcomplete : Complete h ir ↔ match ((places h ir).findSome? (probe h ir)).join with
      | some v => Owner h ir v
      | none => ∀ v, ¬ Owner h ir v := by
    constructor
    · rintro ⟨r, hr, hcase⟩
      obtain rfl := Except.ok.inj (hrun.symm.trans hr)
      exact hcase
    · intro hcase
      exact ⟨_, hrun, hcase⟩
  rw [hcomplete]
  cases hfind : (places h ir).findSome? (probe h ir) with
  | none =>
      -- nothing stops the search, so there is no owner
      have hnone : ∀ v, ¬ Owner h ir v := by
        intro v hv
        obtain ⟨w, hw, -, hprobe⟩ := hv.place hp
        exact hprobe (List.findSome?_eq_none_iff.mp hfind w hw)
      exact iff_of_true hnone (Or.inl hnone)
  | some r =>
      obtain ⟨l₁, w, l₂, hplaces, hw, hbefore⟩ := List.findSome?_eq_some_iff.mp hfind
      have hmem : w ∈ places h ir := by
        rw [hplaces]
        exact List.mem_append_right _ List.mem_cons_self
      have hpairs : (l₁ ++ w :: l₂).Pairwise Before := by
        rw [← hplaces]
        exact places_pairwise
      obtain ⟨-, hafter, -⟩ := List.pairwise_append.mp hpairs
      have hlater : ∀ u ∈ l₂, Before w u := (List.pairwise_cons.mp hafter).1
      cases r with
      | some u =>
          obtain ⟨rfl, howner⟩ := probe_owner hw
          refine iff_of_true howner (Or.inr ⟨u, howner, ?_⟩)
          intro p hp' hstops
          obtain ⟨-, -, hpmem, -⟩ := id hstops
          have hmem' : p ∈ l₁ ++ u :: l₂ := by
            rw [← hplaces]
            exact mem_places.mpr hpmem
          have hprobe := (probe_eq_some_none (mem_places.mpr hpmem)).mpr hstops
          rcases List.mem_append.mp hmem' with hl₁ | htail
          · rw [hbefore p hl₁] at hprobe
            cases hprobe
          · rcases List.mem_cons.mp htail with rfl | hl₂
            · exact hp'.asymm hp'
            · exact hp'.asymm (hlater p hl₂)
      | none =>
          have hstops := (probe_eq_some_none hmem).mp hw
          constructor
          · intro hnone
            exact Or.inl hnone
          · rintro (hnone | ⟨v, hv, hclear⟩)
            · exact hnone
            · exfalso
              obtain ⟨p, hpmem, hpv, hprobe⟩ := hv.place hp
              -- the place of the owner is not before the one that ends the search
              have hwp : p = w ∨ Before w p := by
                rw [hplaces] at hpmem
                rcases List.mem_append.mp hpmem with hl₁ | htail
                · exact absurd (hbefore p hl₁) hprobe
                · rcases List.mem_cons.mp htail with rfl | hl₂
                  · exact Or.inl rfl
                  · exact Or.inr (hlater p hl₂)
              have hwv : w = v ∨ Before w v := by
                rcases hwp with rfl | hwp
                · exact hpv
                · rcases hpv with rfl | hpv
                  · exact Or.inr hwp
                  · right
                    unfold Before at hwp hpv ⊢
                    omega
              rcases hwv with rfl | hwv
              · obtain ⟨slot, hvm, -, hcase⟩ := hstops
                obtain ⟨slot', virq, hslot, ⟨st, hst⟩, hvirq, -⟩ := hv
                obtain rfl := Option.some.inj (hvm.symm.trans (slotOf_eq_ok.mp hslot))
                rw [(recordAt_eq_some hslot).mpr hvirq] at hcase
                have hnull := hcase.2
                rw [readAt_getElem?.mp hst] at hnull
                cases hnull
              · exact hclear w hwv hstops

/-! ## Two VMs -/

private theorem one_lt_gicdVirqNum : 1 < gicdVirqNum := by decide

private theorem maxVmNum_pos : 0 < maxVmNum := by decide

private theorem one_lt_maxVmNum : 1 < maxVmNum := by decide

/-- A VM that has been created and not yet run. -/
def neverRun : VmSlot where
  nrVcpus := 1
  vcpus := (Vector.replicate maxVcpuNum none).set 0 (some .neverRun) maxVcpuNum_pos
  gicd := none
  gicrSet := Vector.replicate maxVcpuNum false

/-- A running VM that owns interrupt 33. -/
def uartVm : VmSlot where
  nrVcpus := 1
  vcpus := (Vector.replicate maxVcpuNum none).set 0 (some .online) maxVcpuNum_pos
  gicd := some ((Vector.replicate gicdVirqNum (spi 0)).set 1 uartVirq one_lt_gicdVirqNum)
  gicrSet := (Vector.replicate maxVcpuNum false).set 0 true maxVcpuNum_pos

def twoVms (a b : VmSlot) : Host where
  machine := bootMachine
  vms := ((Vector.replicate maxVmNum none).set 0 (some a) maxVmNum_pos).set 1 (some b)
    one_lt_maxVmNum

private theorem twoVms_slot {a b slot : VmSlot} {i : Nat}
    (h : readAt (twoVms a b).vms i = .ok (some slot)) : slot = a ∨ slot = b := by
  obtain ⟨hi, hslot⟩ := readAt_eq_ok.mp h
  simp only [twoVms, Vector.getElem_set, Vector.getElem_replicate] at hslot
  split_ifs at hslot <;> cases hslot
  · exact Or.inr rfl
  · exact Or.inl rfl

/-- A VM of one vCPU. -/
def OneVcpu (slot : VmSlot) : Prop :=
  slot.nrVcpus = 1 ∧ ∀ j : Fin maxVcpuNum, slot.vcpus[j].isSome → j.val = 0

private theorem populated_twoVms {a b : VmSlot} (ha : OneVcpu a) (hb : OneVcpu b) :
    Populated (twoVms a b) := by
  have hone : ∀ {i : Nat} {slot : VmSlot}, readAt (twoVms a b).vms i = .ok (some slot) →
      OneVcpu slot := by
    intro i slot hread
    rcases twoVms_slot hread with rfl | rfl
    · exact ha
    · exact hb
  constructor
  · intro i hi slot hslot
    rw [(hone (readAt_eq_ok.mpr ⟨hi, hslot⟩)).1]
    decide
  · intro i slot hread j st hst
    obtain ⟨hnr, hzero⟩ := hone hread
    obtain ⟨hj, hget⟩ := readAt_eq_ok.mp hst
    have hj0 := hzero ⟨j, hj⟩ (by rw [Fin.getElem_fin, hget]; rfl)
    rw [hnr]
    exact Nat.lt_one_iff.mpr hj0

private theorem oneVcpu_neverRun : OneVcpu neverRun := ⟨rfl, by decide⟩

private theorem oneVcpu_uartVm : OneVcpu uartVm := ⟨rfl, by decide⟩

/-- The VM that has not run comes after the owner. -/
theorem uart_owner_found : Complete (twoVms uartVm neverRun) 33 := by
  have hp := populated_twoVms oneVcpu_uartVm oneVcpu_neverRun
  refine (irq_owner_complete_iff hp (by decide)).mpr (Or.inr ⟨⟨0, 0⟩, ?_, ?_⟩)
  · exact ⟨uartVm, uartVirq, rfl, ⟨.online, rfl⟩, rfl, rfl, rfl⟩
  · rintro u (hvm | ⟨-, hid⟩)
    · exact absurd hvm (Nat.not_lt_zero _)
    · exact absurd hid (Nat.not_lt_zero _)

/-- The VM that has not run comes first: nobody owns the console's interrupt. -/
theorem uart_owner_missed :
    ¬ ∀ (h : Host) (ir : Nat), Populated h → ir < virqPrivNum + gicdVirqNum → Complete h ir := by
  intro hall
  have hp := populated_twoVms oneVcpu_neverRun oneVcpu_uartVm
  obtain ⟨r, hr, hcase⟩ := hall (twoVms neverRun uartVm) 33 hp (by decide)
  have hnull : vcpuGetIrqOwner (twoVms neverRun uartVm) 33 = .ok none := by
    decide
  obtain rfl := Except.ok.inj (hnull.symm.trans hr)
  exact hcase ⟨1, 0⟩ ⟨uartVm, uartVirq, rfl, ⟨.online, rfl⟩, rfl, rfl, rfl⟩

end RtHypervisor.Ports.TrapIrq
