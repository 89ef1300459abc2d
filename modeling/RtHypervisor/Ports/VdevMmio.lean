import Mathlib.Tactic

/-!
# Virtual devices

A guest access outside the windows of the GIC goes to `vdev_mmio_handler`, which looks for the
device in the list of the VM.  The search is over when it comes to a device that is closed, and for
each of the regions of an open one it compares the address with `vdev->region`, which is the first.
-/

namespace RtHypervisor.Ports.VdevMmio

/-- `MAX_MMAP_NUM`. -/
def maxMmapNum : Nat := 2

/-- What the search reads of `struct mem_desc`. -/
structure MemDesc where
  vaddrStart : BitVec 64
  vaddrEnd : BitVec 64
deriving DecidableEq, Repr

/-- `struct vdev`, as far as the search reads it; `mmio` says whether `ops->mmio` is set. -/
structure Vdev where
  mmapNum : Nat
  region : Vector MemDesc maxMmapNum
  isOpen : Bool
  mmio : Bool
  fits : mmapNum ≤ maxMmapNum

/-- The comparison with one region. -/
def isIn (addr : BitVec 64) (r : MemDesc) : Bool := r.vaddrStart ≤ addr && addr < r.vaddrEnd

/-- The loop over the regions of a device, which looks at the first one in every round. -/
def regionLoop (addr : BitVec 64) (d : Vdev) : Bool :=
  (List.range d.mmapNum).any fun _ => isIn addr d.region[0]

/-- `vdev_mmio_handler`: the position of the device of which the handler is called. -/
def vdevMmioHandler (addr : BitVec 64) : List Vdev → Option Nat
  | [] => none
  | d :: ds =>
      if d.isOpen then
        if regionLoop addr d then
          if d.mmio then some 0 else none
        else (vdevMmioHandler addr ds).map (· + 1)
      else none

/-! ## The device of an address -/

/-- One of the regions of the device contains the address. -/
def Contains (addr : BitVec 64) (d : Vdev) : Prop :=
  ∃ i : Fin maxMmapNum, i.val < d.mmapNum ∧ isIn addr d.region[i] = true

/-- The first of its regions does. -/
def InFirst (addr : BitVec 64) (d : Vdev) : Prop :=
  0 < d.mmapNum ∧ isIn addr d.region[0] = true

/-- The device is open and contains the address. -/
def Hit (addr : BitVec 64) (d : Vdev) : Prop := d.isOpen = true ∧ Contains addr d

/-- All devices before position `t`. -/
def AllBefore (ds : List Vdev) (t : Nat) (P : Vdev → Prop) : Prop :=
  ∀ j, j < t → ∀ d, ds[j]? = some d → P d

/-- The device the access is for. -/
def Target (addr : BitVec 64) (ds : List Vdev) (t : Nat) (d : Vdev) : Prop :=
  ds[t]? = some d ∧ Hit addr d ∧ AllBefore ds t fun e => ¬ Hit addr e

/-- The handler of that device is called, and no other one. -/
def Dispatches (addr : BitVec 64) (ds : List Vdev) : Prop :=
  ∀ t, vdevMmioHandler addr ds = some t ↔ ∃ d, Target addr ds t d ∧ d.mmio = true

/-- The search calls the handler at position `t`. -/
def Calls (addr : BitVec 64) (ds : List Vdev) (t : Nat) : Prop :=
  ∃ d, ds[t]? = some d ∧ (d.isOpen = true ∧ InFirst addr d) ∧ d.mmio = true ∧
    AllBefore ds t fun e => e.isOpen = true ∧ ¬ InFirst addr e

/-- The search comes to the device of the address, and recognises it by its first region; a device
without a handler has to keep the search from calling a later one only. -/
def DispatchCond (addr : BitVec 64) (ds : List Vdev) : Prop :=
  ∀ t d, Target addr ds t d →
    if d.mmio then InFirst addr d ∧ AllBefore ds t fun e => e.isOpen = true
    else ∀ u, t < u → ¬ Calls addr ds u

/-! ## The search -/

variable {addr : BitVec 64} {d : Vdev} {ds : List Vdev} {t : Nat}

private theorem regionLoop_iff : regionLoop addr d = true ↔ InFirst addr d := by
  unfold regionLoop InFirst
  rw [List.any_eq_true]
  constructor
  · rintro ⟨i, hi, hin⟩
    exact ⟨Nat.zero_lt_of_lt (List.mem_range.mp hi), hin⟩
  · rintro ⟨hpos, hin⟩
    exact ⟨0, List.mem_range.mpr hpos, hin⟩

theorem InFirst.contains (h : InFirst addr d) : Contains addr d :=
  ⟨⟨0, by decide⟩, h.1, h.2⟩

private theorem allBefore_zero {P : Vdev → Prop} : AllBefore ds 0 P :=
  fun j hj => absurd hj (Nat.not_lt_zero j)

private theorem allBefore_cons_succ {P : Vdev → Prop} :
    AllBefore (d :: ds) (t + 1) P ↔ P d ∧ AllBefore ds t P := by
  constructor
  · intro h
    refine ⟨h 0 (Nat.zero_lt_succ t) d rfl, ?_⟩
    intro j hj e he
    exact h (j + 1) (Nat.succ_lt_succ hj) e he
  · rintro ⟨hd, hds⟩ j hj e he
    cases j with
    | zero =>
        obtain rfl := Option.some.inj he
        exact hd
    | succ j => exact hds j (Nat.lt_of_succ_lt_succ hj) e he

private theorem vdevMmioHandler_eq_some : vdevMmioHandler addr ds = some t ↔ Calls addr ds t := by
  induction ds generalizing t with
  | nil =>
      constructor
      · intro h
        cases h
      · rintro ⟨d, hd, -⟩
        cases hd
  | cons d ds ih =>
      unfold vdevMmioHandler
      by_cases hopen : d.isOpen = true
      · rw [if_pos hopen]
        by_cases hloop : regionLoop addr d = true
        · -- the first region contains the address, and the search ends here
          have hfirst := regionLoop_iff.mp hloop
          rw [if_pos hloop]
          cases t with
          | zero =>
              constructor
              · intro h
                refine ⟨d, rfl, ⟨hopen, hfirst⟩, ?_, allBefore_zero⟩
                by_contra hno
                rw [if_neg hno] at h
                cases h
              · rintro ⟨e, he, -, hmmio, -⟩
                obtain rfl := Option.some.inj he
                rw [if_pos hmmio]
          | succ t =>
              constructor
              · intro h
                split at h <;> cases h
              · rintro ⟨e, -, -, -, hbefore⟩
                exact absurd hfirst (allBefore_cons_succ.mp hbefore).1.2
        · have hfirst : ¬ InFirst addr d := fun h => hloop (regionLoop_iff.mpr h)
          rw [if_neg hloop]
          cases t with
          | zero =>
              constructor
              · intro h
                obtain ⟨k, -, hk⟩ := Option.map_eq_some_iff.mp h
                cases hk
              · rintro ⟨e, he, ⟨-, hin⟩, -⟩
                obtain rfl := Option.some.inj he
                exact absurd hin hfirst
          | succ t =>
              have hrest : (vdevMmioHandler addr ds).map (· + 1) = some (t + 1) ↔
                  vdevMmioHandler addr ds = some t := by
                rw [Option.map_eq_some_iff]
                constructor
                · rintro ⟨k, hk, heq⟩
                  rw [hk, Nat.succ.inj heq]
                · intro h
                  exact ⟨t, h, rfl⟩
              rw [hrest, ih]
              constructor
              · rintro ⟨e, he, hin, hmmio, hbefore⟩
                exact ⟨e, he, hin, hmmio, allBefore_cons_succ.mpr ⟨⟨hopen, hfirst⟩, hbefore⟩⟩
              · rintro ⟨e, he, hin, hmmio, hbefore⟩
                exact ⟨e, he, hin, hmmio, (allBefore_cons_succ.mp hbefore).2⟩
      · rw [if_neg hopen]
        constructor
        · intro h
          cases h
        · rintro ⟨e, he, ⟨hopen', -⟩, -, hbefore⟩
          cases t with
          | zero =>
              obtain rfl := Option.some.inj he
              exact absurd hopen' hopen
          | succ t => exact absurd (allBefore_cons_succ.mp hbefore).1.1 hopen

/-- The first device that is hit, at or before one that is. -/
theorem exists_target (hd : ds[t]? = some d) (hhit : Hit addr d) :
    ∃ s e, s ≤ t ∧ Target addr ds s e := by
  classical
  have hex : ∃ s, ∃ e, ds[s]? = some e ∧ Hit addr e := ⟨t, d, hd, hhit⟩
  obtain ⟨e, he, hehit⟩ := Nat.find_spec hex
  refine ⟨Nat.find hex, e, Nat.find_min' hex ⟨d, hd, hhit⟩, he, hehit, ?_⟩
  intro j hj c hc hchit
  exact Nat.find_min hex hj ⟨c, hc, hchit⟩

/-- **Dispatch of an access**, for every list of devices and every address: the handler of the
first open device that contains the address is called, and none if there is no such device, if and
only if the search comes to that device and recognises it. -/
theorem vdev_dispatch_iff (addr : BitVec 64) (ds : List Vdev) :
    Dispatches addr ds ↔ DispatchCond addr ds := by
  constructor
  · intro h t d htarget
    split
    · rename_i hmmio
      obtain ⟨e, he, ⟨-, hfirst⟩, -, hbefore⟩ :=
        vdevMmioHandler_eq_some.mp ((h t).mpr ⟨d, htarget, hmmio⟩)
      obtain rfl := Option.some.inj (htarget.1.symm.trans he)
      exact ⟨hfirst, fun j hj c hc => (hbefore j hj c hc).1⟩
    · intro u htu hcalls
      obtain ⟨e, ⟨-, -, hbefore⟩, -⟩ := (h u).mp (vdevMmioHandler_eq_some.mpr hcalls)
      exact hbefore t htu d htarget.1 htarget.2.1
  · intro hcond t
    rw [vdevMmioHandler_eq_some]
    constructor
    · intro hcalls
      obtain ⟨d, hd, ⟨hopen, hfirst⟩, hmmio, hbefore⟩ := id hcalls
      obtain ⟨s, e, hst, htarget⟩ := exists_target hd ⟨hopen, hfirst.contains⟩
      have hs := hcond s e htarget
      rcases Nat.lt_or_eq_of_le hst with hlt | rfl
      · -- an earlier device is hit, and the search has passed it
        exfalso
        split at hs
        · exact (hbefore s hlt e htarget.1).2 hs.1
        · exact hs t hlt hcalls
      · obtain rfl := Option.some.inj (hd.symm.trans htarget.1)
        exact ⟨d, htarget, hmmio⟩
    · rintro ⟨d, htarget, hmmio⟩
      have hs := hcond t d htarget
      rw [if_pos hmmio] at hs
      refine ⟨d, htarget.1, ⟨htarget.2.1.1, hs.1⟩, hmmio, ?_⟩
      intro j hj e he
      have hopen := hs.2 j hj e he
      refine ⟨hopen, fun hfirst => ?_⟩
      exact htarget.2.2 j hj e he ⟨hopen, hfirst.contains⟩

/-! ## A closed device in front -/

/-- A device with one region of a page. -/
def pageDevice (base : BitVec 64) (isOpen : Bool) : Vdev where
  mmapNum := 1
  region := #v[⟨base, base + 0x1000⟩, ⟨0, 0⟩]
  isOpen := isOpen
  mmio := true
  fits := by decide

/-- The access to the open device does not reach it. -/
theorem closed_device_hides : ¬ ∀ (addr : BitVec 64) (ds : List Vdev), Dispatches addr ds := by
  intro hall
  have hcond := (vdev_dispatch_iff 0x9000018
    [pageDevice 0xA000000 false, pageDevice 0x9000000 true]).mp (hall _ _)
  have htarget : Target 0x9000018 [pageDevice 0xA000000 false, pageDevice 0x9000000 true] 1
      (pageDevice 0x9000000 true) := by
    refine ⟨rfl, ⟨rfl, ⟨0, by decide⟩, by decide, by decide⟩, ?_⟩
    intro j hj e he hhit
    obtain rfl := Nat.lt_one_iff.mp hj
    obtain rfl := Option.some.inj he
    cases hhit.1
  have hopen := (hcond 1 _ htarget).2 0 (by decide) _ rfl
  cases hopen

end RtHypervisor.Ports.VdevMmio
