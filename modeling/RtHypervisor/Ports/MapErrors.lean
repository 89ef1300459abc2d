import RtHypervisor.Ports.Mm
import RtHypervisor.Ports.Stage2Map

/-!
# What `map_vm_memory` reports

The error code of a mapping call passes four loops on its way up: over the
level-2 entries, the level-1 entries, the blocks of an area and the areas.  Two
of them drop it.  `s2_map_pud` ignores what `s2_map_pmd` returns, and
`map_vm_memory` keeps the code of the last area only.

Beside the code stands a trace of the run: what every call of
`create_vm_mmap`, `s2_map_pud` and `s2_map_pmd` returns, and ahead of it what the
call found, an empty range or an empty entry together with the bitmap of the
pool at that moment.  An area is refused when its range is empty or a level-1
entry has to be populated from a pool that is used up; it is starved when that
happens to a level-2 entry.
-/

namespace RtHypervisor.Ports.Mm

open RtHypervisor.Verified.Run
open RtHypervisor.Ports.Platform
open RtHypervisor.Ports.Stage2

/-! ## Traces -/

/-- The functions of the mapping code that return an error code. -/
inductive MapFn
  | createVmMmap
  | s2MapPud
  | s2MapPmd
deriving DecidableEq, Repr

/-- What is recorded of a run. -/
inductive MapEv
  | emptyRange
  | emptyPud (bitmap : BitVec 32)
  | emptyPmd (bitmap : BitVec 32)
  | returns (f : MapFn) (r : RtErr)
deriving DecidableEq, Repr

/-- The call that is recorded did not fail. -/
def MapEv.Succeeded : MapEv → Prop
  | .returns _ r => r = .eok
  | _ => True

instance : DecidablePred MapEv.Succeeded
  | .returns _ r => inferInstanceAs (Decidable (r = .eok))
  | .emptyRange => isTrue trivial
  | .emptyPud _ => isTrue trivial
  | .emptyPmd _ => isTrue trivial

/-- An empty range, or an empty level-1 entry and no page left. -/
def Refused (tr : List MapEv) : Prop :=
  .emptyRange ∈ tr ∨ .emptyPud (BitVec.allOnes 32) ∈ tr

/-- An empty level-2 entry and no page left. -/
def Starved (tr : List MapEv) : Prop := .emptyPmd (BitVec.allOnes 32) ∈ tr

instance (tr : List MapEv) : Decidable (Refused tr) :=
  inferInstanceAs (Decidable (_ ∨ _))

instance (tr : List MapEv) : Decidable (Starved tr) :=
  inferInstanceAs (Decidable (_ ∈ _))

/-- Every call of the trace succeeded. -/
def Clean (tr : List MapEv) : Prop := ∀ ev ∈ tr, ev.Succeeded

instance (tr : List MapEv) : Decidable (Clean tr) :=
  inferInstanceAs (Decidable (∀ ev ∈ tr, ev.Succeeded))

/-- The record of a call that returned; a call that faults leaves none. -/
def returned {α : Type} (f : MapFn) : Except Fault (RtErr × α) → List MapEv
  | .ok (r, _) => [.returns f r]
  | .error _ => []

/-- The descriptor a loop step over entries of `size` bytes leaves, from what its body left. -/
def advance (size : BitVec 64) (d d1 : MemDesc) : MemDesc :=
  { d1 with
    paddrStart := d1.paddrStart + (nextBoundary size d - d.vaddrStart)
    vaddrStart := nextBoundary size d }

section Loops

variable (size : BitVec 64) (body : S2 → MemDesc → Nat → Except Fault (Option (S2 × MemDesc)))
  (found : S2 → MemDesc → Nat → List MapEv)

/-- The common shape of the loops of `s2_map_pmd` and `s2_map_pud`. -/
def tableLoop : Nat → S2 → MemDesc → Nat → Except Fault (RtErr × S2 × MemDesc)
  | 0, _, _, _ => .error .fuel
  | fuel + 1, s, d, ptr => do
      match ← body s d ptr with
      | none => pure (.enomem, s, d)
      | some (s1, d1) =>
          if (advance size d d1).vaddrStart ≠ d1.vaddrEnd then
            tableLoop fuel s1 (advance size d d1) (ptr + 8)
          else pure (.eok, s1, advance size d d1)

/-- The trace of such a loop, one body after the other. -/
def loopTrace : Nat → S2 → MemDesc → Nat → List MapEv
  | 0, _, _, _ => []
  | fuel + 1, s, d, ptr =>
      found s d ptr ++
        match body s d ptr with
        | .ok (some (s1, d1)) =>
            if (advance size d d1).vaddrStart ≠ d1.vaddrEnd then
              loopTrace fuel s1 (advance size d d1) (ptr + 8)
            else []
        | _ => []

end Loops

section Blocks

variable (call : S2 → MemDesc → Except Fault (RtErr × S2 × MemDesc))
  (found : S2 → MemDesc → List MapEv)

/-- The descriptor `map_vma_bk` maps a block with. -/
def blockDesc (attr : BitVec 64) (mb : Nat) (d : MemDesc) : MemDesc :=
  { d with paddrStart := BitVec.ofNat 64 mb, attr := attr ||| s2BlockNormal }

/-- The descriptor it goes on with. -/
def nextBlock (d : MemDesc) : MemDesc := { d with vaddrEnd := d.vaddrEnd + s2PmdSize }

/-- The loop of `map_vma_bk`, over the call it makes. -/
def blocksLoop (attr : BitVec 64) : List Nat → S2 → MemDesc → Except Fault (RtErr × S2)
  | [], s, _ => pure (.eok, s)
  | mb :: mbs, s, d => do
      let (r, s1, d1) ← call s (blockDesc attr mb d)
      if r = .eok then blocksLoop attr mbs s1 (nextBlock d1) else pure (r, s1)

/-- The trace of the loop over the blocks of an area. -/
def blocksTrace (attr : BitVec 64) : List Nat → S2 → MemDesc → List MapEv
  | [], _, _ => []
  | mb :: mbs, s, d =>
      found s (blockDesc attr mb d) ++
        match call s (blockDesc attr mb d) with
        | .ok (r, s1, d1) => if r = .eok then blocksTrace attr mbs s1 (nextBlock d1) else []
        | .error _ => []

end Blocks

section Areas

variable (call : S2 → VmArea → Except Fault (RtErr × S2 × VmArea))
  (found : S2 → VmArea → List MapEv)

/-- The loop of `map_vm_memory`, over what one round does. -/
def areasLoop : List VmArea → S2 → RtErr → Except Fault (RtErr × S2 × List VmArea)
  | [], s, r => pure (r, s, [])
  | vma :: rest, s, _ => do
      let (r, s1, vma1) ← call s vma
      let (r, s2, rest1) ← areasLoop rest s1 r
      pure (r, s2, vma1 :: rest1)

/-- The traces of the areas, one by one. -/
def areasTrace : List VmArea → S2 → List (List MapEv)
  | [], _ => []
  | vma :: rest, s =>
      found s vma ::
        match call s vma with
        | .ok (_, s1, _) => areasTrace rest s1
        | .error _ => []

end Areas

section Traces

variable (B : Board)

/-- What one round of `s2_map_pmd` finds. -/
def pmdEntryTrace (id : Nat) (s : S2) (d : MemDesc) (pmdPtr : Nat) : List MapEv :=
  match rd s pmdPtr with
  | .ok entry =>
      if s2MapPmdBlock entry d = false ∧ entry = 0 then [.emptyPmd (s.pageBitmap id)] else []
  | .error _ => []

def s2MapPmdTrace (s : S2) (pmdTbl : BitVec 64) (d : MemDesc) (id : Nat) : List MapEv :=
  loopTrace s2PmdSize (fun s d pmdPtr => s2MapPmdEntry B s d id pmdPtr) (pmdEntryTrace id) (2 ^ 20)
      s d (pmdTbl.toNat + 8 * s2PmdIdx d.vaddrStart) ++
    returned .s2MapPmd (s2MapPmd B s pmdTbl d id)

/-- What one round of `s2_map_pud` finds and calls. -/
def pudEntryTrace (id : Nat) (s : S2) (d : MemDesc) (pudPtr : Nat) : List MapEv :=
  match rd s pudPtr with
  | .ok entry =>
      if s2MapPudBlock entry d then []
      else
        (if entry = 0 then [.emptyPud (s.pageBitmap id)] else []) ++
          match nextTable B s id pudPtr entry with
          | .ok (some (pmdTbl, s)) => s2MapPmdTrace B s (pmdTbl &&& tableAddrMask) d id
          | _ => []
  | .error _ => []

def s2MapPudTrace (s : S2) (pudTbl : BitVec 64) (d : MemDesc) (id : Nat) : List MapEv :=
  loopTrace s2PudSize (fun s d pudPtr => s2MapPudEntry B s d id pudPtr) (pudEntryTrace B id)
      (2 ^ 11) s d (pudTbl.toNat + 8 * s2PudIdx d.vaddrStart) ++
    returned .s2MapPud (s2MapPud B s pudTbl d id)

/-- The range `create_vm_mmap` maps. -/
def aligned (d : MemDesc) : MemDesc :=
  { d with
    vaddrEnd := blockAlign d.vaddrEnd
    vaddrStart := blockAlignDown d.vaddrStart }

def createVmMmapTrace (s : S2) (pgdTbl : BitVec 64) (id : Nat) (d : MemDesc) : List MapEv :=
  (if (aligned d).vaddrEnd - (aligned d).vaddrStart = 0 then [.emptyRange]
    else s2MapPudTrace B s (pgdTbl &&& tableAddrMask) (aligned d) id) ++
    returned .createVmMmap (createVmMmap B s pgdTbl id d)

def mapVmaBkTrace (s : S2) (pgdTbl : BitVec 64) (id : Nat) (vma : VmArea) : List MapEv :=
  blocksTrace (fun s d => createVmMmap B s pgdTbl id d)
    (fun s d => createVmMmapTrace B s pgdTbl id d)
    vma.desc.attr vma.mbHead s
    { vaddrStart := vma.desc.vaddrStart
      vaddrEnd := vma.desc.vaddrStart + s2PmdSize
      paddrStart := 0
      attr := 0 }

def mapVmaPtTrace (s : S2) (pgdTbl : BitVec 64) (id : Nat) (vma : VmArea) : List MapEv :=
  createVmMmapTrace B s pgdTbl id { vma.desc with attr := vma.desc.attr ||| s2BlockDevice }

/-- The trace of one area. -/
def mapAreaTrace (s : S2) (pgdTbl : BitVec 64) (id : Nat) (vma : VmArea) : List MapEv :=
  if vma.flag &&& vmMapTypeMask = vmMapBk then
    mapVmaBkTrace B s pgdTbl id vma
  else if vma.flag &&& vmMapTypeMask = vmMapPt then
    mapVmaPtTrace B s pgdTbl id
      { vma with desc := { vma.desc with paddrStart := vma.desc.vaddrStart } }
  else
    mapVmaPtTrace B s pgdTbl id { vma with desc := { vma.desc with paddrStart := 0 } }

def mapVmMemoryTrace (e : Env) (mm : MmStruct) (id : Nat) : List (List MapEv) :=
  areasTrace (fun s vma => mapArea B s mm.pgdTbl id vma)
    (fun s vma => mapAreaTrace B s mm.pgdTbl id vma) mm.vmAreaUsed e.s2

end Traces

/-! ## Reading a trace -/

section Reading

variable {tr tr' : List MapEv} {f : MapFn} {r : RtErr}

@[simp] theorem refused_nil : ¬ Refused [] := by simp [Refused]

@[simp] theorem starved_nil : ¬ Starved [] := by simp [Starved]

@[simp] theorem clean_nil : Clean [] := by simp [Clean]

@[simp] theorem refused_append : Refused (tr ++ tr') ↔ Refused tr ∨ Refused tr' := by
  simp only [Refused, List.mem_append]
  tauto

@[simp] theorem starved_append : Starved (tr ++ tr') ↔ Starved tr ∨ Starved tr' := by
  simp only [Starved, List.mem_append]

@[simp] theorem clean_append : Clean (tr ++ tr') ↔ Clean tr ∧ Clean tr' := by
  simp only [Clean, List.mem_append, or_imp, forall_and]

@[simp] theorem refused_returns : ¬ Refused [.returns f r] := by simp [Refused]

@[simp] theorem starved_returns : ¬ Starved [.returns f r] := by simp [Starved]

@[simp] theorem clean_returns : Clean [.returns f r] ↔ r = .eok := by
  simp [Clean, MapEv.Succeeded]

end Reading

/-! ## The loops -/

section Loops

variable {size : BitVec 64} {body : S2 → MemDesc → Nat → Except Fault (Option (S2 × MemDesc))}
  {found : S2 → MemDesc → Nat → List MapEv}

/-- **The loop over a table.**  When its bodies stop exactly where the trace says `stops` and
leave traces that are `fair`, the code of the loop tells whether `stops` occurred, and the whole
trace is `fair`. -/
theorem tableLoop_reports (found : S2 → MemDesc → Nat → List MapEv) (stops fair : List MapEv → Prop)
    (hstops : ∀ tr tr', stops (tr ++ tr') ↔ stops tr ∨ stops tr')
    (hfair : ∀ tr tr', fair tr → fair tr' → fair (tr ++ tr'))
    (hbody : ∀ s d ptr o, body s d ptr = .ok o →
      (o = none ↔ stops (found s d ptr)) ∧ fair (found s d ptr))
    (fuel : Nat) (s : S2) (d : MemDesc) (ptr : Nat) {r : RtErr} {out : S2 × MemDesc}
    (h : tableLoop size body fuel s d ptr = .ok (r, out)) :
    (r = .eok ↔ ¬ stops (loopTrace size body found fuel s d ptr)) ∧
      fair (loopTrace size body found fuel s d ptr) := by
  induction fuel generalizing s d ptr with
  | zero => cases h
  | succ fuel ih =>
      rw [tableLoop] at h
      obtain ⟨o, hentry, hrest⟩ := bind_eq_ok.mp h
      obtain ⟨hstop, hhere⟩ := hbody s d ptr o hentry
      cases o with
      | none =>
          cases pure_eq_ok.mp hrest
          have hsaid := hstop.mp rfl
          simp only [loopTrace, hentry, List.append_nil]
          exact ⟨⟨fun heq => (by cases heq), fun hno => absurd hsaid hno⟩, hhere⟩
      | some p =>
          obtain ⟨s1, d1⟩ := p
          have hon : ¬ stops (found s d ptr) := fun hs => by cases hstop.mpr hs
          simp only [loopTrace, hentry]
          simp only at hrest
          by_cases hmore : (advance size d d1).vaddrStart ≠ d1.vaddrEnd
          · rw [if_pos hmore] at hrest ⊢
            obtain ⟨hcode, hnext⟩ := ih s1 (advance size d d1) (ptr + 8) hrest
            exact ⟨by rw [hcode, hstops]; simp only [hon, false_or], hfair _ _ hhere hnext⟩
          · rw [if_neg hmore] at hrest ⊢
            cases pure_eq_ok.mp hrest
            rw [List.append_nil]
            exact ⟨⟨fun _ => hon, fun _ => rfl⟩, hhere⟩

theorem s2MapPmdLoop_eq (B : Board) (id fuel : Nat) (s : S2) (d : MemDesc) (ptr : Nat) :
    s2MapPmdLoop B id fuel s d ptr =
      tableLoop s2PmdSize (fun s d pmdPtr => s2MapPmdEntry B s d id pmdPtr) fuel s d ptr := by
  induction fuel generalizing s d ptr with
  | zero => rfl
  | succ fuel ih =>
      rw [tableLoop]
      apply bind_congr
      intro o
      cases o with
      | none => rfl
      | some p =>
          obtain ⟨s1, d1⟩ := p
          by_cases hmore : (advance s2PmdSize d d1).vaddrStart ≠ d1.vaddrEnd
          · exact (if_pos hmore).trans ((ih _ _ _).trans (if_pos hmore).symm)
          · exact (if_neg hmore).trans (if_neg hmore).symm

theorem s2MapPudLoop_eq (B : Board) (id fuel : Nat) (s : S2) (d : MemDesc) (ptr : Nat) :
    s2MapPudLoop B id fuel s d ptr =
      tableLoop s2PudSize (fun s d pudPtr => s2MapPudEntry B s d id pudPtr) fuel s d ptr := by
  induction fuel generalizing s d ptr with
  | zero => rfl
  | succ fuel ih =>
      rw [tableLoop]
      apply bind_congr
      intro o
      cases o with
      | none => rfl
      | some p =>
          obtain ⟨s1, d1⟩ := p
          by_cases hmore : (advance s2PudSize d d1).vaddrStart ≠ d1.vaddrEnd
          · exact (if_pos hmore).trans ((ih _ _ _).trans (if_pos hmore).symm)
          · exact (if_neg hmore).trans (if_neg hmore).symm

end Loops

/-! ## The tables -/

section Tables

variable {B : Board} {id : Nat}

/-- There is no next table exactly when an empty entry meets a pool that is used up. -/
theorem nextTable_none_iff {s : S2} {ptr : Nat} {entry : BitVec 64}
    {o : Option (BitVec 64 × S2)} (h : nextTable B s id ptr entry = .ok o) :
    o = none ↔ entry = 0 ∧ s.pageBitmap id = BitVec.allOnes 32 := by
  unfold nextTable at h
  by_cases hentry : entry = 0
  · have hnot : ¬ entry ≠ 0 := fun hne => hne hentry
    rw [if_neg hnot] at h
    obtain ⟨⟨page, s1⟩, hpage, hrest⟩ := bind_eq_ok.mp h
    have hid : id < maxVmNum := by
      obtain ⟨u, hcheck, -⟩ := bind_eq_ok.mp hpage
      exact of_decide_eq_true (check_eq_ok.mp hcheck)
    rcases kernelFreeS2Page_spec B s hid with ⟨hfull, hrun⟩ | ⟨j, hj, hclear, hrun⟩
    · cases hrun.symm.trans hpage
      have hnone : none = o := pure_eq_ok.mp hrest
      exact ⟨fun _ => ⟨hentry, hfull⟩, fun _ => hnone.symm⟩
    · cases hrun.symm.trans hpage
      have hne : pageAddr B id j ≠ 0 := by
        have hpos := (pageAddr_bounds B hid hj).1
        omega
      have hclean : s.pageBitmap id ≠ BitVec.allOnes 32 := by
        intro hfull
        have hj' : j < 32 := hj
        rw [hfull, BitVec.getLsbD_allOnes, decide_eq_true hj'] at hclear
        cases hclear
      simp only [hne, if_false] at hrest
      obtain ⟨s2, hwr, hsome⟩ := bind_eq_ok.mp hrest
      have hsome' := pure_eq_ok.mp hsome
      subst hsome'
      exact ⟨fun hno => (by cases hno), fun hboth => absurd hboth.2 hclean⟩
  · have hne : entry ≠ 0 := hentry
    rw [if_pos hne] at h
    have hsome := pure_eq_ok.mp h
    subst hsome
    exact ⟨fun hno => (by cases hno), fun hboth => absurd hboth.1 hne⟩

/-- A round of `s2_map_pmd` stops exactly when it is starved. -/
theorem pmdEntry_reports {s : S2} {d : MemDesc} {ptr : Nat} {o : Option (S2 × MemDesc)}
    (h : s2MapPmdEntry B s d id ptr = .ok o) :
    (o = none ↔ Starved (pmdEntryTrace id s d ptr)) ∧
      ¬ Refused (pmdEntryTrace id s d ptr) ∧ Clean (pmdEntryTrace id s d ptr) := by
  obtain ⟨entry, hrd, hrest⟩ := bind_eq_ok.mp h
  simp only [pmdEntryTrace, hrd]
  cases hblock : s2MapPmdBlock entry d with
  | true =>
      simp only [hblock, if_true] at hrest
      obtain ⟨s1, -, hsome⟩ := bind_eq_ok.mp hrest
      have hsome' := pure_eq_ok.mp hsome
      subst hsome'
      simp
  | false =>
      simp only [hblock, Bool.false_eq_true, if_false] at hrest
      obtain ⟨o', htable, hrest⟩ := bind_eq_ok.mp hrest
      have hnone := nextTable_none_iff htable
      have hkind : o = none ↔ o' = none := by
        cases o' with
        | none =>
            have ho : none = o := pure_eq_ok.mp hrest
            simp only [← ho]
        | some p =>
            obtain ⟨q, -, hsome⟩ := bind_eq_ok.mp hrest
            have hsome' := pure_eq_ok.mp hsome
            subst hsome'
            simp
      rw [hkind, hnone]
      by_cases hentry : entry = 0
      · rw [if_pos ⟨rfl, hentry⟩]
        simp only [hentry, Starved, Refused, Clean, MapEv.Succeeded, List.mem_singleton,
          MapEv.emptyPmd.injEq, true_and, reduceCtorEq, or_self, not_false_eq_true, forall_eq,
          and_true]
        exact eq_comm
      · rw [if_neg fun hboth => hentry hboth.2]
        simp only [hentry, false_and, starved_nil, refused_nil, clean_nil, not_false_eq_true,
          and_true]

/-- What `s2_map_pmd` returns tells whether it was starved, and the trace says the same. -/
theorem s2MapPmd_reports {s : S2} {tbl : BitVec 64} {d : MemDesc} {r : RtErr}
    {out : S2 × MemDesc} (h : s2MapPmd B s tbl d id = .ok (r, out)) :
    ¬ Refused (s2MapPmdTrace B s tbl d id) ∧
      (Clean (s2MapPmdTrace B s tbl d id) ↔ ¬ Starved (s2MapPmdTrace B s tbl d id)) := by
  have hloop := h
  rw [s2MapPmd, s2MapPmdLoop_eq] at hloop
  obtain ⟨hcode, hrefused, hclean⟩ := tableLoop_reports (pmdEntryTrace id) Starved
    (fun tr => ¬ Refused tr ∧ Clean tr) (fun tr tr' => starved_append)
    (fun tr tr' hhere hnext => ⟨by rw [refused_append]; tauto, clean_append.mpr ⟨hhere.2, hnext.2⟩⟩)
    (fun s d ptr o hentry => pmdEntry_reports hentry) _ _ _ _ hloop
  simp only [s2MapPmdTrace, h, returned, refused_append, starved_append, clean_append,
    refused_returns, starved_returns, clean_returns, or_false]
  exact ⟨hrefused, ⟨fun hboth => hcode.mp hboth.2, fun hno => ⟨hclean, hcode.mpr hno⟩⟩⟩

/-- A round of `s2_map_pud` stops exactly when it is refused.  Whether a call of `s2_map_pmd`
failed makes no difference to it. -/
theorem pudEntry_reports {s : S2} {d : MemDesc} {ptr : Nat} {o : Option (S2 × MemDesc)}
    (h : s2MapPudEntry B s d id ptr = .ok o) :
    (o = none ↔ Refused (pudEntryTrace B id s d ptr)) ∧
      (Clean (pudEntryTrace B id s d ptr) ↔ ¬ Starved (pudEntryTrace B id s d ptr)) := by
  obtain ⟨entry, hrd, hrest⟩ := bind_eq_ok.mp h
  simp only [pudEntryTrace, hrd]
  cases hblock : s2MapPudBlock entry d with
  | true =>
      simp only [hblock, if_true] at hrest ⊢
      obtain ⟨s1, -, hsome⟩ := bind_eq_ok.mp hrest
      have hsome' := pure_eq_ok.mp hsome
      subst hsome'
      simp
  | false =>
      simp only [hblock, Bool.false_eq_true, if_false] at hrest ⊢
      obtain ⟨o', htable, hrest⟩ := bind_eq_ok.mp hrest
      have hnone := nextTable_none_iff htable
      have hask : (o' = none ↔
            Refused (if entry = 0 then [.emptyPud (s.pageBitmap id)] else [])) ∧
          Clean (if entry = 0 then [.emptyPud (s.pageBitmap id)] else []) ∧
          ¬ Starved (if entry = 0 then [.emptyPud (s.pageBitmap id)] else []) := by
        rw [hnone]
        by_cases hentry : entry = 0
        · rw [if_pos hentry]
          simp only [hentry, Starved, Refused, Clean, MapEv.Succeeded, List.mem_singleton,
            MapEv.emptyPud.injEq, true_and, reduceCtorEq, false_or, not_false_eq_true, forall_eq,
            and_true]
          exact eq_comm
        · rw [if_neg hentry]
          simp only [hentry, false_and, starved_nil, refused_nil, clean_nil, not_false_eq_true,
            and_true]
      obtain ⟨hrefused, hclean, hstarved⟩ := hask
      cases o' with
      | none =>
          have ho : none = o := pure_eq_ok.mp hrest
          have hhere := hrefused.mp rfl
          simp only [htable, List.append_nil, ← ho, hhere, hclean, hstarved, not_false_eq_true,
            iff_self, and_self]
      | some p =>
          obtain ⟨tbl, s1⟩ := p
          obtain ⟨⟨r, s2, d2⟩, hpmd, hsome⟩ := bind_eq_ok.mp hrest
          have hsome' := pure_eq_ok.mp hsome
          subst hsome'
          obtain ⟨hrefused', hclean'⟩ := s2MapPmd_reports hpmd
          have hhere : ¬ Refused (if entry = 0 then [.emptyPud (s.pageBitmap id)] else []) :=
            fun hr => by cases hrefused.mpr hr
          simp only [htable, refused_append, starved_append, clean_append, hhere, hclean,
            hstarved, hrefused', hclean', false_or, true_and, reduceCtorEq, iff_self]

end Tables

/-! ## The areas -/

/-- The code tells whether the area was refused; the calls all succeeded if it was neither
refused nor starved. -/
def Reported (r : RtErr) (tr : List MapEv) : Prop :=
  (r = .eok ↔ ¬ Refused tr) ∧ (Clean tr ↔ ¬ Refused tr ∧ ¬ Starved tr)

/-- What follows a reported part without refusals is reported with it. -/
theorem Reported.append {r r' : RtErr} {tr tr' : List MapEv} (h : Reported r tr)
    (hr : r = .eok) (h' : Reported r' tr') : Reported r' (tr ++ tr') := by
  obtain ⟨hcode, hclean⟩ := h
  obtain ⟨hcode', hclean'⟩ := h'
  have hhere := hcode.mp hr
  constructor
  · simp only [refused_append, hhere, false_or, hcode']
  · simp only [refused_append, starved_append, clean_append, hhere, hclean, hclean', false_or,
      not_or, not_false_eq_true, true_and, and_left_comm]

/-- **The loop over the blocks** goes on after a success and hands any other code out. -/
theorem blocksLoop_reports {call : S2 → MemDesc → Except Fault (RtErr × S2 × MemDesc)}
    {found : S2 → MemDesc → List MapEv}
    (hcall : ∀ s d r out, call s d = .ok (r, out) → Reported r (found s d)) {attr : BitVec 64}
    (mbs : List Nat) (s : S2) (d : MemDesc) {r : RtErr} {s' : S2}
    (h : blocksLoop call attr mbs s d = .ok (r, s')) :
    Reported r (blocksTrace call found attr mbs s d) := by
  induction mbs generalizing s d with
  | nil =>
      cases pure_eq_ok.mp h
      simp [Reported, blocksTrace]
  | cons mb mbs ih =>
      rw [blocksLoop] at h
      obtain ⟨⟨r1, s1, d1⟩, hret, hrest⟩ := bind_eq_ok.mp h
      have hhere := hcall _ _ _ _ hret
      simp only [blocksTrace, hret]
      simp only at hrest
      by_cases hr1 : r1 = .eok
      · rw [if_pos hr1] at hrest ⊢
        exact hhere.append hr1 (ih s1 (nextBlock d1) hrest)
      · rw [if_neg hr1] at hrest ⊢
        cases pure_eq_ok.mp hrest
        rw [List.append_nil]
        exact hhere

/-- **The loop over the areas** keeps the code of the last one. -/
theorem areasLoop_reports {call : S2 → VmArea → Except Fault (RtErr × S2 × VmArea)}
    {found : S2 → VmArea → List MapEv}
    (hcall : ∀ s vma r out, call s vma = .ok (r, out) → Reported r (found s vma))
    (areas : List VmArea) (s : S2) (r0 : RtErr) {r : RtErr} {out : S2 × List VmArea}
    (h : areasLoop call areas s r0 = .ok (r, out)) :
    (areasTrace call found areas s = [] → r = r0) ∧
      (∀ tr, (areasTrace call found areas s).getLast? = some tr → (r = .eok ↔ ¬ Refused tr)) ∧
      ∀ tr ∈ areasTrace call found areas s, (Clean tr ↔ ¬ Refused tr ∧ ¬ Starved tr) := by
  induction areas generalizing s r0 r out with
  | nil =>
      cases pure_eq_ok.mp h
      simp [areasTrace]
  | cons vma rest ih =>
      rw [areasLoop] at h
      obtain ⟨⟨r1, s1, vma1⟩, hret, hrest⟩ := bind_eq_ok.mp h
      obtain ⟨⟨r2, s2, rest2⟩, hloop, hend⟩ := bind_eq_ok.mp hrest
      cases pure_eq_ok.mp hend
      obtain ⟨hcode, hclean⟩ := hcall _ _ _ _ hret
      obtain ⟨hnone, hlast, hall⟩ := ih s1 r1 hloop
      simp only [areasTrace, hret]
      refine ⟨fun hno => (by cases hno), fun tr htr => ?_, fun tr htr => ?_⟩
      · cases hrec : areasTrace call found rest s1 with
        | nil =>
            rw [hrec, List.getLast?_singleton] at htr
            cases htr
            rw [hnone hrec]
            exact hcode
        | cons first more =>
            rw [hrec, List.getLast?_cons_cons, ← hrec] at htr
            exact hlast tr htr
      · rcases List.mem_cons.mp htr with rfl | htr
        · exact hclean
        · exact hall tr htr

theorem mapBlocks_eq (B : Board) (pgdTbl : BitVec 64) (id : Nat) (attr : BitVec 64)
    (mbs : List Nat) (s : S2) (d : MemDesc) :
    mapBlocks B pgdTbl id attr mbs s d =
      blocksLoop (fun s d => createVmMmap B s pgdTbl id d) attr mbs s d := by
  induction mbs generalizing s d with
  | nil => rfl
  | cons mb mbs ih =>
      rw [blocksLoop]
      apply bind_congr
      intro out
      obtain ⟨r, s1, d1⟩ := out
      cases r with
      | eok => exact ih _ _
      | error => rfl
      | enomem => rfl
      | einval => rfl

theorem mapAreas_eq (B : Board) (pgdTbl : BitVec 64) (id : Nat) (areas : List VmArea) (s : S2)
    (r : RtErr) :
    mapAreas B pgdTbl id areas s r =
      areasLoop (fun s vma => mapArea B s pgdTbl id vma) areas s r := by
  induction areas generalizing s r with
  | nil => rfl
  | cons vma rest ih =>
      rw [areasLoop]
      apply bind_congr
      intro out
      exact congrArg (· >>= _) (ih _ _)

section Areas

variable {B : Board} {id : Nat} {pgdTbl : BitVec 64}

private theorem s2MapPud_reports {s : S2} {tbl : BitVec 64} {d : MemDesc} {r : RtErr}
    {out : S2 × MemDesc} (h : s2MapPud B s tbl d id = .ok (r, out)) :
    Reported r (s2MapPudTrace B s tbl d id) := by
  have hloop := h
  rw [s2MapPud, s2MapPudLoop_eq] at hloop
  obtain ⟨hcode, hclean⟩ := tableLoop_reports (pudEntryTrace B id) Refused
    (fun tr => Clean tr ↔ ¬ Starved tr) (fun tr tr' => refused_append)
    (fun tr tr' hhere hnext => by rw [clean_append, starved_append, hhere, hnext, not_or])
    (fun s d ptr o hentry => pudEntry_reports hentry) _ _ _ _ hloop
  simp only [Reported, s2MapPudTrace, h, returned, refused_append, starved_append, clean_append,
    refused_returns, starved_returns, clean_returns, or_false, hclean, hcode, true_and]
  exact and_comm

/-- `s2_map` of a range that is not empty returns what `s2_map_pud` does. -/
theorem s2Map_pud {s : S2} {d : MemDesc} (hrange : d.vaddrStart ≠ d.vaddrEnd) {r : RtErr}
    {out : S2 × MemDesc} (h : s2Map B s pgdTbl id d = .ok (r, out)) :
    s2MapPud B s (pgdTbl &&& tableAddrMask) d id = .ok (r, out) := by
  rw [s2Map, if_neg hrange] at h
  obtain ⟨-, -, h⟩ := bind_eq_ok.mp h
  obtain ⟨-, -, h⟩ := bind_eq_ok.mp h
  obtain ⟨-, -, h⟩ := bind_eq_ok.mp h
  exact h

/-- `create_vm_mmap` refuses an empty range and passes any other on. -/
theorem createVmMmap_cases {s : S2} {d : MemDesc} {r : RtErr} {out : S2 × MemDesc}
    (h : createVmMmap B s pgdTbl id d = .ok (r, out)) :
    ((aligned d).vaddrEnd - (aligned d).vaddrStart = 0 ∧ r = .einval) ∨
      ((aligned d).vaddrEnd - (aligned d).vaddrStart ≠ 0 ∧
        s2MapPud B s (pgdTbl &&& tableAddrMask) (aligned d) id = .ok (r, out)) := by
  have hcall : (if (aligned d).vaddrEnd - (aligned d).vaddrStart = 0 then
      pure (.einval, s, aligned d) else s2Map B s pgdTbl id (aligned d)) = .ok (r, out) := h
  generalize aligned d = d' at hcall ⊢
  by_cases hempty : d'.vaddrEnd - d'.vaddrStart = 0
  · left
    rw [if_pos hempty] at hcall
    have hret := (Prod.mk.injEq _ _ _ _ ▸ pure_eq_ok.mp hcall).1
    exact ⟨hempty, hret.symm⟩
  · right
    rw [if_neg hempty] at hcall
    refine ⟨hempty, s2Map_pud (fun heq => hempty ?_) hcall⟩
    rw [heq, BitVec.sub_self]
    rfl

/-- A call of `create_vm_mmap` is reported by what it returns. -/
theorem createVmMmap_reports {s : S2} {d : MemDesc} {r : RtErr} {out : S2 × MemDesc}
    (h : createVmMmap B s pgdTbl id d = .ok (r, out)) :
    Reported r (createVmMmapTrace B s pgdTbl id d) := by
  have hret : returned .createVmMmap (createVmMmap B s pgdTbl id d) =
      [.returns .createVmMmap r] := by
    rw [h]
    rfl
  rw [createVmMmapTrace, hret]
  rcases createVmMmap_cases h with ⟨hempty, hr⟩ | ⟨hrange, hpud⟩
  · rw [if_pos hempty, hr]
    simp [Reported, Refused, Clean, MapEv.Succeeded]
  · rw [if_neg hrange]
    obtain ⟨hcode, hclean⟩ := s2MapPud_reports hpud
    simp only [Reported, refused_append, starved_append, clean_append, refused_returns,
      starved_returns, clean_returns, or_false, hclean, hcode, and_right_comm, and_self]

private theorem mapVmaPt_reports {s : S2} {vma : VmArea} {r : RtErr} {out : S2 × VmArea}
    (h : mapVmaPt B s pgdTbl id vma = .ok (r, out)) :
    Reported r (mapVmaPtTrace B s pgdTbl id vma) := by
  obtain ⟨⟨r1, s1, d1⟩, hcall, hret⟩ := bind_eq_ok.mp h
  cases pure_eq_ok.mp hret
  exact createVmMmap_reports hcall

theorem mapArea_reports {s : S2} {vma : VmArea} {r : RtErr} {out : S2 × VmArea}
    (h : mapArea B s pgdTbl id vma = .ok (r, out)) :
    Reported r (mapAreaTrace B s pgdTbl id vma) := by
  unfold mapArea at h
  unfold mapAreaTrace
  by_cases hbk : vma.flag &&& vmMapTypeMask = vmMapBk
  · rw [if_pos hbk] at h ⊢
    obtain ⟨⟨r1, s1⟩, hcall, hret⟩ := bind_eq_ok.mp h
    cases pure_eq_ok.mp hret
    rw [mapVmaBk, mapBlocks_eq] at hcall
    exact blocksLoop_reports (fun s d r out hmap => createVmMmap_reports hmap) _ _ _ hcall
  · rw [if_neg hbk] at h ⊢
    by_cases hpt : vma.flag &&& vmMapTypeMask = vmMapPt
    · rw [if_pos hpt] at h ⊢
      exact mapVmaPt_reports h
    · rw [if_neg hpt] at h ⊢
      exact mapVmaPt_reports h

end Areas

/-! ## What is reported -/

/-- The code of `map_vm_memory` tells the truth exactly in the runs in which the last area is
refused, or no area is refused and none is starved. -/
theorem map_vm_memory_reports_iff {B : Board} {e e' : Env} {mm mm' : MmStruct} {id : Nat}
    {ret : RtErr} (h : mapVmMemory B e mm id = .ok (ret, mm', e')) :
    (ret = .eok ↔ ∀ tr ∈ mapVmMemoryTrace B e mm id, Clean tr) ↔
      (∀ tr ∈ mapVmMemoryTrace B e mm id, ¬ Refused tr ∧ ¬ Starved tr) ∨
        ∃ tr, (mapVmMemoryTrace B e mm id).getLast? = some tr ∧ Refused tr := by
  obtain ⟨⟨r, s, areas⟩, hloop, hret⟩ := bind_eq_ok.mp h
  cases pure_eq_ok.mp hret
  rw [mapAreas_eq] at hloop
  obtain ⟨hnone, hlast, hall⟩ := areasLoop_reports
    (fun s vma r out harea => mapArea_reports harea) mm.vmAreaUsed e.s2 .eok hloop
  have hclean : (∀ tr ∈ mapVmMemoryTrace B e mm id, Clean tr) ↔
      ∀ tr ∈ mapVmMemoryTrace B e mm id, ¬ Refused tr ∧ ¬ Starved tr :=
    forall₂_congr hall
  rw [hclean]
  cases hend : (mapVmMemoryTrace B e mm id).getLast? with
  | none =>
      have hempty : mapVmMemoryTrace B e mm id = [] := List.getLast?_eq_none_iff.mp hend
      have hr : ret = .eok := hnone hempty
      simp [hempty, hr]
  | some tr =>
      have hcode : ret = .eok ↔ ¬ Refused tr := hlast tr hend
      have hmem : tr ∈ mapVmMemoryTrace B e mm id := List.mem_of_getLast? hend
      have hnot : (∀ tr ∈ mapVmMemoryTrace B e mm id, ¬ Refused tr ∧ ¬ Starved tr) →
          ¬ Refused tr := fun hgood => (hgood tr hmem).1
      simp only [Option.some.injEq, exists_eq_left', hcode]
      by_cases hrefused : Refused tr
      · have hbad : ¬ ∀ tr ∈ mapVmMemoryTrace B e mm id, ¬ Refused tr ∧ ¬ Starved tr :=
          fun hgood => hnot hgood hrefused
        simp only [hrefused, not_true, hbad, iff_self, or_true]
      · simp only [hrefused, not_false_eq_true, true_iff, or_false]

/-- A pass-through area of 2 MB. -/
def deviceArea (va : BitVec 64) : VmArea :=
  { desc := ⟨va, va + s2PmdSize, 0, 0⟩, mbHead := [], flag := vmMapPt }

def withAreas (areas : List VmArea) : MmStruct := ⟨0, 0, pgdTbl roomy 0, areas⟩

/-- One table page is left. -/
def nearlyUsedUp : Env :=
  ⟨⟨fun _ => 0, fun _ => 0x7FFFFFFF⟩, 0, []⟩

theorem map_vm_memory_reports_two : ∃ mm' e',
    mapVmMemory roomy nearlyUsedUp (withAreas [deviceArea 0, deviceArea 0x200000]) 0 =
      .ok (.eok, mm', e') ∧
    ∀ tr ∈ mapVmMemoryTrace roomy nearlyUsedUp
      (withAreas [deviceArea 0, deviceArea 0x200000]) 0, Clean tr := by
  have hends : (mapVmMemory roomy nearlyUsedUp
      (withAreas [deviceArea 0, deviceArea 0x200000]) 0).map (fun out => out.1) =
      .ok .eok := by decide
  obtain ⟨⟨ret, mm', e'⟩, hrun, hret⟩ := exists_of_map_eq_ok hends
  simp only at hret
  subst hret
  exact ⟨mm', e', hrun, ((map_vm_memory_reports_iff hrun).mpr (Or.inl (by decide))).mp rfl⟩

/-- The second area finds no page for its level-2 table; the third one shares the first one's. -/
theorem map_vm_memory_swallows :
    ¬ ∀ (B : Board) (e e' : Env) (mm mm' : MmStruct) (id : Nat) (ret : RtErr),
      mapVmMemory B e mm id = .ok (ret, mm', e') →
        (ret = .eok ↔ ∀ tr ∈ mapVmMemoryTrace B e mm id, Clean tr) := by
  intro hall
  have hends : (mapVmMemory roomy nearlyUsedUp
      (withAreas [deviceArea 0, deviceArea 0x40000000, deviceArea 0x200000]) 0).map
        (fun out => out.1) = .ok .eok := by decide
  obtain ⟨⟨ret, mm', e'⟩, hrun, hret⟩ := exists_of_map_eq_ok hends
  simp only at hret
  subst hret
  have hclean := (hall _ _ _ _ _ _ _ hrun).mp rfl
  exact absurd hclean (by decide)

end RtHypervisor.Ports.Mm
