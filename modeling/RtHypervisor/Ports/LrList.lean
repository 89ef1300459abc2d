import RtHypervisor.Verified.PrefixArray
import RtHypervisor.Ports.ListRegister

/-!
# The software list behind the list registers

`vgic.c` keeps one `lr_list` per redistributor and moves entries between it and
the hardware list registers: `vgic_context_save_lr` empties the registers into
the list, `vgic_context_restore_lr` fills idle registers from it, and
`vgic_inject` does both around the insertion of a new entry.

`VgicSlice` is what these functions see while they work for one vCPU: the CPU
interface registers, the vCPU's redistributor and its VM's saved context.
Accesses outside `lr_list` and failed assertions are faults.
-/

namespace RtHypervisor.Ports.LrList

open RtHypervisor.Verified.Run
open RtHypervisor.Verified.PrefixArray
open RtHypervisor.Ports.ListRegister

/-- `struct vgicr`. -/
structure Vgicr where
  ctlr : BitVec 32
  iidr : BitVec 32
  typer : BitVec 32
  virqs : Vector Virq 32
  lrList : Vector Lr gicLrListNum
  tail : Nat
deriving DecidableEq, Repr

/-- `struct vgic_context`. -/
structure VgicContext where
  ichAp1rEl2 : BitVec 32
  iccSreEl1 : BitVec 32
  iccCtlrEl1 : BitVec 32
  ichVmcrEl2 : BitVec 32
  ichHcrEl2 : BitVec 32
  ichVtrEl2 : BitVec 32
  nrLr : Nat
  nrPr : Nat
deriving DecidableEq, Repr

/-- The part of the machine the vGIC functions touch for one vCPU. -/
structure VgicSlice where
  ich : IchRegs
  gicr : Vgicr
  ctxt : VgicContext
deriving DecidableEq, Repr

def ichHcrEn : BitVec 32 := 1
def ichHcrNpie : BitVec 32 := 1 <<< 3

/-- `vgicr_init`.  The block comes from `rt_malloc` with whatever `old` it held:
the registers, `virqs` and `lr_list` are set, `tail` is not. -/
def vgicrInit (old : Vgicr) (iidr : BitVec 32) (vcpuId nrVcpus : Nat)
    (mpidr : BitVec 64) : Vgicr :=
  let virq (i : Nat) : Virq :=
    { vINIID := BitVec.ofNat 16 i, pINTID := 0, state := .inactive, prio := 0xFF,
      cfg := if i < 16 then 2 else 0, inLr := false, enable := false, hw := false }
  { old with
    ctlr := 0
    iidr := iidr
    typer := (BitVec.ofNat 64 vcpuId <<< 8 ||| ((mpidr &&& 0xFFFF) <<< 32) |||
      (bit (decide (vcpuId + 1 = nrVcpus)) <<< 4)).setWidth 32
    lrList := Vector.replicate gicLrListNum 0
    virqs := Vector.ofFn fun i : Fin 32 => virq i.val }

/-! ## Register access -/

/-- `read_lr`. -/
def readLr (s : VgicSlice) (i : Nat) : Except Fault Lr := do
  check .assertion (i < s.ctxt.nrLr)
  pure (s.ich.lrAt i)

/-- `write_lr`. -/
def writeLr (s : VgicSlice) (i : Nat) (lr : Lr) : Except Fault VgicSlice := do
  check .assertion (i < s.ctxt.nrLr)
  pure { s with ich := s.ich.setLr i lr }

/-- `vgic_call_maintenance_irq`. -/
def vgicCallMaintenanceIrq (s : VgicSlice) : VgicSlice :=
  { s with ich := { s.ich with hcr := s.ich.hcr ||| ichHcrNpie } }

/-! ## `lr_list` -/

def vgicIsLrListEmpty (g : Vgicr) : Bool := g.tail == 0

def vgicIsLrListFull (g : Vgicr) : Bool := g.tail == gicLrListNum

/-- The scan of `vgic_is_lr_in_list` over the given indices. -/
def lrInListFrom (g : Vgicr) (lr : Lr) : List Nat → Except Fault Bool
  | [] => pure false
  | i :: is => do
      let e ← readAt g.lrList i
      if getLrVint e = getLrVint lr then pure true else lrInListFrom g lr is

/-- `vgic_is_lr_in_list`. -/
def vgicIsLrInList (g : Vgicr) (lr : Lr) : Except Fault Bool :=
  lrInListFrom g lr (List.range g.tail)

/-- `vgic_lr_list_insert`: refused, with a maintenance request, when the list is
full or already holds the interrupt. -/
def vgicLrListInsert (s : VgicSlice) (lr : Lr) : Except Fault VgicSlice :=
  if vgicIsLrListFull s.gicr then pure (vgicCallMaintenanceIrq s)
  else do
    if ← vgicIsLrInList s.gicr lr then pure (vgicCallMaintenanceIrq s)
    else
      let list ← writeAt s.gicr.lrList s.gicr.tail (lr ||| lrTag)
      pure { s with gicr := { s.gicr with lrList := list, tail := s.gicr.tail + 1 } }

/-- `vgic_lr_list_remove`. -/
def vgicLrListRemove (g : Vgicr) (rmIdx : Nat) : Except Fault Vgicr := do
  check .assertion (rmIdx < g.tail)
  let list ← swapAt g.lrList rmIdx (g.tail - 1)
  let list ← writeAt list (g.tail - 1) 0
  pure { g with lrList := list, tail := g.tail - 1 }

/-- The son `lr_list_heap_sort` descends to. -/
def heapSon (arr : Vector Lr gicLrListNum) (dad last : Nat) : Except Fault Nat := do
  let left := dad * 2 + 1
  if left + 1 ≤ last then
    let a ← readAt arr left
    let b ← readAt arr (left + 1)
    pure (if getLrPrio a < getLrPrio b then left + 1 else left)
  else pure left

/-- `lr_list_heap_sort`: sift the entry at `dad` down. -/
def lrListHeapSort (arr : Vector Lr gicLrListNum) (dad last : Nat) :
    Nat → Except Fault (Vector Lr gicLrListNum)
  | 0 => .error .fuel
  | fuel + 1 =>
      if dad * 2 + 1 ≤ last then do
        let son ← heapSon arr dad last
        let a ← readAt arr son
        let b ← readAt arr dad
        if getLrPrio a < getLrPrio b then pure arr
        else
          let arr ← swapAt arr dad son
          lrListHeapSort arr son last fuel
      else pure arr

/-- The passes of `lr_list_heap_create`, whose counter is a 16-bit integer. -/
def heapPasses (start last : Nat) : Nat :=
  ((BitVec.ofNat 16 ((last - start) / 2)).toInt + 1).toNat

/-- `lr_list_heap_create`: every pass sifts from `start`. -/
def lrListHeapCreate (arr : Vector Lr gicLrListNum) (start last : Nat) :
    Nat → Except Fault (Vector Lr gicLrListNum)
  | 0 => pure arr
  | passes + 1 => do
      let arr ← lrListHeapSort arr start last (last + 1)
      lrListHeapCreate arr start last passes

/-- `vgic_lr_list_sort`. -/
def vgicLrListSort (g : Vgicr) : Except Fault Vgicr :=
  if vgicIsLrListEmpty g then pure g
  else do
    let list ← lrListHeapCreate g.lrList 0 (g.tail - 1) (heapPasses 0 (g.tail - 1))
    pure { g with lrList := list }

/-! ## Moving entries -/

/-- One iteration of `vgic_context_save_lr`. -/
def saveLrStep [Bitmap] (elrsr : BitVec 64) (s : VgicSlice) (i : Nat) : Except Fault VgicSlice :=
  if bitGet elrsr i then pure s
  else do
    let lr ← readLr s i
    let s ← vgicLrListInsert s lr
    writeLr s i 0

/-- `vgic_context_save_lr`: empty the list registers into `lr_list`. -/
def vgicContextSaveLr [Bitmap] (s : VgicSlice) (nrLr : Nat) : Except Fault VgicSlice :=
  (List.range nrLr).foldlM (saveLrStep (readIdleLrReg s.ich)) s

/-- The loop of `vgic_context_restore_lr` over the remaining register indices.
`rmIdx` advances after every removal although the removal has already moved
another entry to the front. -/
def restoreLrFrom [Bitmap] (elrsr : BitVec 64) :
    List Nat → Nat → VgicSlice → Except Fault VgicSlice
  | [], _, s => pure s
  | i :: is, rmIdx, s =>
      if bitGet elrsr i then do
        let lr ← readAt s.gicr.lrList rmIdx
        if getLrRes0 lr = 0 then pure s
        else
          let s ← writeLr s i lr
          let g ← vgicLrListRemove s.gicr rmIdx
          restoreLrFrom elrsr is (rmIdx + 1) { s with gicr := g }
      else restoreLrFrom elrsr is rmIdx s

/-- `vgic_context_restore_lr`: fill the idle list registers from `lr_list`. -/
def vgicContextRestoreLr [Bitmap] (s : VgicSlice) (nrLr : Nat) : Except Fault VgicSlice := do
  let s ← restoreLrFrom (readIdleLrReg s.ich) (List.range nrLr) 0 s
  let g ← vgicLrListSort s.gicr
  pure { s with gicr := g }

/-- `vgic_context_save_arp`, which writes the registers it should read. -/
def vgicContextSaveArp (s : VgicSlice) : VgicSlice :=
  let ap := s.ctxt.ichAp1rEl2
  match s.ctxt.nrPr with
  | 7 => { s with ich := { s.ich with ap1r2 := ap, ap1r1 := ap, ap1r0 := ap } }
  | 6 => { s with ich := { s.ich with ap1r1 := ap, ap1r0 := ap } }
  | 5 => { s with ich := { s.ich with ap1r0 := ap } }
  | _ => s

/-- `vgic_context_restore_arp`. -/
def vgicContextRestoreArp (s : VgicSlice) : VgicSlice := vgicContextSaveArp s

/-- `hook_vgic_context_save`. -/
def hookVgicContextSave [Bitmap] (s : VgicSlice) : Except Fault VgicSlice := do
  let s ← vgicContextSaveLr s s.ctxt.nrLr
  let s := vgicContextSaveArp s
  pure { s with ctxt := { s.ctxt with
    iccSreEl1 := s.ich.iccSre, ichVmcrEl2 := s.ich.vmcr
    ichHcrEl2 := s.ich.hcr, iccCtlrEl1 := s.ich.iccCtlr } }

/-- `hook_vgic_context_restore`. -/
def hookVgicContextRestore [Bitmap] (s : VgicSlice) : Except Fault VgicSlice := do
  let s ← vgicContextRestoreLr s s.ctxt.nrLr
  let s := vgicContextRestoreArp s
  pure { s with ich := { s.ich with
    iccSre := s.ctxt.iccSreEl1, vmcr := s.ctxt.ichVmcrEl2
    hcr := s.ctxt.ichHcrEl2, iccCtlr := s.ctxt.iccCtlrEl1 } }

/-- The occupancy `vgic_inject` computes before it decides on a maintenance
request. -/
def virqSize [Bitmap] (s : VgicSlice) : Nat :=
  s.gicr.tail + 1 +
    ((List.range s.ctxt.nrLr).filter fun i => !bitGet (readIdleLrReg s.ich) i).length

/-- `vgic_inject` up to the final `vcpu_go`.  The Boolean says whether control
reaches that call: an interrupt found in `lr_list` returns early. -/
def vgicInject [Bitmap] (s : VgicSlice) (virq : Virq) : Except Fault (VgicSlice × Virq × Bool) := do
  let (lr, virq) := vgicGetLrFromVirq virq
  if ← vgicIsLrInList s.gicr lr then pure (s, virq, false)
  else
    let s ← vgicLrListInsert s lr
    let nrLr := s.ctxt.nrLr
    let s := if virqSize s > nrLr + gicLrListNum then vgicCallMaintenanceIrq s else s
    let s ← vgicContextSaveLr s nrLr
    let g ← vgicLrListSort s.gicr
    let s ← vgicContextRestoreLr { s with gicr := g } nrLr
    pure (s, virq, true)

end RtHypervisor.Ports.LrList
