import Mathlib
import RtHypervisor.Ports.TrapIrq

/-!
# The emulated GIC

A guest access to the distributor or to its redistributor traps, and `vgic_emulate` carries it out
on the records of the vGIC.  Six handlers for each of the two turn the offset of a register into
interrupt numbers, and the ones of the distributor subtract `VIRQ_PRIV_NUM` from them to index
`gicd->virqs`.  The offset is that of the guest: registers of private interrupts lead below the
array and those above INTID 159 behind it.

`val` points to the saved register of the guest, and the handlers shift it as they go.
-/

namespace RtHypervisor.Ports.VgicEmulate

open RtHypervisor.Verified.Run
open RtHypervisor.Verified.PrefixArray
open RtHypervisor.Ports.ListRegister
open RtHypervisor.Ports.Platform
open RtHypervisor.Ports.TrapIrq

/-! ## Registers -/

/-- `GICD_CTLR_OFF`. -/
def gicdCtlrOff : Nat := 0x0000
/-- `GICD_TYPE_OFF`. -/
def gicdTypeOff : Nat := 0x0004
/-- `GICD_IIDR_OFF`. -/
def gicdIidrOff : Nat := 0x0008
/-- `GICD_ISEN_OFF`. -/
def gicdIsenOff : Nat := 0x0100
/-- `GICD_ISEN_END`. -/
def gicdIsenEnd : Nat := 0x017C
/-- `GICD_ICEN_OFF`. -/
def gicdIcenOff : Nat := 0x0180
/-- `GICD_ICEN_END`. -/
def gicdIcenEnd : Nat := 0x01FC
/-- `GICD_ISPND_OFF`. -/
def gicdIspndOff : Nat := 0x0200
/-- `GICD_ISPND_END`. -/
def gicdIspndEnd : Nat := 0x027C
/-- `GICD_ICPND_OFF`. -/
def gicdIcpndOff : Nat := 0x0280
/-- `GICD_ICPND_END`. -/
def gicdIcpndEnd : Nat := 0x02FC
/-- `GICD_PRIO_OFF`. -/
def gicdPrioOff : Nat := 0x0400
/-- `GICD_PRIO_END`. -/
def gicdPrioEnd : Nat := 0x07F8
/-- `GICD_ICFGR_OFF`. -/
def gicdIcfgrOff : Nat := 0x0C00
/-- `GICD_ICFGR_END`. -/
def gicdIcfgrEnd : Nat := 0x0CFC

/-- `GICR_CTLR_OFF`. -/
def gicrCtlrOff : Nat := 0x0000
/-- `GICR_IIDR_OFF`. -/
def gicrIidrOff : Nat := 0x0004
/-- `GICR_TYPE_OFF`. -/
def gicrTypeOff : Nat := 0x0008
/-- `GICR_SGI_OFF`. -/
def gicrSgiOff : Nat := 0x10000
/-- `GICR_ISEN0_OFF`. -/
def gicrIsen0Off : Nat := 0x0100
/-- `GICR_ICEN0_OFF`. -/
def gicrIcen0Off : Nat := 0x0180
/-- `GICR_ISPND0_OFF`. -/
def gicrIspnd0Off : Nat := 0x0200
/-- `GICR_ICPND0_OFF`. -/
def gicrIcpnd0Off : Nat := 0x0280
/-- `GICR_PRIO_OFF`. -/
def gicrPrioOff : Nat := 0x0400
/-- `GICR_PRIO_END`. -/
def gicrPrioEnd : Nat := 0x041C
/-- `GICR_ICFGR0_OFF`. -/
def gicrIcfgr0Off : Nat := 0x0C00
/-- `GICR_ICFGR1_OFF`. -/
def gicrIcfgr1Off : Nat := 0x0C04

/-- `UPDATE_*`. -/
inductive UpdateId
  | isen
  | icen
  | ispnd
  | icpnd
  | prio
  | icfgr
deriving DecidableEq, Repr

/-- The calls of the driver of the physical GIC. -/
inductive GicCall
  | umask (irq : BitVec 16)
  | mask (irq : BitVec 16)
  | setPendingIrq (irq : BitVec 16)
  | clearPendingIrq (irq : BitVec 16)
  | setPriority (irq : BitVec 16) (priority : BitVec 8)
  | setConfiguration (irq : BitVec 16) (config : BitVec 8)
deriving DecidableEq, Repr

/-- `vgic_update_handlers`. -/
def vgicUpdateHandlers (virq : Virq) : UpdateId → GicCall
  | .isen => .umask virq.pINTID
  | .icen => .mask virq.pINTID
  | .ispnd => .setPendingIrq virq.pINTID
  | .icpnd => .clearPendingIrq virq.pINTID
  | .prio => .setPriority virq.pINTID virq.prio
  | .icfgr => .setConfiguration virq.pINTID virq.cfg

/-- `vgic_update`. -/
def vgicUpdate (virq : Virq) (id : UpdateId) : List GicCall :=
  if virq.hw then [vgicUpdateHandlers virq id] else []

/-! ## What is done to one interrupt -/

/-- Set `enable`, and update. -/
def setEnable (on : Bool) (id : UpdateId) (virq : Virq) : Virq × List GicCall :=
  let virq := { virq with enable := on }
  (virq, vgicUpdate virq id)

/-- Move the state from `st` to `st'`, and update. -/
def moveState (st st' : VirqStatus) (id : UpdateId) (virq : Virq) : Virq × List GicCall :=
  if virq.state = st then
    let virq := { virq with state := st' }
    (virq, vgicUpdate virq id)
  else (virq, [])

/-- One move after the other. -/
def moveStates (id : UpdateId) (st₁ st₁' st₂ st₂' : VirqStatus) (virq : Virq) :
    Virq × List GicCall :=
  let (virq, calls₁) := moveState st₁ st₁' id virq
  let (virq, calls₂) := moveState st₂ st₂' id virq
  (virq, calls₁ ++ calls₂)

def setPending : Virq → Virq × List GicCall :=
  moveStates .ispnd .inactive .pending .active .pendingActive

def clearPending : Virq → Virq × List GicCall :=
  moveStates .icpnd .pending .inactive .pendingActive .active

def setPrio (val : BitVec 64) (virq : Virq) : Virq × List GicCall :=
  let virq := { virq with prio := (val &&& 0xFF).setWidth 8 }
  (virq, vgicUpdate virq .prio)

def setCfg (val : BitVec 64) (virq : Virq) : Virq × List GicCall :=
  let virq := { virq with cfg := (val &&& 0b11).setWidth 8 }
  (virq, vgicUpdate virq .icfgr)

/-! ## Loops over a register -/

/-- An array `virqs`, and the calls made so far. -/
structure Bank (n : Nat) where
  virqs : Vector Virq n
  calls : List GicCall

section Loops

variable {n : Nat}

/-- Work on `virqs[i]`. -/
def Bank.through (b : Bank n) (i : Int) (op : Virq → Virq × List GicCall) :
    Except Fault (Bank n) :=
  if i < 0 then .error .outOfBounds
  else do
    let virq ← readAt b.virqs i.toNat
    let virqs ← writeAt b.virqs i.toNat (op virq).1
    pure ⟨virqs, b.calls ++ (op virq).2⟩

/-- `for (i...) { body; *val = *val >> width; }`, with `count` rounds to go. -/
def lanes (width : Nat) (body : Bank n → Nat → BitVec 64 → Except Fault (Bank n)) :
    Nat → Nat → Bank n → BitVec 64 → Except Fault (Bank n × BitVec 64)
  | 0, _, b, val => pure (b, val)
  | count + 1, i, b, val => do
      let b ← body b i val
      lanes width body count (i + 1) b (val >>> width)

/-- A register with one bit for each interrupt: `op` on `virqs[irq + i - base]` for the bits that
are set, from interrupt `low` on. -/
def writeBits (irq base low : Nat) (op : Virq → Virq × List GicCall) (b : Bank n)
    (val : BitVec 64) : Except Fault (Bank n × BitVec 64) :=
  lanes 1 (fun b i val =>
    if val &&& 0b1 = 1 ∧ low ≤ irq + i then b.through ((irq + i : Nat) - (base : Nat)) op
    else pure b) 32 0 b val

/-- A register with a field of `width` bits for each of `count` interrupts. -/
def writeFields (width count irq base : Nat) (op : BitVec 64 → Virq → Virq × List GicCall)
    (b : Bank n) (val : BitVec 64) : Except Fault (Bank n × BitVec 64) :=
  lanes width (fun b i val => b.through ((irq + i : Nat) - (base : Nat)) (op val)) count 0 b val

end Loops

/-! ## The distributor -/

section Gicd

variable (off : Nat)

/-- `vgic_gicd_write_isenabler`. -/
def vgicGicdWriteIsenabler : Bank gicdVirqNum → BitVec 64 →
    Except Fault (Bank gicdVirqNum × BitVec 64) :=
  writeBits (32 * ((off - gicdIsenOff) / 4)) virqPrivNum 0 (setEnable true .isen)

/-- `vgic_gicd_write_icenabler`. -/
def vgicGicdWriteIcenabler : Bank gicdVirqNum → BitVec 64 →
    Except Fault (Bank gicdVirqNum × BitVec 64) :=
  writeBits (32 * ((off - gicdIcenOff) / 4)) virqPrivNum 0 (setEnable false .icen)

/-- `vgic_gicd_write_ispend`. -/
def vgicGicdWriteIspend : Bank gicdVirqNum → BitVec 64 →
    Except Fault (Bank gicdVirqNum × BitVec 64) :=
  writeBits (32 * ((off - gicdIspndOff) / 4)) virqPrivNum 32 setPending

/-- `vgic_gicd_write_icpend`. -/
def vgicGicdWriteIcpend : Bank gicdVirqNum → BitVec 64 →
    Except Fault (Bank gicdVirqNum × BitVec 64) :=
  writeBits (32 * ((off - gicdIcpndOff) / 4)) virqPrivNum 32 clearPending

/-- `vgic_gicd_write_priority`. -/
def vgicGicdWritePriority : Bank gicdVirqNum → BitVec 64 →
    Except Fault (Bank gicdVirqNum × BitVec 64) :=
  writeFields 8 4 (4 * ((off - gicdPrioOff) / 4)) virqPrivNum setPrio

/-- `vgic_gicd_write_icfgr`. -/
def vgicGicdWriteIcfgr : Bank gicdVirqNum → BitVec 64 →
    Except Fault (Bank gicdVirqNum × BitVec 64) :=
  writeFields 2 16 (16 * ((off - gicdIcfgrOff) / 4)) virqPrivNum setCfg

/-- `vgic_gicd_write_handlers`. -/
def vgicGicdWriteHandlers : UpdateId → Bank gicdVirqNum → BitVec 64 →
    Except Fault (Bank gicdVirqNum × BitVec 64)
  | .isen => vgicGicdWriteIsenabler off
  | .icen => vgicGicdWriteIcenabler off
  | .ispnd => vgicGicdWriteIspend off
  | .icpnd => vgicGicdWriteIcpend off
  | .prio => vgicGicdWritePriority off
  | .icfgr => vgicGicdWriteIcfgr off

end Gicd

/-- `struct vgicd`. -/
structure Vgicd where
  ctlr : BitVec 32
  type : BitVec 32
  iidr : BitVec 32
  virqs : Vector Virq gicdVirqNum

/-- The cases of `vgic_gicd_write_emulate` with a handler. -/
def gicdUpdateId (off : Nat) : Option UpdateId :=
  if gicdIsenOff ≤ off ∧ off ≤ gicdIsenEnd then some .isen
  else if gicdIcenOff ≤ off ∧ off ≤ gicdIcenEnd then some .icen
  else if gicdIspndOff ≤ off ∧ off ≤ gicdIspndEnd then some .ispnd
  else if gicdIcpndOff ≤ off ∧ off ≤ gicdIcpndEnd then some .icpnd
  else if gicdPrioOff ≤ off ∧ off ≤ gicdPrioEnd then some .prio
  else if gicdIcfgrOff ≤ off ∧ off ≤ gicdIcfgrEnd then some .icfgr
  else none

/-- `vgic_gicd_write_emulate`. -/
def vgicGicdWriteEmulate (gicd : Vgicd) (calls : List GicCall) (off : Nat) (val : BitVec 64) :
    Except Fault (Vgicd × List GicCall × BitVec 64) :=
  if off = gicdCtlrOff then pure (gicd, calls, gicd.ctlr.setWidth 64)
  else match gicdUpdateId off with
    | some id => do
        let (b, val) ← vgicGicdWriteHandlers off id ⟨gicd.virqs, calls⟩ val
        pure ({ gicd with virqs := b.virqs }, b.calls, val)
    | none => pure (gicd, calls, val)

/-- The switch of `vgic_emulate` for a read of the distributor. -/
def gicdRead (gicd : Vgicd) (off : Nat) : BitVec 64 :=
  if off = gicdCtlrOff then gicd.ctlr.setWidth 64
  else if off = gicdTypeOff then gicd.type.setWidth 64
  else if off = gicdIidrOff then gicd.iidr.setWidth 64
  else 0

/-! ## The redistributor -/

/-- `vgic_gicr_sgi_write_isenabler`. -/
def vgicGicrSgiWriteIsenabler : Bank virqPrivNum → BitVec 64 →
    Except Fault (Bank virqPrivNum × BitVec 64) :=
  writeBits 0 0 0 (setEnable true .isen)

/-- `vgic_gicr_sgi_write_icenabler`. -/
def vgicGicrSgiWriteIcenabler : Bank virqPrivNum → BitVec 64 →
    Except Fault (Bank virqPrivNum × BitVec 64) :=
  writeBits 0 0 0 (setEnable false .icen)

/-- `vgic_gicr_sgi_write_ispend`. -/
def vgicGicrSgiWriteIspend : Bank virqPrivNum → BitVec 64 →
    Except Fault (Bank virqPrivNum × BitVec 64) :=
  writeBits 0 0 0 setPending

/-- `vgic_gicr_sgi_write_icpend`. -/
def vgicGicrSgiWriteIcpend : Bank virqPrivNum → BitVec 64 →
    Except Fault (Bank virqPrivNum × BitVec 64) :=
  writeBits 0 0 0 clearPending

/-- `vgic_gicr_sgi_write_priority`: the interrupt number is computed, and the loop counter indexes
the array. -/
def vgicGicrSgiWritePriority : Bank virqPrivNum → BitVec 64 →
    Except Fault (Bank virqPrivNum × BitVec 64) :=
  writeFields 8 4 0 0 setPrio

/-- `vgic_gicr_sgi_write_icfgr`: likewise. -/
def vgicGicrSgiWriteIcfgr : Bank virqPrivNum → BitVec 64 →
    Except Fault (Bank virqPrivNum × BitVec 64) :=
  writeFields 2 16 0 0 setCfg

/-- `vgic_gicr_sgi_write_handler`. -/
def vgicGicrSgiWriteHandler : UpdateId → Bank virqPrivNum → BitVec 64 →
    Except Fault (Bank virqPrivNum × BitVec 64)
  | .isen => vgicGicrSgiWriteIsenabler
  | .icen => vgicGicrSgiWriteIcenabler
  | .ispnd => vgicGicrSgiWriteIspend
  | .icpnd => vgicGicrSgiWriteIcpend
  | .prio => vgicGicrSgiWritePriority
  | .icfgr => vgicGicrSgiWriteIcfgr

/-- What the emulation uses of `struct vgicr`. -/
structure Redist where
  ctlr : BitVec 32
  iidr : BitVec 32
  type : BitVec 32
  virqs : Vector Virq virqPrivNum

/-- The cases of `vgic_gicr_sgi_emulate`. -/
def gicrUpdateId (off : Nat) : Option UpdateId :=
  if off = gicrIsen0Off then some .isen
  else if off = gicrIcen0Off then some .icen
  else if off = gicrIspnd0Off then some .ispnd
  else if off = gicrIcpnd0Off then some .icpnd
  else if gicrPrioOff ≤ off ∧ off ≤ gicrPrioEnd then some .prio
  else if gicrIcfgr0Off ≤ off ∧ off ≤ gicrIcfgr1Off then some .icfgr
  else none

/-- `vgic_gicr_sgi_emulate`. -/
def vgicGicrSgiEmulate (gicr : Redist) (calls : List GicCall) (off : Nat) (isWrite : Bool)
    (val : BitVec 64) : Except Fault (Redist × List GicCall × BitVec 64) :=
  match if isWrite then gicrUpdateId off else none with
  | some id => do
      let (b, val) ← vgicGicrSgiWriteHandler id ⟨gicr.virqs, calls⟩ val
      pure ({ gicr with virqs := b.virqs }, b.calls, val)
  | none => pure (gicr, calls, val)

/-- `vgic_gicr_rd_emulate`. -/
def vgicGicrRdEmulate (gicr : Redist) (off : Nat) (isWrite : Bool) (val : BitVec 64) :
    Redist × BitVec 64 :=
  if off = gicrCtlrOff then
    if isWrite then ({ gicr with ctlr := val.setWidth 32 }, val)
    else (gicr, gicr.ctlr.setWidth 64)
  else if off = gicrIidrOff then (gicr, if isWrite then val else gicr.iidr.setWidth 64)
  else if off = gicrTypeOff then (gicr, if isWrite then val else gicr.type.setWidth 64)
  else (gicr, 0)

/-! ## `vgic_emulate` -/

/-- `struct vgic`, as far as the emulation uses it. -/
structure Vgic where
  gicdAddr : BitVec 64
  gicrAddr : BitVec 64
  gicd : Vgicd
  gicr : Vector Redist maxVcpuNum

/-- The VM, the number of the current vCPU, the registers saved at its trap, and the calls of the
driver of the GIC. -/
structure Guest where
  vgic : Vgic
  vcpu : Fin maxVcpuNum
  regs : Vector (BitVec 64) 32
  calls : List GicCall

theorem Guest.vcpu_lt (g : Guest) : g.vcpu.val < maxVcpuNum := g.vcpu.isLt

/-- `access_info_t`. -/
structure AccessInfo where
  addr : BitVec 64
  srt : Nat
  isWrite : Bool

/-- `vgic_emulate`. -/
def vgicEmulate (g : Guest) (acc : AccessInfo) (gicd : Bool) : Except Fault Guest := do
  let val ← readAt g.regs acc.srt
  if gicd then
    let off := (acc.addr - g.vgic.gicdAddr).toNat
    if acc.isWrite then
      let (d, calls, val) ← vgicGicdWriteEmulate g.vgic.gicd g.calls off val
      let regs ← writeAt g.regs acc.srt val
      pure { g with vgic := { g.vgic with gicd := d }, regs := regs, calls := calls }
    else
      let regs ← writeAt g.regs acc.srt (gicdRead g.vgic.gicd off)
      pure { g with regs := regs }
  else
    let off := (acc.addr - g.vgic.gicrAddr).toNat
    if off < gicrSgiOff then
      let (r, val) := vgicGicrRdEmulate g.vgic.gicr[g.vcpu] off acc.isWrite val
      let regs ← writeAt g.regs acc.srt val
      pure { g with vgic := { g.vgic with gicr := g.vgic.gicr.set g.vcpu r }, regs := regs }
    else
      let (r, calls, val) ← vgicGicrSgiEmulate g.vgic.gicr[g.vcpu] g.calls (off - gicrSgiOff)
        acc.isWrite val
      let regs ← writeAt g.regs acc.srt val
      pure { g with
        vgic := { g.vgic with gicr := g.vgic.gicr.set g.vcpu r }
        regs := regs
        calls := calls }

end RtHypervisor.Ports.VgicEmulate
