import RtHypervisor.Verified.Run
import RtHypervisor.Verified.ByteMem
import RtHypervisor.Ports.Platform

/-!
# Stage-2 page tables

The static tables and table pages of `stage2.c` and the functions that fill and
read them.  Every VM id owns one level-1 table of two concatenated pages and a
pool of `MMU_TBL_PAGE_NR_MAX` table pages; both live in the memory of the host,
next to everything else, and entries hold their addresses as integers.  Nothing
in `alloc_vm_pgd` clears a table: it is zero only because
`rt_init_s2_mmu_table` cleared it once.

Pointers are addresses.  An access below the first page is a null-pointer access
(`S2_PMD_OFFSET` of a null table).  The `do`-`while` loops of the mapping code
carry an iteration bound, as `s2_map_pte` advances only over empty entries.
-/

namespace RtHypervisor.Ports.Stage2

open RtHypervisor.Verified.Run
open RtHypervisor.Verified.ByteMem
open RtHypervisor.Ports.Platform

/-! ## Constants -/

def mmuTypeMask : BitVec 64 := 3
def mmuTypeBlock : BitVec 64 := 1
def mmuTypeTable : BitVec 64 := 3

/-- `TABLE_ADDR_MASK` and `S2_VA_MASK`. -/
def tableAddrMask : BitVec 64 := 0xFFFFFFFFF000
def l1BlockOaMask : BitVec 64 := 0xFFFFC0000000
def l2BlockOaMask : BitVec 64 := 0xFFFFFFF00000

def s2PudSize : BitVec 64 := 0x40000000
def s2PmdSize : BitVec 64 := 0x200000
def rtMmPageSize : BitVec 64 := 0x1000

/-- `S2_IPA_SIZE` and `S2_PA_SIZE`. -/
def s2IpaSize : BitVec 64 := 0x10000000000

/-- `S2_BLOCK_NORMAL`: block, access flag, inner shareable, read/write, write-back. -/
def s2BlockNormal : BitVec 64 := 0x7FD

/-- `S2_BLOCK_DEVICE`: block, access flag, execute-never. -/
def s2BlockDevice : BitVec 64 := 0x60000000000401

def is2MAlign (x : BitVec 64) : Bool := x &&& (s2PmdSize - 1) == 0
def is1GAlign (x : BitVec 64) : Bool := x &&& (s2PudSize - 1) == 0

def s2PudIdx (va : BitVec 64) : Nat := va.toNat / 2 ^ 30 % 1024
def s2PmdIdx (va : BitVec 64) : Nat := va.toNat / 2 ^ 21 % 512
def s2PteIdx (va : BitVec 64) : Nat := va.toNat / 2 ^ 12 % 512

/-- The error codes the modelled functions return. -/
inductive RtErr
  | eok
  | error
  | enomem
  | einval
deriving DecidableEq, Repr

/-- `struct mem_desc`. -/
structure MemDesc where
  vaddrStart : BitVec 64
  vaddrEnd : BitVec 64
  paddrStart : BitVec 64
  attr : BitVec 64
deriving DecidableEq, Repr

/-- The memory of the host and `s2_page_bitmap`, by VM id. -/
structure S2 where
  mem : Mem
  pageBitmap : Nat → BitVec 32

def rd (s : S2) (p : Nat) : Except Fault (BitVec 64) := do
  check .nullPointer (4096 ≤ p)
  pure (load64 s.mem p)

def wr (s : S2) (p : Nat) (v : BitVec 64) : Except Fault S2 := do
  check .nullPointer (4096 ≤ p)
  pure { s with mem := store64 s.mem p v }

section Tables

variable (B : Board)

/-- `&S2_MMUTable_Group[id]`. -/
def tableAddr (id : Nat) : Nat := B.tableGroup + 8192 * id

/-- `&S2_MMUPage_Group[id][j]`. -/
def pageAddr (id j : Nat) : Nat := B.pageGroup + 4096 * (mmuTblPageNrMax * id + j)

def clearS2MmuTable (s : S2) (id : Nat) : Except Fault S2 := do
  check .assertion (id < maxVmNum)
  pure { s with mem := fill s.mem (tableAddr B id) 8192 0 }

def clearS2MmuPageGroup (s : S2) (id : Nat) : Except Fault S2 := do
  check .assertion (id < maxVmNum)
  pure
    { mem := fill s.mem (pageAddr B id 0) (4096 * mmuTblPageNrMax) 0
      pageBitmap := Function.update s.pageBitmap id B.initBits }

/-- `rt_init_s2_mmu_table`. -/
def rtInitS2MmuTable (s : S2) : Except Fault S2 :=
  (List.range maxVmNum).foldlM (fun s id => do
    let s ← clearS2MmuTable B s id
    clearS2MmuPageGroup B s id) s

/-- `alloc_vm_pgd`. -/
def allocVmPgd (id : Nat) : Except Fault Nat := do
  check .assertion (id < maxVmNum)
  pure (tableAddr B id)

/-- `_kernel_free_s2_page`: the address of a table page, 0 when the pool is used up. -/
def kernelFreeS2Page (s : S2) (id : Nat) : Except Fault (Nat × S2) := do
  check .assertion (id < maxVmNum)
  let bitmap := s.pageBitmap id
  let i := B.findNext bitmap
  if i = mmuTblPageNrMax - 1 ∧ B.getBit bitmap i then
    pure (0, s)
  else
    pure (pageAddr B id i,
      { s with pageBitmap := Function.update s.pageBitmap id (B.setBit bitmap i) })

/-! ## Mapping -/

/-- `s2_map_pmd_block`, with the entry the pointer leads to. -/
def s2MapPmdBlock (entry : BitVec 64) (d : MemDesc) : Bool :=
  entry == 0 && d.attr &&& mmuTypeMask == mmuTypeBlock &&
    is2MAlign d.vaddrStart && is2MAlign (d.vaddrEnd - d.vaddrStart)

/-- `s2_map_pud_block`, with the entry the pointer leads to. -/
def s2MapPudBlock (entry : BitVec 64) (d : MemDesc) : Bool :=
  entry == 0 && d.attr &&& mmuTypeMask == mmuTypeBlock &&
    is1GAlign d.vaddrStart && is1GAlign (d.vaddrEnd - d.vaddrStart)

/-- The loop of `s2_map_pte`. -/
def s2MapPteLoop : Nat → S2 → MemDesc → Nat → Except Fault (S2 × MemDesc)
  | 0, _, _, _ => .error .fuel
  | fuel + 1, s, d, ptePtr => do
      let entry ← rd s ptePtr
      let (s, d) ←
        if entry = 0 then do
          let s ← wr s ptePtr (d.paddrStart ||| d.attr)
          pure (s, { d with
            vaddrStart := d.vaddrStart + rtMmPageSize
            paddrStart := d.paddrStart + rtMmPageSize })
        else
          pure (s, d)
      if d.vaddrStart ≠ d.vaddrEnd then s2MapPteLoop fuel s d (ptePtr + 8) else pure (s, d)

/-- `s2_map_pte`.  The caller passes a table address that may still carry its type bits. -/
def s2MapPte (s : S2) (pteTbl : BitVec 64) (d : MemDesc) : Except Fault (S2 × MemDesc) :=
  s2MapPteLoop (2 ^ 29) s d (pteTbl.toNat + 8 * s2PteIdx d.vaddrStart)

/-- Where a loop step over entries of `size` bytes ends. -/
def nextBoundary (size : BitVec 64) (d : MemDesc) : BitVec 64 :=
  let next := (d.vaddrStart + size) &&& ~~~(size - 1)
  if next > d.vaddrEnd then d.vaddrEnd else next

/-- The table an entry points to, populated with a fresh page when the entry is empty. -/
def nextTable (s : S2) (id ptr : Nat) (entry : BitVec 64) :
    Except Fault (Option (BitVec 64 × S2)) :=
  if entry ≠ 0 then
    pure (some (entry &&& tableAddrMask, s))
  else do
    let (page, s) ← kernelFreeS2Page B s id
    if page = 0 then
      pure none
    else
      let tbl := mmuTypeTable ||| (BitVec.ofNat 64 page &&& tableAddrMask)
      let s ← wr { s with mem := fill s.mem page 4096 0 } ptr tbl
      pure (some (tbl, s))

/-- The body of the loop of `s2_map_pmd`; `none` when no table page is left. -/
def s2MapPmdEntry (s : S2) (d : MemDesc) (id pmdPtr : Nat) :
    Except Fault (Option (S2 × MemDesc)) := do
  let entry ← rd s pmdPtr
  if s2MapPmdBlock entry d then
    let s ← wr s pmdPtr (d.attr ||| (d.paddrStart &&& l2BlockOaMask))
    pure (some (s, d))
  else
    match ← nextTable B s id pmdPtr entry with
    | none => pure none
    | some (pteTbl, s) =>
        let r ← s2MapPte s pteTbl d
        pure (some r)

def s2MapPmdLoop (id : Nat) : Nat → S2 → MemDesc → Nat → Except Fault (RtErr × S2 × MemDesc)
  | 0, _, _, _ => .error .fuel
  | fuel + 1, s, d, pmdPtr => do
      let next := nextBoundary s2PmdSize d
      let size := next - d.vaddrStart
      match ← s2MapPmdEntry B s d id pmdPtr with
      | none => pure (.enomem, s, d)
      | some (s, d) =>
          let d := { d with paddrStart := d.paddrStart + size, vaddrStart := next }
          if d.vaddrStart ≠ d.vaddrEnd then s2MapPmdLoop id fuel s d (pmdPtr + 8)
          else pure (.eok, s, d)

/-- `s2_map_pmd`. -/
def s2MapPmd (s : S2) (pmdTbl : BitVec 64) (d : MemDesc) (id : Nat) :
    Except Fault (RtErr × S2 × MemDesc) :=
  s2MapPmdLoop B id (2 ^ 20) s d (pmdTbl.toNat + 8 * s2PmdIdx d.vaddrStart)

/-- The body of the loop of `s2_map_pud`; what `s2_map_pmd` returns is dropped. -/
def s2MapPudEntry (s : S2) (d : MemDesc) (id pudPtr : Nat) :
    Except Fault (Option (S2 × MemDesc)) := do
  let entry ← rd s pudPtr
  if s2MapPudBlock entry d then
    let s ← wr s pudPtr (d.attr ||| (d.paddrStart &&& l1BlockOaMask))
    pure (some (s, d))
  else
    match ← nextTable B s id pudPtr entry with
    | none => pure none
    | some (pmdTbl, s) =>
        let (_, s, d) ← s2MapPmd B s (pmdTbl &&& tableAddrMask) d id
        pure (some (s, d))

def s2MapPudLoop (id : Nat) : Nat → S2 → MemDesc → Nat → Except Fault (RtErr × S2 × MemDesc)
  | 0, _, _, _ => .error .fuel
  | fuel + 1, s, d, pudPtr => do
      let next := nextBoundary s2PudSize d
      let size := next - d.vaddrStart
      match ← s2MapPudEntry B s d id pudPtr with
      | none => pure (.enomem, s, d)
      | some (s, d) =>
          let d := { d with paddrStart := d.paddrStart + size, vaddrStart := next }
          if d.vaddrStart ≠ d.vaddrEnd then s2MapPudLoop id fuel s d (pudPtr + 8)
          else pure (.eok, s, d)

/-- `s2_map_pud`. -/
def s2MapPud (s : S2) (pudTbl : BitVec 64) (d : MemDesc) (id : Nat) :
    Except Fault (RtErr × S2 × MemDesc) :=
  s2MapPudLoop B id (2 ^ 11) s d (pudTbl.toNat + 8 * s2PudIdx d.vaddrStart)

/-- `s2_map`, for the VM with this id and the table `mm->pgd_tbl`.  The descriptor is
an in-out argument. -/
def s2Map (s : S2) (pgdTbl : BitVec 64) (id : Nat) (d : MemDesc) :
    Except Fault (RtErr × S2 × MemDesc) :=
  if d.vaddrStart = d.vaddrEnd then
    pure (.einval, s, d)
  else do
    check .assertion (d.paddrStart < s2IpaSize)
    check .assertion (d.vaddrStart < s2IpaSize && d.vaddrEnd < s2IpaSize)
    check .assertion (is2MAlign d.vaddrStart && is2MAlign d.vaddrEnd)
    s2MapPud B s (pgdTbl &&& tableAddrMask) d id

end Tables

/-! ## Translation -/

/-- `s2_translate`: the error code and, on success, the physical address.  Where the
level-2 entry is not a block it reads through `pte_ptr`, which is still null. -/
def s2Translate (s : S2) (pgdTbl va : BitVec 64) : Except Fault (RtErr × BitVec 64) :=
  let pudPtr := (pgdTbl &&& tableAddrMask).toNat + 8 * s2PudIdx va
  if pudPtr = 0 then
    pure (.error, 0)
  else do
    let pud ← rd s pudPtr
    let pmdPtr := (pud &&& tableAddrMask).toNat + 8 * s2PmdIdx va
    if pmdPtr = 0 then
      pure (.error, 0)
    else do
      let pmd ← rd s pmdPtr
      if pmd &&& mmuTypeMask = mmuTypeBlock then
        pure (.eok, (pmd &&& tableAddrMask) + (va &&& ~~~l2BlockOaMask))
      else
        .error .nullPointer

/-- What the hardware reads out of a stage-2 table: the walk of an input address from
level 1 (two concatenated pages) to the block or page it lies in. -/
def walk (m : Mem) (tbl ipa : Nat) : Option Nat :=
  let l1 := load64 m (tbl + 8 * (ipa / 2 ^ 30))
  if l1 &&& mmuTypeMask = mmuTypeBlock then
    some ((l1 &&& l1BlockOaMask).toNat + ipa % 2 ^ 30)
  else if l1 &&& mmuTypeMask = mmuTypeTable then
    let l2 := load64 m ((l1 &&& tableAddrMask).toNat + 8 * (ipa / 2 ^ 21 % 512))
    if l2 &&& mmuTypeMask = mmuTypeBlock then
      some ((l2 &&& 0xFFFFFFE00000).toNat + ipa % 2 ^ 21)
    else if l2 &&& mmuTypeMask = mmuTypeTable then
      let l3 := load64 m ((l2 &&& tableAddrMask).toNat + 8 * (ipa / 2 ^ 12 % 512))
      if l3 &&& mmuTypeMask = mmuTypeTable then
        some ((l3 &&& tableAddrMask).toNat + ipa % 2 ^ 12)
      else none
    else none
  else none

end RtHypervisor.Ports.Stage2
