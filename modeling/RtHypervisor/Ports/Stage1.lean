import Mathlib.Tactic
import RtHypervisor.Verified.ByteMem
import RtHypervisor.Verified.BitField

/-!
# The stage-1 tables of the kernel

`mmu.c` fills `MMUTable` and takes the tables of the lower levels from `MMUPage`, one page after
the other.  `rt_hw_mmu_setmtt` maps a range section by section; `_kernel_map_2M` walks down two
levels, with a new page where an entry is not used, and writes the block entry.

Cache maintenance has no effect on what the tables hold and is left out.  `walk` is the
translation the architecture defines for these tables: 48 address bits, a granule of 4 KB and
the table of level 0 at the base.
-/

namespace RtHypervisor.Ports.Stage1

open RtHypervisor.Verified.ByteMem
open RtHypervisor.Verified.BitField

def archSectionShift : Nat := 21
def archSectionSize : BitVec 64 := 0x200000
def archSectionMask : BitVec 64 := 0x1fffff
def archPageSize : Nat := 4096
def mmuLevelMask : BitVec 64 := 0x1ff
def mmuLevelShift : Nat := 9
def mmuAddressBits : Nat := 39
def mmuAddressMask : BitVec 64 := 0x0000fffffffff000
def mmuAttribMask : BitVec 64 := 0xfff0000000000ffc
def mmuTypeMask : BitVec 64 := 3
def mmuTypeUsed : BitVec 64 := 1
def mmuTypeBlock : BitVec 64 := 1
def mmuTypeTable : BitVec 64 := 3
def mmuTblBlock2MLevel : Nat := 2
def mmuTblPageNrMax : Nat := 32

def mmuMapErrorVanotalign : Int := -1
def mmuMapErrorPanotalign : Int := -2
def mmuMapErrorNopage : Int := -3
def mmuMapErrorConflict : Int := -4

def mmuApKaun : BitVec 64 := 0

/-- `MMU_MAP_CUSTOM`. -/
def mmuMapCustom (ap mtype : BitVec 64) : BitVec 64 :=
  (1 <<< 10) ||| (2 <<< 8) ||| (ap <<< 6) ||| (mtype <<< 2)

/-- Where the linker puts `MMUTable` and `MMUPage`. -/
structure Image where
  mmuTable : Nat
  mmuPage : Nat
  table_aligned : mmuTable % 4096 = 0
  page_aligned : mmuPage % 4096 = 0
  page_pos : 0 < mmuPage
  table_lt : mmuTable + 4096 ≤ 2 ^ 48
  page_lt : mmuPage + 4096 * 32 ≤ 2 ^ 48
  apart : mmuTable + 4096 ≤ mmuPage ∨ mmuPage + 4096 * 32 ≤ mmuTable

/-- The memory, and the counter of `_kernel_free_page`. -/
structure Tables where
  mem : Mem
  i : Nat

/-- `&MMUPage[j].entry`. -/
def pageAddr (I : Image) (j : Nat) : Nat := I.mmuPage + 4096 * j

/-- `_kernel_free_page`. -/
def kernelFreePage (I : Image) (s : Tables) : Tables × Nat :=
  if s.i ≥ mmuTblPageNrMax then (s, 0)
  else ({ s with i := s.i + 1 }, pageAddr I s.i)

/-- The index into a table whose entries cover `2 ^ shift` bytes. -/
def tableIndex (va : BitVec 64) (shift : Nat) : Nat := ((va >>> shift) &&& mmuLevelMask).toNat

/-- One round of the loop over the levels: the table of the next level, or an error. -/
def descend (I : Image) (s : Tables) (curLvTbl : Nat) (va : BitVec 64) (levelShift : Nat) :
    Tables × Except Int Nat :=
  let entry := curLvTbl + 8 * tableIndex va levelShift
  let next (s : Tables) : Tables × Except Int Nat :=
    let page := load64 s.mem entry
    if page &&& mmuTypeMask = mmuTypeBlock then (s, .error mmuMapErrorConflict)
    else (s, .ok (page &&& mmuAddressMask).toNat)
  if load64 s.mem entry &&& mmuTypeUsed = 0 then
    let (s, page) := kernelFreePage I s
    if page = 0 then (s, .error mmuMapErrorNopage)
    else
      let mem := fill s.mem page archPageSize 0
      next { s with mem := store64 mem entry (BitVec.ofNat 64 page ||| mmuTypeTable) }
  else next s

/-- The loop over the levels. -/
def descendLevels (I : Image) (va : BitVec 64) :
    Nat → Tables → Nat → Nat → Tables × Except Int Nat
  | 0, s, curLvTbl, _ => (s, .ok curLvTbl)
  | levels + 1, s, curLvTbl, levelShift =>
      match descend I s curLvTbl va levelShift with
      | (s, .error e) => (s, .error e)
      | (s, .ok next) => descendLevels I va levels s next (levelShift - mmuLevelShift)

/-- `_kernel_map_2M`. -/
def kernelMap2M (I : Image) (s : Tables) (tbl : Nat) (va pa attr : BitVec 64) : Tables × Int :=
  if va &&& archSectionMask ≠ 0 then (s, mmuMapErrorVanotalign)
  else if pa &&& archSectionMask ≠ 0 then (s, mmuMapErrorPanotalign)
  else
    match descendLevels I va mmuTblBlock2MLevel s tbl mmuAddressBits with
    | (s, .error e) => (s, e)
    | (s, .ok curLvTbl) =>
        let attr := attr &&& mmuAttribMask
        let pa := pa ||| (attr ||| mmuTypeBlock)
        let off := tableIndex va archSectionShift
        ({ s with mem := store64 s.mem (curLvTbl + 8 * off) pa }, 0)

/-- The loop of `rt_hw_mmu_setmtt` over the sections, with `count` left.  Its counter is an
`int`; there are no table pages for so many sections. -/
def mapSections (I : Image) (attr : BitVec 64) :
    Nat → Tables → BitVec 64 → BitVec 64 → Int → Tables × Int
  | 0, s, _, _, ret => (s, ret)
  | count + 1, s, va, pa, _ =>
      match kernelMap2M I s I.mmuTable va pa attr with
      | (s, ret) =>
          if ret ≠ 0 then (s, ret)
          else mapSections I attr count s (va + archSectionSize) (pa + archSectionSize) ret

/-- The arguments of `rt_hw_mmu_setmtt`. -/
structure Call where
  vaddrStart : BitVec 64
  vaddrEnd : BitVec 64
  paddrStart : BitVec 64
  attr : BitVec 64
deriving DecidableEq, Repr

/-- `rt_hw_mmu_setmtt`. -/
def rtHwMmuSetmtt (I : Image) (s : Tables) (c : Call) : Tables × Int :=
  let mapAttr := mmuMapCustom mmuApKaun c.attr
  if c.vaddrStart > c.vaddrEnd then (s, -1)
  else
    let vaddrStart :=
      if c.vaddrStart % archSectionSize ≠ 0 then c.vaddrStart / archSectionSize * archSectionSize
      else c.vaddrStart
    let paddrStart :=
      if c.paddrStart % archSectionSize ≠ 0 then c.paddrStart / archSectionSize * archSectionSize
      else c.paddrStart
    let vaddrEnd :=
      if c.vaddrEnd % archSectionSize ≠ 0 then
        (c.vaddrEnd / archSectionSize + 1) * archSectionSize
      else c.vaddrEnd
    let count := (vaddrEnd - vaddrStart) >>> archSectionShift
    mapSections I mapAttr count.toNat s vaddrStart paddrStart (-1)

/-- The calls one after the other, with what each returned. -/
def setmtts (I : Image) : Tables → List Call → Tables × List Int
  | s, [] => (s, [])
  | s, c :: cs =>
      let (s, ret) := rtHwMmuSetmtt I s c
      let (s, rets) := setmtts I s cs
      (s, ret :: rets)

/-- The tables before the first call: `MMUTable` and `MMUPage` are zero. -/
structure Cleared (I : Image) (s : Tables) : Prop where
  counter : s.i = 0
  table : ∀ a, a < 4096 → s.mem (I.mmuTable + a) = 0

/-! ## The walk -/

/-- What a translation gives: the output address, the attributes of the block or page, and the
attributes the table entries on the way add. -/
structure Translation where
  oa : Nat
  attr : BitVec 64
  tableAttr : BitVec 64
deriving DecidableEq, Repr

def isTable (e : BitVec 64) : Bool := e &&& mmuTypeMask == mmuTypeTable

def isBlock (e : BitVec 64) : Bool := e &&& mmuTypeMask == mmuTypeBlock

/-- A block or page entry for `2 ^ shift` bytes. -/
def leaf (e : BitVec 64) (shift va : Nat) (tableAttr : BitVec 64) : Translation :=
  ⟨(e &&& bits shift 48).toNat + va % 2 ^ shift, e &&& mmuAttribMask, tableAttr⟩

/-- The table an entry leads to. -/
def nextTable (e : BitVec 64) : Nat := (e &&& bits 12 48).toNat

/-- What a table entry says about the attributes below it. -/
def hierarchical (e : BitVec 64) : BitVec 64 := e &&& bits 59 64

/-- The translation of `va` by the tables at `ttbr`. -/
def walk (m : Mem) (ttbr va : Nat) : Option Translation :=
  if va ≥ 2 ^ 48 then none
  else
    let l0 := load64 m (ttbr + 8 * (va / 2 ^ 39 % 512))
    if ¬isTable l0 then none
    else
      let l1 := load64 m (nextTable l0 + 8 * (va / 2 ^ 30 % 512))
      if isBlock l1 then some (leaf l1 30 va (hierarchical l0))
      else if ¬isTable l1 then none
      else
        let l2 := load64 m (nextTable l1 + 8 * (va / 2 ^ 21 % 512))
        if isBlock l2 then some (leaf l2 21 va (hierarchical l0 ||| hierarchical l1))
        else if ¬isTable l2 then none
        else
          let l3 := load64 m (nextTable l2 + 8 * (va / 2 ^ 12 % 512))
          if isTable l3 then
            some (leaf l3 12 va (hierarchical l0 ||| hierarchical l1 ||| hierarchical l2))
          else none

/-! ## What the calls ask for -/

/-- The translation a call asks for. -/
def asked (c : Call) (va : Nat) : Option Translation :=
  if c.vaddrStart.toNat ≤ va ∧ va < c.vaddrEnd.toNat then
    some ⟨c.paddrStart.toNat + (va - c.vaddrStart.toNat),
      mmuMapCustom mmuApKaun c.attr &&& mmuAttribMask, 0⟩
  else none

/-- Every address is translated as the last call that covered it asked for. -/
def askedLast (cs : List Call) (va : Nat) : Option Translation :=
  cs.foldl (fun before c => (asked c va).or before) none

end RtHypervisor.Ports.Stage1
