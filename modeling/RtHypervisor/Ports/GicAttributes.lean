import Mathlib.Tactic
import RtHypervisor.Verified.Run

/-!
# Attributes of a physical interrupt

The driver of the GIC keeps configuration, priority and group of the interrupts in 32-bit registers
with 16, 4 and 32 fields.  A setter puts a value into one field of its register, and the getter
should take it out again.  For the priority and the group it does; the getter of the configuration
shifts by half the number of the field, where the field begins at twice the number, and does not
mask what is above it.
-/

namespace RtHypervisor.Ports.GicAttributes

open RtHypervisor.Verified.Run

/-- `ARM_GIC_MAX_NR`. -/
def armGicMaxNr : Nat := 1

/-- A register of the distributor, or of the redistributor of a CPU. -/
inductive Reg
  | dist (off : Nat)
  | redist (cpu off : Nat)
deriving DecidableEq, Repr

/-- One entry of `_gic_table`, with the registers behind its base addresses. -/
structure ArmGic where
  offset : Int
  regs : Reg → BitVec 32

/-- `_gic_table`, `_gic_max_irq`, and the CPU that runs. -/
structure Driver where
  gicTable : Vector ArmGic armGicMaxNr
  gicMaxIrq : Nat
  cpuId : Nat

/-! ## Registers -/

/-- `GIC_DIST_IGROUP`. -/
def gicDistIgroup (n : Nat) : Reg := .dist (0x080 + n / 32 * 4)
/-- `GIC_DIST_PRI`. -/
def gicDistPri (n : Nat) : Reg := .dist (0x400 + n / 4 * 4)
/-- `GIC_DIST_CONFIG`. -/
def gicDistConfig (n : Nat) : Reg := .dist (0xc00 + n / 16 * 4)
/-- `GIC_RDISTSGI_IPRIORITYR`. -/
def gicRdistsgiIpriorityr (cpu n : Nat) : Reg := .redist cpu (0x10000 + 0x400 + n / 4 * 4)

/-- The assertions of every accessor: an entry of the table, and the interrupt's number in it. -/
def locate (d : Driver) (index : Nat) (irq : Int) : Except Fault (ArmGic × Nat) := do
  let gic ← match d.gicTable[index]? with
    | some gic => pure gic
    | none => .error .assertion
  check .assertion (0 ≤ irq - gic.offset)
  pure (gic, (irq - gic.offset).toNat)

/-- Store a register of entry `index`. -/
def putReg (d : Driver) (index : Nat) (gic : ArmGic) (reg : Reg) (word : BitVec 32) : Driver :=
  let gic := { gic with regs := Function.update gic.regs reg word }
  { d with gicTable := d.gicTable.setIfInBounds index gic }

/-- `word &= keep; word |= field;` in 64 bits, stored in 32. -/
def replaceField (word : BitVec 32) (keep field : BitVec 64) : BitVec 32 :=
  ((word.setWidth 64 &&& keep) ||| field).setWidth 32

/-! ## Accessors -/

/-- `arm_gic_set_configuration`. -/
def armGicSetConfiguration (d : Driver) (index : Nat) (irq : Int) (config : BitVec 32) :
    Except Fault Driver := do
  let (gic, n) ← locate d index irq
  let shift := (n % 16) <<< 1
  let icfgr := replaceField (gic.regs (gicDistConfig n))
    ((~~~((3 : BitVec 32) <<< shift)).signExtend 64) ((config <<< shift).setWidth 64)
  pure (putReg d index gic (gicDistConfig n) icfgr)

/-- `arm_gic_get_configuration`. -/
def armGicGetConfiguration (d : Driver) (index : Nat) (irq : Int) : Except Fault (BitVec 64) := do
  let (gic, n) ← locate d index irq
  pure ((gic.regs (gicDistConfig n) >>> ((n % 16) >>> 1)).setWidth 64)

/-- `arm_gic_set_priority`. -/
def armGicSetPriority (d : Driver) (index : Nat) (irq : Int) (priority : BitVec 64) :
    Except Fault Driver := do
  let (gic, n) ← locate d index irq
  let shift := n % 4 * 8
  let keep := (~~~((0xff : BitVec 32) <<< shift)).signExtend 64
  let field := (priority &&& 0xff) <<< shift
  if n < 32 then
    let reg := gicRdistsgiIpriorityr d.cpuId n
    pure (putReg d index gic reg (replaceField (gic.regs reg) keep field))
  else
    let reg := gicDistPri n
    pure (putReg d index gic reg (replaceField (gic.regs reg) keep field))

/-- `arm_gic_get_priority`. -/
def armGicGetPriority (d : Driver) (index : Nat) (irq : Int) : Except Fault (BitVec 64) := do
  let (gic, n) ← locate d index irq
  if n < 32 then
    pure (((gic.regs (gicRdistsgiIpriorityr d.cpuId n) >>> (n % 4 * 8)) &&& 0xff).setWidth 64)
  else pure (((gic.regs (gicDistPri n) >>> (n % 4 * 8)) &&& 0xff).setWidth 64)

/-- `arm_gic_set_group`. -/
def armGicSetGroup (d : Driver) (index : Nat) (irq : Int) (group : BitVec 64) :
    Except Fault Driver := do
  check .assertion (group ≤ 1)
  let (gic, n) ← locate d index irq
  let shift := n % 32
  let igroupr := replaceField (gic.regs (gicDistIgroup n))
    ((~~~((1 : BitVec 32) <<< shift)).setWidth 64) ((group &&& 1) <<< shift)
  pure (putReg d index gic (gicDistIgroup n) igroupr)

/-- `arm_gic_get_group`. -/
def armGicGetGroup (d : Driver) (index : Nat) (irq : Int) : Except Fault (BitVec 64) := do
  let (gic, n) ← locate d index irq
  pure ((gic.regs (gicDistIgroup n) >>> (n % 32)).setWidth 64 &&& 1)

/-! ## Lenses -/

/-- The interrupts of an entry of the table. -/
def Supported (d : Driver) (index : Nat) (irq : Int) : Prop :=
  ∃ gic, d.gicTable[index]? = some gic ∧ 0 ≤ irq - gic.offset ∧ irq - gic.offset < d.gicMaxIrq

/-- After the setter has been called for `irq`, the getter returns the value for it, and for every
other interrupt what it returned before. -/
def IsLens (get : Driver → Nat → Int → Except Fault (BitVec 64)) (set : Except Fault Driver)
    (d : Driver) (index : Nat) (irq : Int) (val : BitVec 64) : Prop :=
  ∃ d', set = .ok d' ∧ get d' index irq = .ok val ∧
    ∀ other, Supported d index other → other ≠ irq → get d' index other = get d index other

/-- The configuration is read back: it goes to the first field of the register or is 0, and the
other fields are 0 from bit `k / 2` on; and it changes no bit from `j / 2` on for any other
interrupt of the register, with field `j`. -/
def ConfigCond (d : Driver) (index : Nat) (irq : Int) (config : BitVec 32) : Prop :=
  ∃ gic, d.gicTable[index]? = some gic ∧
    let n := (irq - gic.offset).toNat
    let word := gic.regs (gicDistConfig n)
    ((config = 0 ∨ n % 16 = 0) ∧ ∀ b, b < 32 → n % 16 / 2 ≤ b →
      ¬ (2 * (n % 16) ≤ b ∧ b < 2 * (n % 16) + 2) → word.getLsbD b = false) ∧
    ∀ other, Supported d index other → other ≠ irq → (other - gic.offset).toNat / 16 = n / 16 →
      ∀ b, 2 * (n % 16) ≤ b → b < 2 * (n % 16) + 2 → (other - gic.offset).toNat % 16 / 2 ≤ b →
        word.getLsbD b = config.getLsbD (b - 2 * (n % 16))

/-! ## Fields of a word -/

section Fields

variable {word : BitVec 32} {keep field : BitVec 64} {i : Nat}

private theorem getLsbD_replaceField (hi : i < 32) : (replaceField word keep field).getLsbD i =
    (word.getLsbD i && keep.getLsbD i || field.getLsbD i) := by
  have h64 : i < 64 := by omega
  simp [replaceField, hi, h64]

/-- The mask of a field, complemented, in the 64 bits of an `int`. -/
theorem getLsbD_keep_int {mask : BitVec 32} {shift : Nat} (hi : i < 32) :
    ((~~~(mask <<< shift)).signExtend 64).getLsbD i =
      !(decide (shift ≤ i) && mask.getLsbD (i - shift)) := by
  have h64 : i < 64 := by omega
  rw [BitVec.getLsbD_signExtend]
  simp only [h64, hi, decide_true, Bool.true_and, if_true, BitVec.getLsbD_not,
    BitVec.getLsbD_shiftLeft]
  by_cases hs : i < shift
  · have hle : ¬ shift ≤ i := by omega
    simp [hs, hle]
  · have hle : shift ≤ i := by omega
    simp [hs, hle]

private theorem getLsbD_keep_unsigned {mask : BitVec 32} {shift : Nat} (hi : i < 32) :
    ((~~~(mask <<< shift)).setWidth 64).getLsbD i =
      !(decide (shift ≤ i) && mask.getLsbD (i - shift)) := by
  have h64 : i < 64 := by omega
  rw [BitVec.getLsbD_setWidth]
  simp only [h64, hi, decide_true, Bool.true_and, BitVec.getLsbD_not, BitVec.getLsbD_shiftLeft]
  by_cases hs : i < shift
  · have hle : ¬ shift ≤ i := by omega
    simp [hs, hle]
  · have hle : shift ≤ i := by omega
    simp [hs, hle]

/-- A mask of `width` ones. -/
theorem getLsbD_ones {w width j : Nat} (hw : width ≤ w) :
    (BitVec.ofNat w (2 ^ width - 1)).getLsbD j = decide (j < width) := by
  rw [BitVec.getLsbD_ofNat, Nat.testBit_two_pow_sub_one]
  by_cases hj : j < width
  · have hjw : j < w := by omega
    simp [hj, hjw]
  · simp [hj]

/-- What replacing a field of `width` bits at `shift` by `v` does to each bit. -/
theorem getLsbD_replaced {m width shift : Nat} {v : BitVec m}
    (hkeep : ∀ {i : Nat}, i < 32 →
      keep.getLsbD i = !(decide (shift ≤ i) && decide (i - shift < width)))
    (hfield : ∀ {i : Nat}, i < 32 →
      field.getLsbD i = (decide (shift ≤ i) && v.getLsbD (i - shift)))
    (hv : ∀ j, width ≤ j → v.getLsbD j = false) (hi : i < 32) :
    (replaceField word keep field).getLsbD i =
      if shift ≤ i ∧ i < shift + width then v.getLsbD (i - shift) else word.getLsbD i := by
  rw [getLsbD_replaceField hi, hkeep hi, hfield hi]
  by_cases hs : shift ≤ i
  · by_cases hw : i - shift < width
    · have hin : shift ≤ i ∧ i < shift + width := by omega
      rw [if_pos hin]
      simp [hs, hw]
    · have hout : ¬ (shift ≤ i ∧ i < shift + width) := by omega
      rw [if_neg hout]
      simp [hs, hw, hv (i - shift) (by omega)]
  · have hout : ¬ (shift ≤ i ∧ i < shift + width) := fun h => hs h.1
    rw [if_neg hout]
    simp [hs]

private theorem getLsbD_shiftLeft_64 {v : BitVec 64} {shift : Nat} (hi : i < 32) :
    (v <<< shift).getLsbD i = (decide (shift ≤ i) && v.getLsbD (i - shift)) := by
  have h64 : i < 64 := by omega
  rw [BitVec.getLsbD_shiftLeft]
  by_cases hs : i < shift
  · have hle : ¬ shift ≤ i := by omega
    simp [hs, hle]
  · have hle : shift ≤ i := by omega
    simp [hs, hle, h64]

/-- The word after a store of the configuration. -/
theorem getLsbD_configured {config : BitVec 32} (hconfig : ∀ j, 2 ≤ j → config.getLsbD j = false)
    (n : Nat) (hi : i < 32) :
    (replaceField word ((~~~((3 : BitVec 32) <<< ((n % 16) <<< 1))).signExtend 64)
      ((config <<< ((n % 16) <<< 1)).setWidth 64)).getLsbD i =
      if 2 * (n % 16) ≤ i ∧ i < 2 * (n % 16) + 2 then config.getLsbD (i - 2 * (n % 16))
      else word.getLsbD i := by
  have hshift : (n % 16) <<< 1 = 2 * (n % 16) := by
    rw [Nat.shiftLeft_eq, Nat.mul_comm]
  have hthree : ∀ j, (3 : BitVec 32).getLsbD j = decide (j < 2) :=
    fun j => @getLsbD_ones 32 2 j (by decide)
  rw [hshift]
  apply getLsbD_replaced _ _ hconfig hi
  · intro i hi
    rw [getLsbD_keep_int hi, hthree]
  · intro i hi
    have h64 : i < 64 := by omega
    rw [BitVec.getLsbD_setWidth, BitVec.getLsbD_shiftLeft]
    by_cases hs : i < 2 * (n % 16)
    · have hle : ¬ 2 * (n % 16) ≤ i := by omega
      simp [hs, hle]
    · have hle : 2 * (n % 16) ≤ i := by omega
      simp [hs, hle, h64, hi]

/-- The word after a store of the priority. -/
theorem getLsbD_prioritised {priority : BitVec 64} (n : Nat) (hi : i < 32) :
    (replaceField word ((~~~((0xff : BitVec 32) <<< (n % 4 * 8))).signExtend 64)
      ((priority &&& 0xff) <<< (n % 4 * 8))).getLsbD i =
      if n % 4 * 8 ≤ i ∧ i < n % 4 * 8 + 8 then (priority &&& 0xff).getLsbD (i - n % 4 * 8)
      else word.getLsbD i := by
  have hones : ∀ j, (0xff : BitVec 32).getLsbD j = decide (j < 8) :=
    fun j => @getLsbD_ones 32 8 j (by decide)
  have hones' : ∀ j, (0xff : BitVec 64).getLsbD j = decide (j < 8) :=
    fun j => @getLsbD_ones 64 8 j (by decide)
  apply getLsbD_replaced _ getLsbD_shiftLeft_64 _ hi
  · intro i hi
    rw [getLsbD_keep_int hi, hones]
  · intro j hj
    have hnot : ¬ j < 8 := by omega
    rw [BitVec.getLsbD_and, hones', decide_eq_false hnot, Bool.and_false]

/-- The word after a store of the group. -/
theorem getLsbD_grouped {group : BitVec 64} (n : Nat) (hi : i < 32) :
    (replaceField word ((~~~((1 : BitVec 32) <<< (n % 32))).setWidth 64)
      ((group &&& 1) <<< (n % 32))).getLsbD i =
      if n % 32 ≤ i ∧ i < n % 32 + 1 then (group &&& 1).getLsbD (i - n % 32)
      else word.getLsbD i := by
  have hone : ∀ j, (1 : BitVec 32).getLsbD j = decide (j < 1) :=
    fun j => @getLsbD_ones 32 1 j (by decide)
  have hone' : ∀ j, (1 : BitVec 64).getLsbD j = decide (j < 1) :=
    fun j => @getLsbD_ones 64 1 j (by decide)
  apply getLsbD_replaced _ getLsbD_shiftLeft_64 _ hi
  · intro i hi
    rw [getLsbD_keep_unsigned hi, hone]
  · intro j hj
    have hnot : ¬ j < 1 := by omega
    rw [BitVec.getLsbD_and, hone', decide_eq_false hnot, Bool.and_false]

/-- A value that fits a field of `width` bits has no bits above it. -/
theorem getLsbD_of_lt {m width : Nat} {v : BitVec m} (hv : v.toNat < 2 ^ width) :
    ∀ j, width ≤ j → v.getLsbD j = false := by
  intro j hj
  exact Nat.testBit_lt_two_pow (Nat.lt_of_lt_of_le hv (Nat.pow_le_pow_right (by decide) hj))

end Fields

/-! ## One register at a time -/

section Registers

variable {d : Driver} {index : Nat} {irq : Int} {gic : ArmGic} {reg : Reg} {word : BitVec 32}

private theorem locate_ok (hgic : d.gicTable[index]? = some gic) (hirq : 0 ≤ irq - gic.offset) :
    locate d index irq = .ok (gic, (irq - gic.offset).toNat) := by
  simp only [locate, hgic, pure_bind, hirq, decide_true, check_true]
  rfl

private theorem putReg_gicTable (hgic : d.gicTable[index]? = some gic) :
    (putReg d index gic reg word).gicTable[index]? =
      some { gic with regs := Function.update gic.regs reg word } := by
  obtain ⟨hlt, -⟩ := Vector.getElem?_eq_some_iff.mp hgic
  simp only [putReg, Vector.getElem?_setIfInBounds_self_of_lt hlt]

/-- A setter that replaces one word, and a getter that looks at one: only interrupts of the same
register can see the new word. -/
theorem isLens_iff {get : Driver → Nat → Int → Except Fault (BitVec 64)}
    {set : Except Fault Driver} {val : BitVec 64} (regOf : Nat → Nat → Reg)
    (read : Nat → BitVec 32 → BitVec 64)
    (hget : ∀ {d : Driver} {gic : ArmGic} {irq : Int}, d.gicTable[index]? = some gic →
      0 ≤ irq - gic.offset → get d index irq =
        .ok (read (irq - gic.offset).toNat (gic.regs (regOf d.cpuId (irq - gic.offset).toNat))))
    (hgic : d.gicTable[index]? = some gic) (hirq : 0 ≤ irq - gic.offset)
    (hset : set = .ok (putReg d index gic (regOf d.cpuId (irq - gic.offset).toNat) word)) :
    IsLens get set d index irq val ↔ read (irq - gic.offset).toNat word = val ∧
      ∀ other, Supported d index other → other ≠ irq →
        regOf d.cpuId (other - gic.offset).toNat = regOf d.cpuId (irq - gic.offset).toNat →
        read (other - gic.offset).toNat word =
          read (other - gic.offset).toNat (gic.regs (regOf d.cpuId (irq - gic.offset).toNat)) := by
  have hgic' := @putReg_gicTable d index gic (regOf d.cpuId (irq - gic.offset).toNat) word hgic
  have hsame : ∀ {other : Int}, Supported d index other → 0 ≤ other - gic.offset := by
    rintro other ⟨gic', hgic'', hother, -⟩
    obtain rfl := Option.some.inj (hgic.symm.trans hgic'')
    exact hother
  have hafter : ∀ {other : Int}, 0 ≤ other - gic.offset →
      get (putReg d index gic (regOf d.cpuId (irq - gic.offset).toNat) word) index other =
        .ok (read (other - gic.offset).toNat (Function.update gic.regs
          (regOf d.cpuId (irq - gic.offset).toNat) word
            (regOf d.cpuId (other - gic.offset).toNat))) :=
    fun hother => hget hgic' hother
  constructor
  · rintro ⟨d', hd', hval, hothers⟩
    obtain rfl := Except.ok.inj (hset.symm.trans hd')
    rw [hafter hirq, Function.update_self] at hval
    refine ⟨Except.ok.inj hval, ?_⟩
    intro other hother hne heq
    have hread := hothers other hother hne
    rw [hafter (hsame hother), hget hgic (hsame hother), heq, Function.update_self] at hread
    exact Except.ok.inj hread
  · rintro ⟨hval, hothers⟩
    refine ⟨_, hset, ?_, ?_⟩
    · rw [hafter hirq, Function.update_self, hval]
    · intro other hother hne
      rw [hafter (hsame hother), hget hgic (hsame hother)]
      by_cases heq : regOf d.cpuId (other - gic.offset).toNat =
          regOf d.cpuId (irq - gic.offset).toNat
      · rw [heq, Function.update_self, hothers other hother hne heq]
      · rw [Function.update_of_ne heq]

end Registers

/-! ## Priority -/

/-- The register with the priority of interrupt `n`: private interrupts have theirs in the
redistributor. -/
def priorityReg (cpu n : Nat) : Reg :=
  if n < 32 then gicRdistsgiIpriorityr cpu n else gicDistPri n

private theorem priorityReg_inj {cpu n n' : Nat} (h : priorityReg cpu n' = priorityReg cpu n) :
    n' / 4 = n / 4 := by
  unfold priorityReg gicRdistsgiIpriorityr gicDistPri at h
  split_ifs at h <;> simp only [Reg.dist.injEq, Reg.redist.injEq, true_and] at h
  all_goals omega

section Lenses

variable {d : Driver} {index : Nat} {irq : Int}

/-- Two interrupts of one entry. -/
theorem number_ne {gic : ArmGic} {other : Int} (hirq : 0 ≤ irq - gic.offset)
    (hother : 0 ≤ other - gic.offset) (hne : other ≠ irq) :
    (other - gic.offset).toNat ≠ (irq - gic.offset).toNat := by
  omega

theorem Supported.of_entry {gic : ArmGic} {other : Int} (h : Supported d index other)
    (hgic : d.gicTable[index]? = some gic) : 0 ≤ other - gic.offset := by
  obtain ⟨gic', hgic', hother, -⟩ := h
  obtain rfl := Option.some.inj (hgic.symm.trans hgic')
  exact hother

private theorem priority_lens {priority : BitVec 64} (hirq : Supported d index irq)
    (hlegal : priority.toNat < 2 ^ 8) :
    IsLens armGicGetPriority (armGicSetPriority d index irq priority) d index irq priority := by
  obtain ⟨gic, hgic, hpos, -⟩ := hirq
  have hv := getLsbD_of_lt hlegal
  have hones : ∀ j, (0xff : BitVec 64).getLsbD j = decide (j < 8) :=
    fun j => @getLsbD_ones 64 8 j (by decide)
  have hones' : ∀ j, (0xff : BitVec 32).getLsbD j = decide (j < 8) :=
    fun j => @getLsbD_ones 32 8 j (by decide)
  have hget : ∀ {d : Driver} {gic : ArmGic} {irq : Int}, d.gicTable[index]? = some gic →
      0 ≤ irq - gic.offset → armGicGetPriority d index irq =
        .ok (((gic.regs (priorityReg d.cpuId (irq - gic.offset).toNat) >>>
          ((irq - gic.offset).toNat % 4 * 8)) &&& 0xff).setWidth 64) := by
    intro d gic irq hgic hirq
    simp only [armGicGetPriority, locate_ok hgic hirq, ok_bind, priorityReg]
    split <;> rfl
  have hset : armGicSetPriority d index irq priority =
      .ok (putReg d index gic (priorityReg d.cpuId (irq - gic.offset).toNat)
        (replaceField (gic.regs (priorityReg d.cpuId (irq - gic.offset).toNat))
          ((~~~((0xff : BitVec 32) <<< ((irq - gic.offset).toNat % 4 * 8))).signExtend 64)
          ((priority &&& 0xff) <<< ((irq - gic.offset).toNat % 4 * 8)))) := by
    simp only [armGicSetPriority, locate_ok hgic hpos, ok_bind, priorityReg]
    split <;> rfl
  refine (isLens_iff priorityReg (fun n w => ((w >>> (n % 4 * 8)) &&& 0xff).setWidth 64)
    hget hgic hpos hset).mpr ⟨?_, ?_⟩
  · apply BitVec.eq_of_getLsbD_eq
    intro i hi
    rw [BitVec.getLsbD_setWidth, BitVec.getLsbD_and, hones', BitVec.getLsbD_ushiftRight]
    by_cases hfield : i < 8
    · have hword : (irq - gic.offset).toNat % 4 * 8 + i < 32 := by omega
      have hin : (irq - gic.offset).toNat % 4 * 8 ≤ (irq - gic.offset).toNat % 4 * 8 + i ∧
          (irq - gic.offset).toNat % 4 * 8 + i < (irq - gic.offset).toNat % 4 * 8 + 8 := by omega
      rw [getLsbD_prioritised _ hword, if_pos hin, Nat.add_sub_cancel_left, BitVec.getLsbD_and,
        hones]
      simp [hi, hfield]
    · rw [hv i (by omega)]
      simp [hfield]
  · intro other hother hne hreg
    have hlane := priorityReg_inj hreg
    have hdiff := number_ne hpos (hother.of_entry hgic) hne
    apply BitVec.eq_of_getLsbD_eq
    intro i hi
    simp only [BitVec.getLsbD_setWidth, BitVec.getLsbD_and, hones', BitVec.getLsbD_ushiftRight]
    by_cases hfield : i < 8
    · have hword : (other - gic.offset).toNat % 4 * 8 + i < 32 := by omega
      have hout : ¬ ((irq - gic.offset).toNat % 4 * 8 ≤ (other - gic.offset).toNat % 4 * 8 + i ∧
          (other - gic.offset).toNat % 4 * 8 + i < (irq - gic.offset).toNat % 4 * 8 + 8) := by
        omega
      rw [getLsbD_prioritised _ hword, if_neg hout]
    · simp [hfield]

/-! ## Group -/

private theorem group_lens {group : BitVec 64} (hirq : Supported d index irq) (hlegal : group ≤ 1) :
    IsLens armGicGetGroup (armGicSetGroup d index irq group) d index irq group := by
  obtain ⟨gic, hgic, hpos, -⟩ := hirq
  have hlt : group.toNat < 2 ^ 1 := Nat.lt_succ_of_le hlegal
  have hv := getLsbD_of_lt hlt
  have hone : ∀ j, (1 : BitVec 64).getLsbD j = decide (j < 1) :=
    fun j => @getLsbD_ones 64 1 j (by decide)
  have hget : ∀ {d : Driver} {gic : ArmGic} {irq : Int}, d.gicTable[index]? = some gic →
      0 ≤ irq - gic.offset → armGicGetGroup d index irq =
        .ok ((gic.regs (gicDistIgroup (irq - gic.offset).toNat) >>>
          ((irq - gic.offset).toNat % 32)).setWidth 64 &&& 1) := by
    intro d gic irq hgic hirq
    simp only [armGicGetGroup, locate_ok hgic hirq, ok_bind]
    rfl
  have hset : armGicSetGroup d index irq group =
      .ok (putReg d index gic (gicDistIgroup (irq - gic.offset).toNat)
        (replaceField (gic.regs (gicDistIgroup (irq - gic.offset).toNat))
          ((~~~((1 : BitVec 32) <<< ((irq - gic.offset).toNat % 32))).setWidth 64)
          ((group &&& 1) <<< ((irq - gic.offset).toNat % 32)))) := by
    simp only [armGicSetGroup, hlegal, decide_true, check_true, locate_ok hgic hpos, ok_bind]
    rfl
  refine (isLens_iff (fun _ n => gicDistIgroup n)
    (fun n w => (w >>> (n % 32)).setWidth 64 &&& 1) hget hgic hpos hset).mpr ⟨?_, ?_⟩
  · apply BitVec.eq_of_getLsbD_eq
    intro i hi
    rw [BitVec.getLsbD_and, BitVec.getLsbD_setWidth, hone, BitVec.getLsbD_ushiftRight]
    by_cases hfield : i < 1
    · have hword : (irq - gic.offset).toNat % 32 + i < 32 := by omega
      have hin : (irq - gic.offset).toNat % 32 ≤ (irq - gic.offset).toNat % 32 + i ∧
          (irq - gic.offset).toNat % 32 + i < (irq - gic.offset).toNat % 32 + 1 := by omega
      rw [getLsbD_grouped _ hword, if_pos hin, Nat.add_sub_cancel_left, BitVec.getLsbD_and, hone]
      simp [hi, hfield]
    · rw [hv i (by omega)]
      simp [hfield]
  · intro other hother hne hreg
    have hlane : (other - gic.offset).toNat / 32 = (irq - gic.offset).toNat / 32 := by
      simp only [gicDistIgroup, Reg.dist.injEq] at hreg
      omega
    have hdiff := number_ne hpos (hother.of_entry hgic) hne
    apply BitVec.eq_of_getLsbD_eq
    intro i hi
    simp only [BitVec.getLsbD_and, BitVec.getLsbD_setWidth, hone, BitVec.getLsbD_ushiftRight]
    by_cases hfield : i < 1
    · have hword : (other - gic.offset).toNat % 32 + i < 32 := by omega
      have hout : ¬ ((irq - gic.offset).toNat % 32 ≤ (other - gic.offset).toNat % 32 + i ∧
          (other - gic.offset).toNat % 32 + i < (irq - gic.offset).toNat % 32 + 1) := by
        omega
      rw [getLsbD_grouped _ hword, if_neg hout]
    · simp [hfield]

/-! ## Configuration -/

/-- What the getter of the configuration returns, bit by bit. -/
theorem getLsbD_configuration (word : BitVec 32) (n i : Nat) (hi : i < 64) :
    ((word >>> ((n % 16) >>> 1)).setWidth 64).getLsbD i = word.getLsbD (n % 16 / 2 + i) := by
  rw [BitVec.getLsbD_setWidth, BitVec.getLsbD_ushiftRight, Nat.shiftRight_one]
  simp [hi]

/-- The new word reads as the configuration. -/
theorem configured_read_iff {word : BitVec 32} {config : BitVec 32} (hlegal : config.toNat < 2 ^ 2)
    (n : Nat) :
    (((replaceField word ((~~~((3 : BitVec 32) <<< ((n % 16) <<< 1))).signExtend 64)
      ((config <<< ((n % 16) <<< 1)).setWidth 64)) >>> ((n % 16) >>> 1)).setWidth 64 =
        config.setWidth 64) ↔
      (config = 0 ∨ n % 16 = 0) ∧ ∀ b, b < 32 → n % 16 / 2 ≤ b →
        ¬ (2 * (n % 16) ≤ b ∧ b < 2 * (n % 16) + 2) → word.getLsbD b = false := by
  have hv := getLsbD_of_lt hlegal
  constructor
  · intro heq
    have hbit : ∀ b, b < 32 → n % 16 / 2 ≤ b →
        (if 2 * (n % 16) ≤ b ∧ b < 2 * (n % 16) + 2 then config.getLsbD (b - 2 * (n % 16))
          else word.getLsbD b) = config.getLsbD (b - n % 16 / 2) := by
      intro b hb hle
      have hread := congrArg (fun v : BitVec 64 => v.getLsbD (b - n % 16 / 2)) heq
      simp only [getLsbD_configuration _ _ _ (show b - n % 16 / 2 < 64 by omega),
        Nat.add_sub_cancel' hle, getLsbD_configured hv _ hb, BitVec.getLsbD_setWidth] at hread
      rw [hread]
      simp [show b - n % 16 / 2 < 64 by omega]
    have hfirst : config = 0 ∨ n % 16 = 0 := by
      by_cases hzero : n % 16 = 0
      · exact Or.inr hzero
      · left
        -- the two bits of the field are read where the configuration has none
        apply BitVec.eq_of_getLsbD_eq
        intro j hj
        by_cases hj2 : j < 2
        · have hin : 2 * (n % 16) ≤ 2 * (n % 16) + j ∧ 2 * (n % 16) + j < 2 * (n % 16) + 2 := by
            omega
          have hat := hbit (2 * (n % 16) + j) (by omega) (by omega)
          rw [if_pos hin, Nat.add_sub_cancel_left, hv (2 * (n % 16) + j - n % 16 / 2) (by omega)]
            at hat
          rw [hat]
          simp
        · rw [hv j (by omega)]
          simp
    refine ⟨hfirst, ?_⟩
    intro b hb hle hout
    have hat := hbit b hb hle
    rw [if_neg hout] at hat
    rw [hat]
    rcases hfirst with hzero | hzero
    · rw [hzero]
      simp
    · exact hv _ (by omega)
  · rintro ⟨hfirst, hclear⟩
    apply BitVec.eq_of_getLsbD_eq
    intro i hi
    rw [getLsbD_configuration _ _ _ hi, BitVec.getLsbD_setWidth]
    by_cases hword : n % 16 / 2 + i < 32
    · rw [getLsbD_configured hv _ hword]
      by_cases hin : 2 * (n % 16) ≤ n % 16 / 2 + i ∧ n % 16 / 2 + i < 2 * (n % 16) + 2
      · rw [if_pos hin]
        rcases hfirst with hzero | hzero
        · rw [hzero]
          simp
        · have hsame : n % 16 / 2 + i - 2 * (n % 16) = i := by omega
          rw [hsame]
          simp [hi]
      · rw [if_neg hin, hclear _ hword (Nat.le_add_right _ _) hin]
        rcases hfirst with hzero | hzero
        · rw [hzero]
          simp
        · rw [hv i (by omega)]
          simp
    · have hbig : 32 ≤ n % 16 / 2 + i := by omega
      rw [BitVec.getLsbD_of_ge _ _ hbig, hv i (by omega)]
      simp

/-- What is read at field `n' % 16` stays the same. -/
theorem configured_kept_iff {word : BitVec 32} {config : BitVec 32}
    (hlegal : config.toNat < 2 ^ 2) (n n' : Nat) :
    (((replaceField word ((~~~((3 : BitVec 32) <<< ((n % 16) <<< 1))).signExtend 64)
      ((config <<< ((n % 16) <<< 1)).setWidth 64)) >>> ((n' % 16) >>> 1)).setWidth 64 : BitVec 64) =
        (word >>> ((n' % 16) >>> 1)).setWidth 64 ↔
      ∀ b, 2 * (n % 16) ≤ b → b < 2 * (n % 16) + 2 → n' % 16 / 2 ≤ b →
        word.getLsbD b = config.getLsbD (b - 2 * (n % 16)) := by
  have hv := getLsbD_of_lt hlegal
  constructor
  · intro heq b hlow hhigh hle
    have hread := congrArg (fun v : BitVec 64 => v.getLsbD (b - n' % 16 / 2)) heq
    simp only [getLsbD_configuration _ _ _ (show b - n' % 16 / 2 < 64 by omega),
      Nat.add_sub_cancel' hle, getLsbD_configured hv n (show b < 32 by omega),
      if_pos (show 2 * (n % 16) ≤ b ∧ b < 2 * (n % 16) + 2 from ⟨hlow, hhigh⟩)] at hread
    exact hread.symm
  · intro hkept
    apply BitVec.eq_of_getLsbD_eq
    intro i hi
    rw [getLsbD_configuration _ _ _ hi, getLsbD_configuration _ _ _ hi]
    by_cases hword : n' % 16 / 2 + i < 32
    · rw [getLsbD_configured hv _ hword]
      split
      · rename_i hin
        exact (hkept _ hin.1 hin.2 (Nat.le_add_right _ _)).symm
      · rfl
    · have hbig : 32 ≤ n' % 16 / 2 + i := by omega
      rw [BitVec.getLsbD_of_ge _ _ hbig, BitVec.getLsbD_of_ge _ _ hbig]

private theorem config_lens_iff {config : BitVec 32} (hirq : Supported d index irq)
    (hlegal : config.toNat < 2 ^ 2) :
    IsLens armGicGetConfiguration (armGicSetConfiguration d index irq config) d index irq
      (config.setWidth 64) ↔ ConfigCond d index irq config := by
  obtain ⟨gic, hgic, hpos, -⟩ := hirq
  have hv := getLsbD_of_lt hlegal
  have hget : ∀ {d : Driver} {gic : ArmGic} {irq : Int}, d.gicTable[index]? = some gic →
      0 ≤ irq - gic.offset → armGicGetConfiguration d index irq =
        .ok ((gic.regs (gicDistConfig (irq - gic.offset).toNat) >>>
          (((irq - gic.offset).toNat % 16) >>> 1)).setWidth 64) := by
    intro d gic irq hgic hirq
    simp only [armGicGetConfiguration, locate_ok hgic hirq, ok_bind]
    rfl
  have hset : armGicSetConfiguration d index irq config =
      .ok (putReg d index gic (gicDistConfig (irq - gic.offset).toNat)
        (replaceField (gic.regs (gicDistConfig (irq - gic.offset).toNat))
          ((~~~((3 : BitVec 32) <<< (((irq - gic.offset).toNat % 16) <<< 1))).signExtend 64)
          ((config <<< (((irq - gic.offset).toNat % 16) <<< 1)).setWidth 64))) := by
    simp only [armGicSetConfiguration, locate_ok hgic hpos, ok_bind]
    rfl
  rw [isLens_iff (fun _ n => gicDistConfig n)
    (fun n w => (w >>> ((n % 16) >>> 1)).setWidth 64) hget hgic hpos hset,
    configured_read_iff hlegal]
  have hreg : ∀ other, gicDistConfig (other - gic.offset).toNat =
      gicDistConfig (irq - gic.offset).toNat ↔
      (other - gic.offset).toNat / 16 = (irq - gic.offset).toNat / 16 := by
    intro other
    simp only [gicDistConfig, Reg.dist.injEq]
    omega
  simp only [hreg, configured_kept_iff hlegal]
  constructor
  · intro hcond
    exact ⟨gic, hgic, hcond⟩
  · rintro ⟨gic', hgic', hcond⟩
    obtain rfl := Option.some.inj (hgic.symm.trans hgic')
    exact hcond

end Lenses

/-- **The attributes of an interrupt**, for every state of the registers, every interrupt below the
maximum and all legal values: priority and group are lenses, and the three are if and only if
`ConfigCond` holds. -/
theorem attributes_lens_iff {d : Driver} {index : Nat} {irq : Int} {config : BitVec 32}
    {priority group : BitVec 64} (hirq : Supported d index irq) (hconfig : config.toNat < 2 ^ 2)
    (hpriority : priority.toNat < 2 ^ 8) (hgroup : group ≤ 1) :
    (IsLens armGicGetPriority (armGicSetPriority d index irq priority) d index irq priority ∧
      IsLens armGicGetGroup (armGicSetGroup d index irq group) d index irq group ∧
      IsLens armGicGetConfiguration (armGicSetConfiguration d index irq config) d index irq
        (config.setWidth 64)) ↔ ConfigCond d index irq config := by
  rw [config_lens_iff hirq hconfig]
  constructor
  · rintro ⟨-, -, hcond⟩
    exact hcond
  · intro hcond
    exact ⟨priority_lens hirq hpriority, group_lens hirq hgroup, hcond⟩

/-! ## The second interrupt of a register -/

/-- A driver of which all registers read `word`, with 96 interrupts. -/
def uniform (word : BitVec 32) : Driver where
  gicTable := #v[⟨0, fun _ => word⟩]
  gicMaxIrq := 96
  cpuId := 0

private theorem uniform_supported (word : BitVec 32) {irq : Int} (h : 0 ≤ irq ∧ irq < 96) :
    Supported (uniform word) 0 irq :=
  ⟨⟨0, fun _ => word⟩, rfl, by simpa using h.1, by simpa [uniform] using h.2⟩

/-- A driver in use: interrupts of group 1 and priority 0xA0, of which 32 is edge-triggered and the
others of its register are level-triggered. -/
def mixed : Driver where
  gicTable := #v[⟨0, fun
    | .dist off =>
        if off = 0xc08 then 2 else if 0xc00 ≤ off then 0xAAAAAAAA
        else if 0x400 ≤ off then 0xA0A0A0A0 else 0xFFFFFFFF
    | .redist .. => 0xA0A0A0A0⟩]
  gicMaxIrq := 96
  cpuId := 0

/-- Interrupt 37 gets priority 0x80, goes to group 0 and stays level-triggered. -/
theorem attributes_lens_mixed :
    IsLens armGicGetPriority (armGicSetPriority mixed 0 37 0x80) mixed 0 37 0x80 ∧
      IsLens armGicGetGroup (armGicSetGroup mixed 0 37 0) mixed 0 37 0 ∧
      IsLens armGicGetConfiguration (armGicSetConfiguration mixed 0 37 0) mixed 0 37 0 := by
  have hirq : Supported mixed 0 37 := ⟨_, rfl, by decide, by decide⟩
  have hcond : ConfigCond mixed 0 37 0 := by
    refine ⟨_, rfl, ⟨Or.inl rfl, ?_⟩, ?_⟩
    · decide
    · intro other _ _ _ b hlow hhigh _
      have hb : b = 10 ∨ b = 11 := by
        have hlow' : 10 ≤ b := hlow
        have hhigh' : b < 12 := hhigh
        omega
      rcases hb with rfl | rfl <;> rfl
  exact (attributes_lens_iff hirq (by decide) (show (0x80 : BitVec 64).toNat < 2 ^ 8 by decide)
    (show (0 : BitVec 64) ≤ 1 by decide)).mpr hcond

/-- Interrupt 33 is set to edge-triggered, 0b10, and reads back as 8. -/
theorem edge_configuration_lost :
    ¬ ∀ (d : Driver) (index : Nat) (irq : Int) (config : BitVec 32) (priority group : BitVec 64),
      Supported d index irq → config.toNat < 2 ^ 2 → priority.toNat < 2 ^ 8 → group ≤ 1 →
      IsLens armGicGetPriority (armGicSetPriority d index irq priority) d index irq priority ∧
        IsLens armGicGetGroup (armGicSetGroup d index irq group) d index irq group ∧
        IsLens armGicGetConfiguration (armGicSetConfiguration d index irq config) d index irq
          (config.setWidth 64) := by
  intro hall
  have hirq : Supported (uniform 0) 0 33 := uniform_supported 0 (by decide)
  obtain ⟨-, -, hlens⟩ := hall (uniform 0) 0 33 2 0 0 hirq (by decide) (by decide) (by decide)
  obtain ⟨gic, hgic, ⟨hfirst, -⟩, -⟩ := (config_lens_iff hirq (by decide)).mp hlens
  obtain rfl := Option.some.inj hgic
  rcases hfirst with hzero | hzero
  · exact absurd hzero (by decide)
  · exact absurd hzero (by decide)

end RtHypervisor.Ports.GicAttributes
