import RtHypervisor.Verified.Lexicographic

/-!
# Comparison of strings

`rt_strncmp` and `rt_strcmp` of `kservice.c`.  Plain `char` is unsigned on this target, so both
routines subtract bytes between 0 and 255; `rt_strncmp` keeps the difference in a `signed char`,
which has room for one half of the differences only.
-/

namespace RtHypervisor.Ports.StrCompare

open RtHypervisor.Verified

/-- The bytes of the address space. -/
abbrev Mem := Nat → BitVec 8

/-- `*cs - *ct`, an `int`. -/
def difference (mem : Mem) (cs ct : Nat) : Int := (mem cs).toNat - (mem ct).toNat

/-- Assignment of an `int` to a `signed char`. -/
def throughSignedChar (d : Int) : Int := (BitVec.ofInt 8 d).toInt

/-- The loop of `rt_strncmp`; `__res` is what the last pass has left. -/
def strncmpLoop (mem : Mem) (cs ct : Nat) : Nat → Int → Int
  | 0, res => res
  | count + 1, _ =>
      let res := throughSignedChar (difference mem cs ct)
      if res ≠ 0 ∨ mem cs = 0 then res
      else strncmpLoop mem (cs + 1) (ct + 1) count res

def rtStrncmp (mem : Mem) (cs ct count : Nat) : Int := strncmpLoop mem cs ct count 0

/-- `rt_strcmp`, which has no bound: `none` when `fuel` passes have met no end. -/
def rtStrcmp (mem : Mem) (cs ct : Nat) : Nat → Option Int
  | 0 => none
  | fuel + 1 =>
      if mem cs ≠ 0 ∧ mem cs = mem ct then rtStrcmp mem (cs + 1) (ct + 1) fuel
      else some (difference mem cs ct)

/-! ## What is compared -/

/-- The first `n` bytes of a string, up to its first NUL. -/
def chars (mem : Mem) (p n : Nat) : List Nat :=
  ((List.range n).map fun i => (mem (p + i)).toNat).takeWhile (· ≠ 0)

/-- The string at `p` has `len` bytes before its NUL. -/
structure HasLength (mem : Mem) (p len : Nat) : Prop where
  nonzero : ∀ i, i < len → mem (p + i) ≠ 0
  ends : mem (p + len) = 0

/-- What is said of a comparison of the strings at `a` and `b` with the bound `n`. -/
structure Compares (mem : Mem) (a b n : Nat) : Prop where
  order : (rtStrncmp mem a b n).sign = lexSign (chars mem a n) (chars mem b n)
  antisymm : rtStrncmp mem b a n = -rtStrncmp mem a b n
  unbounded : ∀ la lb, HasLength mem a la → HasLength mem b lb → la < n → lb < n →
    ∃ v, (∀ fuel, la < fuel → rtStrcmp mem a b fuel = some v) ∧
      v.sign = (rtStrncmp mem a b n).sign

/-- The two strings are the same before `i`, and have not ended there. -/
def SameBefore (mem : Mem) (a b i : Nat) : Prop :=
  ∀ j, j < i → mem (a + j) = mem (b + j) ∧ mem (a + j) ≠ 0

/-- The first two bytes that differ are at most 127 apart. -/
def Near (mem : Mem) (a b n : Nat) : Prop :=
  ∀ i, i < n → SameBefore mem a b i → (difference mem (a + i) (b + i)).natAbs ≤ 127

/-! ## One byte -/

variable {mem : Mem} {a b n : Nat}

private theorem difference_swap (mem : Mem) (a b : Nat) :
    difference mem b a = -difference mem a b := by
  unfold difference
  omega

private theorem difference_eq_zero : difference mem a b = 0 ↔ mem a = mem b := by
  rw [← BitVec.toNat_inj, difference]
  omega

private theorem natAbs_difference_le (mem : Mem) (a b : Nat) :
    (difference mem a b).natAbs ≤ 255 := by
  have ha := (mem a).isLt
  have hb := (mem b).isLt
  unfold difference
  omega

private theorem throughSignedChar_eq (d : Int) : throughSignedChar d = d.bmod 256 :=
  BitVec.toInt_ofInt ..

private theorem throughSignedChar_zero : throughSignedChar 0 = 0 := rfl

/-- A difference of bytes that is not zero is not zero in a `signed char` either. -/
theorem throughSignedChar_eq_zero {d : Int} (hd : d.natAbs ≤ 255) :
    throughSignedChar d = 0 ↔ d = 0 := by
  rw [throughSignedChar_eq, Int.bmod_def]
  omega

/-- A `signed char` keeps the order, in both directions, of the small differences only. -/
theorem throughSignedChar_iff {d : Int} (hd : d.natAbs ≤ 255) :
    ((throughSignedChar d).sign = d.sign ∧ throughSignedChar (-d) = -throughSignedChar d) ↔
      d.natAbs ≤ 127 := by
  rw [throughSignedChar_eq, throughSignedChar_eq]
  constructor
  · intro h
    by_contra hfar
    rcases le_total 0 d with hpos | hneg
    · have hwrap : d.bmod 256 = d - 256 := by
        rw [Int.bmod_def]
        omega
      rw [hwrap, Int.sign_eq_neg_one_of_neg (by omega), Int.sign_eq_one_of_pos (by omega)] at h
      exact absurd h.1 (by decide)
    · rcases eq_or_ne d (-128) with rfl | hne
      · exact absurd h.2 (by decide)
      · have hwrap : d.bmod 256 = d + 256 := by
          rw [Int.bmod_def]
          omega
        rw [hwrap, Int.sign_eq_one_of_pos (by omega), Int.sign_eq_neg_one_of_neg (by omega)] at h
        exact absurd h.1 (by decide)
  · intro hnear
    have hkeep : d.bmod 256 = d := by
      rw [Int.bmod_def]
      omega
    have hkeep' : (-d).bmod 256 = -d := by
      rw [Int.bmod_def]
      omega
    rw [hkeep, hkeep']
    exact ⟨rfl, rfl⟩

private theorem chars_zero : chars mem a 0 = [] := rfl

private theorem chars_succ : chars mem a (n + 1) =
    if mem a = 0 then [] else (mem a).toNat :: chars mem (a + 1) n := by
  have hshift : ((List.range n).map fun i => (mem (a + (i + 1))).toNat) =
      (List.range n).map fun i => (mem (a + 1 + i)).toNat := by
    apply List.map_congr_left
    intro i _
    rw [Nat.add_assoc, Nat.add_comm i]
  have hzero : (mem a).toNat = 0 ↔ mem a = 0 := by
    rw [← BitVec.toNat_inj]
    rfl
  unfold chars
  rw [List.range_succ_eq_map, List.map_cons, List.map_map, List.takeWhile_cons]
  simp only [Function.comp_def, Nat.succ_eq_add_one, hshift, Nat.add_zero, hzero, ne_eq,
    decide_not, Bool.not_eq_true', decide_eq_false_iff_not]
  split <;> simp_all

/-- Two strings are ordered by the first bytes that differ, the end being a zero. -/
theorem lexSign_chars_of_ne (hne : mem a ≠ mem b) :
    lexSign (chars mem a (n + 1)) (chars mem b (n + 1)) = (difference mem a b).sign := by
  have hne' : (mem a).toNat ≠ (mem b).toNat := fun h => hne (BitVec.toNat_inj.mp h)
  have hzero : ∀ p, mem p ≠ 0 → 0 < (mem p).toNat := by
    intro p hp
    have hp' : (mem p).toNat ≠ 0 := fun h => hp (BitVec.toNat_inj.mp h)
    omega
  rw [chars_succ, chars_succ, difference]
  by_cases ha : mem a = 0
  · have hb : mem b ≠ 0 := fun hb => hne (ha.trans hb.symm)
    have hpos := hzero b hb
    rw [if_pos ha, if_neg hb, lexSign_nil_cons, ha, Int.sign_eq_neg_one_of_neg]
    have hnil : (0 : BitVec 8).toNat = 0 := rfl
    omega
  · have hpos := hzero a ha
    by_cases hb : mem b = 0
    · rw [if_neg ha, if_pos hb, lexSign_cons_nil, hb, Int.sign_eq_one_of_pos]
      have hnil : (0 : BitVec 8).toNat = 0 := rfl
      omega
    · rw [if_neg ha, if_neg hb]
      rcases Nat.lt_or_gt_of_ne hne' with hlt | hgt
      · rw [lexSign_cons_of_lt hlt, Int.sign_eq_neg_one_of_neg (by omega)]
      · rw [lexSign_cons_of_gt hgt, Int.sign_eq_one_of_pos (by omega)]

/-! ## The loops -/

private theorem rtStrncmp_zero : rtStrncmp mem a b 0 = 0 := rfl

/-- The loop goes on with `__res` zero, as it has started. -/
theorem rtStrncmp_succ : rtStrncmp mem a b (n + 1) =
    if mem a ≠ mem b ∨ mem a = 0 then throughSignedChar (difference mem a b)
    else rtStrncmp mem (a + 1) (b + 1) n := by
  have hstop := throughSignedChar_eq_zero (natAbs_difference_le mem a b)
  rw [difference_eq_zero] at hstop
  unfold rtStrncmp
  rw [strncmpLoop]
  simp only [ne_eq, hstop]
  split
  · rfl
  · next hgo =>
    rw [hstop.mpr (by tauto)]

private theorem near_succ : Near mem a b (n + 1) ↔ (difference mem a b).natAbs ≤ 127 ∧
    (mem a = mem b → mem a ≠ 0 → Near mem (a + 1) (b + 1) n) := by
  constructor
  · intro h
    refine ⟨h 0 (Nat.succ_pos n) (fun j hj => absurd hj (Nat.not_lt_zero j)), ?_⟩
    intro heq hne i hi hsame
    have hat := h (i + 1) (by omega)
    rw [← Nat.add_assoc, ← Nat.add_assoc, Nat.add_right_comm a, Nat.add_right_comm b] at hat
    apply hat
    intro j hj
    cases j with
    | zero => exact ⟨heq, hne⟩
    | succ j =>
        have hj' := hsame j (by omega)
        rwa [Nat.add_right_comm a, Nat.add_right_comm b, Nat.add_assoc a, Nat.add_assoc b] at hj'
  · intro h i hi hsame
    cases i with
    | zero => exact h.1
    | succ i =>
        have hfirst := hsame 0 (Nat.succ_pos i)
        have hrest := h.2 hfirst.1 hfirst.2 i (by omega)
        rw [Nat.add_right_comm a, Nat.add_right_comm b, Nat.add_assoc a, Nat.add_assoc b] at hrest
        apply hrest
        intro j hj
        have hj' := hsame (j + 1) (by omega)
        rwa [← Nat.add_assoc, ← Nat.add_assoc, Nat.add_right_comm a, Nat.add_right_comm b] at hj'

/-- The order and the antisymmetry, decided where the strings differ first. -/
theorem orders_iff_near : ((rtStrncmp mem a b n).sign = lexSign (chars mem a n) (chars mem b n) ∧
    rtStrncmp mem b a n = -rtStrncmp mem a b n) ↔ Near mem a b n := by
  induction n generalizing a b with
  | zero =>
      have hnone : Near mem a b 0 := fun i hi => absurd hi (Nat.not_lt_zero i)
      simp [rtStrncmp_zero, chars_zero, lexSign_self, hnone]
  | succ n ih =>
      rw [near_succ, rtStrncmp_succ, rtStrncmp_succ]
      by_cases heq : mem a = mem b
      · have hdiff : difference mem a b = 0 := difference_eq_zero.mpr heq
        rw [chars_succ, chars_succ, ← heq, difference_swap mem a b, hdiff]
        by_cases hend : mem a = 0
        · simp [hend, throughSignedChar_zero, lexSign_self]
        · have hgo : ¬(mem a ≠ mem a ∨ mem a = 0) := by tauto
          rw [if_neg hgo, if_neg hgo, if_neg hend, if_neg hend, lexSign_cons, ih]
          constructor
          · intro hnear
            exact ⟨by decide, fun _ _ => hnear⟩
          · intro hnear
            exact hnear.2 rfl hend
      · rw [if_pos (Or.inl heq), if_pos (Or.inl (Ne.symm heq)), lexSign_chars_of_ne heq,
          difference_swap mem a b, throughSignedChar_iff (natAbs_difference_le mem a b)]
        simp [heq]

theorem HasLength.tail {len : Nat} (h : HasLength mem a (len + 1)) :
    HasLength mem (a + 1) len where
  nonzero := fun i hi => by
    have hne := h.nonzero (i + 1) (by omega)
    rwa [← Nat.add_assoc, Nat.add_right_comm] at hne
  ends := by
    have hend := h.ends
    rwa [← Nat.add_assoc, Nat.add_right_comm] at hend

/-- `rt_strcmp` ends with the first string, and its sign is the order. -/
theorem rtStrcmp_spec {len : Nat} (h : HasLength mem a len) (hn : len < n) :
    ∃ v, (∀ fuel, len < fuel → rtStrcmp mem a b fuel = some v) ∧
      v.sign = lexSign (chars mem a n) (chars mem b n) := by
  obtain ⟨n, rfl⟩ : ∃ m, n = m + 1 := ⟨n - 1, by omega⟩
  induction len generalizing a b n with
  | zero =>
      have hend : mem a = 0 := h.ends
      refine ⟨difference mem a b, ?_, ?_⟩
      · intro fuel hfuel
        obtain ⟨fuel, rfl⟩ : ∃ m, fuel = m + 1 := ⟨fuel - 1, by omega⟩
        rw [rtStrcmp, if_neg (by tauto)]
      · by_cases heq : mem a = mem b
        · rw [difference_eq_zero.mpr heq, chars_succ, chars_succ, ← heq, if_pos hend, if_pos hend,
            lexSign_self]
          rfl
        · exact (lexSign_chars_of_ne heq).symm
  | succ len ih =>
      have hne : mem a ≠ 0 := h.nonzero 0 (by omega)
      by_cases heq : mem a = mem b
      · obtain ⟨m, rfl⟩ : ∃ m, n = m + 1 := ⟨n - 1, by omega⟩
        obtain ⟨v, hv, hsign⟩ := @ih (a + 1) (b + 1) h.tail m (by omega)
        refine ⟨v, ?_, ?_⟩
        · intro fuel hfuel
          obtain ⟨fuel, rfl⟩ : ∃ m, fuel = m + 1 := ⟨fuel - 1, by omega⟩
          rw [rtStrcmp, if_pos ⟨hne, heq⟩]
          exact hv fuel (by omega)
        · rw [@chars_succ mem a, @chars_succ mem b, ← heq, if_neg hne, if_neg hne, lexSign_cons]
          exact hsign
      · refine ⟨difference mem a b, ?_, (lexSign_chars_of_ne heq).symm⟩
        intro fuel hfuel
        obtain ⟨fuel, rfl⟩ : ∃ m, fuel = m + 1 := ⟨fuel - 1, by omega⟩
        rw [rtStrcmp, if_neg (by tauto)]

/-! ## The comparison -/

/-- `rt_strncmp` is a comparison exactly of strings whose first two different bytes are near. -/
theorem rtStrncmp_compares (mem : Mem) (a b n : Nat) :
    Compares mem a b n ↔ Near mem a b n := by
  constructor
  · intro h
    exact orders_iff_near.mp ⟨h.order, h.antisymm⟩
  · intro h
    obtain ⟨horder, hanti⟩ := orders_iff_near.mpr h
    refine ⟨horder, hanti, ?_⟩
    intro la lb hla _ hlt _
    rw [horder]
    exact rtStrcmp_spec hla hlt

/-- The string of the byte 200, and behind it the empty string. -/
def farBytes : Mem := fun p => if p = 0 then 200 else 0

/-- 200 less 0 is -56 in a `signed char`: the longer string comes out as the smaller one. -/
theorem rtStrncmp_wraps : rtStrncmp farBytes 0 1 1 = -56 ∧ ¬Compares farBytes 0 1 1 := by
  refine ⟨by decide, ?_⟩
  rw [rtStrncmp_compares]
  intro h
  have hfar := h 0 (by decide) (fun j hj => absurd hj (Nat.not_lt_zero j))
  exact absurd hfar (by decide)

end RtHypervisor.Ports.StrCompare
