import Mathlib.Data.BitVec
import Mathlib.Logic.Function.Basic

/-!
# Byte ranges of a 64-bit address space

Addresses wrap around, and `off base x` is how far `x` lies behind `base`.  `filled` and `copied`
are what `memset` and a copy by way of a temporary leave.  A range that is written in pieces, bytes
or words, is described by how far it has come: each piece takes `filled m s v k` or
`copied m dst src k` to the next `k`.
-/

namespace RtHypervisor.Verified.AddressSpace

abbrev Addr := BitVec 64

/-- The bytes of the address space. -/
abbrev Mem := Addr → BitVec 8

/-- The address `k` bytes behind `p`. -/
def Addr.plus (p : Addr) (k : Nat) : Addr := p + BitVec.ofNat 64 k

/-- How far `x` lies behind `base`. -/
def off (base x : Addr) : Nat := (x - base).toNat

section Offsets

variable {p base x : Addr} {i k : Nat}

@[simp] theorem plus_zero (p : Addr) : Addr.plus p 0 = p := BitVec.add_zero p

theorem plus_plus (p : Addr) (i k : Nat) : Addr.plus (Addr.plus p i) k = Addr.plus p (i + k) := by
  unfold Addr.plus
  rw [BitVec.ofNat_add, BitVec.add_assoc]

theorem off_lt (base x : Addr) : off base x < 2 ^ 64 := (x - base).isLt

theorem off_plus (base : Addr) (hi : i < 2 ^ 64) : off base (Addr.plus base i) = i := by
  unfold off Addr.plus
  rw [add_sub_cancel_left, BitVec.toNat_ofNat, Nat.mod_eq_of_lt hi]

theorem off_self (base : Addr) : off base base = 0 := by
  unfold off
  rw [BitVec.sub_self]
  rfl

theorem plus_off (base x : Addr) : Addr.plus base (off base x) = x := by
  unfold off Addr.plus
  rw [BitVec.ofNat_toNat, BitVec.setWidth_eq, add_sub_cancel]

theorem off_eq_iff (hi : i < 2 ^ 64) : off base x = i ↔ x = Addr.plus base i := by
  constructor
  · intro h
    rw [← h, plus_off]
  · intro h
    rw [h, off_plus base hi]

/-- The distance to an address behind `x`. -/
theorem off_plus_eq (base x : Addr) (k : Nat) :
    off base (Addr.plus x k) = (off base x + k) % 2 ^ 64 := by
  have hassoc : x + BitVec.ofNat 64 k - base = x - base + BitVec.ofNat 64 k := by
    rw [BitVec.sub_eq_add_neg, BitVec.sub_eq_add_neg, BitVec.add_assoc, BitVec.add_assoc,
      BitVec.add_comm (BitVec.ofNat 64 k)]
  unfold off Addr.plus
  rw [hassoc, BitVec.toNat_add, BitVec.toNat_ofNat, Nat.add_mod_mod]

/-- Distances are measured from an address behind `base`. -/
theorem off_of_plus (base x : Addr) (k : Nat) (hk : k < 2 ^ 64) :
    off (Addr.plus base k) x = (off base x + (2 ^ 64 - k)) % 2 ^ 64 := by
  unfold off Addr.plus
  rw [sub_add_eq_sub_sub, BitVec.toNat_sub, BitVec.toNat_ofNat, Nat.mod_eq_of_lt hk,
    Nat.add_comm]

end Offsets

/-! ## Words -/

/-- Read the word at `a`. -/
def load64 (m : Mem) (a : Addr) : BitVec 64 :=
  m (a.plus 7) ++ m (a.plus 6) ++ m (a.plus 5) ++ m (a.plus 4) ++ m (a.plus 3) ++ m (a.plus 2) ++
    m (a.plus 1) ++ m (a.plus 0)

/-- Write the word at `a`. -/
def store64 (m : Mem) (a : Addr) (v : BitVec 64) : Mem := fun x =>
  if off a x < 8 then v.extractLsb' (8 * off a x) 8 else m x

theorem extractLsb'_load64 (m : Mem) (a : Addr) {i : Nat} (hi : i < 8) :
    (load64 m a).extractLsb' (8 * i) 8 = m (a.plus i) := by
  unfold load64
  ext j hj
  have hcases : i = 0 ∨ i = 1 ∨ i = 2 ∨ i = 3 ∨ i = 4 ∨ i = 5 ∨ i = 6 ∨ i = 7 := by omega
  rcases hcases with rfl | rfl | rfl | rfl | rfl | rfl | rfl | rfl <;>
    simp only [BitVec.getElem_extractLsb', BitVec.getLsbD_append] <;> grind

/-! ## Ranges -/

/-- `n` bytes from `s` on have become `v`. -/
def filled (m : Mem) (s : Addr) (v : BitVec 8) (n : Nat) : Mem := fun x =>
  if off s x < n then v else m x

/-- `n` bytes have been copied from `src` to `dst` by way of a temporary. -/
def copied (m : Mem) (dst src : Addr) (n : Nat) : Mem := fun x =>
  if off dst x < n then m (src.plus (off dst x)) else m x

section Ranges

variable {m : Mem} {s dst src : Addr} {v : BitVec 8} {k : Nat}

@[simp] theorem filled_zero : filled m s v 0 = m := rfl

@[simp] theorem copied_zero : copied m dst src 0 = m := rfl

/-- An address lies in the piece `[k, k + w)` of a range as it lies behind `k`. -/
theorem off_piece (s x : Addr) {k w : Nat} (hk : k + w ≤ 2 ^ 64) (hw : 0 < w) :
    off (s.plus k) x < w ↔ k ≤ off s x ∧ off s x < k + w := by
  have hlt := off_lt s x
  rw [off_of_plus s x k (by omega)]
  omega

theorem update_eq (m : Mem) (a : Addr) (b : BitVec 8) :
    Function.update m a b = fun x => if off a x < 1 then b else m x := by
  funext x
  have hzero : off a x < 1 ↔ x = a := by
    rw [Nat.lt_one_iff, off_eq_iff (by decide), plus_zero]
  rw [Function.update_apply]
  by_cases hx : x = a
  · rw [if_pos hx, if_pos (hzero.mpr hx)]
  · rw [if_neg hx, if_neg (fun h => hx (hzero.mp h))]

/-- A piece of `w` bytes, all `v`, is added to a filled range. -/
theorem filled_piece {w : Nat} (hk : k + w ≤ 2 ^ 64) (hw : 0 < w) {f : Addr → BitVec 8}
    (hf : ∀ x, off (s.plus k) x < w → f x = v) :
    (fun x => if off (s.plus k) x < w then f x else filled m s v k x) = filled m s v (k + w) := by
  funext x
  have hpiece := off_piece s x hk hw
  dsimp only [filled]
  by_cases hin : off (s.plus k) x < w
  · rw [if_pos hin, hf x hin, if_pos (hpiece.mp hin).2]
  · rw [if_neg hin]
    by_cases hlt : off s x < k
    · rw [if_pos hlt, if_pos (by omega)]
    · rw [if_neg hlt, if_neg (fun h => hin (hpiece.mpr ⟨by omega, h⟩))]

theorem filled_update (hk : k < 2 ^ 64) :
    Function.update (filled m s v k) (s.plus k) v = filled m s v (k + 1) := by
  rw [update_eq]
  exact filled_piece hk Nat.one_pos (fun _ _ => rfl)

theorem filled_store64 {word : BitVec 64} (hk : k + 8 ≤ 2 ^ 64)
    (hword : ∀ i, i < 8 → word.extractLsb' (8 * i) 8 = v) :
    store64 (filled m s v k) (s.plus k) word = filled m s v (k + 8) :=
  filled_piece hk (by decide) (fun x hx => hword _ hx)

/-- What is read behind the bytes that have been overwritten is what was there. -/
theorem copied_unread (h : k ≤ off dst (src.plus k)) :
    copied m dst src k (src.plus k) = m (src.plus k) :=
  if_neg (by omega)

/-- A piece of `w` bytes is added to a copied range. -/
theorem copied_piece {w : Nat} (hk : k + w ≤ 2 ^ 64) (hw : 0 < w) {f : Addr → BitVec 8}
    (hf : ∀ i, i < w → f (dst.plus (k + i)) = m (src.plus (k + i))) :
    (fun x => if off (dst.plus k) x < w then f x else copied m dst src k x) =
      copied m dst src (k + w) := by
  funext x
  have hpiece := off_piece dst x hk hw
  dsimp only [copied]
  by_cases hin : off (dst.plus k) x < w
  · have hoff := hpiece.mp hin
    have hread := hf (off dst x - k) (by omega)
    rw [Nat.add_sub_cancel' hoff.1, plus_off] at hread
    rw [if_pos hin, hread, if_pos hoff.2]
  · rw [if_neg hin]
    by_cases hlt : off dst x < k
    · rw [if_pos hlt, if_pos (by omega)]
    · rw [if_neg hlt, if_neg (fun h => hin (hpiece.mpr ⟨by omega, h⟩))]

theorem copied_update (hk : k < 2 ^ 64) (hread : k ≤ off dst (src.plus k)) :
    Function.update (copied m dst src k) (dst.plus k) (copied m dst src k (src.plus k)) =
      copied m dst src (k + 1) := by
  rw [update_eq, copied_unread hread]
  refine copied_piece hk Nat.one_pos ?_
  intro i hi
  rw [Nat.lt_one_iff.mp hi, Nat.add_zero]

theorem copied_store64 (hk : k + 8 ≤ 2 ^ 64)
    (hread : ∀ i, i < 8 → k + i ≤ off dst (src.plus (k + i))) :
    store64 (copied m dst src k) (dst.plus k) (load64 (copied m dst src k) (src.plus k)) =
      copied m dst src (k + 8) := by
  refine copied_piece hk (by decide) ?_
  intro i hi
  have hoff : off (dst.plus k) (dst.plus (k + i)) = i := by
    rw [← plus_plus, off_plus _ (by omega)]
  have hbehind := hread i hi
  rw [hoff, extractLsb'_load64 _ _ hi, plus_plus]
  exact if_neg (by omega)

end Ranges

end RtHypervisor.Verified.AddressSpace
