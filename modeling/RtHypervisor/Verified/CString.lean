import Mathlib.Data.BitVec
import Mathlib.Data.List.GetD
import Mathlib.Data.List.InsertIdx

/-!
# Texts in zero-padded buffers

`Stores n mem text` says that the `n` cells of `mem` hold `text`, which has no zero in it, and
zeros behind it.  A buffer that stores a text can be read as a string (`Stores.strlen`), two of
them are compared cell by cell (`Stores.eq_iff`), and a character is inserted or removed by moving
what is behind it (`Stores.insert`, `Stores.erase`).
-/

namespace RtHypervisor.Verified.CString

abbrev Byte := BitVec 8

variable {n m : Nat} {mem mem' : Nat → Byte} {text text' : List Byte}

/-! ## Buffers -/

/-- `memcpy(dst, src, k)`, for buffers that do not overlap. -/
def memcpy (dst src : Nat → Byte) (k : Nat) : Nat → Byte := fun i =>
  if i < k then src i else dst i

/-- `memmove(&mem[dst], &mem[src], k)`. -/
def memmove (mem : Nat → Byte) (dst src k : Nat) : Nat → Byte := fun i =>
  if dst ≤ i ∧ i < dst + k then mem (i - dst + src) else mem i

/-- `memset(mem, 0, n)` of the whole buffer. -/
def zeros : Nat → Byte := fun _ => 0

/-- `strlen(&mem[start])`, if there is a zero before the end of the buffer. -/
def strlen (n : Nat) (mem : Nat → Byte) (start : Nat) : Option Nat :=
  (List.range (n - start)).find? fun k => mem (start + k) == 0

/-- `memcmp` of two buffers finds no difference. -/
def same (n : Nat) (mem mem' : Nat → Byte) : Bool :=
  (List.range n).all fun i => mem i == mem' i

theorem same_eq_true : same n mem mem' = true ↔ ∀ i, i < n → mem i = mem' i := by
  simp [same]

theorem memmove_zero {dst src : Nat} : memmove mem dst src 0 = mem := by
  funext i
  exact if_neg (by omega)

/-! ## Texts -/

structure Stores (n : Nat) (mem : Nat → Byte) (text : List Byte) : Prop where
  fits : text.length < n
  nonzero : 0 ∉ text
  cell : ∀ i, i < n → mem i = text.getD i 0

theorem getD_ne_zero {i : Nat} (hnonzero : 0 ∉ text) (hi : i < text.length) :
    text.getD i 0 ≠ 0 := by
  rw [List.getD_eq_getElem _ _ hi]
  intro hzero
  exact hnonzero (hzero ▸ List.getElem_mem hi)

theorem getD_eq_zero {i : Nat} (hi : text.length ≤ i) : text.getD i 0 = 0 :=
  List.getD_eq_default _ _ hi

theorem Stores.zero (h : Stores n mem text) {i : Nat} (hi : text.length ≤ i) (hn : i < n) :
    mem i = 0 := by
  rw [h.cell i hn, getD_eq_zero hi]

theorem Stores.ne_zero (h : Stores n mem text) {i : Nat} (hi : i < text.length) : mem i ≠ 0 := by
  rw [h.cell i (hi.trans h.fits)]
  exact getD_ne_zero h.nonzero hi

theorem Stores.strlen (h : Stores n mem text) {start : Nat} (hstart : start ≤ text.length) :
    strlen n mem start = some (text.length - start) := by
  have hfits := h.fits
  refine List.find?_range_eq_some.mpr ⟨?_, List.mem_range.mpr (by omega), fun j hj => ?_⟩
  · rw [beq_iff_eq]
    exact h.zero (by omega) (by omega)
  · have hne : mem (start + j) ≠ 0 := h.ne_zero (by omega)
    simpa using hne

/-- The text is what is read from the buffer. -/
theorem Stores.map_range (h : Stores n mem text) : (List.range text.length).map mem = text := by
  refine List.ext_getElem (by simp) fun i hi hi' => ?_
  rw [List.getElem_map, List.getElem_range, h.cell i (hi'.trans h.fits),
    List.getD_eq_getElem _ _ hi']

theorem Stores.length_le (h : Stores n mem text) (h' : Stores n mem' text')
    (hsame : ∀ i, i < n → mem i = mem' i) : text.length ≤ text'.length := by
  by_contra hlt
  have hlt : text'.length < text.length := by omega
  have hzero := h'.zero le_rfl (hlt.trans h.fits)
  rw [← hsame _ (hlt.trans h.fits)] at hzero
  exact h.ne_zero hlt hzero

theorem Stores.eq_iff (h : Stores n mem text) (h' : Stores n mem' text') :
    (∀ i, i < n → mem i = mem' i) ↔ text = text' := by
  constructor
  · intro hsame
    have hlen : text.length = text'.length :=
      Nat.le_antisymm (h.length_le h' hsame) (h'.length_le h fun i hi => (hsame i hi).symm)
    refine List.ext_getElem hlen fun i hi hi' => ?_
    have hcell := hsame i (hi.trans h.fits)
    rwa [h.cell i (hi.trans h.fits), h'.cell i (hi.trans h.fits), List.getD_eq_getElem _ _ hi,
      List.getD_eq_getElem _ _ hi'] at hcell
  · rintro rfl i hi
    rw [h.cell i hi, h'.cell i hi]

theorem Stores.mono (h : Stores n mem text) (hmn : m ≤ n) (hm : text.length < m) :
    Stores m mem text where
  fits := hm
  nonzero := h.nonzero
  cell := fun i hi => h.cell i (hi.trans_le hmn)

theorem stores_zeros (hn : 0 < n) : Stores n zeros [] where
  fits := hn
  nonzero := List.not_mem_nil
  cell := fun _ _ => rfl

/-- A text is copied behind which there are zeros. -/
theorem Stores.memcpy (h : Stores n mem text) {dst : Nat → Byte} {k : Nat}
    (hk : text.length ≤ k) (hkn : k ≤ n) (hm : text.length < m)
    (hzero : ∀ i, k ≤ i → i < m → dst i = 0) : Stores m (memcpy dst mem k) text where
  fits := hm
  nonzero := h.nonzero
  cell := fun i hi => by
    unfold CString.memcpy
    split
    · exact h.cell i (by omega)
    · rw [hzero i (by omega) hi, getD_eq_zero (by omega)]

/-! ## One character -/

theorem Stores.insert (h : Stores n mem text) {c : Nat} {ch : Byte} (hc : c ≤ text.length)
    (hch : ch ≠ 0) (hroom : text.length + 1 < n) :
    Stores n (Function.update (memmove mem (c + 1) c (text.length - c)) c ch)
      (text.insertIdx c ch) where
  fits := by rwa [List.length_insertIdx_of_le_length hc]
  nonzero := fun hin => by
    rcases (List.mem_insertIdx hc).mp hin with heq | hin
    · exact hch heq.symm
    · exact h.nonzero hin
  cell := fun i hi => by
    rw [List.getD_eq_getElem?_getD, List.getElem?_insertIdx, Function.update_apply]
    by_cases heq : i = c
    · rw [if_pos heq, if_neg (by omega), if_pos heq, if_pos (by omega)]
      rfl
    · rw [if_neg heq, memmove]
      by_cases hlt : i < c
      · rw [if_pos hlt, if_neg (by omega), h.cell i hi, List.getD_eq_getElem?_getD]
      · rw [if_neg hlt, if_neg heq]
        by_cases hin : i ≤ text.length
        · have hindex : i - (c + 1) + c = i - 1 := by omega
          rw [if_pos (by omega), hindex, h.cell _ (by omega), List.getD_eq_getElem?_getD]
        · rw [if_neg (by omega), h.zero (by omega) hi, List.getElem?_eq_none (by omega)]
          rfl

theorem Stores.erase (h : Stores n mem text) {c : Nat} (hc : c < text.length) :
    Stores n (Function.update (memmove mem c (c + 1) (text.length - 1 - c)) (text.length - 1) 0)
      (text.eraseIdx c) where
  fits := by
    have hfits := h.fits
    rw [List.length_eraseIdx_of_lt hc]
    omega
  nonzero := fun hin => h.nonzero (List.mem_of_mem_eraseIdx hin)
  cell := fun i hi => by
    rw [List.getD_eq_getElem?_getD, List.getElem?_eraseIdx, Function.update_apply]
    by_cases heq : i = text.length - 1
    · rw [if_pos heq, if_neg (by omega), List.getElem?_eq_none (by omega)]
      rfl
    · rw [if_neg heq, memmove]
      by_cases hlt : i < c
      · rw [if_pos hlt, if_neg (by omega), h.cell i hi, List.getD_eq_getElem?_getD]
      · rw [if_neg hlt]
        by_cases hin : i < text.length - 1
        · have hfits := h.fits
          have hindex : i - c + (c + 1) = i + 1 := by omega
          rw [if_pos (by omega), hindex, h.cell _ (by omega), List.getD_eq_getElem?_getD]
        · rw [if_neg (by omega), h.zero (by omega) hi, List.getElem?_eq_none (by omega)]
          rfl

end RtHypervisor.Verified.CString
