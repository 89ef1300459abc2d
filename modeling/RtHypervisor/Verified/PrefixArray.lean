import Mathlib.Data.List.Perm.Basic
import RtHypervisor.Verified.Run

/-!
# A fixed array whose first `k` cells are in use

Many C tables are a fixed array together with a counter: the cells below the
counter hold the entries, in no particular order, and the cells from the
counter on are blank.  `pre v k` is the list of entries of such a table.  The
four ways of changing one are

* writing a new entry into the first unused cell (`pre_set_self`),
* touching only cells at or above the counter (`pre_set_of_le`),
* exchanging two entries (`pre_swap_perm`), and
* moving the last entry over a removed one and blanking the freed cell
  (`pre_swapRemove_perm`).

`readAt`, `writeAt` and `swapAt` are the accesses themselves: they fault when an
index leaves the array.
-/

namespace RtHypervisor.Verified.PrefixArray

variable {α : Type} {n : Nat}

/-- The entries of an array whose first `k` cells are in use. -/
def pre (v : Vector α n) (k : Nat) : List α := v.toList.take k

@[simp] theorem pre_zero (v : Vector α n) : pre v 0 = [] := rfl

theorem length_pre (v : Vector α n) {k : Nat} (h : k ≤ n) : (pre v k).length = k := by
  simp [pre, h]

theorem getElem_pre (v : Vector α n) {k i : Nat} (hi : i < (pre v k).length)
    (hn : i < n) : (pre v k)[i] = v[i] := by
  simp [pre]

theorem mem_pre {v : Vector α n} {k : Nat} {a : α} :
    a ∈ pre v k ↔ ∃ i, ∃ h : i < n, i < k ∧ v[i] = a := by
  rw [pre, List.mem_take_iff_getElem]
  constructor
  · rintro ⟨i, hi, rfl⟩
    have hin : i < n := by
      have := hi
      simp only [Vector.length_toList] at this
      omega
    exact ⟨i, hin, by omega, by simp⟩
  · rintro ⟨i, hin, hik, rfl⟩
    exact ⟨i, by simp only [Vector.length_toList]; omega, by simp⟩

theorem getElem_mem_pre (v : Vector α n) {k i : Nat} (hi : i < n) (hik : i < k) :
    v[i] ∈ pre v k :=
  mem_pre.mpr ⟨i, hi, hik, rfl⟩

theorem pre_succ (v : Vector α n) {k : Nat} (h : k < n) :
    pre v (k + 1) = pre v k ++ [v[k]] := by
  have hlen : k < v.toList.length := by simpa using h
  rw [pre, List.take_succ_eq_append_getElem hlen]
  simp [pre]

theorem pre_set_of_le (v : Vector α n) {k i : Nat} (h : i < n) (hki : k ≤ i) (a : α) :
    pre (v.set i a) k = pre v k := by
  rw [pre, Vector.toList_set, List.take_set_of_le hki]
  rfl

/-- Writing the first unused cell and advancing the counter appends. -/
theorem pre_set_self (v : Vector α n) {k : Nat} (h : k < n) (a : α) :
    pre (v.set k a) (k + 1) = pre v k ++ [a] := by
  rw [pre_succ _ h, pre_set_of_le v h (Nat.le_refl k), Vector.getElem_set_self]

/-- Exchanging two entries permutes the entries. -/
theorem pre_swap_perm (v : Vector α n) {k i j : Nat} (hi : i < n) (hj : j < n)
    (hik : i < k) (hjk : j < k) : (pre (v.swap i j) k).Perm (pre v k) := by
  have hil : i < (pre v k).length := by
    simp only [pre, List.length_take, Vector.length_toList]
    omega
  have hjl : j < (pre v k).length := by
    simp only [pre, List.length_take, Vector.length_toList]
    omega
  have hset : pre (v.swap i j) k =
      ((pre v k).set i (pre v k)[j]).set j (pre v k)[i] := by
    rw [getElem_pre v hjl hj, getElem_pre v hil hi, pre, Vector.toList_swap,
      List.take_set, List.take_set]
    rfl
  rw [hset]
  exact List.set_set_perm hil hjl

/-- Removal by moving the last entry into the hole: the removed entry and the
entries that remain are the entries there were. -/
theorem pre_swapRemove_perm (v : Vector α n) {k i : Nat} (hk : k < n) (hi : i < n)
    (hik : i ≤ k) (z : α) :
    (pre v (k + 1)).Perm (v[i] :: pre ((v.swap i k).set k z) k) := by
  have hswap := pre_swap_perm v hi hk (Nat.lt_succ_of_le hik) (Nat.lt_succ_self k)
  have hlast : pre (v.swap i k) (k + 1) = pre (v.swap i k) k ++ [v[i]] := by
    rw [pre_succ _ hk, Vector.getElem_swap_right]
  rw [pre_set_of_le _ hk (Nat.le_refl k)]
  rw [hlast] at hswap
  exact hswap.symm.trans (List.perm_append_singleton _ _)

/-! ## Accesses that fault outside the array -/

open RtHypervisor.Verified.Run

def readAt (v : Vector α n) (i : Nat) : Except Fault α :=
  if h : i < n then .ok v[i] else .error .outOfBounds

def writeAt (v : Vector α n) (i : Nat) (a : α) : Except Fault (Vector α n) :=
  if h : i < n then .ok (v.set i a) else .error .outOfBounds

def swapAt (v : Vector α n) (i j : Nat) : Except Fault (Vector α n) :=
  if h : i < n ∧ j < n then .ok (v.swap i j h.1 h.2) else .error .outOfBounds

theorem readAt_ok (v : Vector α n) {i : Nat} (h : i < n) : readAt v i = .ok v[i] := by
  simp [readAt, h]

theorem writeAt_ok (v : Vector α n) {i : Nat} (h : i < n) (a : α) :
    writeAt v i a = .ok (v.set i a) := by
  simp [writeAt, h]

theorem swapAt_ok (v : Vector α n) {i j : Nat} (hi : i < n) (hj : j < n) :
    swapAt v i j = .ok (v.swap i j) := by
  simp [swapAt, hi, hj]

end RtHypervisor.Verified.PrefixArray
