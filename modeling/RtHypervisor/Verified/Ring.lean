import Mathlib.Tactic

/-!
# Ring buffers

`contents n out k pool` is the queue of `k` elements that starts at cell `out` of a ring of
`n` cells.  The three operations on a deque are a write behind the last element
(`contents_append`), a write in front of the first (`contents_cons`), and a step of `out`
(`contents_succ`).

Many elements are removed at once with `drop_contents`.  `Written` says that many were written at
once; they are appended (`Written.append`), or overwrite the oldest ones (`Written.overwrite`).
-/

namespace RtHypervisor.Verified.Ring

variable {α : Type}

def contents (n out k : Nat) (pool : Nat → α) : List α :=
  (List.range k).map fun i => pool ((out + i) % n)

variable {n out k : Nat} {pool : Nat → α} {a : α}

@[simp] theorem contents_zero : contents n out 0 pool = [] := rfl

@[simp] theorem length_contents : (contents n out k pool).length = k := by
  simp [contents]

theorem mod_add_left_cancel {i j : Nat} (hi : i < n) (hj : j < n)
    (h : (out + i) % n = (out + j) % n) : i = j := by
  have hmod : i % n = j % n := Nat.ModEq.add_left_cancel' out h
  rwa [Nat.mod_eq_of_lt hi, Nat.mod_eq_of_lt hj] at hmod

theorem contents_append (hk : k < n) :
    contents n out (k + 1) (Function.update pool ((out + k) % n) a) =
      contents n out k pool ++ [a] := by
  rw [contents, List.range_succ, List.map_append, List.map_singleton, Function.update_self]
  congr 1
  refine List.map_congr_left fun i hi => ?_
  have hik : i < k := List.mem_range.mp hi
  refine Function.update_of_ne (fun h => ?_) ..
  have heq := mod_add_left_cancel (hik.trans hk) hk h
  omega

theorem contents_succ (hout : out < n) :
    contents n out (k + 1) pool = pool out :: contents n ((out + 1) % n) k pool := by
  rw [contents, List.range_succ_eq_map, List.map_cons, Nat.add_zero, Nat.mod_eq_of_lt hout,
    List.map_map]
  congr 1
  refine List.map_congr_left fun i _ => ?_
  rw [Function.comp_apply, Nat.mod_add_mod, Nat.succ_eq_add_one, Nat.add_assoc, Nat.add_comm 1 i]

theorem contents_cons (hk : k < n) (hout : out < n) :
    contents n out (k + 1) (Function.update pool out a) =
      a :: contents n ((out + 1) % n) k pool := by
  rw [contents_succ hout, Function.update_self]
  congr 1
  refine List.map_congr_left fun i hi => ?_
  have hik : i < k := List.mem_range.mp hi
  refine Function.update_of_ne (fun h => ?_) ..
  rw [Nat.mod_add_mod, Nat.add_assoc] at h
  have hzero : (out + (1 + i)) % n = (out + 0) % n := by
    rw [h, Nat.add_zero, Nat.mod_eq_of_lt hout]
  have heq := mod_add_left_cancel (by omega) (by omega) hzero
  omega

theorem wrap_eq (h : out < n) : (if n ≤ out + 1 then 0 else out + 1) = (out + 1) % n := by
  split
  · have heq : out + 1 = n := by omega
    rw [heq, Nat.mod_self]
  · rw [Nat.mod_eq_of_lt (by omega)]

/-- A sum that goes around at most once. -/
theorem wrap_mod {n a k : Nat} (ha : a < n) (hk : k ≤ n) :
    (a + k) % n = if a + k < n then a + k else a + k - n := by
  split
  · exact Nat.mod_eq_of_lt (by assumption)
  · rw [Nat.mod_eq_sub_mod (by omega), Nat.mod_eq_of_lt (by omega)]

/-! ## Many elements -/

theorem getElem?_contents {i : Nat} (hi : i < k) :
    (contents n out k pool)[i]? = some (pool ((out + i) % n)) := by
  rw [contents, List.getElem?_map, List.getElem?_range hi]
  rfl

theorem take_contents {j : Nat} (hj : j ≤ k) :
    (contents n out k pool).take j = contents n out j pool := by
  rw [contents, ← List.map_take, List.take_range, Nat.min_eq_left hj, contents]

theorem drop_contents {j : Nat} (hj : j ≤ k) :
    (contents n out k pool).drop j = contents n ((out + j) % n) (k - j) pool := by
  refine List.ext_getElem? fun i => ?_
  rw [List.getElem?_drop]
  by_cases hi : i < k - j
  · rw [getElem?_contents hi, getElem?_contents (by omega), Nat.mod_add_mod, Nat.add_assoc]
  · rw [List.getElem?_eq_none (by rw [length_contents]; omega),
      List.getElem?_eq_none (by rw [length_contents]; omega)]

/-- Elements that do not go around lie behind one another. -/
theorem contents_straight (h : out + k ≤ n) :
    contents n out k pool = (List.range k).map fun i => pool (out + i) := by
  refine List.map_congr_left fun i hi => ?_
  have hik : i < k := List.mem_range.mp hi
  rw [Nat.mod_eq_of_lt (by omega)]

/-- Elements that go around once are in two pieces. -/
theorem contents_wrap (hout : out ≤ n) (hk : n ≤ out + k) (hkn : k ≤ n) :
    contents n out k pool = ((List.range (n - out)).map fun i => pool (out + i)) ++
      (List.range (k - (n - out))).map pool := by
  have hsplit : k = (n - out) + (k - (n - out)) := by omega
  rw [contents, hsplit, List.range_add, List.map_append, List.map_map]
  congr 1
  · exact contents_straight (by omega)
  · rw [Nat.add_sub_cancel_left]
    refine List.map_congr_left fun i hi => ?_
    have hik : i < k - (n - out) := List.mem_range.mp hi
    have hsum : out + (n - out + i) = i + n := by omega
    rw [Function.comp_apply, hsum, Nat.add_mod_right, Nat.mod_eq_of_lt (by omega)]

/-- `data` was written to the `k` cells from `w` on. -/
structure Written (n w k : Nat) (data pool pool' : Nat → α) : Prop where
  new : ∀ j, j < k → pool' ((w + j) % n) = data j
  old : ∀ x, x < n → (∀ j, j < k → x ≠ (w + j) % n) → pool' x = pool x

section Written

variable {len : Nat} {data pool' : Nat → α}

/-- A cell of the queue is not among the cells behind it. -/
theorem Written.keep (h : Written n ((out + len) % n) k data pool pool') {i : Nat} (hn : 0 < n)
    (hi : i < len) (hk : len + k ≤ i + n) : pool' ((out + i) % n) = pool ((out + i) % n) := by
  refine h.old _ (Nat.mod_lt _ hn) fun j hj heq => ?_
  rw [Nat.mod_add_mod, Nat.add_assoc] at heq
  have hmod : i % n = (len + j) % n := Nat.ModEq.add_left_cancel' out heq
  -- the two positions differ by less than a turn
  have hdvd : (len + j - i) % n = 0 := Nat.sub_mod_eq_zero_of_mod_eq hmod.symm
  rw [Nat.mod_eq_of_lt (by omega)] at hdvd
  omega

/-- There is room for what is written. -/
theorem Written.append (h : Written n ((out + len) % n) k data pool pool') (hn : 0 < n)
    (hk : len + k ≤ n) :
    contents n out (len + k) pool' = contents n out len pool ++ (List.range k).map data := by
  refine List.ext_getElem? fun i => ?_
  by_cases hi : i < len
  · rw [getElem?_contents (by omega), List.getElem?_append_left (by rwa [length_contents]),
      getElem?_contents hi, h.keep hn hi (by omega)]
  · rw [List.getElem?_append_right (by rw [length_contents]; omega), length_contents]
    by_cases hik : i - len < k
    · have hnew := h.new (i - len) hik
      rw [Nat.mod_add_mod, Nat.add_assoc, Nat.add_sub_cancel' (by omega)] at hnew
      rw [getElem?_contents (by omega), hnew, List.getElem?_map, List.getElem?_range hik]
      rfl
    · rw [List.getElem?_eq_none (by rw [length_contents]; omega),
        List.getElem?_eq_none (by simp; omega)]

/-- There is no room: the ring is full of what was written last. -/
theorem Written.overwrite (h : Written n ((out + len) % n) k data pool pool') (hn : 0 < n)
    (hover : n ≤ len + k) :
    contents n ((out + len + k) % n) n pool' =
      (contents n out len pool ++ (List.range k).map data).drop (len + k - n) := by
  refine List.ext_getElem? fun i => ?_
  rw [List.getElem?_drop]
  by_cases hin : i < n
  · have hcell : ((out + len + k) % n + i) % n = (out + (len + k - n + i)) % n := by
      have hsum : out + len + k + i = out + (len + k - n + i) + n := by omega
      rw [Nat.mod_add_mod, hsum, Nat.add_mod_right]
    rw [getElem?_contents hin, hcell]
    by_cases hi : len + k - n + i < len
    · rw [List.getElem?_append_left (by rwa [length_contents]), getElem?_contents hi,
        h.keep hn hi (by omega)]
    · rw [List.getElem?_append_right (by rw [length_contents]; omega), length_contents]
      have hik : len + k - n + i - len < k := by omega
      have hnew := h.new _ hik
      rw [Nat.mod_add_mod, Nat.add_assoc, Nat.add_sub_cancel' (by omega)] at hnew
      rw [hnew, List.getElem?_map, List.getElem?_range hik]
      rfl
  · rw [List.getElem?_eq_none (by rw [length_contents]; omega),
      List.getElem?_eq_none (by simp; omega)]

end Written

/-- Copy `k` elements to the cells from `w` on. -/
def copyTo (pool : Nat → α) (w k : Nat) (data : Nat → α) : Nat → α := fun x =>
  if w ≤ x ∧ x < w + k then data (x - w) else pool x

section CopyTo

variable {w x : Nat} {data : Nat → α}

theorem copyTo_in (h : w ≤ x ∧ x < w + k) : copyTo pool w k data x = data (x - w) :=
  if_pos h

theorem copyTo_off (h : ¬(w ≤ x ∧ x < w + k)) : copyTo pool w k data x = pool x :=
  if_neg h

/-- The elements fit before the end of the ring. -/
theorem written_straight (h : w + k ≤ n) :
    Written n w k data pool (copyTo pool w k data) := by
  refine ⟨fun j hj => ?_, fun x _ hx => ?_⟩
  · rw [Nat.mod_eq_of_lt (by omega), copyTo_in (by omega), Nat.add_sub_cancel_left]
  · refine copyTo_off fun hin => hx (x - w) (by omega) ?_
    rw [Nat.mod_eq_of_lt (by omega)]
    omega

/-- The elements go around: they are copied in two pieces. -/
theorem written_around (hw : w < n) (h : n ≤ w + k) (hk : k ≤ n) :
    Written n w k data pool
      (copyTo (copyTo pool w (n - w) data) 0 (k - (n - w)) fun i => data (n - w + i)) := by
  refine ⟨fun j hj => ?_, fun x hxn hx => ?_⟩
  · rw [wrap_mod hw (by omega)]
    split
    · rw [copyTo_off (by omega), copyTo_in (by omega), Nat.add_sub_cancel_left]
    · rw [copyTo_in (by omega)]
      congr 1
      omega
  · have hback : ¬(0 ≤ x ∧ x < 0 + (k - (n - w))) := by
      intro hin
      have hsum : w + (n - w + x) = x + n := by omega
      exact hx (n - w + x) (by omega) (by rw [hsum, Nat.add_mod_right, Nat.mod_eq_of_lt hxn])
    have hfront : ¬(w ≤ x ∧ x < w + (n - w)) := by
      intro hin
      exact hx (x - w) (by omega) (by rw [Nat.mod_eq_of_lt (by omega)]; omega)
    rw [copyTo_off hback, copyTo_off hfront]

end CopyTo

end RtHypervisor.Verified.Ring
