import Mathlib.Tactic
import RtHypervisor.Verified.Run

/-!
# Singly linked lists

`Path next a l` says that `next` leads from the cell `a` through the cells `l` and ends there.  A
path is determined by where it starts, and therefore does not come back there (`Path.not_mem`).

A cell is put in behind the first (`Path.insert`) or behind the last (`Path.append`), and taken
out (`Path.remove`), by assignments through the pointers; `seek` finds the cell in front of one.
-/

namespace RtHypervisor.Verified.SList

open RtHypervisor.Verified.Run

variable {α : Type}

def Path (next : α → Option α) : α → List α → Prop
  | a, [] => next a = none
  | a, b :: l => next a = some b ∧ Path next b l

section Read

variable {next next' : α → Option α} {a b n : α} {l m pre post : List α}

theorem Path.next_eq (h : Path next a l) : next a = l.head? := by
  cases l with
  | nil => exact h
  | cons b l => exact h.1

/-- Only the pointers of the path matter. -/
theorem Path.frame (h : Path next a l) (ha : next' a = next a) (hl : ∀ b ∈ l, next' b = next b) :
    Path next' a l := by
  induction l generalizing a with
  | nil => exact ha.trans h
  | cons b l ih =>
      refine ⟨ha.trans h.1, ih h.2 (hl b (List.mem_cons_self ..)) fun c hc => ?_⟩
      exact hl c (List.mem_cons_of_mem b hc)

theorem Path.unique (h : Path next a l) (h' : Path next a m) : l = m := by
  induction l generalizing a m with
  | nil =>
      cases m with
      | nil => rfl
      | cons b m => cases h.symm.trans h'.1
  | cons b l ih =>
      cases m with
      | nil => cases h'.symm.trans h.1
      | cons c m =>
          cases h.1.symm.trans h'.1
          rw [ih h.2 h'.2]

/-- A path goes on from each of its cells. -/
theorem Path.suffix (h : Path next a (pre ++ b :: post)) : Path next b post := by
  induction pre generalizing a with
  | nil => exact h.2
  | cons c pre ih => exact ih h.2

theorem Path.not_mem (h : Path next a l) : a ∉ l := by
  intro hmem
  obtain ⟨pre, post, rfl⟩ := List.append_of_mem hmem
  have hlen := congrArg List.length (h.unique h.suffix)
  rw [List.length_append, List.length_cons] at hlen
  omega

/-- The last cell of a path. -/
def last : α → List α → α
  | a, [] => a
  | _, b :: l => last b l

@[simp] theorem last_nil : last a [] = a := rfl

@[simp] theorem last_cons : last a (b :: l) = last b l := rfl

@[simp] theorem last_append : last a (l ++ [n]) = n := by
  induction l generalizing a with
  | nil => rfl
  | cons b l ih => exact ih

@[simp] theorem last_append_cons : last a (l ++ b :: m) = last b m := by
  induction l generalizing a with
  | nil => rfl
  | cons c l ih => exact ih

theorem last_mem : last a l ∈ a :: l := by
  induction l generalizing a with
  | nil => exact List.mem_singleton_self a
  | cons b l ih => exact List.mem_cons_of_mem a ih

/-- The last cell in front of `b` leads to it. -/
theorem Path.next_last (h : Path next a (pre ++ b :: post)) : next (last a pre) = some b := by
  induction pre generalizing a with
  | nil => exact h.1
  | cons c pre ih => exact ih h.2

end Read

section Write

variable [DecidableEq α] {next : α → Option α} {a b n : α} {l pre post : List α}

/-- A cell is put in front. -/
theorem Path.insert (h : Path next a l) (hn : n ∉ a :: l) :
    Path (Function.update (Function.update next n (next a)) a (some n)) a (n :: l) := by
  rw [List.mem_cons, not_or] at hn
  refine ⟨Function.update_self .., ?_⟩
  have hself : Function.update (Function.update next n (next a)) a (some n) n = next a := by
    rw [Function.update_of_ne hn.1, Function.update_self]
  have hother : ∀ c ∈ l,
      Function.update (Function.update next n (next a)) a (some n) c = next c := by
    intro c hc
    have hca : c ≠ a := fun heq => h.not_mem (heq ▸ hc)
    have hcn : c ≠ n := fun heq => hn.2 (heq ▸ hc)
    rw [Function.update_of_ne hca, Function.update_of_ne hcn]
  cases l with
  | nil => exact hself.trans h
  | cons b l =>
      refine ⟨hself.trans h.1, h.2.frame (hother b (List.mem_cons_self ..)) fun c hc => ?_⟩
      exact hother c (List.mem_cons_of_mem b hc)

/-- A cell is put behind the last one. -/
theorem Path.append (h : Path next a l) (hn : n ∉ a :: l) :
    Path (Function.update (Function.update next (last a l) (some n)) n none) a (l ++ [n]) := by
  induction l generalizing a with
  | nil =>
      have hne : a ≠ n := fun heq => hn (heq ▸ List.mem_cons_self ..)
      refine ⟨?_, Function.update_self ..⟩
      rw [last_nil, Function.update_of_ne hne, Function.update_self]
  | cons b l ih =>
      have hne : a ≠ n := fun heq => hn (heq ▸ List.mem_cons_self ..)
      have hlast : a ≠ last b l := by
        intro heq
        have hmem : last b l ∈ b :: l := last_mem
        exact h.not_mem (heq ▸ hmem)
      rw [last_cons]
      refine ⟨?_, ih h.2 fun hmem => hn (List.mem_cons_of_mem a hmem)⟩
      rw [Function.update_of_ne hne, Function.update_of_ne hlast]
      exact h.1

/-- A cell is taken out. -/
theorem Path.remove (h : Path next a (pre ++ n :: post)) :
    Path (Function.update next (last a pre) (next n)) a (pre ++ post) := by
  induction pre generalizing a with
  | nil =>
      have hpost : Path next n post := h.2
      have hself : Function.update next a (next n) a = next n := Function.update_self ..
      have hother : ∀ c ∈ post, Function.update next a (next n) c = next c := by
        intro c hc
        refine Function.update_of_ne (fun heq => h.not_mem ?_) ..
        exact heq ▸ List.mem_cons_of_mem n hc
      rw [last_nil, List.nil_append]
      cases post with
      | nil => exact hself.trans hpost
      | cons b post =>
          refine ⟨hself.trans hpost.1,
            hpost.2.frame (hother b (List.mem_cons_self ..)) fun c hc => ?_⟩
          exact hother c (List.mem_cons_of_mem b hc)
  | cons b pre ih =>
      have hlast : a ≠ last b pre := by
        intro heq
        have hmem : last b pre ∈ b :: pre := last_mem
        refine h.not_mem (heq ▸ ?_)
        rw [List.cons_append, ← List.cons_append]
        exact List.mem_append_left _ hmem
      rw [last_cons]
      refine ⟨?_, ih h.2⟩
      rw [Function.update_of_ne hlast]
      exact h.1

/-- The cell in front of `n`, or the last one, in at most so many steps. -/
def seek (next : α → Option α) (n : α) : Nat → α → Except Fault α
  | 0, _ => throw .fuel
  | k + 1, node =>
      match next node with
      | none => pure node
      | some m => if m = n then pure node else seek next n k m

theorem Path.seek_eq (h : Path next a (pre ++ n :: post)) {k : Nat} (hk : pre.length < k) :
    seek next n k a = .ok (last a pre) := by
  induction pre generalizing a k with
  | nil =>
      obtain ⟨k, rfl⟩ : ∃ j, k = j + 1 := ⟨k - 1, by rw [List.length_nil] at hk; omega⟩
      rw [seek, h.1]
      simp only [if_true]
      rfl
  | cons b pre ih =>
      obtain ⟨k, rfl⟩ : ∃ j, k = j + 1 := ⟨k - 1, by rw [List.length_cons] at hk; omega⟩
      have hne : b ≠ n := by
        intro heq
        refine h.2.not_mem (heq ▸ ?_)
        exact List.mem_append_right _ (List.mem_cons_self ..)
      rw [seek, h.1]
      simp only [if_neg hne, last_cons]
      exact ih h.2 (by rw [List.length_cons] at hk; omega)

end Write

end RtHypervisor.Verified.SList
