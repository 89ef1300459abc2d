import Mathlib

/-!
# Three-way comparison of lists

`lexSign xs ys` is the sign a three-way comparison returns for the lexicographic order of `xs` and
`ys`.  It is computed element by element, and swapping the lists swaps the sign.
-/

namespace RtHypervisor.Verified

variable {α : Type} [LinearOrder α]

def lexSign (xs ys : List α) : Int :=
  if xs < ys then -1 else if ys < xs then 1 else 0

variable {x y : α} {xs ys : List α}

theorem lexSign_self (xs : List α) : lexSign xs xs = 0 := by
  simp [lexSign]

theorem lexSign_nil_cons : lexSign [] (y :: ys) = -1 := by
  simp [lexSign]

theorem lexSign_cons_nil : lexSign (x :: xs) [] = 1 := by
  simp [lexSign]

theorem lexSign_cons (x : α) (xs ys : List α) : lexSign (x :: xs) (x :: ys) = lexSign xs ys := by
  simp [lexSign]

theorem lexSign_cons_of_lt (h : x < y) : lexSign (x :: xs) (y :: ys) = -1 := by
  simp [lexSign, List.cons_lt_cons_iff, h]

theorem lexSign_cons_of_gt (h : y < x) : lexSign (x :: xs) (y :: ys) = 1 := by
  simp [lexSign, List.cons_lt_cons_iff, h, h.not_gt, h.ne']

end RtHypervisor.Verified
