import Mathlib.Logic.Function.Basic
import Mathlib.Data.List.Basic

/-!
# Register files

A register file maps register names to values.  Saving and restoring a context
is a list of moves `(destination, source)` between two files, executed in
order; when no destination occurs twice the result does not depend on the order.
-/

namespace RtHypervisor.Verified.RegFile

variable {α β γ : Type} [DecidableEq α]

/-- Execute the moves from `src` into `dst`. -/
def copyInto (moves : List (α × β)) (src : β → γ) (dst : α → γ) : α → γ :=
  moves.foldl (fun file move => Function.update file move.1 (src move.2)) dst

/-- A register that is no destination keeps its value. -/
theorem copyInto_of_not_mem {moves : List (α × β)} (src : β → γ) (dst : α → γ) {a : α}
    (h : a ∉ moves.map Prod.fst) : copyInto moves src dst a = dst a := by
  induction moves generalizing dst with
  | nil => rfl
  | cons move moves ih =>
      rw [List.map_cons, List.mem_cons, not_or] at h
      have hrest := ih (Function.update dst move.1 (src move.2)) h.2
      rw [Function.update_of_ne h.1] at hrest
      exact hrest

/-- A destination receives the value of its source. -/
theorem copyInto_of_mem {moves : List (α × β)} {src : β → γ} {dst : α → γ} {a : α} {b : β}
    (hnd : (moves.map Prod.fst).Nodup) (h : (a, b) ∈ moves) :
    copyInto moves src dst a = src b := by
  induction moves generalizing dst with
  | nil => cases h
  | cons move moves ih =>
      rw [List.map_cons, List.nodup_cons] at hnd
      rcases List.mem_cons.mp h with rfl | h
      · have hrest := copyInto_of_not_mem src (Function.update dst a (src b)) hnd.1
        rw [Function.update_self] at hrest
        exact hrest
      · exact ih hnd.2 h

end RtHypervisor.Verified.RegFile
