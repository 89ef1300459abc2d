import Mathlib

/-!
# The first minimum of a fold

A loop that walks over a list and keeps the least value it has seen, and where it was seen,
starts from a bound and looks only at the elements it is interested in.  `best_foldl` says what
it has found in the end.
-/

namespace RtHypervisor.Verified.Nearest

variable {α β : Type} [LinearOrder β]

/-- The least value so far and the element that has it. -/
structure Best (α β : Type) where
  value : β
  elem : Option α

/-- Look at one more element. -/
def Best.keep (p : α → Bool) (f : α → β) (b : Best α β) (x : α) : Best α β :=
  if p x then if f x < b.value then ⟨f x, some x⟩ else b else b

/-- `b` is what is found in `l` from the bound `bound` on. -/
structure IsBest (p : α → Bool) (f : α → β) (bound : β) (l : List α) (b : Best α β) : Prop where
  isNone : b.elem = none → b.value = bound
  isSome : ∀ x, b.elem = some x → x ∈ l ∧ p x = true ∧ f x = b.value ∧ b.value < bound
  least : b.value ≤ bound ∧ ∀ x ∈ l, p x = true → b.value ≤ f x

section

variable {p : α → Bool} {f : α → β} {bound : β} {l : List α} {b : Best α β}

theorem IsBest.nil : IsBest p f bound [] ⟨bound, none⟩ where
  isNone := fun _ => rfl
  isSome := by
    intro x hx
    cases hx
  least := ⟨le_refl bound, by simp⟩

theorem IsBest.keep (h : IsBest p f bound l b) (x : α) :
    IsBest p f bound (l ++ [x]) (b.keep p f x) := by
  by_cases hp : p x = true
  · by_cases hlt : f x < b.value
    · have hkeep : b.keep p f x = ⟨f x, some x⟩ := by simp [Best.keep, hp, hlt]
      rw [hkeep]
      constructor
      · intro hnone
        cases hnone
      · intro y hy
        cases hy
        exact ⟨by simp, hp, rfl, lt_of_lt_of_le hlt h.least.1⟩
      · constructor
        · exact le_of_lt (lt_of_lt_of_le hlt h.least.1)
        · intro y hy hpy
          rcases List.mem_append.mp hy with hy | hy
          · exact le_trans (le_of_lt hlt) (h.least.2 y hy hpy)
          · rw [List.mem_singleton.mp hy]
    · have hkeep : b.keep p f x = b := by simp [Best.keep, hlt]
      rw [hkeep]
      constructor
      · exact h.isNone
      · intro y hy
        have hy' := h.isSome y hy
        exact ⟨List.mem_append_left _ hy'.1, hy'.2⟩
      · constructor
        · exact h.least.1
        · intro y hy hpy
          rcases List.mem_append.mp hy with hy | hy
          · exact h.least.2 y hy hpy
          · rw [List.mem_singleton.mp hy]
            exact not_lt.mp hlt
  · have hkeep : b.keep p f x = b := by simp [Best.keep, hp]
    rw [hkeep]
    constructor
    · exact h.isNone
    · intro y hy
      have hy' := h.isSome y hy
      exact ⟨List.mem_append_left _ hy'.1, hy'.2⟩
    · constructor
      · exact h.least.1
      · intro y hy hpy
        rcases List.mem_append.mp hy with hy | hy
        · exact h.least.2 y hy hpy
        · rw [List.mem_singleton.mp hy] at hpy
          exact absurd hpy hp

/-- **What the loop finds.** -/
theorem best_foldl (p : α → Bool) (f : α → β) (bound : β) (l : List α) :
    IsBest p f bound l (l.foldl (Best.keep p f) ⟨bound, none⟩) := by
  induction l using List.reverseRecOn with
  | nil => exact IsBest.nil
  | append_singleton l x ih =>
      rw [List.foldl_append]
      exact ih.keep x

/-- Nothing is found below the bound: there was nothing. -/
theorem IsBest.nothing (h : IsBest p f bound l b) (hvalue : ¬ b.value < bound) :
    ∀ x ∈ l, p x = true → bound ≤ f x := by
  intro x hx hp
  exact le_trans (not_lt.mp hvalue) (h.least.2 x hx hp)

/-- Something is found below the bound: it is the least. -/
theorem IsBest.found (h : IsBest p f bound l b) (hvalue : b.value < bound) :
    ∃ x, b.elem = some x ∧ x ∈ l ∧ p x = true ∧ f x = b.value ∧
      ∀ y ∈ l, p y = true → f x ≤ f y := by
  cases helem : b.elem with
  | none =>
      have := h.isNone helem
      exact absurd hvalue (by simp [this])
  | some x =>
      obtain ⟨hmem, hp, hfx, -⟩ := h.isSome x helem
      refine ⟨x, rfl, hmem, hp, hfx, ?_⟩
      intro y hy hpy
      rw [hfx]
      exact h.least.2 y hy hpy

end

end RtHypervisor.Verified.Nearest
