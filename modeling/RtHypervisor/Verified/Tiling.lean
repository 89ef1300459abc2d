import Mathlib.Data.List.Basic
import Mathlib.Tactic

/-!
# Blocks that tile an interval, linked both ways

A memory maps addresses to headers.  A block of size `size b` starts with a header that
names its successor, which begins where the block ends, and its predecessor.
`Seg mem bs p o p' o'` says that the blocks `bs` tile the interval from `o` to `o'`:
`p` is the predecessor of the first block and `p'` the last block, or `p` again when
there is none.

Segments are cut with `seg_append` and moved to another memory with `Seg.frame`, which
asks for agreement on the interval only; `Seg.relink` gives the first block another
predecessor.
-/

namespace RtHypervisor.Verified.Tiling

variable {H B : Type} (size : B → Nat) (head : B → Nat → Nat → H)

/-- The blocks tile the interval from `o` to `o'`.  `head b next prev` is the header of
block `b`. -/
def Seg (mem : Nat → H) : List B → Nat → Nat → Nat → Nat → Prop
  | [], p, o, p', o' => p' = p ∧ o' = o
  | b :: bs, p, o, p', o' => mem o = head b (o + size b) p ∧ Seg mem bs o (o + size b) p' o'

/-- The length of the interval the blocks tile. -/
def total (bs : List B) : Nat := (bs.map size).sum

@[simp] theorem total_nil : total size ([] : List B) = 0 := rfl

@[simp] theorem total_cons (b : B) (bs : List B) :
    total size (b :: bs) = size b + total size bs := by
  simp [total]

@[simp] theorem total_append (bs cs : List B) :
    total size (bs ++ cs) = total size bs + total size cs := by
  simp [total]

variable {size head} {mem mem' : Nat → H} {bs cs : List B} {b : B} {p o p' o' p'' o'' : Nat}

theorem seg_cons : Seg size head mem (b :: bs) p o p' o' ↔
    mem o = head b (o + size b) p ∧ Seg size head mem bs o (o + size b) p' o' := Iff.rfl

theorem seg_append : Seg size head mem (bs ++ cs) p o p'' o'' ↔
    ∃ p' o', Seg size head mem bs p o p' o' ∧ Seg size head mem cs p' o' p'' o'' := by
  induction bs generalizing p o with
  | nil =>
      constructor
      · intro h
        exact ⟨p, o, ⟨rfl, rfl⟩, h⟩
      · rintro ⟨p', o', ⟨rfl, rfl⟩, h⟩
        exact h
  | cons b bs ih =>
      rw [List.cons_append, seg_cons, ih]
      constructor
      · rintro ⟨hb, p', o', hbs, hcs⟩
        exact ⟨p', o', ⟨hb, hbs⟩, hcs⟩
      · rintro ⟨p', o', ⟨hb, hbs⟩, hcs⟩
        exact ⟨hb, p', o', hbs, hcs⟩

theorem Seg.end_eq (h : Seg size head mem bs p o p' o') : o' = o + total size bs := by
  induction bs generalizing p o with
  | nil => simp [h.2]
  | cons b bs ih =>
      rw [ih h.2, total_cons]
      omega

/-- A segment only depends on the headers in its interval. -/
theorem Seg.frame (h : Seg size head mem bs p o p' o') (hpos : ∀ b ∈ bs, 0 < size b)
    (hagree : ∀ x, o ≤ x → x < o' → mem' x = mem x) : Seg size head mem' bs p o p' o' := by
  induction bs generalizing p o with
  | nil => exact h
  | cons b bs ih =>
      have hb := hpos b (List.mem_cons_self ..)
      have hend := h.2.end_eq
      refine ⟨?_, ih h.2 (fun c hc => hpos c (List.mem_cons_of_mem b hc)) ?_⟩
      · rw [hagree o (Nat.le_refl o) (by omega)]
        exact h.1
      · intro x hx
        exact hagree x (by omega)

/-- Give the first block another predecessor. -/
theorem Seg.relink (h : Seg size head mem (b :: bs) p o p' o')
    (hpos : ∀ c ∈ b :: bs, 0 < size c) {q : Nat}
    (hfirst : mem' o = head b (o + size b) q)
    (hagree : ∀ x, o < x → x < o' → mem' x = mem x) :
    Seg size head mem' (b :: bs) q o p' o' := by
  have hb := hpos b (List.mem_cons_self ..)
  refine ⟨hfirst, h.2.frame (fun c hc => hpos c (List.mem_cons_of_mem b hc)) ?_⟩
  intro x hx
  exact hagree x (by omega)

end RtHypervisor.Verified.Tiling
