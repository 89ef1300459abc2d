import Mathlib.Tactic
import RtHypervisor.Verified.ByteMem

/-!
# Lists linked through memory

`Chain m p l` says that the words at `l` are linked: `p` is the first of them, each holds the
address of the next, and the last holds 0.  A chain is determined by its head, does not see
writes elsewhere (`Chain.frame`), and can be pushed to and popped from.

`chain_range'` builds the chain that runs through cells at equal distances.
-/

namespace RtHypervisor.Verified.LinkedWords

open RtHypervisor.Verified.ByteMem

def Chain (m : Mem) : Nat → List Nat → Prop
  | p, [] => p = 0
  | p, a :: l => p = a ∧ a ≠ 0 ∧ Chain m (load64 m a).toNat l

variable {m m' : Mem} {p a : Nat} {l : List Nat}

theorem chain_nil : Chain m p [] ↔ p = 0 := Iff.rfl

theorem Chain.ne_zero (h : Chain m p l) (hne : l ≠ []) : p ≠ 0 := by
  cases l with
  | nil => exact absurd rfl hne
  | cons a l =>
      rw [h.1]
      exact h.2.1

/-- A list that starts somewhere has an element. -/
theorem Chain.eq_cons (h : Chain m p l) (hp : p ≠ 0) : ∃ l', l = p :: l' := by
  cases l with
  | nil => exact absurd h hp
  | cons a l => exact ⟨l, by rw [h.1]⟩

/-- Only the words of the list matter. -/
theorem Chain.frame (h : Chain m p l) (hsame : ∀ a ∈ l, load64 m' a = load64 m a) :
    Chain m' p l := by
  induction l generalizing p with
  | nil => exact h
  | cons a l ih =>
      refine ⟨h.1, h.2.1, ?_⟩
      rw [hsame a (List.mem_cons_self ..)]
      exact ih h.2.2 fun b hb => hsame b (List.mem_cons_of_mem a hb)

/-- The word `a` is linked in front. -/
theorem Chain.link (h : Chain m p l) (hsame : ∀ b ∈ l, load64 m' b = load64 m b) (ha : a ≠ 0)
    (hlink : (load64 m' a).toNat = p) : Chain m' a (a :: l) := by
  refine ⟨rfl, ha, ?_⟩
  rw [hlink]
  exact h.frame hsame

/-- The word `b` is linked behind the last one. -/
theorem Chain.snoc {b : Nat} (h : Chain m p (l ++ [a])) (hsame : ∀ c ∈ l, load64 m' c = load64 m c)
    (hlink : (load64 m' a).toNat = b) (hb : b ≠ 0) (hend : (load64 m' b).toNat = 0) :
    Chain m' p (l ++ [a] ++ [b]) := by
  induction l generalizing p with
  | nil =>
      refine ⟨h.1, h.2.1, ?_⟩
      rw [hlink]
      exact ⟨rfl, hb, hend⟩
  | cons c l ih =>
      refine ⟨h.1, h.2.1, ?_⟩
      rw [hsame c (List.mem_cons_self ..)]
      exact ih h.2.2 fun d hd => hsame d (List.mem_cons_of_mem c hd)

/-- A word that is not in the list becomes its head. -/
theorem Chain.push {v : BitVec 64} (h : Chain m p l) (ha : a ≠ 0) (hv : v.toNat = p)
    (hsep : ∀ b ∈ l, a + 8 ≤ b ∨ b + 8 ≤ a) : Chain (store64 m a v) a (a :: l) :=
  h.link (fun b hb => load64_store64_of_disjoint (hsep b hb)) ha (by rw [load64_store64_self, hv])

/-- Cells at distance `d` do not overlap. -/
theorem range'_apart (p n d : Nat) : (List.range' p n d).Pairwise fun a b => a + d ≤ b := by
  induction n generalizing p with
  | zero => exact List.Pairwise.nil
  | succ n ih =>
      rw [List.range'_succ]
      refine List.pairwise_cons.mpr ⟨fun b hb => ?_, ih (p + d)⟩
      obtain ⟨i, -, rfl⟩ := List.mem_range'.mp hb
      exact Nat.le_add_right ..

/-- The chain through `n + 1` cells at distance `d`. -/
theorem chain_range' {d n : Nat} (hp : p ≠ 0)
    (hlink : ∀ i, i < n → (load64 m (p + i * d)).toNat = p + (i + 1) * d)
    (hlast : (load64 m (p + n * d)).toNat = 0) : Chain m p (List.range' p (n + 1) d) := by
  induction n generalizing p with
  | zero =>
      rw [Nat.zero_mul, Nat.add_zero] at hlast
      exact ⟨rfl, hp, hlast⟩
  | succ n ih =>
      have hfirst := hlink 0 (Nat.succ_pos n)
      rw [Nat.zero_mul, Nat.add_zero, Nat.zero_add, Nat.one_mul] at hfirst
      rw [List.range'_succ]
      refine ⟨rfl, hp, ?_⟩
      rw [hfirst]
      refine ih (by omega) (fun i hi => ?_) ?_
      · have hnext := hlink (i + 1) (by omega)
        rw [Nat.add_mul i 1, Nat.one_mul, ← Nat.add_assoc, Nat.add_right_comm] at hnext
        rw [hnext]
        ring
      · rw [Nat.add_mul, Nat.one_mul, ← Nat.add_assoc, Nat.add_right_comm] at hlast
        exact hlast

end RtHypervisor.Verified.LinkedWords
