import Mathlib.Tactic

/-!
# Queues that can be overtaken

A new element goes in front of the first one it overtakes, and behind all of them if it
overtakes none.  With a strict order on keys this keeps a list sorted by key, and by arrival
among equal keys (`pairwise_enqueue`); an element that overtakes none is appended
(`enqueue_of_forall`).
-/

namespace RtHypervisor.Verified.WaitQueue

variable {α : Type}

def enqueue (overtakes : α → Bool) (a : α) : List α → List α
  | [] => [a]
  | b :: l => if overtakes b then a :: b :: l else b :: enqueue overtakes a l

variable {overtakes : α → Bool} {a b : α} {l : List α}

theorem enqueue_perm : (enqueue overtakes a l).Perm (a :: l) := by
  induction l with
  | nil => exact List.Perm.refl _
  | cons b l ih =>
      rw [enqueue]
      split
      · exact List.Perm.refl _
      · exact (ih.cons b).trans (List.Perm.swap a b l)

@[simp] theorem mem_enqueue : b ∈ enqueue overtakes a l ↔ b = a ∨ b ∈ l := by
  rw [enqueue_perm.mem_iff, List.mem_cons]

theorem nodup_enqueue (ha : a ∉ l) (h : l.Nodup) : (enqueue overtakes a l).Nodup :=
  enqueue_perm.nodup_iff.mpr (List.nodup_cons.mpr ⟨ha, h⟩)

theorem enqueue_of_forall (h : ∀ b ∈ l, overtakes b = false) :
    enqueue overtakes a l = l ++ [a] := by
  induction l with
  | nil => rfl
  | cons b l ih =>
      rw [enqueue, h b (List.mem_cons_self ..), if_neg (by simp),
        ih fun c hc => h c (List.mem_cons_of_mem b hc)]
      rfl

/-- Order is kept when the elements that are not overtaken belong in front of the new one, and
whatever follows an overtaken one belongs behind it. -/
theorem pairwise_enqueue {R : α → α → Prop} (hl : l.Pairwise R)
    (hfront : ∀ b ∈ l, overtakes b = false → R b a)
    (hback : ∀ b ∈ l, overtakes b = true → R a b ∧ ∀ c, R b c → R a c) :
    (enqueue overtakes a l).Pairwise R := by
  induction l with
  | nil => exact List.pairwise_singleton R a
  | cons b l ih =>
      obtain ⟨hb, hl'⟩ := List.pairwise_cons.mp hl
      rw [enqueue]
      cases hover : overtakes b with
      | true =>
          obtain ⟨hab, htrans⟩ := hback b (List.mem_cons_self ..) hover
          refine List.pairwise_cons.mpr ⟨?_, hl⟩
          intro c hc
          rcases List.mem_cons.mp hc with rfl | hc
          · exact hab
          · exact htrans c (hb c hc)
      | false =>
          have htail := ih hl' (fun c hc => hfront c (List.mem_cons_of_mem b hc))
            fun c hc => hback c (List.mem_cons_of_mem b hc)
          refine List.pairwise_cons.mpr ⟨?_, htail⟩
          intro c hc
          rcases mem_enqueue.mp hc with rfl | hc
          · exact hfront b (List.mem_cons_self ..) hover
          · exact hb c hc

theorem pairwise_or {R : α → α → Prop} (h : l.Pairwise R) (ha : a ∈ l) (hb : b ∈ l)
    (hne : a ≠ b) : R a b ∨ R b a := by
  have : Std.Symm fun a b => R a b ∨ R b a := ⟨fun _ _ => Or.symm⟩
  have hsymm : l.Pairwise fun a b => R a b ∨ R b a := h.imp Or.inl
  exact hsymm.forall ha hb hne

/-- Of two elements of a sorted list, the one that does not belong behind the other is in front
of it. -/
theorem pairwise_front {R S : α → α → Prop} (hR : l.Pairwise R) (hS : l.Pairwise S) (ha : a ∈ l)
    (hb : b ∈ l) (hne : a ≠ b) (hba : ¬R b a) : S a b := by
  rcases pairwise_or (hR.and hS) ha hb hne with h | h
  · exact h.2
  · exact absurd h.1 hba

end RtHypervisor.Verified.WaitQueue
