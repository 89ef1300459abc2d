import Mathlib.Tactic

/-!
# Rings linked both ways

`Ring next prev l` says that the cells `l` are linked to a ring: `next` leads from each of them
to the one behind it, and from the last to the first; `prev` leads back.  A ring can be read from
any of its cells (`Ring.rotate`).  A cell is put in behind another (`Ring.insert`), or taken out
(`Ring.remove`), by four and by two assignments through the pointers; cells that are in no ring
may change (`Ring.congr`).
-/

namespace RtHypervisor.Verified.LinkedRing

variable {α : Type}

/-- `b` is behind `a`. -/
def Linked (next prev : α → α) (a b : α) : Prop := next a = b ∧ prev b = a

def Ring (next prev : α → α) : List α → Prop
  | [] => False
  | a :: l => (a :: l).Nodup ∧ (a :: (l ++ [a])).IsChain (Linked next prev)

section Read

variable {next prev next' prev' : α → α} {a b x : α} {l m : List α}

theorem Ring.nodup (h : Ring next prev l) : l.Nodup := by
  cases l with
  | nil => exact h.elim
  | cons a l => exact h.1

theorem Ring.next_eq (h : Ring next prev (a :: b :: l)) : next a = b :=
  (List.isChain_cons_cons.mp h.2).1.1

theorem Ring.prev_eq (h : Ring next prev (a :: b :: l)) : prev b = a :=
  (List.isChain_cons_cons.mp h.2).1.2

/-- `next` matters for all but the last cell, and `prev` for all but the first. -/
theorem chain_congr (h : (a :: l).IsChain (Linked next prev))
    (hnext : ∀ c ∈ (a :: l).dropLast, next' c = next c) (hprev : ∀ c ∈ l, prev' c = prev c) :
    (a :: l).IsChain (Linked next' prev') := by
  induction l generalizing a with
  | nil => exact List.isChain_singleton a
  | cons b l ih =>
      obtain ⟨hab, htail⟩ := List.isChain_cons_cons.mp h
      rw [List.dropLast_cons_cons] at hnext
      refine List.isChain_cons_cons.mpr ⟨⟨?_, ?_⟩, ?_⟩
      · rw [hnext a (List.mem_cons_self ..)]
        exact hab.1
      · rw [hprev b (List.mem_cons_self ..)]
        exact hab.2
      · exact ih htail (fun c hc => hnext c (List.mem_cons_of_mem a hc))
          fun c hc => hprev c (List.mem_cons_of_mem b hc)

theorem dropLast_close : (a :: (l ++ [a])).dropLast = a :: l := by
  rw [← List.cons_append, List.dropLast_concat]

/-- Cells outside the ring change. -/
theorem Ring.congr (h : Ring next prev l) (hnext : ∀ c ∈ l, next' c = next c)
    (hprev : ∀ c ∈ l, prev' c = prev c) : Ring next' prev' l := by
  cases l with
  | nil => exact h.elim
  | cons a l =>
      refine ⟨h.1, chain_congr h.2 (fun c hc => ?_) fun c hc => hprev c ?_⟩
      · rw [dropLast_close] at hc
        exact hnext c hc
      · rwa [List.mem_append, List.mem_singleton, or_comm, ← List.mem_cons] at hc

theorem exists_next : ∃ b m, l ++ [a] = b :: m := by
  cases l with
  | nil => exact ⟨a, [], rfl⟩
  | cons b l => exact ⟨b, l ++ [a], rfl⟩

/-- A ring has no first cell. -/
theorem Ring.rotate (h : Ring next prev (l ++ m)) : Ring next prev (m ++ l) := by
  cases l with
  | nil => rwa [List.append_nil]
  | cons a l =>
      cases m with
      | nil => rwa [List.append_nil] at h
      | cons b m =>
          rw [List.cons_append] at h
          obtain ⟨hnodup, hchain⟩ := h
          have hclose : a :: (l ++ b :: m ++ [a]) = (a :: l) ++ b :: (m ++ [a]) := by simp
          have hopen : b :: (m ++ a :: l ++ [b]) = (b :: m) ++ a :: (l ++ [b]) := by simp
          rw [hclose, List.isChain_split] at hchain
          have hperm : (a :: l ++ b :: m).Perm (b :: m ++ a :: l) := List.perm_append_comm
          rw [List.cons_append]
          refine ⟨hperm.nodup_iff.mp hnodup, ?_⟩
          rw [hopen, List.isChain_split]
          exact ⟨hchain.2, hchain.1⟩

end Read

section Write

variable [DecidableEq α] {next prev : α → α} {a x : α} {l pre post : List α}

/-- A cell is put in behind the first one. -/
theorem Ring.insert_head (h : Ring next prev (a :: l)) (hx : x ∉ a :: l) :
    Ring (Function.update (Function.update next x (next a)) a x)
      (Function.update (Function.update prev x a) (next a) x) (a :: x :: l) := by
  obtain ⟨hnodup, hchain⟩ := h
  obtain ⟨b, m, hb⟩ : ∃ b m, l ++ [a] = b :: m := exists_next
  have hperm : (b :: m).Perm (a :: l) := hb ▸ List.perm_append_singleton a l
  have hxb : ∀ c ∈ b :: m, c ≠ x := fun c hc => by
    rintro rfl
    exact hx (hperm.mem_iff.mp hc)
  have hbm : b ∉ m := (List.nodup_cons.mp (hperm.nodup_iff.mpr hnodup)).1
  have hdrop : (b :: m).dropLast = l := by rw [← hb, List.dropLast_concat]
  rw [hb] at hchain
  obtain ⟨⟨hab, hba⟩, htail⟩ := List.isChain_cons_cons.mp hchain
  have hxa : x ≠ a := fun heq => hx (heq ▸ List.mem_cons_self ..)
  refine ⟨?_, ?_⟩
  · have hswap : (a :: x :: l).Perm (x :: a :: l) := List.Perm.swap x a l
    exact hswap.nodup_iff.mpr (List.nodup_cons.mpr ⟨hx, hnodup⟩)
  · rw [List.cons_append, hb, hab]
    refine List.isChain_cons_cons.mpr ⟨⟨Function.update_self .., ?_⟩,
      List.isChain_cons_cons.mpr ⟨⟨?_, Function.update_self ..⟩, ?_⟩⟩
    · rw [Function.update_of_ne (hxb b (List.mem_cons_self ..)).symm, Function.update_self]
    · rw [Function.update_of_ne hxa, Function.update_self]
    · refine chain_congr htail (fun c hc => ?_) fun c hc => ?_
      · have hcl : c ∈ l := hdrop ▸ hc
        have hca : c ≠ a := fun heq => (List.nodup_cons.mp hnodup).1 (heq ▸ hcl)
        have hcx : c ≠ x := fun heq => hx (heq ▸ List.mem_cons_of_mem a hcl)
        rw [Function.update_of_ne hca, Function.update_of_ne hcx]
      · have hcb : c ≠ b := fun heq => hbm (heq ▸ hc)
        rw [Function.update_of_ne hcb,
          Function.update_of_ne (hxb c (List.mem_cons_of_mem b hc))]

/-- A cell is put in behind another. -/
theorem Ring.insert (h : Ring next prev (pre ++ a :: post)) (hx : x ∉ pre ++ a :: post) :
    Ring (Function.update (Function.update next x (next a)) a x)
      (Function.update (Function.update prev x a) (next a) x) (pre ++ a :: x :: post) := by
  have hperm : (a :: post ++ pre).Perm (pre ++ a :: post) := List.perm_append_comm
  have hfront : Ring next prev (a :: (post ++ pre)) := h.rotate
  have hput := hfront.insert_head (x := x) fun hmem => hx (hperm.mem_iff.mp hmem)
  exact hput.rotate (l := a :: x :: post)

/-- The cell behind the first one is taken out. -/
theorem Ring.remove_second (h : Ring next prev (a :: x :: l)) :
    Ring (Function.update next (prev x) (next x)) (Function.update prev (next x) (prev x))
      (a :: l) := by
  obtain ⟨hnodup, hchain⟩ := h
  obtain ⟨b, m, hb⟩ : ∃ b m, l ++ [a] = b :: m := exists_next
  obtain ⟨hax, hrest⟩ := List.nodup_cons.mp hnodup
  obtain ⟨hxl, hl⟩ := List.nodup_cons.mp hrest
  have hal : (a :: l).Nodup :=
    List.nodup_cons.mpr ⟨fun hmem => hax (List.mem_cons_of_mem x hmem), hl⟩
  have hperm : (b :: m).Perm (a :: l) := hb ▸ List.perm_append_singleton a l
  have hbm : b ∉ m := (List.nodup_cons.mp (hperm.nodup_iff.mpr hal)).1
  have hdrop : (b :: m).dropLast = l := by rw [← hb, List.dropLast_concat]
  rw [List.cons_append, hb] at hchain
  obtain ⟨⟨-, hxa⟩, hchain⟩ := List.isChain_cons_cons.mp hchain
  obtain ⟨⟨hxb, -⟩, htail⟩ := List.isChain_cons_cons.mp hchain
  refine ⟨hal, ?_⟩
  rw [hb, hxa, hxb]
  refine List.isChain_cons_cons.mpr ⟨⟨Function.update_self .., Function.update_self ..⟩, ?_⟩
  refine chain_congr htail (fun c hc => ?_) fun c hc => ?_
  · have hcl : c ∈ l := hdrop ▸ hc
    have hca : c ≠ a := fun heq => (List.nodup_cons.mp hal).1 (heq ▸ hcl)
    exact Function.update_of_ne hca ..
  · have hcb : c ≠ b := fun heq => hbm (heq ▸ hc)
    exact Function.update_of_ne hcb ..

/-- A cell is taken out. -/
theorem Ring.remove (h : Ring next prev (pre ++ x :: post)) (hpre : pre ≠ []) :
    Ring (Function.update next (prev x) (next x)) (Function.update prev (next x) (prev x))
      (pre ++ post) := by
  rcases List.eq_nil_or_concat' pre with rfl | ⟨front, a, rfl⟩
  · exact absurd rfl hpre
  · rw [List.append_assoc] at h
    have hfront : Ring next prev (a :: x :: (post ++ front)) := h.rotate
    have htaken := hfront.remove_second
    rw [List.append_assoc]
    exact htaken.rotate (l := a :: post)

end Write

end RtHypervisor.Verified.LinkedRing
