import Mathlib.Tactic

/-!
# Things in one place

`Split bs l held` says that each of the things `bs` is in exactly one place: in the list `l`, or
with one of the holders.  It does not see the order of `l`; a thing moves from the list to a
holder (`Split.take`) and back (`Split.give`).
-/

namespace RtHypervisor.Verified.Holders

variable {α ι : Type}

structure Split (bs l : List α) (held : ι → Option α) : Prop where
  nodup : l.Nodup
  mem : ∀ b ∈ l, b ∈ bs
  apart : ∀ i b, held i = some b → b ∈ bs ∧ b ∉ l
  once : ∀ i j b, held i = some b → held j = some b → i = j
  cover : ∀ b ∈ bs, b ∈ l ∨ ∃ i, held i = some b

variable {bs l l' : List α} {held held' : ι → Option α} {b : α} {i : ι}

/-- At first everything is in the list. -/
theorem Split.start (hnodup : bs.Nodup) (hperm : l.Perm bs) :
    Split bs l fun _ : ι => none where
  nodup := hperm.nodup_iff.mpr hnodup
  mem := fun _ hb => hperm.mem_iff.mp hb
  apart := fun _ _ h => by cases h
  once := fun _ _ _ h => by cases h
  cover := fun _ hb => Or.inl (hperm.mem_iff.mpr hb)

theorem Split.perm (h : Split bs l held) (hperm : l'.Perm l) : Split bs l' held where
  nodup := hperm.nodup_iff.mpr h.nodup
  mem := fun c hc => h.mem c (hperm.mem_iff.mp hc)
  apart := fun j c hj => ⟨(h.apart j c hj).1, fun hc => (h.apart j c hj).2 (hperm.mem_iff.mp hc)⟩
  once := h.once
  cover := fun c hc => (h.cover c hc).imp_left hperm.mem_iff.mpr

variable [DecidableEq ι]

/-- Holder `i` takes the first thing of the list. -/
theorem Split.take (h : Split bs (b :: l) held) (hi : held i = none) :
    Split bs l (Function.update held i (some b)) := by
  obtain ⟨hb, hnodup⟩ := List.nodup_cons.mp h.nodup
  have hother : ∀ {j c}, j ≠ i → Function.update held i (some b) j = some c → held j = some c := by
    intro j c hj hc
    rwa [Function.update_of_ne hj] at hc
  have hself : ∀ {c}, Function.update held i (some b) i = some c → c = b := by
    intro c hc
    rw [Function.update_self] at hc
    exact (Option.some.inj hc).symm
  refine ⟨hnodup, fun c hc => h.mem c (List.mem_cons_of_mem b hc), fun j c hc => ?_,
    fun j k c hj hk => ?_, fun c hc => ?_⟩
  · by_cases hj : j = i
    · subst hj
      rw [hself hc]
      exact ⟨h.mem b (List.mem_cons_self ..), hb⟩
    · obtain ⟨hmem, hnot⟩ := h.apart j c (hother hj hc)
      exact ⟨hmem, fun hl => hnot (List.mem_cons_of_mem b hl)⟩
  · have hfresh : ∀ {j}, j ≠ i → held j ≠ some b := fun hj hb' =>
      (h.apart _ b hb').2 (List.mem_cons_self ..)
    by_cases hji : j = i
    · by_cases hki : k = i
      · rw [hji, hki]
      · subst hji
        rw [hself hj] at hk
        exact absurd (hother hki hk) (hfresh hki)
    · by_cases hki : k = i
      · subst hki
        rw [hself hk] at hj
        exact absurd (hother hji hj) (hfresh hji)
      · exact h.once j k c (hother hji hj) (hother hki hk)
  · rcases h.cover c hc with hl | ⟨j, hj⟩
    · rcases List.mem_cons.mp hl with rfl | hl
      · exact Or.inr ⟨i, Function.update_self ..⟩
      · exact Or.inl hl
    · have hne : j ≠ i := by
        rintro rfl
        rw [hi] at hj
        cases hj
      exact Or.inr ⟨j, by rwa [Function.update_of_ne hne]⟩

/-- Holder `i` gives its thing back. -/
theorem Split.give (h : Split bs l held) (hi : held i = some b) :
    Split bs (b :: l) (Function.update held i none) := by
  have hother : ∀ {j c}, Function.update held i none j = some c → j ≠ i ∧ held j = some c := by
    intro j c hc
    by_cases hj : j = i
    · rw [hj, Function.update_self] at hc
      cases hc
    · rw [Function.update_of_ne hj] at hc
      exact ⟨hj, hc⟩
  obtain ⟨hmem, hnot⟩ := h.apart i b hi
  refine ⟨List.nodup_cons.mpr ⟨hnot, h.nodup⟩, fun c hc => ?_, fun j c hc => ?_,
    fun j k c hj hk => h.once j k c (hother hj).2 (hother hk).2, fun c hc => ?_⟩
  · rcases List.mem_cons.mp hc with rfl | hc
    · exact hmem
    · exact h.mem c hc
  · obtain ⟨hne, hj⟩ := hother hc
    refine ⟨(h.apart j c hj).1, fun hl => ?_⟩
    rcases List.mem_cons.mp hl with rfl | hl
    · exact hne (h.once j i c hj hi)
    · exact (h.apart j c hj).2 hl
  · rcases h.cover c hc with hl | ⟨j, hj⟩
    · exact Or.inl (List.mem_cons_of_mem b hl)
    · by_cases hne : j = i
      · subst hne
        have hcb : c = b := Option.some.inj (hj.symm.trans hi)
        exact Or.inl (hcb ▸ List.mem_cons_self ..)
      · exact Or.inr ⟨j, by rwa [Function.update_of_ne hne]⟩

end RtHypervisor.Verified.Holders
