import Mathlib.Data.List.Nodup
import Mathlib.Logic.Function.Basic

/-!
# Ledgers

A ledger says which keys are outstanding and in which state: a function
`κ → Option σ`.  A list of `(key, state)` pairs, spread over whatever places the
program keeps them in, is `Recorded` by a ledger when the places of every key are
exactly what the ledger says: one place with the ledger's state for an
outstanding key and none for any other.  Nothing is lost and nothing is held
twice.

The rules below are the four changes a program makes to such a list: moving
pairs around (`Recorded.of_perm`), taking a new key in (`Recorded.add`),
changing the state of a key or retiring it (`Recorded.replace`), and offering a
key that is held already (`Recorded.again`).
-/

namespace RtHypervisor.Verified.Ledger

variable {κ σ : Type} [DecidableEq κ]

/-- The states under which the pairs of `ps` hold the key `k`. -/
def statesOf (k : κ) (ps : List (κ × σ)) : List σ :=
  (ps.filter fun p => p.1 = k).map Prod.snd

/-- The places of every key are exactly what the ledger says. -/
def Recorded (l : κ → Option σ) (ps : List (κ × σ)) : Prop :=
  ∀ k, statesOf k ps = (l k).toList

@[simp] theorem statesOf_nil (k : κ) : statesOf k ([] : List (κ × σ)) = [] := rfl

theorem statesOf_cons_self (k : κ) (s : σ) (ps : List (κ × σ)) :
    statesOf k ((k, s) :: ps) = s :: statesOf k ps := by
  simp [statesOf]

theorem statesOf_cons_ne {k k' : κ} (h : k' ≠ k) (s : σ) (ps : List (κ × σ)) :
    statesOf k ((k', s) :: ps) = statesOf k ps := by
  simp [statesOf, h]

theorem statesOf_append (k : κ) (ps qs : List (κ × σ)) :
    statesOf k (ps ++ qs) = statesOf k ps ++ statesOf k qs := by
  simp [statesOf]

theorem statesOf_eq_nil {k : κ} {ps : List (κ × σ)} (h : ∀ p ∈ ps, p.1 ≠ k) :
    statesOf k ps = [] := by
  rw [statesOf, List.map_eq_nil_iff, List.filter_eq_nil_iff]
  intro p hp
  simpa using h p hp

theorem mem_statesOf {k : κ} {s : σ} {ps : List (κ × σ)} :
    s ∈ statesOf k ps ↔ (k, s) ∈ ps := by
  constructor
  · intro h
    obtain ⟨⟨k', s'⟩, hp, rfl⟩ := List.mem_map.mp h
    rw [List.mem_filter] at hp
    have hk : k' = k := by simpa using hp.2
    exact hk ▸ hp.1
  · intro h
    exact List.mem_map.mpr ⟨(k, s), List.mem_filter.mpr ⟨h, by simp⟩, rfl⟩

section Rules

variable {l : κ → Option σ} {ps qs : List (κ × σ)}

theorem recorded_nil : Recorded (fun _ : κ => (none : Option σ)) [] := fun _ => rfl

/-- A pair that is held is what the ledger says about its key. -/
theorem Recorded.eq_some (h : Recorded l ps) {k : κ} {s : σ} (hp : (k, s) ∈ ps) :
    l k = some s := by
  have hmem := mem_statesOf.mpr hp
  rw [h k] at hmem
  simpa using hmem

/-- A key the ledger does not know is held nowhere. -/
theorem Recorded.not_mem (h : Recorded l ps) {k : κ} (hk : l k = none) :
    ∀ p ∈ ps, p.1 ≠ k := by
  rintro ⟨k', s⟩ hp rfl
  rw [h.eq_some hp] at hk
  cases hk

/-- A key the ledger knows is held somewhere, in the ledger's state. -/
theorem Recorded.mem_of_some (h : Recorded l ps) {k : κ} {s : σ} (hk : l k = some s) :
    (k, s) ∈ ps := by
  apply mem_statesOf.mp
  rw [h k, hk]
  simp

/-- No key is held twice. -/
theorem Recorded.nodup_keys (h : Recorded l ps) : (ps.map Prod.fst).Nodup := by
  rw [List.nodup_iff_count_le_one]
  intro k
  have hcount : (ps.map Prod.fst).count k = (statesOf k ps).length := by
    rw [statesOf, List.length_map, List.count, List.countP_map, List.countP_eq_length_filter]
    congr 1
  rw [hcount, h k]
  cases l k <;> simp

/-- Moving pairs between places changes nothing. -/
theorem Recorded.of_perm (h : Recorded l ps) (hperm : qs.Perm ps) : Recorded l qs := by
  intro k
  have hstates : (statesOf k qs).Perm (statesOf k ps) :=
    (hperm.filter _).map _
  rw [h k] at hstates
  cases hk : l k with
  | none =>
      rw [hk] at hstates
      exact hstates.eq_nil
  | some s =>
      rw [hk] at hstates
      exact List.perm_singleton.mp hstates

/-- A key that was not outstanding is taken in. -/
theorem Recorded.add (h : Recorded l ps) {k : κ} (hk : l k = none) (s : σ) :
    Recorded (Function.update l k (some s)) ((k, s) :: ps) := by
  intro k'
  by_cases heq : k' = k
  · subst heq
    rw [statesOf_cons_self, h k', hk, Function.update_self]
    rfl
  · rw [statesOf_cons_ne (Ne.symm heq), h k', Function.update_of_ne heq]

/-- A key's one pair is replaced by another state of it, or dropped. -/
theorem Recorded.replace {k : κ} {s : σ} (h : Recorded l ((k, s) :: ps)) (o : Option σ) :
    Recorded (Function.update l k o) (o.toList.map (Prod.mk k) ++ ps) := by
  have hrest : statesOf k ps = [] := by
    have hk := h k
    rw [h.eq_some (List.mem_cons_self ..), statesOf_cons_self] at hk
    simpa using hk
  intro k'
  by_cases heq : k' = k
  · subst heq
    rw [statesOf_append, hrest, Function.update_self]
    cases o <;> simp [statesOf]
  · have hk' := h k'
    rw [statesOf_cons_ne (Ne.symm heq)] at hk'
    rw [statesOf_append, hk', Function.update_of_ne heq]
    cases o with
    | none => rfl
    | some t =>
        have hne : ¬k = k' := Ne.symm heq
        simp [statesOf, hne]

/-- A key that is held in state `s` is offered again in state `s`: the old pair
gives way to the new one. -/
theorem Recorded.again (h : Recorded l ps) {k : κ} {s : σ} (hk : l k = some s) :
    Recorded l ((k, s) :: ps.filter fun p => !decide (p.1 = k)) := by
  intro k'
  by_cases heq : k' = k
  · subst heq
    have hnone : statesOf k' (ps.filter fun p => !decide (p.1 = k')) = [] := by
      apply statesOf_eq_nil
      intro p hp
      simpa using (List.mem_filter.mp hp).2
    rw [statesOf_cons_self, hnone, hk]
    rfl
  · rw [statesOf_cons_ne (Ne.symm heq), ← h k', statesOf, statesOf, List.filter_filter]
    congr 1
    apply List.filter_congr
    intro p _
    by_cases hp : p.1 = k' <;> simp [hp, heq]

end Rules

end RtHypervisor.Verified.Ledger
