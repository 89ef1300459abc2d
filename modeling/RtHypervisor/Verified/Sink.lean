import Mathlib.Data.BitVec
import Mathlib.Logic.Function.Basic

/-!
# Output into a bounded buffer

A formatter writes through a cursor that advances with every character, and stores a character only
while the cursor is below `fin`.  `putAll` is the output of a text.  A function is `Uniform` when
what it writes and returns depends neither on `fin` nor on what is there already: the rules say that
a formatter put together from such pieces is uniform, so that a short buffer holds a prefix of what
a long one holds.
-/

namespace RtHypervisor.Verified.Sink

abbrev Byte := BitVec 8

/-- The size of the address space. -/
def addressEnd : Nat := 2 ^ 64

/-- The memory and the cursor. -/
structure Out where
  mem : Nat → Byte
  str : Nat

/-- `if (str < end) *str = c; ++str;` -/
def put (fin : Nat) (o : Out) (c : Byte) : Out :=
  { mem := if o.str < fin then Function.update o.mem o.str c else o.mem
    str := (o.str + 1) % addressEnd }

/-- The output of a text. -/
def putAll (fin : Nat) (o : Out) (text : List Byte) : Out := text.foldl (put fin) o

section PutAll

variable {fin : Nat} {o : Out} {c : Byte} {text text' : List Byte}

@[simp] theorem putAll_nil : putAll fin o [] = o := rfl

@[simp] theorem putAll_cons : putAll fin o (c :: text) = putAll fin (put fin o c) text := rfl

theorem putAll_append : putAll fin o (text ++ text') = putAll fin (putAll fin o text) text' :=
  List.foldl_append ..

/-- What is below `fin` of a text is in its place, the rest is nowhere, and the cursor is behind
the text. -/
theorem putAll_spec (h : o.str + text.length < addressEnd) :
    (putAll fin o text).str = o.str + text.length ∧
      (∀ i, i < text.length → o.str + i < fin →
        some ((putAll fin o text).mem (o.str + i)) = text[i]?) ∧
      ∀ p, (p < o.str ∨ o.str + text.length ≤ p ∨ fin ≤ p) →
        (putAll fin o text).mem p = o.mem p := by
  induction text generalizing o with
  | nil =>
      refine ⟨rfl, ?_, fun _ _ => rfl⟩
      intro i hi
      exact absurd hi (Nat.not_lt_zero i)
  | cons c text ih =>
      rw [List.length_cons] at h
      have hnext : (put fin o c).str = o.str + 1 := Nat.mod_eq_of_lt (by omega)
      have hkeep : ∀ p, p ≠ o.str ∨ fin ≤ p → (put fin o c).mem p = o.mem p := by
        intro p hp
        unfold put
        dsimp only
        split
        · rw [Function.update_of_ne]
          rintro rfl
          omega
        · rfl
      obtain ⟨hstr, hcells, hframe⟩ := @ih (put fin o c) (by rw [hnext]; omega)
      rw [hnext] at hstr hcells hframe
      rw [putAll_cons]
      refine ⟨?_, ?_, ?_⟩
      · rw [hstr, List.length_cons]
        omega
      · intro i hi hfin
        cases i with
        | zero =>
            rw [hframe _ (by omega), List.getElem?_cons_zero]
            unfold put
            dsimp only
            rw [if_pos (by simpa using hfin), Nat.add_zero, Function.update_self]
        | succ i =>
            have hplace : o.str + (i + 1) = o.str + 1 + i := by omega
            rw [List.length_cons] at hi
            rw [hplace, hcells i (by omega) (by omega), List.getElem?_cons_succ]
      · intro p hp
        rw [List.length_cons] at hp
        rw [hframe p (by omega), hkeep p (by omega)]

end PutAll

/-! ## Formatters -/

/-- A function that writes below `fin`; `none` is undefined behaviour. -/
def Print (β : Type) : Type := Nat → Out → Option (β × Out)

namespace Print

variable {β γ : Type}

instance : Monad Print where
  pure b := fun _ o => some (b, o)
  bind f g := fun fin o => (f fin o).bind fun r => g r.1 fin r.2

def emit (c : Byte) : Print Unit := fun fin o => some ((), put fin o c)

/-- A value that is read without output, if it is defined. -/
def ofOption (v : Option β) : Print β := fun _ o => v.map fun b => (b, o)

/-- A function writes `text` and returns `b`. -/
def Emits (f : Print β) (b : β) (text : List Byte) : Prop :=
  ∀ fin o, f fin o = some (b, putAll fin o text)

/-- A function is undefined, whatever the buffer. -/
def Undefined (f : Print β) : Prop := ∀ fin o, f fin o = none

/-- A function is undefined, or writes and returns the same, whatever the buffer. -/
def Uniform (f : Print β) : Prop := Undefined f ∨ ∃ b text, Emits f b text

section Rules

variable {f : Print β} {g : β → Print γ} {b : β} {e : γ} {text text' : List Byte}

theorem emits_pure (b : β) : Emits (pure b) b [] := fun _ _ => rfl

theorem emits_emit (c : Byte) : Emits (emit c) () [c] := fun _ _ => rfl

theorem emits_ofOption (b : β) : Emits (ofOption (some b)) b [] := fun _ _ => rfl

theorem bind_apply (fin : Nat) (o : Out) :
    (f >>= g) fin o = (f fin o).bind fun r => g r.1 fin r.2 := rfl

theorem Emits.bind (hf : Emits f b text) (hg : Emits (g b) e text') :
    Emits (f >>= g) e (text ++ text') := by
  intro fin o
  rw [bind_apply, hf, Option.bind_some, hg, putAll_append]

theorem Emits.bind_pure (hf : Emits f b text) (hg : Emits (g b) e []) :
    Emits (f >>= g) e text := by
  have h := hf.bind hg
  rwa [List.append_nil] at h

theorem Emits.pure_bind (hf : Emits f b []) (hg : Emits (g b) e text) :
    Emits (f >>= g) e text := hf.bind hg

theorem Undefined.bind (hf : Undefined f) : Undefined (f >>= g) := by
  intro fin o
  rw [bind_apply, hf]
  rfl

theorem Emits.bind_undefined (hf : Emits f b text) (hg : Undefined (g b)) :
    Undefined (f >>= g) := by
  intro fin o
  rw [bind_apply, hf, Option.bind_some, hg]

theorem undefined_ofOption_bind {v : Option β} (h : ∀ b, v = some b → Undefined (g b)) :
    Undefined (ofOption v >>= g) := by
  cases v with
  | none => exact Undefined.bind fun _ _ => rfl
  | some b => exact (emits_ofOption b).bind_undefined (h b rfl)

theorem Emits.not_undefined (h : Emits f b text) : ¬ Undefined f := by
  intro hnone
  have hsome := h 0 ⟨fun _ => 0, 0⟩
  rw [hnone] at hsome
  cases hsome

theorem Emits.uniform (h : Emits f b text) : Uniform f := Or.inr ⟨b, text, h⟩

/-- What a function writes is determined by the function. -/
theorem Emits.unique {b' : β} (h : Emits f b text) (h' : Emits f b' text')
    (hlen : text.length < addressEnd) (hlen' : text'.length < addressEnd) :
    b = b' ∧ text = text' := by
  have hsame := (h addressEnd ⟨fun _ => 0, 0⟩).symm.trans (h' addressEnd ⟨fun _ => 0, 0⟩)
  have hpair := Option.some.inj hsame
  have hout : putAll addressEnd ⟨fun _ => 0, 0⟩ text = putAll addressEnd ⟨fun _ => 0, 0⟩ text' :=
    congrArg Prod.snd hpair
  obtain ⟨hstr, hcells, _⟩ := @putAll_spec addressEnd ⟨fun _ => 0, 0⟩ text (by simpa using hlen)
  obtain ⟨hstr', hcells', _⟩ := @putAll_spec addressEnd ⟨fun _ => 0, 0⟩ text' (by simpa using hlen')
  rw [hout] at hstr hcells
  have heq : text.length = text'.length := by
    have hcount := hstr.symm.trans hstr'
    simpa using hcount
  refine ⟨congrArg Prod.fst hpair, ?_⟩
  apply List.ext_getElem?
  intro i
  by_cases hi : i < text.length
  · dsimp only at hcells hcells'
    rw [← hcells i hi (by omega), ← hcells' i (by omega) (by omega)]
  · rw [List.getElem?_eq_none (by omega), List.getElem?_eq_none (by omega)]

theorem uniform_pure (b : β) : Uniform (pure b) := (emits_pure b).uniform

theorem uniform_emit (c : Byte) : Uniform (emit c) := (emits_emit c).uniform

theorem uniform_ofOption (v : Option β) : Uniform (ofOption v) := by
  cases v with
  | none => exact Or.inl fun _ _ => rfl
  | some b => exact (emits_ofOption b).uniform

theorem Uniform.bind (hf : Uniform f) (hg : ∀ b, Uniform (g b)) : Uniform (f >>= g) := by
  rcases hf with hnone | ⟨b, text, hf⟩
  · exact Or.inl hnone.bind
  · rcases hg b with hnone | ⟨e, text', hg⟩
    · exact Or.inl (hf.bind_undefined hnone)
    · exact (hf.bind hg).uniform

/-- Behind defined output, what is undefined is what follows. -/
theorem Emits.undefined_bind_iff (hf : Emits f b text) (hg : Uniform (g b)) :
    Undefined (f >>= g) ↔ Undefined (g b) := by
  constructor
  · intro h
    rcases hg with hnone | ⟨e, text', hg⟩
    · exact hnone
    · exact absurd h (hf.bind hg).not_undefined
  · exact hf.bind_undefined

theorem Uniform.ite {p : Prop} [Decidable p] {f f' : Print β} (h : Uniform f) (h' : Uniform f') :
    Uniform (if p then f else f') := by
  split
  · exact h
  · exact h'

end Rules

end Print

end RtHypervisor.Verified.Sink
