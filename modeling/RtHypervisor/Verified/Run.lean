import Mathlib.Data.List.Basic

/-!
# Runs of a fallible step function

A system is a step function `σ → ε → Except φ σ`: one event either leads to
the next state or leaves the defined part of the program (a failed assertion,
an access through a null pointer).  `run` folds it over a list of events, and
`Guarded` says that every event of the list meets a condition in the state in
which it is taken.

The rule the invariant proofs below use is `run_inv_of_guarded`: a
predicate that each guarded step establishes again, without a fault, holds at
the end of every guarded run; `run_inv_of_returns` and `run_meets` are the rules for
steps that may fault.  Since a prefix of a guarded run is guarded
(`Guarded.of_append`), it holds in every state the run passes through.
-/

namespace RtHypervisor.Verified.Run

variable {σ ε φ : Type}

/-- The ways a modelled C statement can leave its defined behaviour.  An assertion
of the thread layer has a constructor of its own, `wildPointer` is an access
through a dangling or uninitialised pointer, and `fuel` marks a loop of the model
that has used up its iteration bound. -/
inductive Fault
  | assertion
  | threadAssertion
  | nullPointer
  | outOfBounds
  | wildPointer
  | uninitialised
  | fuel
deriving DecidableEq, Repr

/-- Fold a fallible step function over a list of events. -/
def run (step : σ → ε → Except φ σ) (s : σ) : List ε → Except φ σ
  | [] => .ok s
  | e :: es => step s e >>= fun s' => run step s' es

/-- Every event meets `guard` in the state in which the run takes it. -/
def Guarded (step : σ → ε → Except φ σ) (guard : σ → ε → Prop) :
    σ → List ε → Prop
  | _, [] => True
  | s, e :: es => guard s e ∧ ∀ s', step s e = .ok s' → Guarded step guard s' es

/-- Whether a list of events is guarded can be computed. -/
instance decidableGuarded (step : σ → ε → Except φ σ) (guard : σ → ε → Prop)
    [∀ s e, Decidable (guard s e)] : ∀ s es, Decidable (Guarded step guard s es)
  | _, [] => isTrue trivial
  | s, e :: es =>
      match h : step s e with
      | .error _ =>
          decidable_of_iff (guard s e)
            ⟨fun hg => ⟨hg, fun s' hs => by rw [h] at hs; cases hs⟩, fun hg => hg.1⟩
      | .ok s' =>
          haveI := decidableGuarded step guard s' es
          decidable_of_iff (guard s e ∧ Guarded step guard s' es)
            ⟨fun hg => ⟨hg.1, fun s₂ hs => Except.ok.inj (h.symm.trans hs) ▸ hg.2⟩,
              fun hg => ⟨hg.1, hg.2 s' h⟩⟩

section Basic

variable {step : σ → ε → Except φ σ} {guard : σ → ε → Prop} {s : σ}

@[simp] theorem run_nil : run step s [] = .ok s := rfl

theorem run_cons_ok {e : ε} {es : List ε} {s' : σ} (h : step s e = .ok s') :
    run step s (e :: es) = run step s' es := by
  simp only [run, h]
  rfl

theorem run_cons_eq_ok {e : ε} {es : List ε} {t : σ}
    (h : run step s (e :: es) = .ok t) :
    ∃ s', step s e = .ok s' ∧ run step s' es = .ok t := by
  cases hs : step s e with
  | error f =>
      simp only [run, hs] at h
      cases h
  | ok s' => exact ⟨s', rfl, by rwa [run_cons_ok hs] at h⟩

theorem run_append (es fs : List ε) :
    run step s (es ++ fs) = run step s es >>= fun t => run step t fs := by
  induction es generalizing s with
  | nil => rfl
  | cons e es ih =>
      cases hs : step s e with
      | error f => simp only [List.cons_append, run, hs]; rfl
      | ok s' => rw [List.cons_append, run_cons_ok hs, run_cons_ok hs, ih]

theorem run_append_ok {es fs : List ε} {t : σ} (h : run step s es = .ok t) :
    run step s (es ++ fs) = run step t fs := by
  rw [run_append, h]
  rfl

/-- A prefix of a guarded run is guarded. -/
theorem Guarded.of_append {es fs : List ε}
    (h : Guarded step guard s (es ++ fs)) : Guarded step guard s es := by
  induction es generalizing s with
  | nil => trivial
  | cons e es ih => exact ⟨h.1, fun s' hs => ih (h.2 s' hs)⟩

theorem Guarded.and {guard' : σ → ε → Prop} {es : List ε} (h : Guarded step guard s es)
    (h' : Guarded step guard' s es) : Guarded step (fun s e => guard s e ∧ guard' s e) s es := by
  induction es generalizing s with
  | nil => trivial
  | cons e es ih => exact ⟨⟨h.1, h'.1⟩, fun s' hs => ih (h.2 s' hs) (h'.2 s' hs)⟩

/-- A guard that does not look at the state. -/
theorem Guarded.of_forall {es : List ε} (h : ∀ e ∈ es, ∀ s, guard s e) :
    Guarded step guard s es := by
  induction es generalizing s with
  | nil => trivial
  | cons e es ih =>
      exact ⟨h e (List.mem_cons_self ..) s,
        fun s' _ => ih fun f hf => h f (List.mem_cons_of_mem e hf)⟩

/-- What follows a prefix of a guarded run is guarded from the state the
prefix ends in. -/
theorem Guarded.suffix {es fs : List ε} {t : σ}
    (h : Guarded step guard s (es ++ fs)) (hrun : run step s es = .ok t) :
    Guarded step guard t fs := by
  induction es generalizing s with
  | nil =>
      cases hrun
      exact h
  | cons e es ih =>
      obtain ⟨s', hs, hrest⟩ := run_cons_eq_ok hrun
      exact ih (h.2 s' hs) hrest

/-- **Invariant rule.**  A predicate that every guarded step establishes again,
without a fault, survives every guarded run. -/
theorem run_inv_of_guarded {Inv : σ → Prop}
    (hstep : ∀ s e, Inv s → guard s e → ∃ s', step s e = .ok s' ∧ Inv s')
    {es : List ε} (h : Inv s) (hg : Guarded step guard s es) :
    ∃ t, run step s es = .ok t ∧ Inv t := by
  induction es generalizing s with
  | nil => exact ⟨s, rfl, h⟩
  | cons e es ih =>
      obtain ⟨s', hs, hinv⟩ := hstep s e h hg.1
      obtain ⟨t, hrun, ht⟩ := ih hinv (hg.2 s' hs)
      exact ⟨t, by rw [run_cons_ok hs, hrun], ht⟩

/-- **Invariant rule, for the runs that do not fault.**  A predicate that every guarded
step that returns establishes again holds in every state a guarded run reaches. -/
theorem run_inv_of_returns {Inv : σ → Prop}
    (hstep : ∀ s e s', Inv s → guard s e → step s e = .ok s' → Inv s')
    {es : List ε} {t : σ} (h : Inv s) (hg : Guarded step guard s es)
    (hrun : run step s es = .ok t) : Inv t := by
  induction es generalizing s with
  | nil =>
      cases hrun
      exact h
  | cons e es ih =>
      obtain ⟨s', hs, hrest⟩ := run_cons_eq_ok hrun
      exact ih (hstep s e s' h hg.1 hs) (hg.2 s' hs) hrest

/-- Under an invariant one guard may give another. -/
theorem Guarded.of_inv {Inv : σ → Prop} {guard' : σ → ε → Prop}
    (hstep : ∀ s e s', Inv s → guard s e → step s e = .ok s' → Inv s')
    (himp : ∀ s e, Inv s → guard s e → guard' s e) {es : List ε} (h : Inv s)
    (hg : Guarded step guard s es) : Guarded step guard' s es := by
  induction es generalizing s with
  | nil => trivial
  | cons e es ih =>
      exact ⟨himp s e h hg.1, fun s' hs => ih (hstep s e s' h hg.1 hs) (hg.2 s' hs)⟩

/-- `P` holds in every state a run passes through. -/
def Always (step : σ → ε → Except φ σ) (P : σ → Prop) : σ → List ε → Prop
  | s, [] => P s
  | s, e :: es => P s ∧ ∀ s', step s e = .ok s' → Always step P s' es

theorem Always.of_start {P : σ → Prop} {es : List ε} (h : Always step P s es) : P s := by
  cases es with
  | nil => exact h
  | cons e es => exact h.1

/-- An invariant that every guarded step keeps, without a fault, holds all along a run. -/
theorem always_of_guarded {Inv P : σ → Prop}
    (hstep : ∀ s e, Inv s → guard s e → ∃ s', step s e = .ok s' ∧ Inv s')
    (hP : ∀ s, Inv s → P s) {es : List ε} (h : Inv s) (hg : Guarded step guard s es) :
    Always step P s es := by
  induction es generalizing s with
  | nil => exact hP s h
  | cons e es ih =>
      refine ⟨hP s h, fun s' hs => ?_⟩
      obtain ⟨s₂, hs₂, hinv⟩ := hstep s e h hg.1
      cases hs.symm.trans hs₂
      exact ih hinv (hg.2 s' hs)

/-- The same for steps that may fault: nothing is asked of the run after a fault. -/
theorem always_of_returns {Inv P : σ → Prop}
    (hstep : ∀ s e s', Inv s → guard s e → step s e = .ok s' → Inv s')
    (hP : ∀ s, Inv s → P s) {es : List ε} (h : Inv s) (hg : Guarded step guard s es) :
    Always step P s es := by
  induction es generalizing s with
  | nil => exact hP s h
  | cons e es ih =>
      exact ⟨hP s h, fun s' hs => ih (hstep s e s' h hg.1 hs) (hg.2 s' hs)⟩

theorem Always.of_run {P : σ → Prop} {es : List ε} {t : σ} (h : Always step P s es)
    (hrun : run step s es = .ok t) : P t := by
  induction es generalizing s with
  | nil =>
      cases hrun
      exact h
  | cons e es ih =>
      obtain ⟨s', hs, hrest⟩ := run_cons_eq_ok hrun
      exact ih (h.2 s' hs) hrest

/-- A run whose states all have `P` returns, if a guarded step from such a state does. -/
theorem Always.returns {P : σ → Prop} (hstep : ∀ s e, P s → guard s e → ∃ s', step s e = .ok s')
    {es : List ε} (h : Always step P s es) (hg : Guarded step guard s es) :
    ∃ t, run step s es = .ok t := by
  induction es generalizing s with
  | nil => exact ⟨s, rfl⟩
  | cons e es ih =>
      obtain ⟨s', hs⟩ := hstep s e h.1 hg.1
      obtain ⟨t, hrest⟩ := ih (h.2 s' hs) (hg.2 s' hs)
      exact ⟨t, by rw [run_cons_ok hs, hrest]⟩

/-- **When a property holds all along a run.**  If a step from a state with `P` keeps the
invariant, and leads to a state with `P` if and only if it meets `cond`, then `P` holds in every
state of a run if and only if every step of the run meets `cond`. -/
theorem always_iff_guarded_of_both {Inv P : σ → Prop} {cond : σ → ε → Prop}
    (hboth : ∀ s e s', Inv s → P s → guard s e → step s e = .ok s' →
      Inv s' ∧ (P s' ↔ cond s e))
    {es : List ε} {t : σ} (hs : Inv s) (hP : P s) (hg : Guarded step guard s es)
    (hrun : run step s es = .ok t) : Always step P s es ↔ Guarded step cond s es := by
  induction es generalizing s with
  | nil => exact ⟨fun _ => trivial, fun _ => hP⟩
  | cons e es ih =>
      obtain ⟨s', hstep, hrest⟩ := run_cons_eq_ok hrun
      obtain ⟨hinv, hnext⟩ := hboth s e s' hs hP hg.1 hstep
      have htail : P s' → (Always step P s' es ↔ Guarded step cond s' es) := fun hP' =>
        ih hinv hP' (hg.2 s' hstep) hrest
      have hsame : ∀ s₂, step s e = .ok s₂ → s₂ = s' := fun s₂ h₂ =>
        Except.ok.inj (h₂.symm.trans hstep)
      constructor
      · rintro ⟨-, halways⟩
        have hP' : P s' := (halways s' hstep).of_start
        refine ⟨hnext.mp hP', fun s₂ h₂ => ?_⟩
        rw [hsame s₂ h₂]
        exact (htail hP').mp (halways s' hstep)
      · rintro ⟨hmeets, hguarded⟩
        refine ⟨hP, fun s₂ h₂ => ?_⟩
        rw [hsame s₂ h₂]
        exact (htail (hnext.mpr hmeets)).mpr (hguarded s' hstep)

/-- The same for an invariant that does not need `P`. -/
theorem always_iff_guarded {Inv P : σ → Prop} {cond : σ → ε → Prop}
    (hinv : ∀ s e s', Inv s → guard s e → step s e = .ok s' → Inv s')
    (hcond : ∀ s e s', Inv s → guard s e → step s e = .ok s' → P s → (P s' ↔ cond s e))
    {es : List ε} {t : σ} (hs : Inv s) (hP : P s) (hg : Guarded step guard s es)
    (hrun : run step s es = .ok t) : Always step P s es ↔ Guarded step cond s es :=
  always_iff_guarded_of_both
    (fun s e s' h hP hguard hstep =>
      ⟨hinv s e s' h hguard hstep, hcond s e s' h hguard hstep hP⟩) hs hP hg hrun

/-- **When a property holds all along a run that returns.**  If `cond` is what a step needs to
return into a state with `P`, it is what every step of the run needs. -/
theorem returns_iff_guarded {Inv P : σ → Prop} {cond : σ → ε → Prop}
    (hgood : ∀ s e, Inv s → P s → guard s e → cond s e →
      ∃ s', step s e = .ok s' ∧ P s' ∧ Inv s')
    (hneed : ∀ s e s', Inv s → P s → guard s e → step s e = .ok s' → P s' → cond s e)
    {es : List ε} (hs : Inv s) (hP : P s) (hg : Guarded step guard s es) :
    ((∃ t, run step s es = .ok t) ∧ Always step P s es) ↔ Guarded step cond s es := by
  induction es generalizing s with
  | nil => exact ⟨fun _ => trivial, fun _ => ⟨⟨s, rfl⟩, hP⟩⟩
  | cons e es ih =>
      constructor
      · rintro ⟨⟨t, hrun⟩, -, halways⟩
        obtain ⟨s', hstep, hrest⟩ := run_cons_eq_ok hrun
        have hP' : P s' := (halways s' hstep).of_start
        have hcond : cond s e := hneed s e s' hs hP hg.1 hstep hP'
        refine ⟨hcond, fun s₂ h₂ => ?_⟩
        cases h₂.symm.trans hstep
        obtain ⟨s₃, h₃, -, hs'⟩ := hgood s e hs hP hg.1 hcond
        cases h₃.symm.trans hstep
        exact (ih hs' hP' (hg.2 s' hstep)).mp ⟨⟨t, hrest⟩, halways s' hstep⟩
      · rintro ⟨hcond, hguarded⟩
        obtain ⟨s', hstep, hP', hs'⟩ := hgood s e hs hP hg.1 hcond
        obtain ⟨⟨t, hrest⟩, halways⟩ := (ih hs' hP' (hg.2 s' hstep)).mpr (hguarded s' hstep)
        refine ⟨⟨t, by rw [run_cons_ok hstep, hrest]⟩, hP, fun s₂ h₂ => ?_⟩
        cases h₂.symm.trans hstep
        exact halways

end Basic

/-! ## Peeling monadic code apart -/

/-- A successful bind splits into its two successful halves. -/
theorem bind_eq_ok {α β : Type} {x : Except φ α} {f : α → Except φ β} {b : β} :
    (x >>= f) = .ok b ↔ ∃ a, x = .ok a ∧ f a = .ok b := by
  cases x with
  | error e =>
      constructor
      · intro h
        cases h
      · rintro ⟨a, ha, -⟩
        cases ha
  | ok a =>
      constructor
      · intro h
        exact ⟨a, rfl, h⟩
      · rintro ⟨a', ha, hf⟩
        cases ha
        exact hf

@[simp] theorem ok_bind {α β : Type} (a : α) (f : α → Except φ β) :
    ((.ok a : Except φ α) >>= f) = f a := rfl

@[simp] theorem error_bind {α β : Type} (e : φ) (f : α → Except φ β) :
    ((.error e : Except φ α) >>= f) = .error e := rfl

theorem pure_eq_ok {α : Type} {a b : α} : (pure a : Except φ α) = .ok b ↔ a = b := by
  constructor
  · intro h
    exact Except.ok.inj h
  · rintro rfl
    rfl

/-- Read a successful outcome back from what was computed from it. -/
theorem exists_of_map_eq_ok {α β : Type} {x : Except φ α} {f : α → β} {b : β}
    (h : x.map f = .ok b) : ∃ a, x = .ok a ∧ f a = b := by
  cases x with
  | error e => cases h
  | ok a => exact ⟨a, rfl, Except.ok.inj h⟩

/-- Refuse to continue unless `c` holds: `RT_ASSERT` and its relatives. -/
def check (f : Fault) (c : Bool) : Except Fault Unit :=
  if c then .ok () else .error f

@[simp] theorem check_true (f : Fault) : check f true = .ok () := rfl

@[simp] theorem check_false (f : Fault) : check f false = .error f := rfl

theorem check_eq_ok {f : Fault} {c : Bool} {u : Unit} : check f c = .ok u ↔ c = true := by
  cases c with
  | false => simp [check]
  | true => simp [check]

/-- Dereference a pointer that may be null. -/
def deref {α : Type} (p : Option α) : Except Fault α :=
  match p with
  | some a => .ok a
  | none => .error .nullPointer

@[simp] theorem deref_some {α : Type} (a : α) : deref (some a) = .ok a := rfl

theorem deref_eq_ok {α : Type} {p : Option α} {a : α} : deref p = .ok a ↔ p = some a := by
  cases p with
  | none => simp [deref]
  | some b => simp [deref]

@[simp] theorem deref_none {α : Type} : deref (none : Option α) = .error .nullPointer := rfl

/-! ## Outcomes

`Meets P Q x` says of a computation both what it returns and how it can fault. -/

def Meets {α : Type} (P : φ → Prop) (Q : α → Prop) : Except φ α → Prop
  | .ok a => Q a
  | .error f => P f

section Meets

variable {α β : Type} {P : φ → Prop} {Q R : α → Prop} {x : Except φ α}

@[simp] theorem meets_ok {a : α} : Meets P Q (.ok a) ↔ Q a := Iff.rfl

@[simp] theorem meets_error {f : φ} : Meets P Q (.error f) ↔ P f := Iff.rfl

@[simp] theorem meets_pure {a : α} : Meets P Q (pure a) ↔ Q a := Iff.rfl

theorem Meets.mono (h : Meets P Q x) (himp : ∀ a, Q a → R a) : Meets P R x := by
  cases x with
  | error f => exact h
  | ok a => exact himp a h

theorem Meets.bind {f : α → Except φ β} {S : β → Prop} (h : Meets P Q x)
    (hf : ∀ a, Q a → Meets P S (f a)) : Meets P S (x >>= f) := by
  cases x with
  | error e => exact h
  | ok a => exact hf a h

theorem Meets.of_ok (h : Meets P Q x) {a : α} (hx : x = .ok a) : Q a := by
  rw [hx] at h
  exact h

/-- Remember which value was returned. -/
theorem Meets.with_eq (h : Meets P Q x) : Meets P (fun a => x = .ok a ∧ Q a) x := by
  cases x with
  | error f => exact h
  | ok a => exact ⟨rfl, h⟩

theorem meets_ite {c : Prop} [Decidable c] {y : Except φ α} (hpos : c → Meets P Q x)
    (hneg : ¬c → Meets P Q y) : Meets P Q (if c then x else y) := by
  split
  · exact hpos (by assumption)
  · exact hneg (by assumption)

theorem meets_check {P : Fault → Prop} {Q : Unit → Prop} {f : Fault} {c : Bool}
    (hok : c = true → Q ()) (hfault : c = false → P f) : Meets P Q (check f c) := by
  cases c with
  | false => exact hfault rfl
  | true => exact hok rfl

/-- **Invariant rule, with faults.**  Steps that keep the invariant or end in an allowed
fault make runs that do. -/
theorem run_meets {step : σ → ε → Except φ σ} {guard : σ → ε → Prop} {Inv : σ → Prop}
    (hstep : ∀ s e, Inv s → guard s e → Meets P Inv (step s e)) {s : σ} {es : List ε}
    (h : Inv s) (hg : Guarded step guard s es) : Meets P Inv (run step s es) := by
  induction es generalizing s with
  | nil => exact h
  | cons e es ih =>
      refine (hstep s e h hg.1).with_eq.bind ?_
      rintro s' ⟨hs, hinv⟩
      exact ih hinv (hg.2 s' hs)

end Meets

end RtHypervisor.Verified.Run
