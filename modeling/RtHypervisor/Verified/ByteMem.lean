import Mathlib.Data.List.Basic
import Mathlib.Logic.Function.Basic

/-!
# A byte-addressed memory

Memory is a function from addresses to bytes.  A word access reads or writes
eight bytes in little-endian order; `fill` and `blit` are `memset` and `memcpy`.
The lemmas say what a word access sees after each kind of write, and
`UnchangedOff` is the frame condition the proofs about page tables carry along.
-/

namespace RtHypervisor.Verified.ByteMem

/-- The bytes of the address space. -/
def Mem := Nat → BitVec 8

/-- Read the word at `a`. -/
def load64 (m : Mem) (a : Nat) : BitVec 64 :=
  m (a + 7) ++ m (a + 6) ++ m (a + 5) ++ m (a + 4) ++ m (a + 3) ++ m (a + 2) ++ m (a + 1) ++ m a

/-- Write the word at `a`. -/
def store64 (m : Mem) (a : Nat) (v : BitVec 64) : Mem := fun x =>
  if a ≤ x ∧ x < a + 8 then v.extractLsb' (8 * (x - a)) 8 else m x

/-- `memset(a, b, n)`. -/
def fill (m : Mem) (a n : Nat) (b : BitVec 8) : Mem := fun x =>
  if a ≤ x ∧ x < a + n then b else m x

/-- `memcpy(dst, src, n)`, where `src` gives the bytes that are copied. -/
def blit (m : Mem) (dst n : Nat) (src : Nat → BitVec 8) : Mem := fun x =>
  if dst ≤ x ∧ x < dst + n then src (x - dst) else m x

/-! ## Words -/

theorem load64_congr {m m' : Mem} {a : Nat} (h : ∀ i, i < 8 → m' (a + i) = m (a + i)) :
    load64 m' a = load64 m a := by
  have h0 := h 0 (by decide)
  rw [Nat.add_zero] at h0
  simp only [load64, h0, h 1 (by decide), h 2 (by decide), h 3 (by decide), h 4 (by decide),
    h 5 (by decide), h 6 (by decide), h 7 (by decide)]

/-- A word is the concatenation of its bytes. -/
theorem append_bytes (v : BitVec 64) :
    (v.extractLsb' 56 8 ++ v.extractLsb' 48 8 ++ v.extractLsb' 40 8 ++ v.extractLsb' 32 8 ++
      v.extractLsb' 24 8 ++ v.extractLsb' 16 8 ++ v.extractLsb' 8 8 ++ v.extractLsb' 0 8 :
        BitVec 64) = v := by
  ext i hi
  simp only [BitVec.getElem_append, BitVec.getElem_extractLsb']
  split <;> grind

theorem store64_apply {m : Mem} {a : Nat} {v : BitVec 64} {i : Nat} (hi : i < 8) :
    store64 m a v (a + i) = v.extractLsb' (8 * i) 8 := by
  unfold store64
  rw [if_pos (by omega), Nat.add_sub_cancel_left]

theorem store64_off {m : Mem} {a x : Nat} {v : BitVec 64} (h : x < a ∨ a + 8 ≤ x) :
    store64 m a v x = m x := by
  unfold store64
  rw [if_neg (by omega)]

@[simp] theorem load64_store64_self (m : Mem) (a : Nat) (v : BitVec 64) :
    load64 (store64 m a v) a = v := by
  have h0 : store64 m a v a = v.extractLsb' 0 8 := store64_apply (i := 0) (by decide)
  unfold load64
  rw [h0, store64_apply (by decide), store64_apply (by decide), store64_apply (by decide),
    store64_apply (by decide), store64_apply (by decide), store64_apply (by decide),
    store64_apply (by decide)]
  exact append_bytes v

theorem load64_store64_of_disjoint {m : Mem} {a b : Nat} {v : BitVec 64}
    (h : a + 8 ≤ b ∨ b + 8 ≤ a) : load64 (store64 m a v) b = load64 m b := by
  apply load64_congr
  intro i hi
  exact store64_off (by omega)

/-- Two aligned words are the same one or do not overlap. -/
theorem load64_store64_of_aligned {m : Mem} {a b : Nat} {v : BitVec 64} (ha : a % 8 = 0)
    (hb : b % 8 = 0) (h : a ≠ b) : load64 (store64 m a v) b = load64 m b :=
  load64_store64_of_disjoint (by omega)

/-- A byte that is not part of the word changes. -/
theorem load64_update_of_off {m : Mem} {a x : Nat} {v : BitVec 8} (h : x < a ∨ a + 8 ≤ x) :
    load64 (Function.update m x v) a = load64 m a := by
  apply load64_congr
  intro i hi
  exact Function.update_of_ne (by omega) ..

theorem load64_fill_zero {m : Mem} {a n b : Nat} (hlo : a ≤ b) (hhi : b + 8 ≤ a + n) :
    load64 (fill m a n 0) b = 0 := by
  have hbyte : ∀ i, i < 8 → fill m a n 0 (b + i) = 0 := by
    intro i hi
    unfold fill
    rw [if_pos (by omega)]
  have h0 := hbyte 0 (by decide)
  rw [Nat.add_zero] at h0
  simp only [load64, h0, hbyte 1 (by decide), hbyte 2 (by decide), hbyte 3 (by decide),
    hbyte 4 (by decide), hbyte 5 (by decide), hbyte 6 (by decide), hbyte 7 (by decide)]
  decide

/-! ## Rows of words -/

/-- Write the words `f 0`, .., `f (n - 1)` one after the other from `a` on. -/
def storeWords (m : Mem) (a : Nat) (f : Nat → BitVec 64) : Nat → Mem
  | 0 => m
  | n + 1 => storeWords (store64 m a (f 0)) (a + 8) (fun i => f (i + 1)) n

/-- A word before or behind the row. -/
theorem load64_storeWords_off {m : Mem} {a b n : Nat} {f : Nat → BitVec 64}
    (h : b + 8 ≤ a ∨ a + 8 * n ≤ b) : load64 (storeWords m a f n) b = load64 m b := by
  induction n generalizing m a f with
  | zero => rfl
  | succ n ih =>
      rw [storeWords, ih (by omega), load64_store64_of_disjoint (by omega)]

theorem load64_storeWords {m : Mem} {a n i : Nat} {f : Nat → BitVec 64} (hi : i < n) :
    load64 (storeWords m a f n) (a + 8 * i) = f i := by
  induction n generalizing m a f i with
  | zero => omega
  | succ n ih =>
      rw [storeWords]
      cases i with
      | zero =>
          rw [load64_storeWords_off (by omega)]
          exact load64_store64_self m a (f 0)
      | succ i =>
          have hnext := ih (m := store64 m a (f 0)) (a := a + 8) (f := fun i => f (i + 1))
            (i := i) (by omega)
          have haddr : a + 8 * (i + 1) = a + 8 + 8 * i := by omega
          rw [haddr, hnext]

/-! ## Frames -/

/-- `m'` agrees with `m` at every address outside `region`. -/
def UnchangedOff (region : Nat → Prop) (m m' : Mem) : Prop :=
  ∀ x, ¬region x → m' x = m x

section Frame

variable {region : Nat → Prop} {m m' m'' : Mem}

theorem UnchangedOff.refl (m : Mem) : UnchangedOff region m m := fun _ _ => rfl

theorem UnchangedOff.trans (h : UnchangedOff region m m') (h' : UnchangedOff region m' m'') :
    UnchangedOff region m m'' :=
  fun x hx => (h' x hx).trans (h x hx)

theorem UnchangedOff.mono {region' : Nat → Prop} (h : UnchangedOff region m m')
    (hsub : ∀ x, region x → region' x) : UnchangedOff region' m m' :=
  fun x hx => h x (fun hr => hx (hsub x hr))

theorem UnchangedOff.load64_eq (h : UnchangedOff region m m') {a : Nat}
    (ha : ∀ i, i < 8 → ¬region (a + i)) : load64 m' a = load64 m a :=
  load64_congr fun i hi => h _ (ha i hi)

theorem unchangedOff_store64 {a : Nat} {v : BitVec 64}
    (h : ∀ i, i < 8 → region (a + i)) : UnchangedOff region m (store64 m a v) := by
  intro x hx
  apply store64_off
  by_contra hin
  have hr := h (x - a) (by omega)
  rw [Nat.add_sub_cancel' (by omega)] at hr
  exact hx hr

theorem unchangedOff_storeWords {a n : Nat} {f : Nat → BitVec 64}
    (h : ∀ i, i < 8 * n → region (a + i)) : UnchangedOff region m (storeWords m a f n) := by
  induction n generalizing m a f with
  | zero => exact UnchangedOff.refl m
  | succ n ih =>
      have hfirst : UnchangedOff region m (store64 m a (f 0)) :=
        unchangedOff_store64 fun i hi => h i (by omega)
      apply hfirst.trans
      apply ih
      intro i hi
      have hin := h (8 + i) (by omega)
      rwa [← Nat.add_assoc] at hin

theorem unchangedOff_fill {a n : Nat} {b : BitVec 8}
    (h : ∀ i, i < n → region (a + i)) : UnchangedOff region m (fill m a n b) := by
  intro x hx
  unfold fill
  rw [if_neg]
  intro hin
  have hr := h (x - a) (by omega)
  rw [Nat.add_sub_cancel' hin.1] at hr
  exact hx hr

theorem unchangedOff_blit {dst n : Nat} {src : Nat → BitVec 8}
    (h : ∀ i, i < n → region (dst + i)) : UnchangedOff region m (blit m dst n src) := by
  intro x hx
  unfold blit
  rw [if_neg]
  intro hin
  have hr := h (x - dst) (by omega)
  rw [Nat.add_sub_cancel' hin.1] at hr
  exact hx hr

end Frame

end RtHypervisor.Verified.ByteMem
