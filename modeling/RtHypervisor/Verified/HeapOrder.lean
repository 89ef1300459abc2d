import Mathlib

/-!
# The order of a binary heap in an array

`key i` is the key in cell `i`, and the sons of `i` are `2 * i + 1` and `2 * i + 2`.  `Sifting` is
the state of a sift that stands at `dad`: every other node is in order, and what hangs below `dad`
may be moved to its place.  One exchange with the larger son moves the sift down
(`Sifting.descend`), and the array is a heap when the sift may stop (`Sifting.stop`).

An exchange takes the larger key up, so that the cells in front never come to hold smaller keys
than before (`FrontLe.of_exchange`).  `Way` is the way down along the larger sons, which a key that
is nowhere exceeded from below takes to its end.
-/

namespace RtHypervisor.Verified.HeapOrder

variable {α : Type} [LinearOrder α] {key key' : Nat → α} {n i dad son : Nat}

def IsSon (c i : Nat) : Prop := c = 2 * i + 1 ∨ c = 2 * i + 2

/-- The sons of `i` among the first `n` cells have no larger key. -/
def InOrder (key : Nat → α) (n i : Nat) : Prop := ∀ c, IsSon c i → c < n → key c ≤ key i

/-- The nodes from `start` on are in order. -/
def OrderedFrom (start : Nat) (key : Nat → α) (n : Nat) : Prop := ∀ i, start ≤ i → InOrder key n i

/-- Every node is in order. -/
def IsHeap (key : Nat → α) (n : Nat) : Prop := ∀ i, InOrder key n i

structure Sifting (key : Nat → α) (n dad : Nat) : Prop where
  except : ∀ i, i ≠ dad → InOrder key n i
  grand : ∀ p, IsSon dad p → ∀ c, IsSon c dad → c < n → key c ≤ key p

theorem OrderedFrom.sifting (h : OrderedFrom 1 key n) : Sifting key n 0 where
  except := fun i hi => h i (by omega)
  grand := fun p hp => by
    unfold IsSon at hp
    omega

theorem IsHeap.orderedFrom (h : IsHeap key n) : OrderedFrom i key n := fun i _ => h i

theorem Sifting.stop (h : Sifting key n dad) (hdad : InOrder key n dad) : IsHeap key n := by
  intro i
  by_cases heq : i = dad
  · rw [heq]
    exact hdad
  · exact h.except i heq

/-- The larger son takes the place of `dad`. -/
theorem Sifting.descend (h : Sifting key n dad) (hson : IsSon son dad) (hn : son < n)
    (hlarger : ∀ c, IsSon c dad → c < n → key c ≤ key son) (hle : key dad ≤ key son)
    (hdad' : key' dad = key son) (hson' : key' son = key dad)
    (hrest : ∀ i, i ≠ dad → i ≠ son → key' i = key i) : Sifting key' n son where
  except := by
    intro i hi c hc hcn
    by_cases hdad : i = dad
    · subst hdad
      rw [hdad']
      by_cases hcs : c = son
      · rw [hcs, hson']
        exact hle
      · rw [hrest c (by unfold IsSon at hc; omega) hcs]
        exact hlarger c hc hcn
    · rw [hrest i hdad hi]
      have hcs : c ≠ son := by
        unfold IsSon at hc hson
        omega
      by_cases hcd : c = dad
      · rw [hcd, hdad']
        rw [hcd] at hc
        exact h.grand i hc son hson hn
      · rw [hrest c hcd hcs]
        exact h.except i hdad c hc hcn
  grand := by
    intro p hp c hc hcn
    have hpd : p = dad := by
      unfold IsSon at hp hson
      omega
    have hcd : c ≠ dad ∧ c ≠ son := by
      unfold IsSon at hc hson
      omega
    rw [hpd, hdad', hrest c hcd.1 hcd.2]
    have hsd : son ≠ dad := by
      unfold IsSon at hson
      omega
    exact h.except son hsd c hc hcn

/-! ## The cells in front -/

/-- No key of the first `m` cells exceeds one of the others. -/
def FrontLe (m : Nat) (key : Nat → α) (n : Nat) : Prop :=
  ∀ i j, i < m → m ≤ j → j < n → key i ≤ key j

/-- What is in front after an exchange was in front before it. -/
theorem FrontLe.of_exchange {m : Nat} (h : FrontLe m key' n) (hlt : dad < son) (hn : son < n)
    (hle : key dad ≤ key son) (hdad' : key' dad = key son) (hson' : key' son = key dad)
    (hrest : ∀ i, i ≠ dad → i ≠ son → key' i = key i) : FrontLe m key n := by
  by_cases hcross : dad < m ∧ m ≤ son
  · -- a larger key does not come to the front, so the two are equal
    have hge : key son ≤ key dad := by
      have hfront := h dad son hcross.1 hcross.2 hn
      rwa [hdad', hson'] at hfront
    have hsame : ∀ i, key' i = key i := by
      intro i
      by_cases hid : i = dad
      · rw [hid, hdad']
        exact le_antisymm hge hle
      · by_cases his : i = son
        · rw [his, hson']
          exact le_antisymm hle hge
        · exact hrest i hid his
    intro i j hi hj hjn
    rw [← hsame i, ← hsame j]
    exact h i j hi hj hjn
  · -- both cells are in front, or neither is
    have hmoved : ∀ i, ∃ i', (i' < m ↔ i < m) ∧ (i' < n ↔ i < n) ∧ key' i' = key i := by
      intro i
      by_cases hid : i = dad
      · exact ⟨son, by omega, by omega, by rw [hson', hid]⟩
      · by_cases his : i = son
        · exact ⟨dad, by omega, by omega, by rw [hdad', his]⟩
        · exact ⟨i, Iff.rfl, Iff.rfl, hrest i hid his⟩
    intro i j hi hj hjn
    obtain ⟨i', him, -, hki⟩ := hmoved i
    obtain ⟨j', hjm, hjn', hkj⟩ := hmoved j
    rw [← hki, ← hkj]
    exact h i' j' (him.mpr hi) (by omega) (hjn'.mpr hjn)

/-- Every key of the first `m` cells is below all the others. -/
def FrontLt (m : Nat) (key : Nat → α) (n : Nat) : Prop :=
  ∀ i j, i < m → m ≤ j → j < n → key i < key j

/-- An exchange that keeps the front in order stays in it. -/
theorem FrontLt.inside {m : Nat} (h : FrontLt m key n) (h' : FrontLe m key' n) (hm : dad < m)
    (hn : son < n) (hdad' : key' dad = key son) (hson' : key' son = key dad) : son < m := by
  by_contra hout
  have hlt : key dad < key son := h dad son hm (by omega) hn
  have hle : key' dad ≤ key' son := h' dad son hm (by omega) hn
  rw [hdad', hson'] at hle
  exact not_le.mpr hlt hle

theorem FrontLt.exchange {m : Nat} (h : FrontLt m key n) (hdad : dad < m) (hson : son < m)
    (hdad' : key' dad = key son) (hson' : key' son = key dad)
    (hrest : ∀ i, i ≠ dad → i ≠ son → key' i = key i) : FrontLt m key' n := by
  intro i j hi hj hjn
  rw [hrest j (by omega) (by omega)]
  by_cases hid : i = dad
  · rw [hid, hdad']
    exact h son j hson hj hjn
  · by_cases his : i = son
    · rw [his, hson']
      exact h dad j hdad hj hjn
    · rw [hrest i hid his]
      exact h i j hi hj hjn

/-! ## The way of the larger sons -/

/-- The son `s` of `i` has the larger key, or is the left one of two with the same key. -/
def IsLarger (key : Nat → α) (n s i : Nat) : Prop :=
  s < n ∧ (s = 2 * i + 1 ∧ (2 * i + 2 < n → key (2 * i + 2) ≤ key (2 * i + 1)) ∨
    s = 2 * i + 2 ∧ key (2 * i + 1) < key (2 * i + 2))

theorem IsLarger.isSon {s : Nat} (h : IsLarger key n s i) : IsSon s i := by
  rcases h.2 with ⟨hs, -⟩ | ⟨hs, -⟩
  · exact Or.inl hs
  · exact Or.inr hs

theorem IsLarger.le {c s : Nat} (h : IsLarger key n s i) (hc : IsSon c i) (hn : c < n) :
    key c ≤ key s := by
  rcases h.2 with ⟨rfl, hle⟩ | ⟨rfl, hlt⟩
  · rcases hc with rfl | rfl
    · exact le_rfl
    · exact hle hn
  · rcases hc with rfl | rfl
    · exact hlt.le
    · exact le_rfl

theorem IsLarger.unique {s s' : Nat} (h : IsLarger key n s i) (h' : IsLarger key n s' i) :
    s = s' := by
  have hs := h.1
  have hs' := h'.1
  rcases h.2 with ⟨rfl, hle⟩ | ⟨rfl, hlt⟩
  · rcases h'.2 with ⟨rfl, -⟩ | ⟨rfl, hlt'⟩
    · rfl
    · exact absurd (hle hs') (not_le.mpr hlt')
  · rcases h'.2 with ⟨rfl, hle'⟩ | ⟨rfl, -⟩
    · exact absurd (hle' hs) (not_le.mpr hlt)
    · rfl

/-- From `i` the larger sons lead down to `j`. -/
inductive Way (key : Nat → α) (n : Nat) : Nat → Nat → Prop
  | here (i : Nat) : Way key n i i
  | down {i s j : Nat} (hs : IsLarger key n s i) (hj : Way key n s j) : Way key n i j

/-- The way looks at the keys below its start only. -/
theorem Way.congr {j : Nat} (h : Way key n i j) (hsame : ∀ c, i < c → key' c = key c) :
    Way key' n i j := by
  induction h with
  | here i => exact Way.here i
  | @down i s j hs _ ih =>
      have hlt : i < s := by
        have hson := hs.isSon
        unfold IsSon at hson
        omega
      have hs' : IsLarger key' n s i := by
        unfold IsLarger
        rw [hsame (2 * i + 1) (by omega), hsame (2 * i + 2) (by omega)]
        exact hs
      exact Way.down hs' (ih fun c hc => hsame c (hlt.trans hc))

theorem Way.le {j : Nat} (h : Way key n i j) : i ≤ j := by
  induction h with
  | here i => exact le_rfl
  | @down i s j hs _ ih =>
      have hson := hs.isSon
      unfold IsSon at hson
      omega

/-- There is one way to the end. -/
theorem Way.unique {j j' : Nat} (h : Way key n i j) (h' : Way key n i j') (hend : n ≤ 2 * j + 1)
    (hend' : n ≤ 2 * j' + 1) : j = j' := by
  induction h with
  | here i =>
      cases h' with
      | here => rfl
      | down hs _ =>
          have hson := hs.isSon
          have hlt := hs.1
          unfold IsSon at hson
          omega
  | @down i s j hs _ ih =>
      cases h' with
      | here =>
          have hson := hs.isSon
          have hlt := hs.1
          unfold IsSon at hson
          omega
      | down hs' hj' =>
          cases hs.unique hs'
          exact ih hj' hend

end RtHypervisor.Verified.HeapOrder
