import Mathlib.Data.List.Chain
import Mathlib.Tactic

/-!
# Skip lists

A skip list holds its elements in the bottom row; each row above it is a sublist of the
row below.  `insertRows` finds the place of a new element row by row, each time from the
place found in the row above, and links it into the bottom row and the `height` rows next
to it.

The search passes elements with `pass`.  Where `pass` holds on an initial piece of the
bottom row (`Ahead`), the new element ends up behind exactly the elements that pass, in
every row it is linked into: `insertRows_spec`.
-/

namespace RtHypervisor.Verified.SkipList

/-- The rows, the sparsest first, and the bottom row. -/
structure Rows (α : Type) where
  upper : List (List α)
  bottom : List α
deriving DecidableEq, Repr

variable {α : Type}

/-- Each row is a sublist of the row below it. -/
def Nested (l : Rows α) : Prop := (l.upper ++ [l.bottom]).IsChain List.Sublist

/-- The elements that pass come before those that do not. -/
def Ahead (pass : α → Bool) (row : List α) : Prop :=
  row.Pairwise fun a b => pass b = true → pass a = true

/-- An empty list of `n + 1` rows. -/
def empty (α : Type) (n : Nat) : Rows α := ⟨List.replicate n [], []⟩

variable [DecidableEq α]

/-- Take an element out of every row. -/
def remove (l : Rows α) (a : α) : Rows α :=
  ⟨l.upper.map fun row => row.erase a, l.bottom.erase a⟩

/-- The elements of `row` behind `p`, all of them when there is none. -/
def after (row : List α) : Option α → List α
  | none => row
  | some p => (row.dropWhile (· ≠ p)).tail

/-- The last element passed, starting behind `p`. -/
def searchRow (pass : α → Bool) : List α → Option α → Option α
  | [], p => p
  | a :: row, p => if pass a then searchRow pass row (some a) else p

/-- Link `a` behind `p`, in front when there is none. -/
def insertAfter (a : α) : Option α → List α → List α
  | none, row => a :: row
  | some _, [] => []
  | some p, q :: row => if q = p then q :: a :: row else q :: insertAfter a (some p) row

/-- Search row by row and link `a` into the lowest `height + 1` rows. -/
def insertRows (pass : α → Bool) (a : α) (height : Nat) :
    List (List α) → List α → Option α → Rows α
  | [], bottom, p => ⟨[], insertAfter a (searchRow pass (after bottom p) p) bottom⟩
  | row :: upper, bottom, p =>
      let q := searchRow pass (after row p) p
      let below := insertRows pass a height upper bottom q
      ⟨(if upper.length < height then insertAfter a q row else row) :: below.upper, below.bottom⟩

/-- `a` behind the elements that pass. -/
def place (pass : α → Bool) (a : α) (row : List α) : List α :=
  row.filter pass ++ a :: row.filter fun b => !pass b

variable {pass : α → Bool} {a p : α} {row row' : List α}

/-! ## One row -/

theorem insertAfter_append (hp : p ∉ row) :
    insertAfter a (some p) (row ++ p :: row') = row ++ p :: a :: row' := by
  induction row with
  | nil => simp [insertAfter]
  | cons b row ih =>
      rw [List.mem_cons, not_or] at hp
      rw [List.cons_append, insertAfter, if_neg (Ne.symm hp.1), ih hp.2]
      rfl

theorem after_append (hp : p ∉ row) : after (row ++ p :: row') (some p) = row' := by
  have hall : ∀ b ∈ row, (decide (b ≠ p)) = true := by
    intro b hb
    have hne : b ≠ p := fun heq => hp (heq ▸ hb)
    simpa using hne
  simp only [after]
  rw [List.dropWhile_append_of_pos hall]
  simp

/-- From behind `front` the search links behind the elements of `rest` that pass. -/
theorem insertAfter_searchRow (front rest : List α) (hnodup : (front ++ rest).Nodup)
    (hrest : Ahead pass rest) :
    insertAfter a (searchRow pass rest front.getLast?) (front ++ rest) =
      front ++ place pass a rest := by
  induction rest generalizing front with
  | nil =>
      rcases List.eq_nil_or_concat front with rfl | ⟨init, p, rfl⟩
      · rfl
      · rw [List.concat_eq_append] at *
        have hp : p ∉ init := by
          rw [List.append_nil, List.nodup_append] at hnodup
          intro hmem
          exact hnodup.2.2 p hmem p (by simp) rfl
        simp only [searchRow, List.getLast?_concat, List.append_nil, place, List.filter_nil,
          List.nil_append, List.append_assoc, List.singleton_append]
        exact insertAfter_append hp
  | cons b rest ih =>
      obtain ⟨hb, hrest'⟩ := List.pairwise_cons.mp hrest
      cases hpass : pass b with
      | true =>
          have hstep := ih (front ++ [b]) (by simpa using hnodup) hrest'
          rw [List.getLast?_concat] at hstep
          simp only [searchRow, hpass, if_true]
          rw [List.append_assoc, List.singleton_append] at hstep
          rw [hstep]
          simp [place, hpass]
      | false =>
          have hnone : ∀ c ∈ b :: rest, pass c = false := by
            intro c hc
            rcases List.mem_cons.mp hc with rfl | hc
            · exact hpass
            · by_contra hne
              have hpc : pass c = true := by simpa using hne
              rw [hb c hc hpc] at hpass
              cases hpass
          have hplace : place pass a (b :: rest) = a :: b :: rest := by
            have hno : (b :: rest).filter pass = [] := by
              rw [List.filter_eq_nil_iff]
              intro c hc
              simp [hnone c hc]
            have hall : ((b :: rest).filter fun c => !pass c) = b :: rest := by
              rw [List.filter_eq_self]
              intro c hc
              simp [hnone c hc]
            rw [place, hno, hall]
            rfl
          rw [hplace]
          simp only [searchRow, hpass, Bool.false_eq_true, if_false]
          rcases List.eq_nil_or_concat front with rfl | ⟨init, p, rfl⟩
          · rfl
          · rw [List.concat_eq_append] at *
            have hp : p ∉ init := by
              rw [List.append_assoc, List.nodup_append] at hnodup
              intro hmem
              exact hnodup.2.2 p hmem p (by simp) rfl
            rw [List.getLast?_concat, List.append_assoc, List.append_assoc]
            exact insertAfter_append hp

omit [DecidableEq α] in
theorem Ahead.sublist (h : Ahead pass row') (hs : row.Sublist row') : Ahead pass row :=
  List.Pairwise.sublist hs h

omit [DecidableEq α] in
/-- Ahead of an element that passes everything passes. -/
theorem place_append (hfront : ∀ b ∈ row, pass b = true) :
    place pass a (row ++ row') = row ++ place pass a row' := by
  have hpass : row.filter pass = row := List.filter_eq_self.mpr hfront
  have hno : (row.filter fun b => !pass b) = [] := by
    rw [List.filter_eq_nil_iff]
    intro b hb
    simp [hfront b hb]
  simp [place, hpass, hno]

omit [DecidableEq α] in
theorem searchRow_eq_some {start : Option α} {q : α} (h : searchRow pass row start = some q) :
    (q ∈ row ∧ pass q = true) ∨ start = some q := by
  induction row generalizing start with
  | nil => exact Or.inr h
  | cons b row ih =>
      rw [searchRow] at h
      split at h
      · rename_i hb
        rcases ih h with ⟨hq, hpass⟩ | hq
        · exact Or.inl ⟨List.mem_cons_of_mem b hq, hpass⟩
        · rw [Option.some.injEq] at hq
          rw [← hq]
          exact Or.inl ⟨List.mem_cons_self .., hb⟩
      · exact Or.inr h

/-- Where a search may start: in front, or at an element of the row that passes. -/
def Start (pass : α → Bool) (row : List α) (start : Option α) : Prop :=
  ∀ q, start = some q → q ∈ row ∧ pass q = true

theorem mem_of_mem_after {start : Option α} {q : α} (h : q ∈ after row start) : q ∈ row := by
  cases start with
  | none => exact h
  | some p => exact (List.dropWhile_sublist _).subset (List.mem_of_mem_tail h)

theorem Start.search {start : Option α} (h : Start pass row start) :
    Start pass row (searchRow pass (after row start) start) := by
  intro q hq
  rcases searchRow_eq_some hq with ⟨hmem, hpass⟩ | hq
  · exact ⟨mem_of_mem_after hmem, hpass⟩
  · exact h q hq

/-- The new element lands behind exactly the elements that pass. -/
theorem insertAfter_place (hnodup : row.Nodup) (hahead : Ahead pass row) {start : Option α}
    (hstart : Start pass row start) :
    insertAfter a (searchRow pass (after row start) start) row = place pass a row := by
  cases start with
  | none => exact insertAfter_searchRow [] row hnodup hahead
  | some p =>
      obtain ⟨hmem, hpass⟩ := hstart p rfl
      obtain ⟨front, rest, rfl⟩ := List.append_of_mem hmem
      have hp : p ∉ front := by
        intro hfront
        exact (List.nodup_append.mp hnodup).2.2 p hfront p (by simp) rfl
      have hfront : ∀ b ∈ front ++ [p], pass b = true := by
        intro b hb
        rcases List.mem_append.mp hb with hb | hb
        · exact (List.pairwise_append.mp hahead).2.2 b hb p (by simp) hpass
        · rw [List.mem_singleton] at hb
          rw [hb, hpass]
      have hrest : Ahead pass rest := hahead.sublist
        ((List.sublist_cons_self p rest).trans (List.sublist_append_right front _))
      have hstep := insertAfter_searchRow (front ++ [p]) rest (by simpa using hnodup) hrest
        (a := a)
      rw [List.getLast?_concat, List.append_assoc, List.singleton_append] at hstep
      rw [after_append hp, hstep, ← place_append hfront, List.append_assoc, List.singleton_append]

omit [DecidableEq α] in
theorem place_sublist (h : row.Sublist row') : (place pass a row).Sublist (place pass a row') :=
  (h.filter pass).append ((h.filter _).cons_cons a)

omit [DecidableEq α] in
/-- The elements that pass, and then the others, are the row. -/
theorem filter_append_filter (h : Ahead pass row) :
    row.filter pass ++ (row.filter fun b => !pass b) = row := by
  induction row with
  | nil => rfl
  | cons b row ih =>
      obtain ⟨hb, hrow⟩ := List.pairwise_cons.mp h
      cases hpass : pass b with
      | true => simp [hpass, ih hrow]
      | false =>
          have hnone : ∀ c ∈ row, pass c = false := by
            intro c hc
            by_contra hne
            rw [hb c hc (by simpa using hne)] at hpass
            cases hpass
          have hno : row.filter pass = [] := by
            rw [List.filter_eq_nil_iff]
            intro c hc
            simp [hnone c hc]
          have hall : (row.filter fun c => !pass c) = row := by
            rw [List.filter_eq_self]
            intro c hc
            simp [hnone c hc]
          simp [hpass, hno, hall]

omit [DecidableEq α] in
theorem sublist_place (h : Ahead pass row) : row.Sublist (place pass a row) := by
  conv_lhs => rw [← filter_append_filter h]
  exact (List.Sublist.refl _).append (List.sublist_cons_self a _)

omit [DecidableEq α] in
/-- An order of the row that the new element fits into. -/
theorem pairwise_place {R : α → α → Prop} (h : Ahead pass row) (hrow : row.Pairwise R)
    (hfront : ∀ b ∈ row, pass b = true → R b a) (hback : ∀ b ∈ row, pass b = false → R a b) :
    (place pass a row).Pairwise R := by
  rw [← filter_append_filter h, List.pairwise_append] at hrow
  obtain ⟨hpass, hother, hcross⟩ := hrow
  refine List.pairwise_append.mpr ⟨hpass, List.pairwise_cons.mpr ⟨?_, hother⟩, ?_⟩
  · intro b hb
    obtain ⟨hb, hno⟩ := List.mem_filter.mp hb
    exact hback b hb (by simpa using hno)
  · intro b hb c hc
    rcases List.mem_cons.mp hc with rfl | hc
    · obtain ⟨hb, hyes⟩ := List.mem_filter.mp hb
      exact hfront b hb hyes
    · exact hcross b hb c hc

omit [DecidableEq α] in
theorem mem_place {b : α} : b ∈ place pass a row ↔ b = a ∨ b ∈ row := by
  simp only [place, List.mem_append, List.mem_filter, List.mem_cons]
  constructor
  · rintro (⟨hb, -⟩ | rfl | ⟨hb, -⟩)
    · exact Or.inr hb
    · exact Or.inl rfl
    · exact Or.inr hb
  · rintro (rfl | hb)
    · exact Or.inr (Or.inl rfl)
    · cases hpass : pass b with
      | true => exact Or.inl ⟨hb, rfl⟩
      | false => exact Or.inr (Or.inr ⟨hb, by simp⟩)

/-! ## All rows -/

/-- The upper rows after the insertion. -/
def placeUpper (pass : α → Bool) (a : α) (height : Nat) : List (List α) → List (List α)
  | [] => []
  | row :: upper =>
      (if upper.length < height then place pass a row else row) :: placeUpper pass a height upper

section Rows

variable {upper : List (List α)} {bottom : List α} {height : Nat}

omit [DecidableEq α] in
theorem Nested.cons_iff {rows : List (List α)} :
    (row :: rows ++ [bottom]).IsChain List.Sublist ↔
      (∀ below ∈ (rows ++ [bottom]).head?, row.Sublist below) ∧
        (rows ++ [bottom]).IsChain List.Sublist :=
  List.isChain_cons

omit [DecidableEq α] in
/-- Every row is a sublist of the bottom row. -/
theorem sublist_bottom (h : (upper ++ [bottom]).IsChain List.Sublist) (hrow : row ∈ upper) :
    row.Sublist bottom := by
  induction upper generalizing row with
  | nil => cases hrow
  | cons r upper ih =>
      obtain ⟨hfirst, hrest⟩ := Nested.cons_iff.mp h
      rcases List.mem_cons.mp hrow with rfl | hrow
      · cases upper with
        | nil => exact hfirst bottom rfl
        | cons r upper => exact (hfirst r rfl).trans (ih hrest (List.mem_cons_self ..))
      · exact ih hrest hrow

theorem insertRows_eq (h : (upper ++ [bottom]).IsChain List.Sublist) (hnodup : bottom.Nodup)
    (hahead : Ahead pass bottom) {start : Option α}
    (hstart : ∀ row ∈ (upper ++ [bottom]).head?, Start pass row start) :
    insertRows pass a height upper bottom start =
      ⟨placeUpper pass a height upper, place pass a bottom⟩ := by
  induction upper generalizing start with
  | nil =>
      rw [insertRows, insertAfter_place hnodup hahead (hstart bottom rfl)]
      rfl
  | cons row upper ih =>
      obtain ⟨hfirst, hrest⟩ := Nested.cons_iff.mp h
      have hsub := sublist_bottom h (List.mem_cons_self ..)
      have hrow := hstart row rfl
      have hnext : ∀ below ∈ (upper ++ [bottom]).head?,
          Start pass below (searchRow pass (after row start) start) := by
        intro below hbelow q hq
        obtain ⟨hmem, hpass⟩ := hrow.search q hq
        exact ⟨(hfirst below hbelow).subset hmem, hpass⟩
      rw [insertRows, ih hrest hnext, placeUpper,
        insertAfter_place (hnodup.sublist hsub) (hahead.sublist hsub) hrow]

omit [DecidableEq α] in
theorem nested_place (h : (upper ++ [bottom]).IsChain List.Sublist) (hahead : Ahead pass bottom) :
    (placeUpper pass a height upper ++ [place pass a bottom]).IsChain List.Sublist := by
  induction upper with
  | nil => exact List.isChain_singleton _
  | cons row upper ih =>
      obtain ⟨hfirst, hrest⟩ := Nested.cons_iff.mp h
      refine Nested.cons_iff.mpr ⟨?_, ih hrest⟩
      cases upper with
      | nil =>
          have hrow := hfirst bottom rfl
          intro below hbelow
          obtain rfl : place pass a bottom = below := by simpa [placeUpper] using hbelow
          split
          · exact place_sublist hrow
          · exact hrow.trans (sublist_place hahead)
      | cons next upper =>
          have hrow := hfirst next rfl
          have hnext := sublist_bottom hrest (List.mem_cons_self ..)
          intro below hbelow
          obtain rfl : (if upper.length < height then place pass a next else next) = below := by
            simpa [placeUpper] using hbelow
          -- a row above one that was left alone is left alone too
          rw [List.length_cons]
          split
          · rw [if_pos (by omega)]
            exact place_sublist hrow
          · split
            · exact hrow.trans (sublist_place (hahead.sublist hnext))
            · exact hrow

end Rows

/-- **Insertion.**  The rows stay nested, and the bottom row has the new element behind
exactly the elements that pass. -/
theorem insertRows_spec {l : Rows α} (h : Nested l) (hnodup : l.bottom.Nodup)
    (hahead : Ahead pass l.bottom) (height : Nat) :
    Nested (insertRows pass a height l.upper l.bottom none) ∧
      (insertRows pass a height l.upper l.bottom none).bottom = place pass a l.bottom := by
  have hstart : ∀ row ∈ (l.upper ++ [l.bottom]).head?, Start pass row none := by
    intro row _ q hq
    cases hq
  rw [insertRows_eq h hnodup hahead hstart]
  exact ⟨nested_place h hahead, rfl⟩

/-- **Removal** keeps the rows nested. -/
theorem Nested.remove {l : Rows α} (h : Nested l) (a : α) : Nested (remove l a) := by
  have hmap : (l.upper.map fun row => row.erase a) ++ [l.bottom.erase a] =
      (l.upper ++ [l.bottom]).map fun row => row.erase a := by
    simp
  show List.IsChain _ _
  simp only [SkipList.remove]
  rw [hmap, List.isChain_map]
  exact h.imp fun _ _ hsub => hsub.erase a

/-- No row has an element twice, or one that the row below has not. -/
structure Stacked (l : Rows α) : Prop where
  nodup : ∀ row ∈ l.upper ++ [l.bottom], row.Nodup
  subset : (l.upper ++ [l.bottom]).IsChain (· ⊆ ·)

theorem insertAfter_perm (h : p ∈ row) : (insertAfter a (some p) row).Perm (a :: row) := by
  induction row with
  | nil => cases h
  | cons b row ih =>
      rw [insertAfter]
      by_cases hb : b = p
      · rw [if_pos hb]
        exact List.Perm.swap ..
      · rw [if_neg hb]
        have hmem : p ∈ row := (List.mem_cons.mp h).resolve_left (Ne.symm hb)
        exact ((ih hmem).cons b).trans (List.Perm.swap ..)

/-- Linking behind an element of the row, or in front. -/
theorem insertAfter_perm_of_start {start : Option α} (h : ∀ q, start = some q → q ∈ row) :
    (insertAfter a start row).Perm (a :: row) := by
  cases start with
  | none =>
      rw [insertAfter]
  | some p => exact insertAfter_perm (h p rfl)

/-- A search ends at an element of the row. -/
theorem searchRow_mem {start q : Option α} (h : ∀ p, start = some p → p ∈ row)
    (hq : searchRow pass (after row start) start = q) : ∀ p, q = some p → p ∈ row := by
  rintro p rfl
  rcases searchRow_eq_some hq with ⟨hmem, -⟩ | hstart
  · exact mem_of_mem_after hmem
  · exact h p hstart

section Stacked

variable {upper : List (List α)} {bottom : List α} {height : Nat}

/-- The first row gets the new element if it is low enough. -/
theorem insertRows_head (h : (upper ++ [bottom]).IsChain (· ⊆ ·)) {start : Option α}
    (hstart : ∀ row ∈ (upper ++ [bottom]).head?, ∀ q, start = some q → q ∈ row) {row new : List α}
    (hrow : row ∈ (upper ++ [bottom]).head?)
    (hnew : new ∈ ((insertRows pass a height upper bottom start).upper ++
      [(insertRows pass a height upper bottom start).bottom]).head?) :
    upper.length ≤ height ∧ new.Perm (a :: row) ∨ ¬upper.length ≤ height ∧ new = row := by
  have hmem : ∀ p, searchRow pass (after row start) start = some p → p ∈ row :=
    searchRow_mem (hstart row hrow) rfl
  cases upper with
  | nil =>
      left
      simp only [insertRows, List.nil_append, List.head?_cons, Option.mem_def,
        Option.some.injEq] at hrow hnew
      rw [← hnew, ← hrow]
      rw [← hrow] at hmem
      exact ⟨Nat.zero_le _, insertAfter_perm_of_start hmem⟩
  | cons first upper =>
      simp only [insertRows, List.cons_append, List.head?_cons, Option.mem_def,
        Option.some.injEq] at hrow hnew
      subst hrow
      rw [List.length_cons, Nat.succ_le_iff, ← hnew]
      by_cases hlow : upper.length < height
      · rw [if_pos hlow]
        exact Or.inl ⟨hlow, insertAfter_perm_of_start hmem⟩
      · rw [if_neg hlow]
        exact Or.inr ⟨hlow, rfl⟩

theorem insertRows_stacked (hnodup : ∀ row ∈ upper ++ [bottom], row.Nodup)
    (h : (upper ++ [bottom]).IsChain (· ⊆ ·)) (ha : ∀ row ∈ upper ++ [bottom], a ∉ row)
    {start : Option α}
    (hstart : ∀ row ∈ (upper ++ [bottom]).head?, ∀ q, start = some q → q ∈ row) :
    Stacked (insertRows pass a height upper bottom start) ∧
      (insertRows pass a height upper bottom start).bottom.Perm (a :: bottom) := by
  induction upper generalizing start with
  | nil =>
      have hmem : ∀ p, searchRow pass (after bottom start) start = some p → p ∈ bottom :=
        searchRow_mem (hstart bottom rfl) rfl
      have hperm := insertAfter_perm_of_start (a := a) hmem
      refine ⟨⟨?_, List.isChain_singleton _⟩, hperm⟩
      intro row hrow
      rw [insertRows, List.nil_append, List.mem_singleton] at hrow
      rw [hrow, hperm.nodup_iff]
      exact List.nodup_cons.mpr ⟨ha bottom (by simp), hnodup bottom (by simp)⟩
  | cons row upper ih =>
      rw [List.cons_append] at hnodup ha
      obtain ⟨hfirst, hrest⟩ := List.isChain_cons.mp h
      have hmem : ∀ p, searchRow pass (after row start) start = some p → p ∈ row :=
        searchRow_mem (hstart row rfl) rfl
      have hnext : ∀ below ∈ (upper ++ [bottom]).head?, ∀ q,
          searchRow pass (after row start) start = some q → q ∈ below :=
        fun below hbelow q hq => hfirst below hbelow (hmem q hq)
      obtain ⟨hbelow, hbottom⟩ := ih (fun r hr => hnodup r (List.mem_cons_of_mem _ hr)) hrest
        (fun r hr => ha r (List.mem_cons_of_mem _ hr)) hnext
      have hperm := insertAfter_perm_of_start (a := a) hmem
      refine ⟨⟨?_, ?_⟩, hbottom⟩
      · intro r hr
        rw [insertRows, List.cons_append] at hr
        rcases List.mem_cons.mp hr with rfl | hr
        · split
          · rw [hperm.nodup_iff]
            exact List.nodup_cons.mpr ⟨ha row (by simp), hnodup row (by simp)⟩
          · exact hnodup row (by simp)
        · exact hbelow.nodup r hr
      · rw [insertRows, List.cons_append]
        refine List.isChain_cons.mpr ⟨?_, hbelow.subset⟩
        intro new hnew
        obtain ⟨next, hnextRow⟩ : ∃ next, next ∈ (upper ++ [bottom]).head? := by
          cases upper with
          | nil => exact ⟨bottom, rfl⟩
          | cons r _ => exact ⟨r, rfl⟩
        have hsub := hfirst next hnextRow
        rcases insertRows_head hrest hnext hnextRow hnew with ⟨hlow, hnewPerm⟩ | ⟨hhigh, rfl⟩
        · have hinto : ∀ b, b = a ∨ b ∈ row → b ∈ new := by
            intro b hb
            rw [hnewPerm.mem_iff, List.mem_cons]
            exact hb.imp id fun hb => hsub hb
          split
          · exact fun b hb => hinto b (List.mem_cons.mp (hperm.mem_iff.mp hb))
          · exact fun b hb => hinto b (Or.inr hb)
        · rw [if_neg (fun hlt => hhigh (Nat.le_of_lt hlt))]
          exact hsub

end Stacked

/-- **Insertion**, in any order: the bottom row has one element more. -/
theorem Stacked.insertRows {l : Rows α} (h : Stacked l) (ha : a ∉ l.bottom) (height : Nat) :
    Stacked (insertRows pass a height l.upper l.bottom none) ∧
      (SkipList.insertRows pass a height l.upper l.bottom none).bottom.Perm (a :: l.bottom) := by
  refine insertRows_stacked h.nodup h.subset ?_ (fun row _ q hq => by cases hq)
  have hall : ∀ (rows : List (List α)), (rows ++ [l.bottom]).IsChain (· ⊆ ·) →
      ∀ row ∈ rows ++ [l.bottom], row ⊆ l.bottom := by
    intro rows hrows
    induction rows with
    | nil =>
        intro row hrow
        rw [List.nil_append, List.mem_singleton] at hrow
        rw [hrow]
        exact List.Subset.refl _
    | cons first rows ih =>
        obtain ⟨hfirst, hrest⟩ := List.isChain_cons.mp hrows
        intro row hrow
        rcases List.mem_cons.mp hrow with rfl | hrow
        · cases rows with
          | nil => exact hfirst l.bottom rfl
          | cons next rows => exact List.Subset.trans (hfirst next rfl) (ih hrest next (by simp))
        · exact ih hrest row hrow
  exact fun row hrow hmem => ha (hall l.upper h.subset row hrow hmem)

/-- **Removal**, in any order. -/
theorem Stacked.remove {l : Rows α} (h : Stacked l) (a : α) : Stacked (remove l a) := by
  have hmap : (l.upper.map fun row => row.erase a) ++ [l.bottom.erase a] =
      (l.upper ++ [l.bottom]).map fun row => row.erase a := by
    simp
  constructor
  · intro row hrow
    simp only [SkipList.remove, hmap] at hrow
    obtain ⟨old, hold, rfl⟩ := List.mem_map.mp hrow
    exact (h.nodup old hold).sublist List.erase_sublist
  · simp only [SkipList.remove]
    rw [hmap, List.isChain_map]
    refine List.IsChain.imp_of_mem_imp ?_ h.subset
    intro row below hrow hbelow hsub b hb
    rw [(h.nodup row hrow).mem_erase_iff] at hb
    rw [(h.nodup below hbelow).mem_erase_iff]
    exact ⟨hb.1, hsub hb.2⟩

theorem stacked_empty (α : Type) (n : Nat) : Stacked (empty α n) := by
  have hrep : List.replicate n ([] : List α) ++ [[]] = List.replicate (n + 1) [] :=
    List.replicate_succ'.symm
  constructor
  · intro row hrow
    simp only [empty, hrep] at hrow
    rw [List.eq_of_mem_replicate hrow]
    exact List.nodup_nil
  · simp only [empty]
    rw [hrep]
    exact List.isChain_replicate_of_rel _ (List.Subset.refl _)

end RtHypervisor.Verified.SkipList
