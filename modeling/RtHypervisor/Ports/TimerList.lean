import RtHypervisor.Ports.Timer

/-!
# The order of the timer lists

`rt_timer_start` compares ticks that wrap.  The proofs here look at times that do not:
`Timed s now dl` reads the tick as the low 32 bits of `now` and the timeout of a linked
timer as those of its deadline `dl t`, which is less than half the range away from `now`.
In a list of such timers, whose deadlines are also less than half the range apart from each
other, the comparison is that of the deadlines.

A start keeps this as long as the period of the timer and the time by which the latest
linked timer is overdue are together below half the range, which `record` keeps.  `Good` is
the invariant under that condition, and every function of `timer.c` keeps it.
-/

namespace RtHypervisor.Ports.Timer

open RtHypervisor.Verified.Run
open RtHypervisor.Verified.SkipList

theorem tickHalf_toNat : tickHalf.toNat = 0x7fffffff := rfl

/-! ## Ticks and times -/

private theorem sub_toNat_of_le {a b : Nat} (h : b ≤ a) (hlt : a - b < 2 ^ 32) :
    (BitVec.ofNat 32 a - BitVec.ofNat 32 b).toNat = a - b := by
  rw [BitVec.toNat_sub, BitVec.toNat_ofNat, BitVec.toNat_ofNat]
  omega

private theorem sub_toNat_of_lt {a b : Nat} (h : a < b) (hlt : b - a < 2 ^ 32) :
    (BitVec.ofNat 32 a - BitVec.ofNat 32 b).toNat = 2 ^ 32 - (b - a) := by
  rw [BitVec.toNat_sub, BitVec.toNat_ofNat, BitVec.toNat_ofNat]
  omega

theorem ofNat_sub_lt_iff {a b : Nat} (ha : a < b + 2 ^ 31) (hb : b < a + tickHalf.toNat) :
    BitVec.ofNat 32 a - BitVec.ofNat 32 b < tickHalf ↔ b ≤ a ∧ a - b < tickHalf.toNat := by
  rw [BitVec.lt_def]
  rw [tickHalf_toNat] at *
  by_cases h : b ≤ a
  · rw [sub_toNat_of_le h (by omega)]
    omega
  · rw [sub_toNat_of_lt (by omega) (by omega)]
    omega

theorem ofNat_sub_eq_zero_iff {a b : Nat} (ha : a < b + 2 ^ 31) (hb : b < a + 2 ^ 31) :
    BitVec.ofNat 32 a - BitVec.ofNat 32 b = 0 ↔ a = b := by
  rw [← BitVec.toNat_inj]
  by_cases h : b ≤ a
  · rw [sub_toNat_of_le h (by omega)]
    simp
    omega
  · rw [sub_toNat_of_lt (by omega) (by omega)]
    simp
    omega

/-! ## The invariant -/

/-- `a` comes before `b`: an earlier deadline, or the same one and an earlier start. -/
def Before (s : TimerSys) (dl : TimerId → Nat) (a b : TimerId) : Prop :=
  (dl a < dl b ∨ dl a = dl b ∧ (s.timers a).order < (s.timers b).order) ∧
    dl b < dl a + tickHalf.toNat

/-- The times the ticks stand for. -/
structure Timed (s : TimerSys) (now : Nat) (dl : TimerId → Nat) : Prop where
  tick_eq : s.tick = BitVec.ofNat 32 now
  stamp : ∀ k, ∀ t ∈ linked s k, (s.timers t).timeoutTick = BitVec.ofNat 32 (dl t)
  early : ∀ k, ∀ t ∈ linked s k, dl t < now + tickHalf.toNat
  late : ∀ k, ∀ t ∈ linked s k, now < dl t + tickHalf.toNat
  sorted : ∀ k, (linked s k).Pairwise (Before s dl)

structure ListInv (s : TimerSys) : Prop where
  nested : ∀ k, Nested (s.lists k)
  timed : ∃ now dl, Timed s now dl
  orders : ∀ k, ∀ t ∈ linked s k, (s.timers t).order < s.record.starts
  active : ∀ k, ∀ t ∈ linked s k, (s.timers t).activated = true ∧ (s.timers t).kind = k ∧
    (s.timers t).obj ≠ .none
  held : ∀ t, (s.timers t).activated = true →
    t ∈ linked s (s.timers t).kind ∨ t ∈ s.temp (s.timers t).kind ∧ (s.timers t).periodic = true
  apart : ∀ k, ∀ t ∈ s.temp k, (s.timers t).kind = k ∧ t ∉ linked s k ∧ (s.timers t).obj ≠ .none
  temp_nodup : ∀ k, (s.temp k).Nodup

/-- The condition on the starts and ticks so far. -/
def InWindow (s : TimerSys) : Prop := s.record.span < tickHalf.toNat

def Good (s : TimerSys) : Prop := InWindow s → ListInv s

section Timed

variable {s : TimerSys} {now : Nat} {dl : TimerId → Nat} {t : TimerId} {k : Kind}

theorem Timed.nodup (h : Timed s now dl) (k : Kind) : (linked s k).Nodup := by
  refine (h.sorted k).imp ?_
  rintro a b ⟨hlt, -⟩ rfl
  omega

theorem overdue_eq (htick : s.tick = BitVec.ofNat 32 now)
    (hstamp : (s.timers t).timeoutTick = BitVec.ofNat 32 (dl t))
    (hearly : dl t < now + tickHalf.toNat) (hlate : now ≤ dl t + tickHalf.toNat) :
    overdue s t = now - dl t := by
  unfold overdue
  rw [htick, hstamp]
  rw [tickHalf_toNat] at *
  by_cases h : dl t ≤ now
  · have hsub := sub_toNat_of_le h (by omega)
    rw [if_pos, hsub]
    rw [BitVec.le_def, hsub, tickHalf_toNat]
    omega
  · have hsub := sub_toNat_of_lt (show now < dl t by omega) (by omega)
    rw [if_neg]
    · omega
    · rw [BitVec.le_def, hsub, tickHalf_toNat]
      omega

private theorem overdue_le_latest (ht : t ∈ linked s k) : overdue s t ≤ latest s k := by
  unfold latest
  generalize linked s k = row at ht ⊢
  induction row with
  | nil => cases ht
  | cons a row ih =>
      rw [List.map_cons, List.foldr_cons]
      rcases List.mem_cons.mp ht with rfl | ht
      · exact Nat.le_max_left _ _
      · exact Nat.le_trans (ih ht) (Nat.le_max_right _ _)

end Timed

/-! ## Taking a timer out -/

section Remove

variable {s s' : TimerSys} {t u : TimerId} {k : Kind}

/-- The state `s'` is `s` without the timer `t`, whose record may have changed. -/
structure Without (s s' : TimerSys) (t : TimerId) : Prop where
  tick : s'.tick = s.tick
  record : s'.record = s.record
  nested : ∀ k, Nested (s.lists k) → Nested (s'.lists k)
  linked_eq : ∀ k, linked s' k = (linked s k).erase t
  temp_eq : ∀ k, s'.temp k = (s.temp k).erase t
  timers : ∀ u, u ≠ t → s'.timers u = s.timers u

theorem ListInv.nodup (h : ListInv s) (k : Kind) : (linked s k).Nodup := by
  obtain ⟨now, dl, htimed⟩ := h.timed
  exact htimed.nodup k

theorem Without.mem_linked (h : Without s s' t) (hs : ListInv s) :
    u ∈ linked s' k ↔ u ≠ t ∧ u ∈ linked s k := by
  rw [h.linked_eq, (hs.nodup k).mem_erase_iff]

theorem Without.mem_temp (h : Without s s' t) (hs : ListInv s) :
    u ∈ s'.temp k ↔ u ≠ t ∧ u ∈ s.temp k := by
  rw [h.temp_eq, (hs.temp_nodup k).mem_erase_iff]

theorem Timed.without {now : Nat} {dl : TimerId → Nat} (h : Timed s now dl) (hw : Without s s' t) :
    Timed s' now dl := by
  have hmem : ∀ k u, u ∈ linked s' k → u ≠ t ∧ u ∈ linked s k := by
    intro k u hu
    rw [hw.linked_eq] at hu
    exact (h.nodup k).mem_erase_iff.mp hu
  refine ⟨hw.tick.trans h.tick_eq, ?_, ?_, ?_, ?_⟩
  · intro k u hu
    rw [hw.timers u (hmem k u hu).1]
    exact h.stamp k u (hmem k u hu).2
  · intro k u hu
    exact h.early k u (hmem k u hu).2
  · intro k u hu
    exact h.late k u (hmem k u hu).2
  · intro k
    have hsub : (linked s' k).Pairwise (Before s dl) := by
      rw [hw.linked_eq]
      exact (h.sorted k).sublist List.erase_sublist
    refine List.Pairwise.imp_of_mem ?_ hsub
    intro a b ha hb hab
    unfold Before
    rw [hw.timers a (hmem k a ha).1, hw.timers b (hmem k b hb).1]
    exact hab

/-- Taking out a timer and deactivating it. -/
theorem ListInv.without (h : ListInv s) (hw : Without s s' t)
    (hidle : (s'.timers t).activated = false) : ListInv s' := by
  obtain ⟨now, dl, htimed⟩ := h.timed
  refine ⟨fun k => hw.nested k (h.nested k), ⟨now, dl, htimed.without hw⟩, ?_, ?_, ?_, ?_, ?_⟩
  · intro k u hu
    obtain ⟨hne, hu⟩ := (hw.mem_linked h).mp hu
    rw [hw.timers u hne, hw.record]
    exact h.orders k u hu
  · intro k u hu
    obtain ⟨hne, hu⟩ := (hw.mem_linked h).mp hu
    rw [hw.timers u hne]
    exact h.active k u hu
  · intro u hu
    have hne : u ≠ t := by
      rintro rfl
      rw [hidle] at hu
      cases hu
    rw [hw.timers u hne] at hu ⊢
    rcases h.held u hu with hu | ⟨hu, hper⟩
    · exact Or.inl ((hw.mem_linked h).mpr ⟨hne, hu⟩)
    · exact Or.inr ⟨(hw.mem_temp h).mpr ⟨hne, hu⟩, hper⟩
  · intro k u hu
    obtain ⟨hne, hu⟩ := (hw.mem_temp h).mp hu
    obtain ⟨hkind, hout, hobj⟩ := h.apart k u hu
    rw [hw.timers u hne]
    exact ⟨hkind, fun hin => hout ((hw.mem_linked h).mp hin).2, hobj⟩
  · intro k
    rw [hw.temp_eq]
    exact (h.temp_nodup k).sublist List.erase_sublist

theorem without_remove (s : TimerSys) (t : TimerId) (f : RtTimer → RtTimer) :
    Without s (setTimer (timerRemove s t) t f) t where
  tick := rfl
  record := rfl
  nested := fun _ h => h.remove t
  linked_eq := fun _ => rfl
  temp_eq := fun _ => rfl
  timers := fun _ hne => Function.update_of_ne hne _ _

theorem setTimer_self (f : RtTimer → RtTimer) : (setTimer s t f).timers t = f (s.timers t) :=
  Function.update_self ..

theorem setTimer_of_ne (h : u ≠ t) (f : RtTimer → RtTimer) :
    (setTimer s t f).timers u = s.timers u :=
  Function.update_of_ne h ..

/-- Changing the record of a timer that is nowhere. -/
theorem without_idle (hl : ∀ k, t ∉ linked s k) (ht : ∀ k, t ∉ s.temp k)
    (f : RtTimer → RtTimer) : Without s (setTimer s t f) t where
  tick := rfl
  record := rfl
  nested := fun _ h => h
  linked_eq := fun k => (List.erase_of_not_mem (hl k)).symm
  temp_eq := fun k => (List.erase_of_not_mem (ht k)).symm
  timers := fun _ hne => Function.update_of_ne hne _ _

end Remove

/-! ## Starting a timer -/

/-- The second half of `rt_timer_start`, on a timer that has been taken out. -/
def started (s : TimerSys) (t : TimerId) : TimerSys :=
  let timer := s.timers t
  let timeout := s.tick + timer.initTick
  let randomNr := s.randomNr + 1
  let l := s.lists timer.kind
  let l' := insertRows (passes s timeout) t (height randomNr l.upper.length) l.upper l.bottom none
  let resume := timer.kind = .soft ∧ ¬s.softBusy ∧ s.threadSuspended
  { s with
    timers := Function.update s.timers t
      { timer with timeoutTick := timeout, activated := true, order := s.record.starts }
    lists := Function.update s.lists timer.kind l'
    randomNr := randomNr
    threadSuspended := if resume then false else s.threadSuspended
    record :=
      { s.record.note timer.initTick.toNat (latest s timer.kind) with
        starts := s.record.starts + 1 } }

section Start

variable {s s' : TimerSys} {t u : TimerId} {k : Kind} {now : Nat} {dl : TimerId → Nat}

theorem rtTimerStart_eq_ok (h : rtTimerStart s t = .ok s') :
    (s.timers t).obj ≠ .none ∧ s' = started (deactivate (timerRemove s t) t) t := by
  simp only [rtTimerStart, bind_eq_ok, check_eq_ok, decide_eq_true_iff, pure_eq_ok] at h
  obtain ⟨-, hobj, rfl⟩ := h
  exact ⟨hobj, rfl⟩

/-- The search of `rt_timer_start` compares deadlines. -/
theorem Timed.passes_iff (h : Timed s now dl)
    (hspan : (s.timers t).initTick.toNat + latest s k < tickHalf.toNat) (hu : u ∈ linked s k) :
    passes s (s.tick + (s.timers t).initTick) u = true ↔
      dl u ≤ now + (s.timers t).initTick.toNat := by
  have hearly := h.early k u hu
  have hlate := h.late k u hu
  have hoverdue : overdue s u = now - dl u :=
    overdue_eq h.tick_eq (h.stamp k u hu) hearly (by omega)
  have hlatest := overdue_le_latest hu
  rw [hoverdue] at hlatest
  have htimeout : s.tick + (s.timers t).initTick =
      BitVec.ofNat 32 (now + (s.timers t).initTick.toNat) := by
    rw [BitVec.ofNat_add, h.tick_eq, BitVec.ofNat_toNat, BitVec.setWidth_eq]
  have hhalf := tickHalf_toNat
  simp only [passes, htimeout, h.stamp k u hu, decide_eq_true_iff]
  rw [ofNat_sub_eq_zero_iff (by omega) (by omega), ofNat_sub_lt_iff (by omega) (by omega)]
  omega

theorem Timed.ahead (h : Timed s now dl)
    (hspan : (s.timers t).initTick.toNat + latest s k < tickHalf.toNat) :
    Ahead (passes s (s.tick + (s.timers t).initTick)) (linked s k) := by
  refine List.Pairwise.imp_of_mem ?_ (h.sorted k)
  intro a b ha hb hab
  rw [h.passes_iff hspan ha, h.passes_iff hspan hb]
  have hle := hab.1
  omega

@[simp] theorem started_self : (started s t).timers t =
    { s.timers t with
      timeoutTick := s.tick + (s.timers t).initTick
      activated := true
      order := s.record.starts } :=
  Function.update_self ..

theorem started_of_ne (h : u ≠ t) : (started s t).timers u = s.timers u :=
  Function.update_of_ne h ..

theorem started_lists_of_ne (h : k ≠ (s.timers t).kind) : (started s t).lists k = s.lists k :=
  Function.update_of_ne h ..

/-- Where a started timer is linked. -/
theorem started_lists (h : ListInv s)
    (hspan : (s.timers t).initTick.toNat + latest s (s.timers t).kind < tickHalf.toNat) :
    Nested ((started s t).lists (s.timers t).kind) ∧
      linked (started s t) (s.timers t).kind =
        place (passes s (s.tick + (s.timers t).initTick)) t (linked s (s.timers t).kind) := by
  obtain ⟨now, dl, htimed⟩ := h.timed
  have hspec := insertRows_spec (a := t) (h.nested (s.timers t).kind) (h.nodup _)
    (htimed.ahead hspan) (height (s.randomNr + 1) (s.lists (s.timers t).kind).upper.length)
  have hlist : (started s t).lists (s.timers t).kind = insertRows _ _ _ _ _ _ :=
    Function.update_self ..
  unfold linked
  rw [hlist]
  exact hspec

private theorem mem_started (h : ListInv s)
    (hspan : (s.timers t).initTick.toNat + latest s (s.timers t).kind < tickHalf.toNat) :
    u ∈ linked (started s t) k ↔ u ∈ linked s k ∨ u = t ∧ k = (s.timers t).kind := by
  by_cases hk : k = (s.timers t).kind
  · rw [hk, (started_lists h hspan).2, mem_place]
    tauto
  · unfold linked
    rw [started_lists_of_ne hk]
    tauto

/-- The new timer in the order of the deadlines. -/
theorem Timed.started (h : Timed s now dl) (hinv : ListInv s) (hout : ∀ k, t ∉ linked s k)
    (hspan : (s.timers t).initTick.toNat + latest s (s.timers t).kind < tickHalf.toNat) :
    Timed (started s t) now (Function.update dl t (now + (s.timers t).initTick.toNat)) := by
  have hne : ∀ k u, u ∈ linked s k → u ≠ t := by
    rintro k u hu rfl
    exact hout k hu
  have hhalf := tickHalf_toNat
  refine ⟨h.tick_eq, ?_, ?_, ?_, ?_⟩
  · intro k u hu
    rcases (mem_started hinv hspan).mp hu with hu | ⟨rfl, -⟩
    · rw [started_of_ne (hne k u hu), Function.update_of_ne (hne k u hu)]
      exact h.stamp k u hu
    · rw [started_self, Function.update_self, BitVec.ofNat_add, BitVec.ofNat_toNat,
        BitVec.setWidth_eq, ← h.tick_eq]
  · intro k u hu
    rcases (mem_started hinv hspan).mp hu with hu | ⟨rfl, -⟩
    · rw [Function.update_of_ne (hne k u hu)]
      exact h.early k u hu
    · rw [Function.update_self]
      omega
  · intro k u hu
    rcases (mem_started hinv hspan).mp hu with hu | ⟨rfl, -⟩
    · rw [Function.update_of_ne (hne k u hu)]
      exact h.late k u hu
    · rw [Function.update_self]
      omega
  · intro k
    -- the pairs of timers that were linked before
    have hold : (linked s k).Pairwise
        (Before (Timer.started s t)
          (Function.update dl t (now + (s.timers t).initTick.toNat))) := by
      refine List.Pairwise.imp_of_mem ?_ (h.sorted k)
      intro a b ha hb hab
      unfold Before
      rw [started_of_ne (hne k a ha), started_of_ne (hne k b hb),
        Function.update_of_ne (hne k a ha), Function.update_of_ne (hne k b hb)]
      exact hab
    by_cases hk : k = (s.timers t).kind
    · subst hk
      rw [(started_lists hinv hspan).2]
      refine pairwise_place (h.ahead hspan) hold ?_ ?_
      · intro b hb hpass
        rw [h.passes_iff hspan hb] at hpass
        have horder := hinv.orders _ b hb
        have hlate := h.late _ b hb
        have hearly := h.early _ b hb
        have hoverdue : overdue s b = now - dl b :=
          overdue_eq h.tick_eq (h.stamp _ b hb) hearly (by omega)
        have hlatest := overdue_le_latest hb
        unfold Before
        rw [started_of_ne (hne _ b hb), started_self, Function.update_self,
          Function.update_of_ne (hne _ b hb)]
        simp only
        omega
      · intro b hb hpass
        have hgt : now + (s.timers t).initTick.toNat < dl b := by
          by_contra hle
          rw [(h.passes_iff hspan hb).mpr (by omega)] at hpass
          cases hpass
        have hearly := h.early _ b hb
        unfold Before
        rw [Function.update_self, Function.update_of_ne (hne _ b hb)]
        omega
    · have hsame : linked (Timer.started s t) k = linked s k := by
        unfold linked
        rw [started_lists_of_ne hk]
      rw [hsame]
      exact hold

theorem ListInv.started (h : ListInv s) (hl : ∀ k, t ∉ linked s k) (ht : ∀ k, t ∉ s.temp k)
    (hobj : (s.timers t).obj ≠ .none)
    (hspan : (s.timers t).initTick.toNat + latest s (s.timers t).kind < tickHalf.toNat) :
    ListInv (Timer.started s t) := by
  obtain ⟨now, dl, htimed⟩ := h.timed
  have hne : ∀ k u, u ∈ linked s k → u ≠ t := by
    rintro k u hu rfl
    exact hl k hu
  refine ⟨?_, ⟨now, _, htimed.started h hl hspan⟩, ?_, ?_, ?_, ?_, h.temp_nodup⟩
  · intro k
    by_cases hk : k = (s.timers t).kind
    · rw [hk]
      exact (started_lists h hspan).1
    · rw [started_lists_of_ne hk]
      exact h.nested k
  · intro k u hu
    show _ < s.record.starts + 1
    rcases (mem_started h hspan).mp hu with hu | ⟨rfl, -⟩
    · have horder := h.orders k u hu
      rw [started_of_ne (hne k u hu)]
      omega
    · rw [started_self]
      exact Nat.lt_succ_self _
  · intro k u hu
    rcases (mem_started h hspan).mp hu with hu | ⟨rfl, rfl⟩
    · rw [started_of_ne (hne k u hu)]
      exact h.active k u hu
    · rw [started_self]
      exact ⟨rfl, rfl, hobj⟩
  · intro u hu
    by_cases heq : u = t
    · subst heq
      left
      rw [started_self]
      exact (mem_started h hspan).mpr (Or.inr ⟨rfl, rfl⟩)
    · rw [started_of_ne heq] at hu ⊢
      rcases h.held u hu with hu | hu
      · exact Or.inl ((mem_started h hspan).mpr (Or.inl hu))
      · exact Or.inr hu
  · intro k u hu
    have heq : u ≠ t := by
      rintro rfl
      exact ht k hu
    obtain ⟨hkind, hout, hobj'⟩ := h.apart k u hu
    rw [started_of_ne heq]
    refine ⟨hkind, ?_, hobj'⟩
    intro hin
    rcases (mem_started h hspan).mp hin with hin | ⟨rfl, -⟩
    · exact hout hin
    · exact heq rfl

end Start

/-! ## Every function keeps the invariant -/

/-- What a call does to the invariant and to the temporary lists. -/
structure Moves (s s' : TimerSys) : Prop where
  good : Good s → Good s'
  temp : ∀ k, (s'.temp k).Sublist (s.temp k)
  span : s.record.span ≤ s'.record.span

section Moves

variable {s s' s'' : TimerSys} {t : TimerId} {k : Kind}

theorem Moves.refl (s : TimerSys) : Moves s s :=
  ⟨id, fun _ => List.Sublist.refl _, Nat.le_refl _⟩

theorem Moves.trans (h : Moves s s') (h' : Moves s' s'') : Moves s s'' :=
  ⟨fun hs => h'.good (h.good hs), fun k => (h'.temp k).trans (h.temp k),
    Nat.le_trans h.span h'.span⟩

theorem InWindow.mono (h : InWindow s') (hle : s.record.span ≤ s'.record.span) : InWindow s :=
  Nat.lt_of_le_of_lt hle h

theorem Without.moves (hw : Without s s' t) (hidle : (s'.timers t).activated = false) :
    Moves s s' where
  good := by
    intro hs hwin
    exact (hs (hwin.mono (by rw [hw.record]))).without hw hidle
  temp := by
    intro k
    rw [hw.temp_eq]
    exact List.erase_sublist
  span := by rw [hw.record]

/-- A start of a timer that a state without it has taken out. -/
theorem Without.started (hw : Without s s' t) (hidle : (s'.timers t).activated = false)
    (hobj : (s'.timers t).obj ≠ .none) : Moves s (started s' t) where
  good := by
    intro hs hwin
    have hspan : s.record.span ≤ (Timer.started s' t).record.span := by
      rw [← hw.record]
      exact Nat.le_max_left _ _
    have hinv := hs (hwin.mono hspan)
    refine (hinv.without hw hidle).started ?_ ?_ hobj ?_
    · intro k hmem
      exact ((hw.mem_linked hinv).mp hmem).1 rfl
    · intro k hmem
      exact ((hw.mem_temp hinv).mp hmem).1 rfl
    · exact Nat.lt_of_le_of_lt (Nat.le_max_right _ _) hwin
  temp := by
    intro k
    show (s'.temp k).Sublist (s.temp k)
    rw [hw.temp_eq]
    exact List.erase_sublist
  span := by
    rw [← hw.record]
    exact Nat.le_max_left _ _

private theorem rtTimerStart_moves (h : rtTimerStart s t = .ok s') : Moves s s' := by
  obtain ⟨hobj, rfl⟩ := rtTimerStart_eq_ok h
  refine (without_remove s t fun x => { x with activated := false }).started ?_ ?_
  · rw [setTimer_self]
  · rw [setTimer_self]
    exact hobj

private theorem rtTimerStop_moves (h : rtTimerStop s t = .ok s') : Moves s s' := by
  simp only [rtTimerStop, bind_eq_ok, check_eq_ok] at h
  obtain ⟨-, -, h⟩ := h
  split at h
  · rw [← pure_eq_ok.mp h]
    refine (without_remove s t fun x => { x with activated := false }).moves ?_
    rw [setTimer_self]
  · rw [← pure_eq_ok.mp h]
    exact Moves.refl s

private theorem dropObject_moves {obj : ObjClass} (h : dropObject s t obj = .ok s') :
    Moves s s' := by
  simp only [dropObject, bind_eq_ok, check_eq_ok, pure_eq_ok] at h
  obtain ⟨-, -, rfl⟩ := h
  refine (without_remove s t fun x => { x with activated := false, obj := .none }).moves ?_
  rw [setTimer_self]

theorem exec_moves {c : Call} (h : exec s c = .ok s') : Moves s s' := by
  cases c with
  | start t => exact rtTimerStart_moves h
  | stop t => exact rtTimerStop_moves h
  | detach t => exact dropObject_moves h
  | delete t => exact dropObject_moves h

/-- A sequence of steps.  A step may rely on what moves keep. -/
theorem run_moves {χ : Type} {run1 : TimerSys → χ → Except Fault TimerSys} {Q : TimerSys → Prop}
    (hQ : ∀ s s', Moves s s' → Q s → Q s')
    (hrun1 : ∀ s c s', Q s → run1 s c = .ok s' → Moves s s') {cs : List χ} (hs : Q s)
    (h : run run1 s cs = .ok s') : Moves s s' := by
  induction cs generalizing s with
  | nil =>
      rw [← Except.ok.inj h]
      exact Moves.refl _
  | cons c cs ih =>
      obtain ⟨s₁, hc, hrest⟩ := run_cons_eq_ok h
      have hmoves := hrun1 s c s₁ hs hc
      exact hmoves.trans (ih (hQ s s₁ hmoves hs) hrest)

/-- A tick brings every deadline closer. -/
theorem tickIncrease_moves (s : TimerSys) : Moves s (tickIncrease s) where
  good := by
    intro hs hwin
    have hinv := hs (hwin.mono (Nat.le_max_left _ _))
    obtain ⟨now, dl, htimed⟩ := hinv.timed
    have hhalf := tickHalf_toNat
    have hspan := Nat.lt_of_le_of_lt (Nat.le_max_right _ _) hwin
    rw [Nat.zero_add] at hspan
    have htick : s.tick + 1 = BitVec.ofNat 32 (now + 1) := by
      rw [BitVec.ofNat_add, ← htimed.tick_eq]
      rfl
    refine ⟨hinv.nested, ⟨now + 1, dl, htick, htimed.stamp, ?_, ?_, htimed.sorted⟩, hinv.orders,
      hinv.active, hinv.held, hinv.apart, hinv.temp_nodup⟩
    · intro k u hu
      have hearly := htimed.early k u hu
      omega
    · intro k u hu
      have hearly := htimed.early k u hu
      have hlate := htimed.late k u hu
      have hoverdue : overdue { s with tick := s.tick + 1 } u = now + 1 - dl u :=
        overdue_eq htick (htimed.stamp k u hu) (by omega) (by omega)
      have hlatest : overdue { s with tick := s.tick + 1 } u ≤
          latest { s with tick := s.tick + 1 } k := overdue_le_latest hu
      have hmax : latest { s with tick := s.tick + 1 } k ≤
          max (latest { s with tick := s.tick + 1 } .hard)
            (latest { s with tick := s.tick + 1 } .soft) := by
        cases k with
        | hard => exact Nat.le_max_left _ _
        | soft => exact Nat.le_max_right _ _
      omega
  temp := fun _ => List.Sublist.refl _
  span := Nat.le_max_left _ _

end Moves

end RtHypervisor.Ports.Timer
