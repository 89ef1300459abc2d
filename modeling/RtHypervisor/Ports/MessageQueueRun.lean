import Mathlib.Tactic
import RtHypervisor.Ports.MessageQueueStore
import RtHypervisor.Verified.Holders

/-!
# Messages are conserved

Each buffer of a message queue is in the free list, in the queue, or with one call that is
copying; the queue carries the messages of a deque, and what a receive delivers is what it took
off that deque (`mq_conserved`).

The calls of the others do not touch a buffer that a call holds: it is in no list
(`PhaseOk.touch`).
-/

namespace RtHypervisor.Ports.MessageQueue

open RtHypervisor.Verified.Run
open RtHypervisor.Verified.ByteMem
open RtHypervisor.Verified.LinkedWords
open RtHypervisor.Verified.Holders
open RtHypervisor.Ports.Ipc

/-- The buffer a call holds. -/
def Phase.buffer : Phase → Option Nat
  | .filling msg .. => some msg
  | .draining msg .. => some msg
  | _ => none

/-- The buffers that are with a call. -/
def held (phase : Caller → Option Phase) (c : Caller) : Option Nat := (phase c).bind Phase.buffer

/-- The lists the threads wait in. -/
def side (phase : Caller → Option Phase) (t : ThreadId) : Option Side :=
  (phase (.thread t)).bind Phase.side

/-- Each buffer is in one place: the free list, the queue, or a call; `entry` is the length of
the queue, which carries the messages of the deque. -/
structure Placed (s : Store) (phase : Caller → Option Phase) (deque : List (List Byte))
    (free queue : List Nat) : Prop where
  lists : Lists s free queue deque
  entry : s.entry.toNat = queue.length
  split : Split (buffers s) (free ++ queue) (held phase)

/-- As many bytes were delivered as were asked for and fit into a message, and they begin with
the bytes that were sent, or as many of those as were asked for. -/
def Delivered (msgSize : Nat) (d : Delivery) : Prop :=
  d.got.length = min d.size msgSize ∧ d.got.take d.sent.length = d.sent.take d.size

/-- The messages and the buffers of a message queue are all there. -/
structure Conserved (s : MqSys) : Prop where
  placed : ∃ free queue, Placed s.mq.store s.phase s.deque free queue
  delivered : ∀ d ∈ s.delivered, Delivered s.mq.store.msgSize.toNat d

/-! ## What a call has done so far -/

/-- The data a call has copied is the data of the message. -/
def PhaseOk (s : Store) (owed : List Byte) : Phase → Prop
  | .sending bytes _ _ => bytes.length ≤ s.msgSize.toNat
  | .receiving .. => True
  | .filling msg bytes done urgent =>
      bytes.length ≤ s.msgSize.toNat ∧ done ≤ bytes.length ∧
        (∀ i, i < done → bytes[i]? = some (dataAt s msg i)) ∧ (urgent = false → next s msg = 0)
  | .draining msg size got =>
      Carries s msg owed ∧ got.length ≤ min size s.msgSize.toNat ∧
        ∀ i, i < got.length → got[i]? = some (dataAt s msg i)

section Phases

variable {s s' : Store} {owed : List Byte} {p : Phase} {phase : Caller → Option Phase}
  {c : Caller} {q : Option Phase} {xs ys : List Nat}

/-- A call does not see what happens to other buffers. -/
theorem PhaseOk.touch (h : PhaseOk s owed p) (ht : Touches s s' xs ys)
    (hout : ∀ b, p.buffer = some b → b ∈ buffers s ∧ b ∉ xs ∧ b ∉ ys) : PhaseOk s' owed p := by
  cases p with
  | sending bytes timeout tickDelta =>
      rw [PhaseOk, ht.msgSize]
      exact h
  | receiving size timeout tickDelta => trivial
  | filling msg bytes done urgent =>
      obtain ⟨hmem, hxs, hys⟩ := hout msg rfl
      obtain ⟨hsize, hdone, hcopied, hnext⟩ := h
      refine ⟨by rw [ht.msgSize]; exact hsize, hdone, fun i hi => ?_, fun hu => ?_⟩
      · rw [ht.data msg hmem hys i (by omega)]
        exact hcopied i hi
      · rw [next, ht.next msg hmem hxs]
        exact hnext hu
  | draining msg size got =>
      obtain ⟨hmem, -, hys⟩ := hout msg rfl
      obtain ⟨hcarries, hlength, hcopied⟩ := h
      refine ⟨hcarries.touch ht hmem hys, by rw [ht.msgSize]; exact hlength, fun i hi => ?_⟩
      rw [ht.data msg hmem hys i (by omega)]
      exact hcopied i hi

private theorem held_update :
    held (Function.update phase c q) = Function.update (held phase) c (q.bind Phase.buffer) := by
  funext d
  by_cases hd : d = c
  · rw [hd, held, Function.update_self, Function.update_self]
  · rw [held, Function.update_of_ne hd, Function.update_of_ne hd, held]

/-- The buffer of a call stays with it. -/
theorem held_update_same (h : q.bind Phase.buffer = held phase c) :
    held (Function.update phase c q) = held phase := by
  rw [held_update, h, Function.update_eq_self]

private theorem side_update_of_ne {t : ThreadId} (h : c ≠ .thread t) :
    side (Function.update phase c q) t = side phase t := by
  rw [side, Function.update_of_ne (Ne.symm h), side]

private theorem side_update_self {t : ThreadId} :
    side (Function.update phase (.thread t) q) t = q.bind Phase.side := by
  rw [side, Function.update_self]

end Phases

/-! ## The store and the calls -/

/-- The part of the invariant about the buffers. -/
structure StoreOk (s : Store) (phase : Caller → Option Phase) (deque : List (List Byte))
    (owed : Caller → List Byte) : Prop where
  geometry : Geometry s
  placed : ∃ free queue, Placed s phase deque free queue
  phases : ∀ c p, phase c = some p → PhaseOk s (owed c) p

section StoreOk

variable {s s' : Store} {phase : Caller → Option Phase} {deque deque' : List (List Byte)}
  {owed owed' : Caller → List Byte} {c : Caller} {q : Option Phase}
  {free queue free' queue' : List Nat} {xs ys : List Nat} {b : Nat} {bytes : List Byte}

theorem Placed.free_mem (h : Placed s phase deque free queue) :
    ∀ b ∈ free ++ queue, b ∈ buffers s := h.split.mem

/-- A call goes on.  It touches the buffers in the lists and its own. -/
theorem StoreOk.advance {x y f l : List Nat} (h : StoreOk s phase deque owed)
    (hp : Placed s phase deque free queue)
    (ht : Touches s s' x y)
    (hout : ∀ b ∈ x ++ y, b ∈ free ++ queue ∨ held phase c = some b)
    (hplaced : Placed s' (Function.update phase c q) deque' f l)
    (hother : ∀ d, d ≠ c → owed' d = owed d) (hself : ∀ p, q = some p → PhaseOk s' (owed' c) p) :
    StoreOk s' (Function.update phase c q) deque' owed' := by
  refine ⟨ht.geometry h.geometry, ⟨f, l, hplaced⟩, fun d p hd => ?_⟩
  by_cases hdc : d = c
  · subst hdc
    rw [Function.update_self] at hd
    exact hself p hd
  · rw [Function.update_of_ne hdc] at hd
    rw [hother d hdc]
    refine (h.phases d p hd).touch ht fun b hb => ?_
    have hheld : held phase d = some b := by
      rw [held, hd]
      exact hb
    obtain ⟨hmem, hnot⟩ := hp.split.apart d b hheld
    have hnone : b ∉ x ++ y := by
      intro hxy
      rcases hout b hxy with hl | hc
      · exact hnot hl
      · exact hdc (hp.split.once d c b hheld hc)
    rw [List.mem_append, not_or] at hnone
    exact ⟨hmem, hnone⟩

/-- A call waits or returns without a buffer. -/
theorem StoreOk.idle (h : StoreOk s phase deque owed) (hheld : held phase c = none)
    (hq : q.bind Phase.buffer = none) (hself : ∀ p, q = some p → PhaseOk s (owed c) p) :
    StoreOk s (Function.update phase c q) deque owed := by
  obtain ⟨free, queue, hp⟩ := h.placed
  have hsame : held (Function.update phase c q) = held phase :=
    held_update_same (hq.trans hheld.symm)
  refine h.advance hp (x := []) (y := []) (Touches.of_mem rfl rfl rfl rfl)
    (fun b hb => absurd hb List.not_mem_nil) ⟨hp.lists, hp.entry, ?_⟩ (fun _ _ => rfl) hself
  rw [hsame]
  exact hp.split

/-- A send takes a buffer. -/
theorem StoreOk.take (h : StoreOk s phase deque owed) (hc : held phase c = none)
    (hfree : s.msgQueueFree ≠ 0) (hsize : bytes.length ≤ s.msgSize.toNat) :
    StoreOk (setNext (takeFree s).1 s.msgQueueFree 0)
      (Function.update phase c (some (.filling s.msgQueueFree bytes 0 false))) deque owed := by
  obtain ⟨free, queue, hp⟩ := h.placed
  obtain ⟨free', rfl, hlists, ht⟩ := hp.lists.takeFree hfree
  have hsplit := hp.split.take hc
  have hmem : s.msgQueueFree ∈ buffers s := hp.free_mem _ (List.mem_cons_self ..)
  have hmem' : s.msgQueueFree ∈ buffers (takeFree s).1 := by rwa [ht.buffers]
  have hset : Touches (takeFree s).1 (setNext (takeFree s).1 s.msgQueueFree 0)
      [s.msgQueueFree] [] :=
    setNext_touches hmem'
  have hall : Touches s (setNext (takeFree s).1 s.msgQueueFree 0) [s.msgQueueFree] [] :=
    (ht.mono (fun _ hb => absurd hb List.not_mem_nil) fun _ hb => hb).trans hset
  refine h.advance hp hall (fun b hb => ?_) (f := free') (l := queue) ⟨?_, hp.entry, ?_⟩
    (fun _ _ => rfl) fun p hq => ?_
  · rw [List.append_nil, List.mem_singleton] at hb
    exact Or.inl (hb ▸ List.mem_cons_self ..)
  · refine hlists.touch hset (fun d hd => ⟨?_, fun hdb => ?_, List.not_mem_nil⟩) rfl rfl rfl
    · rw [ht.buffers]
      exact hp.free_mem d (List.mem_cons_of_mem _ hd)
    · rw [List.mem_singleton.mp hdb] at hd
      exact (List.nodup_cons.mp hp.split.nodup).1 hd
  · rw [hall.buffers, held_update]
    exact hsplit
  · cases hq
    refine ⟨hsize, Nat.zero_le _, fun i hi => absurd hi (Nat.not_lt_zero i), fun _ => ?_⟩
    exact load64_setNext (by decide)

/-- An urgent send takes a buffer. -/
theorem StoreOk.takeUrgent (h : StoreOk s phase deque owed) (hc : held phase c = none)
    (hfree : s.msgQueueFree ≠ 0) (hsize : bytes.length ≤ s.msgSize.toNat) :
    StoreOk (takeFree s).1
      (Function.update phase c (some (.filling s.msgQueueFree bytes 0 true))) deque owed := by
  obtain ⟨free, queue, hp⟩ := h.placed
  obtain ⟨free', rfl, hlists, ht⟩ := hp.lists.takeFree hfree
  refine h.advance hp ht (fun b hb => absurd hb List.not_mem_nil) (f := free')
    (l := queue) ⟨hlists, hp.entry, ?_⟩ (fun _ _ => rfl) fun p hq => ?_
  · rw [ht.buffers, held_update]
    exact hp.split.take hc
  · cases hq
    exact ⟨hsize, Nat.zero_le _, fun i hi => absurd hi (Nat.not_lt_zero i), fun hu => by cases hu⟩

/-- A receive takes a message. -/
theorem StoreOk.takeHead (h : StoreOk s phase deque owed) (hc : held phase c = none)
    (hentry : s.entry ≠ 0) (size : Nat) :
    ∃ s' msg, takeHead s = .ok (s', msg) ∧ s'.msgSize = s.msgSize ∧
      StoreOk s' (Function.update phase c (some (.draining msg size []))) deque.tail
        (Function.update owed c (deque.headD [])) := by
  obtain ⟨free, queue, hp⟩ := h.placed
  have hqueue : queue.Nodup := (List.nodup_append.mp hp.split.nodup).2.1
  obtain ⟨s', msg, queue', bytes, deque', rfl, rfl, htake, hlists, hcarries, hlength, ht⟩ :=
    hp.lists.takeHead hqueue hp.entry hentry
  refine ⟨s', msg, htake, ht.msgSize, ?_⟩
  have hsplit : Split (buffers s) (msg :: (free ++ queue')) (held phase) :=
    hp.split.perm List.perm_middle.symm
  refine h.advance hp ht (fun b hb => absurd hb List.not_mem_nil) (f := free)
    (l := queue') ⟨hlists, hlength, ?_⟩ (fun d hd => Function.update_of_ne hd ..) fun p hq => ?_
  · rw [ht.buffers, held_update]
    exact hsplit.take hc
  · cases hq
    rw [Function.update_self]
    exact ⟨hcarries, Nat.zero_le _, fun i hi => absurd hi (Nat.not_lt_zero i)⟩

/-- A byte is copied into the buffer of a call. -/
theorem StoreOk.fill {msg done : Nat} {urgent : Bool} {v : Byte}
    (h : StoreOk s phase deque owed) (hc : phase c = some (.filling msg bytes done urgent))
    (hv : bytes[done]? = some v) :
    StoreOk (setData s msg done v)
      (Function.update phase c (some (.filling msg bytes (done + 1) urgent))) deque owed := by
  obtain ⟨free, queue, hp⟩ := h.placed
  have hheld : held phase c = some msg := by
    rw [held, hc]
    rfl
  obtain ⟨hmem, hnot⟩ := hp.split.apart c msg hheld
  obtain ⟨hsize, -, hcopied, hnext⟩ := h.phases c _ hc
  have hdone : done < bytes.length := (List.getElem?_eq_some_iff.mp hv).1
  have ht : Touches s (setData s msg done v) [] [msg] := setData_touches hmem (by omega)
  refine h.advance hp ht (fun b hb => ?_) (f := free) (l := queue) ⟨?_, hp.entry, ?_⟩
    (fun _ _ => rfl) fun p hq => ?_
  · rw [List.nil_append, List.mem_singleton] at hb
    exact Or.inr (hb ▸ hheld)
  · refine hp.lists.touch ht (fun d hd => ⟨hp.free_mem d hd, List.not_mem_nil, fun hdm => ?_⟩)
      rfl rfl rfl
    exact hnot (List.mem_singleton.mp hdm ▸ hd)
  · rw [ht.buffers, held_update_same (by rw [hheld]; rfl)]
    exact hp.split
  · cases hq
    refine ⟨hsize, hdone, fun i hi => ?_, fun hu => ?_⟩
    · rcases Nat.lt_or_eq_of_le (Nat.lt_succ_iff.mp hi) with hlt | rfl
      · rw [dataAt_setData_of_ne (by omega)]
        exact hcopied i hlt
      · rw [dataAt_setData_self]
        exact hv
    · rw [next, ht.next msg hmem List.not_mem_nil]
      exact hnext hu

/-- A byte is copied out of the buffer of a call. -/
theorem StoreOk.drain {msg size : Nat} {got : List Byte} (h : StoreOk s phase deque owed)
    (hc : phase c = some (.draining msg size got)) (hlt : got.length < min size s.msgSize.toNat) :
    StoreOk s
      (Function.update phase c (some (.draining msg size (got ++ [dataAt s msg got.length]))))
      deque owed := by
  obtain ⟨free, queue, hp⟩ := h.placed
  have hheld : held phase c = some msg := by
    rw [held, hc]
    rfl
  obtain ⟨hcarries, -, hcopied⟩ := h.phases c _ hc
  refine h.advance hp (x := []) (y := []) (Touches.of_mem rfl rfl rfl rfl)
    (fun b hb => absurd hb List.not_mem_nil) ⟨hp.lists, hp.entry, ?_⟩ (fun _ _ => rfl)
    fun p hq => ?_
  · rw [held_update_same (by rw [hheld]; rfl)]
    exact hp.split
  · cases hq
    refine ⟨hcarries, ?_, fun i hi => ?_⟩
    · rw [List.length_append]
      exact hlt
    · rw [List.length_append, List.length_singleton] at hi
      rcases Nat.lt_or_eq_of_le (Nat.lt_succ_iff.mp hi) with hlt' | rfl
      · rw [List.getElem?_append_left hlt']
        exact hcopied i hlt'
      · exact List.getElem?_concat_length ..

/-- There is room in the counter while a call holds a buffer. -/
theorem Placed.length_lt (hp : Placed s phase deque free queue) (hheld : held phase c = some b) :
    queue.length < 65535 := by
  obtain ⟨hmem, hnot⟩ := hp.split.apart c b hheld
  have hnodup : (b :: (free ++ queue)).Nodup := List.nodup_cons.mpr ⟨hnot, hp.split.nodup⟩
  have hsub : b :: (free ++ queue) ⊆ buffers s := fun d hd => by
    rcases List.mem_cons.mp hd with rfl | hd
    · exact hmem
    · exact hp.free_mem d hd
  have hle : (b :: (free ++ queue)).length ≤ (buffers s).length :=
    (List.subperm_of_subset hnodup hsub).length_le
  rw [List.length_cons, List.length_append, buffers, List.length_range'] at hle
  have hmax := s.maxMsgs.isLt
  omega

/-- A message that has been copied is linked. -/
theorem StoreOk.link {msg : Nat} {urgent : Bool} (h : StoreOk s phase deque owed)
    (hc : phase c = some (.filling msg bytes bytes.length urgent)) :
    ∃ s', (if urgent then linkHead s msg else linkTail s msg) = (s', .eok) ∧
      s'.msgSize = s.msgSize ∧
      StoreOk s' (Function.update phase c none)
        (if urgent then bytes :: deque else deque ++ [bytes]) owed := by
  obtain ⟨free, queue, hp⟩ := h.placed
  have hheld : held phase c = some msg := by
    rw [held, hc]
    rfl
  obtain ⟨hmem, hnot⟩ := hp.split.apart c msg hheld
  obtain ⟨hsize, -, hcopied, hnext⟩ := h.phases c _ hc
  have hcarries : Carries s msg bytes := ⟨hsize, hcopied⟩
  have hlength := hp.length_lt hheld
  have hsplit : Split (buffers s) (msg :: (free ++ queue))
      (held (Function.update phase c none)) := by
    rw [held_update]
    exact hp.split.give hheld
  cases urgent with
  | true =>
      obtain ⟨s', hlink, hlists, hentry, ht⟩ := hp.lists.linkHead hmem h.geometry hnot hp.free_mem
        hcarries hp.entry hlength
      refine ⟨s', hlink, ht.msgSize, h.advance hp ht (fun b hb => ?_) (f := free)
        (l := msg :: queue) ⟨hlists, hentry, ?_⟩ (fun _ _ => rfl) fun p hq => by cases hq⟩
      · rw [List.append_nil, List.mem_singleton] at hb
        exact Or.inr (hb ▸ hheld)
      · rw [ht.buffers]
        exact hsplit.perm List.perm_middle
  | false =>
      obtain ⟨s', hlink, hlists, hentry, ht⟩ := hp.lists.linkTail hmem h.geometry hnot hp.free_mem
        hp.split.nodup (hnext rfl) hcarries hp.entry hlength
      refine ⟨s', hlink, ht.msgSize, h.advance hp ht (fun b hb => ?_) (f := free)
        (l := queue ++ [msg]) ⟨hlists, ?_, ?_⟩ (fun _ _ => rfl) fun p hq => by cases hq⟩
      · rw [List.append_nil] at hb
        exact Or.inl (List.mem_append_right _ hb)
      · rw [hentry, List.length_append, List.length_singleton]
      · rw [ht.buffers, ← List.append_assoc]
        exact hsplit.perm (List.perm_append_singleton ..)

/-- A message that has been received is put back. -/
theorem StoreOk.putBack {msg size : Nat} {got : List Byte} (h : StoreOk s phase deque owed)
    (hc : phase c = some (.draining msg size got)) :
    StoreOk (putFree s msg) (Function.update phase c none) deque owed := by
  obtain ⟨free, queue, hp⟩ := h.placed
  have hheld : held phase c = some msg := by
    rw [held, hc]
    rfl
  obtain ⟨hmem, hnot⟩ := hp.split.apart c msg hheld
  obtain ⟨hlists, ht⟩ := hp.lists.putFree h.geometry hmem hnot hp.free_mem
  refine h.advance hp ht (fun b hb => ?_) (f := msg :: free) (l := queue)
    ⟨hlists, hp.entry, ?_⟩ (fun _ _ => rfl) fun p hq => by cases hq
  · rw [List.append_nil, List.mem_singleton] at hb
    exact Or.inr (hb ▸ hheld)
  · rw [ht.buffers, held_update]
    exact hp.split.give hheld

/-- A reset empties the queue. -/
theorem StoreOk.reset (h : StoreOk s phase deque owed) :
    ∃ s', releaseAll s (s.maxMsgs.toNat + 1) = .ok s' ∧ s'.msgSize = s.msgSize ∧
      StoreOk { s' with entry := 0 } phase [] owed := by
  obtain ⟨free, queue, hp⟩ := h.placed
  have hfuel : queue.length < s.maxMsgs.toNat + 1 := by
    have hle : (free ++ queue).length ≤ (buffers s).length :=
      (List.subperm_of_subset hp.split.nodup hp.free_mem).length_le
    rw [List.length_append, buffers, List.length_range'] at hle
    omega
  obtain ⟨s', hall, hlists, ht⟩ := hp.lists.releaseAll h.geometry hp.free_mem hp.split.nodup hfuel
  have ht' : Touches s { s' with entry := 0 } queue [] :=
    ht.trans (Touches.of_mem rfl rfl rfl rfl)
  refine ⟨s', hall, ht.msgSize, ht'.geometry h.geometry, ⟨queue.reverse ++ free, [],
    hlists.withEntry 0, rfl, ?_⟩, fun d p hd => ?_⟩
  · rw [ht'.buffers, List.append_nil]
    have hperm : (queue.reverse ++ free).Perm (free ++ queue) :=
      ((List.reverse_perm queue).append_right free).trans List.perm_append_comm
    exact hp.split.perm hperm
  · refine (h.phases d p hd).touch ht' fun b hb => ?_
    have hheld : held phase d = some b := by
      rw [held, hd]
      exact hb
    obtain ⟨hmem, hnot⟩ := hp.split.apart d b hheld
    exact ⟨hmem, fun hq => hnot (List.mem_append_right _ hq), List.not_mem_nil⟩

end StoreOk

/-! ## Steps -/

structure Inv (s : MqSys) : Prop where
  store : StoreOk s.mq.store s.phase s.deque s.owed
  threads : TwoLists s.mq.threads s.mq.suspendThread s.mq.suspendSenderThread (side s.phase)
  delivered : ∀ d ∈ s.delivered, Delivered s.mq.store.msgSize.toNat d

section Sides

variable {phase : Caller → Option Phase} {c : Caller} {p q : Option Phase} {t : ThreadId}

private theorem held_none (h : phase c = none) : held phase c = none := by
  rw [held, h]
  rfl

/-- A call that does not wait goes on without waiting. -/
theorem side_update (hc : (phase c).bind Phase.side = none) (hq : q.bind Phase.side = none) :
    side (Function.update phase c q) = side phase := by
  funext t
  by_cases ht : c = .thread t
  · subst ht
    rw [side_update_self, hq, side, hc]
  · exact side_update_of_ne ht

end Sides

section Loops

variable {s : MqSys} {c : Caller} {bytes : List Byte}

/-- A send goes on to where it returns, waits or copies. -/
theorem sendLoop_inv (timeout tickDelta : BitVec 32) (hs : Inv s) (hphase : s.phase c = none)
    (hsize : bytes.length ≤ s.mq.store.msgSize.toNat)
    (hwait : s.mq.store.msgQueueFree = 0 →
      ∃ t, c = .thread t ∧ (s.mq.threads t).suspended = false) :
    Meets (· = .assertion) Inv
      (sendLoop s.mq c.self bytes timeout tickDelta >>= fun r => pure (proceed s c r.1 r.2)) := by
  rw [sendLoop]
  by_cases hfree : s.mq.store.msgQueueFree = 0
  · obtain ⟨t, rfl, hrun⟩ := hwait hfree
    have hside : side s.phase t = none := by
      rw [side, hphase]
      rfl
    have hne : ∀ u, u ≠ t → setError s.mq.threads t .eok u = s.mq.threads u :=
      fun u hu => setError_of_ne _ hu
    rw [if_pos hfree]
    by_cases hzero : timeout = 0
    · have hidle : Function.update s.phase (.thread t) none = s.phase := by
        rw [← hphase, Function.update_eq_self]
      simp only [hzero, if_true, Caller.self, pure_bind, proceed, hidle]
      exact ⟨hs.store, hs.threads.change hside hne, hs.delivered⟩
    · simp only [hzero, if_false, Caller.self]
      have hrun' : (setError s.mq.threads t .eok t).suspended = false := by
        rw [setError_self]
        exact hrun
      have hblock := @block_meets _ t s.mq.suspendSenderThread s.mq.flag timeout hrun'
      rw [bind_assoc]
      refine hblock.bind ?_
      rintro threads ⟨b, hb⟩
      have hothers : ∀ u, u ≠ t → threads u = s.mq.threads u := fun u hu => by
        rw [hb, modify_of_ne hu, hne u hu]
      have hself : (threads t).suspended = true := by
        rw [hb]
        exact congrArg Thread.suspended modify_self
      refine ⟨hs.store.idle (held_none hphase) rfl fun p hp => ?_, ?_, hs.delivered⟩
      · cases hp
        exact hsize
      · exact hs.threads.waitSend hside hrun hothers hself
          (fun u hu => side_update_of_ne fun h => hu (Caller.thread.inj h).symm) side_update_self
  · rw [if_neg hfree]
    have hsides : side (Function.update s.phase c
        (some (.filling s.mq.store.msgQueueFree bytes 0 false))) = side s.phase :=
      side_update (by rw [hphase]; rfl) rfl
    refine ⟨hs.store.take (held_none hphase) hfree hsize, ?_, hs.delivered⟩
    show TwoLists _ _ _ (side (Function.update s.phase c _))
    rw [hsides]
    exact hs.threads

/-- A receive goes on to where it returns, waits or copies. -/
theorem recvLoop_inv (size : Nat) (timeout tickDelta : BitVec 32) (hs : Inv s)
    (hphase : s.phase c = none)
    (hwait : s.mq.store.entry = 0 → ∃ t, c = .thread t ∧ (s.mq.threads t).suspended = false) :
    Meets (· = .assertion) Inv
      (recvLoop s.mq c.self size timeout tickDelta >>= fun r => pure (proceed s c r.1 r.2)) := by
  rw [recvLoop]
  by_cases hempty : s.mq.store.entry = 0
  · obtain ⟨t, rfl, hrun⟩ := hwait hempty
    have hside : side s.phase t = none := by
      rw [side, hphase]
      rfl
    have hne : ∀ u, u ≠ t → setError s.mq.threads t .eok u = s.mq.threads u :=
      fun u hu => setError_of_ne _ hu
    rw [if_pos hempty]
    by_cases hzero : timeout = 0
    · have hidle : Function.update s.phase (.thread t) none = s.phase := by
        rw [← hphase, Function.update_eq_self]
      have hne' : ∀ u, u ≠ t →
          setError (setError s.mq.threads t .eok) t .etimeout u = s.mq.threads u :=
        fun u hu => (setError_of_ne _ hu).trans (hne u hu)
      simp only [hzero, if_true, Caller.self, pure_bind, proceed, hidle]
      exact ⟨hs.store, hs.threads.change hside hne', hs.delivered⟩
    · simp only [hzero, if_false, Caller.self]
      have hrun' : (setError s.mq.threads t .eok t).suspended = false := by
        rw [setError_self]
        exact hrun
      have hblock := @block_meets _ t s.mq.suspendThread s.mq.flag timeout hrun'
      rw [bind_assoc]
      refine hblock.bind ?_
      rintro threads ⟨b, hb⟩
      have hothers : ∀ u, u ≠ t → threads u = s.mq.threads u := fun u hu => by
        rw [hb, modify_of_ne hu, hne u hu]
      have hself : (threads t).suspended = true := by
        rw [hb]
        exact congrArg Thread.suspended modify_self
      refine ⟨hs.store.idle (held_none hphase) rfl fun p hp => ?_, ?_, hs.delivered⟩
      · cases hp
        trivial
      · exact hs.threads.waitRecv hside hrun hothers hself
          (fun u hu => side_update_of_ne fun h => hu (Caller.thread.inj h).symm) side_update_self
  · obtain ⟨store, msg, htake, hsize, hstore⟩ :=
      hs.store.takeHead (held_none hphase) hempty size
    rw [if_neg hempty, htake]
    have hsides : side (Function.update s.phase c (some (.draining msg size []))) = side s.phase :=
      side_update (by rw [hphase]; rfl) rfl
    refine ⟨hstore, ?_, fun d hd => ?_⟩
    · show TwoLists _ _ _ (side (Function.update s.phase c _))
      rw [hsides]
      exact hs.threads
    · show Delivered store.msgSize.toNat d
      rw [hsize]
      exact hs.delivered d hd

end Loops

section Steps

variable {s : MqSys} {c : Caller} {t : ThreadId} {bytes : List Byte} {timeout : BitVec 32}

private theorem check_bind {α : Type} {Q : α → Prop} {b : Bool} {x : Except Fault α}
    (h : b = true → Meets (· = .assertion) Q x) :
    Meets (· = .assertion) Q (check .assertion b >>= fun _ => x) := by
  cases b with
  | false => rfl
  | true => exact h rfl

/-- A call returns at once. -/
theorem Inv.same (hs : Inv s) (hphase : s.phase c = none) :
    Inv { s with phase := Function.update s.phase c none } := by
  have hidle : Function.update s.phase c none = s.phase := by
    rw [← hphase, Function.update_eq_self]
  rw [hidle]
  exact hs

theorem MayWait.exists_thread (h : MayWait s c timeout) (hne : timeout ≠ 0) :
    ∃ t, c = .thread t ∧ (s.mq.threads t).suspended = false := by
  cases c with
  | thread t => exact ⟨t, rfl, h⟩
  | handler n current => exact absurd h hne

theorem send_inv (hs : Inv s) (he : Enabled s (.send c bytes timeout)) :
    Meets (· = .assertion) Inv (step s (.send c bytes timeout)) := by
  obtain ⟨hphase, hwait⟩ := he
  rw [step, rtMqSendWait, bind_assoc]
  refine check_bind fun _ => ?_
  by_cases hsize : s.mq.store.msgSize.toNat < bytes.length
  · rw [if_pos hsize]
    exact hs.same hphase
  · rw [if_neg hsize]
    by_cases hfull : s.mq.store.msgQueueFree = 0 ∧ timeout = 0
    · rw [if_pos hfull]
      exact hs.same hphase
    · rw [if_neg hfull]
      exact sendLoop_inv timeout 0 hs hphase (Nat.le_of_not_lt hsize) fun hfree =>
        hwait.exists_thread fun hzero => hfull ⟨hfree, hzero⟩

theorem recv_inv (hs : Inv s) {size : Nat} (he : Enabled s (.recv c size timeout)) :
    Meets (· = .assertion) Inv (step s (.recv c size timeout)) := by
  obtain ⟨hphase, hwait⟩ := he
  rw [step, rtMqRecv, bind_assoc]
  refine check_bind fun _ => ?_
  by_cases hempty : s.mq.store.entry = 0 ∧ timeout = 0
  · rw [if_pos hempty]
    exact hs.same hphase
  · rw [if_neg hempty]
    exact recvLoop_inv size timeout 0 hs hphase fun hentry =>
      hwait.exists_thread fun hzero => hempty ⟨hentry, hzero⟩

theorem urgent_inv (hs : Inv s) (hphase : s.phase c = none) :
    Meets (· = .assertion) Inv (step s (.urgent c bytes)) := by
  rw [step, rtMqUrgent, bind_assoc]
  refine check_bind fun _ => ?_
  by_cases hsize : s.mq.store.msgSize.toNat < bytes.length
  · rw [if_pos hsize]
    exact hs.same hphase
  · rw [if_neg hsize]
    by_cases hfree : s.mq.store.msgQueueFree = 0
    · rw [if_pos hfree]
      exact hs.same hphase
    · rw [if_neg hfree]
      have hsides : side (Function.update s.phase c
          (some (.filling s.mq.store.msgQueueFree bytes 0 true))) = side s.phase :=
        side_update (by rw [hphase]; rfl) rfl
      refine ⟨hs.store.takeUrgent (held_none hphase) hfree (Nat.le_of_not_lt hsize), ?_,
        hs.delivered⟩
      show TwoLists _ _ _ (side (Function.update s.phase c _))
      rw [hsides]
      exact hs.threads

theorem Phase.buffer_of_side {p : Phase} (h : p.side ≠ none) : p.buffer = none := by
  cases p with
  | sending bytes timeout tickDelta => rfl
  | receiving size timeout tickDelta => rfl
  | filling msg bytes done urgent => exact absurd rfl h
  | draining msg size got => exact absurd rfl h

/-- A thread that waited runs again. -/
theorem Inv.leave {p : Phase} (hs : Inv s) (hphase : s.phase (.thread t) = some p)
    (hside : p.side ≠ none) (hrun : (s.mq.threads t).suspended = false) :
    Inv { s with phase := Function.update s.phase (.thread t) none } := by
  have hheld : held s.phase (.thread t) = none := by
    rw [held, hphase]
    exact Phase.buffer_of_side hside
  refine ⟨hs.store.idle hheld rfl (fun q hq => by cases hq), ?_, hs.delivered⟩
  exact hs.threads.leave hrun
    (fun u hu => side_update_of_ne fun h => hu (Caller.thread.inj h).symm) side_update_self

private theorem proceed_leave {q : Option Phase} (mq : Mq) (o : Outcome) :
    proceed { s with phase := Function.update s.phase c q } c mq o = proceed s c mq o := by
  cases o with
  | returned e => simp only [proceed, Function.update_idem]
  | inside p =>
      cases p with
      | sending bytes timeout tickDelta => simp only [proceed, Function.update_idem]
      | receiving size timeout tickDelta => simp only [proceed, Function.update_idem]
      | filling msg bytes done urgent => simp only [proceed, Function.update_idem]
      | draining msg size got => simp only [proceed, Function.update_idem]

theorem woken_inv (hs : Inv s) (he : Enabled s (.woken t)) :
    Meets (· = .assertion) Inv (step s (.woken t)) := by
  obtain ⟨⟨p, hphase, hside⟩, hrun⟩ := he
  have hleave := hs.leave hphase hside hrun
  have hnone : Function.update s.phase (.thread t) none (.thread t) = none :=
    Function.update_self ..
  rw [step, hphase]
  cases p with
  | sending bytes timeout tickDelta =>
      simp only [woken]
      by_cases herr : (s.mq.threads t).error ≠ .eok
      · rw [if_pos herr]
        exact hleave
      · rw [if_neg herr]
        have hsize : bytes.length ≤ s.mq.store.msgSize.toNat := hs.store.phases _ _ hphase
        have hloop := sendLoop_inv (c := .thread t) (remaining s.mq timeout tickDelta).1
          (remaining s.mq timeout tickDelta).2 hleave hnone hsize fun _ => ⟨t, rfl, hrun⟩
        simp only [proceed_leave] at hloop
        exact hloop
  | receiving size timeout tickDelta =>
      simp only [woken]
      by_cases herr : (s.mq.threads t).error ≠ .eok
      · rw [if_pos herr]
        exact hleave
      · rw [if_neg herr]
        have hloop := recvLoop_inv (c := .thread t) size (remaining s.mq timeout tickDelta).1
          (remaining s.mq timeout tickDelta).2 hleave hnone fun _ => ⟨t, rfl, hrun⟩
        simp only [proceed_leave] at hloop
        exact hloop
  | filling msg bytes done urgent => exact absurd rfl hside
  | draining msg size got => exact absurd rfl hside

private theorem copySize_eq {mq : Mq} (size : Nat) :
    copySize mq size = min size mq.store.msgSize.toNat := by
  rw [copySize]
  split
  · omega
  · omega

private theorem copy_inv {p : Phase} (hs : Inv s) (hphase : s.phase c = some p) :
    Inv { s with
      mq := (copy s.mq p).1
      phase := Function.update s.phase c (some (copy s.mq p).2) } := by
  have hsame : Function.update s.phase c (some p) = s.phase := by
    rw [← hphase, Function.update_eq_self]
  cases p with
  | sending bytes timeout tickDelta =>
      simp only [copy, hsame]
      exact hs
  | receiving size timeout tickDelta =>
      simp only [copy, hsame]
      exact hs
  | filling msg bytes done urgent =>
      cases hv : bytes[done]? with
      | none =>
          simp only [copy, hv, hsame]
          exact hs
      | some v =>
          simp only [copy, hv]
          refine ⟨hs.store.fill hphase hv, ?_, hs.delivered⟩
          rw [side_update (by rw [hphase]; rfl) rfl]
          exact hs.threads
  | draining msg size got =>
      by_cases hlt : got.length < copySize s.mq size
      · simp only [copy, if_pos hlt]
        rw [copySize_eq] at hlt
        refine ⟨hs.store.drain hphase hlt, ?_, hs.delivered⟩
        rw [side_update (by rw [hphase]; rfl) rfl]
        exact hs.threads
      · simp only [copy, if_neg hlt, hsame]
        exact hs

private theorem resumeReceiver_store {mq : Mq} : (resumeReceiver mq).store = mq.store := by
  rw [resumeReceiver]
  split
  · rfl
  · rfl

private theorem resumeSender_store {mq : Mq} : (resumeSender mq).store = mq.store := by
  rw [resumeSender]
  split
  · rfl
  · rfl

theorem resumeReceiver_threads (mq : Mq) {sides : ThreadId → Option Side}
    (h : TwoLists mq.threads mq.suspendThread mq.suspendSenderThread sides) :
    TwoLists (resumeReceiver mq).threads (resumeReceiver mq).suspendThread
      (resumeReceiver mq).suspendSenderThread sides := by
  rw [resumeReceiver]
  cases hlist : mq.suspendThread with
  | nil =>
      rw [if_neg (by simp), hlist]
      rwa [hlist] at h
  | cons t list =>
      rw [hlist] at h
      rw [if_pos (by simp), (h.queues .recv).resume_eq]
      exact h.resumeReceiver

theorem resumeSender_threads (mq : Mq) {sides : ThreadId → Option Side}
    (h : TwoLists mq.threads mq.suspendThread mq.suspendSenderThread sides) :
    TwoLists (resumeSender mq).threads (resumeSender mq).suspendThread
      (resumeSender mq).suspendSenderThread sides := by
  rw [resumeSender]
  cases hlist : mq.suspendSenderThread with
  | nil =>
      rw [if_neg (by simp), hlist]
      rwa [hlist] at h
  | cons t list =>
      rw [hlist] at h
      rw [if_pos (by simp), (h.queues .send).resume_eq]
      exact h.resumeSender

/-- What was copied out of a message begins with what was copied into it. -/
theorem delivered_of_drained {st : Store} {msg size : Nat} {sent got : List Byte}
    (h : PhaseOk st sent (.draining msg size got))
    (hlength : got.length = min size st.msgSize.toNat) :
    Delivered st.msgSize.toNat ⟨sent, size, got⟩ := by
  obtain ⟨⟨hsize, hsent⟩, -, hgot⟩ := h
  refine ⟨hlength, List.ext_getElem? fun i => ?_⟩
  show (got.take sent.length)[i]? = (sent.take size)[i]?
  rw [List.getElem?_take, List.getElem?_take]
  by_cases hi : i < sent.length
  · by_cases his : i < size
    · rw [if_pos hi, if_pos his, hsent i hi, hgot i (by omega)]
    · rw [if_pos hi, if_neg his, List.getElem?_eq_none (by omega)]
  · rw [if_neg hi, List.getElem?_eq_none (by omega), ite_self]

private theorem finish_inv {p : Phase} (hs : Inv s) (hphase : s.phase c = some p)
    (hcopied : Copied s.mq p) : Inv (complete s c (finish s.mq p).1 (finish s.mq p).2 p) := by
  cases p with
  | sending bytes timeout tickDelta => exact hcopied.elim
  | receiving size timeout tickDelta => exact hcopied.elim
  | filling msg bytes done urgent =>
      have hdone : done = bytes.length := hcopied
      subst hdone
      obtain ⟨store, hlink, hsize, hstore⟩ := hs.store.link hphase
      have hfinish : finish s.mq (.filling msg bytes bytes.length urgent) =
          (resumeReceiver { s.mq with store := store }, .eok) := by
        simp only [finish, hlink, if_true]
      rw [hfinish]
      refine ⟨?_, ?_, fun d hd => ?_⟩
      · simp only [complete, if_true, resumeReceiver_store]
        exact hstore
      · have hthreads := resumeReceiver_threads { s.mq with store := store } hs.threads
        simp only [complete]
        rw [side_update (by rw [hphase]; rfl) rfl]
        exact hthreads
      · simp only [complete, resumeReceiver_store, hsize]
        exact hs.delivered d hd
  | draining msg size got =>
      have hlength : got.length = min size s.mq.store.msgSize.toNat :=
        Eq.trans hcopied (copySize_eq size)
      refine ⟨?_, ?_, fun d hd => ?_⟩
      · simp only [complete, finish, resumeSender_store]
        exact hs.store.putBack hphase
      · have hthreads :=
          resumeSender_threads { s.mq with store := putFree s.mq.store msg } hs.threads
        simp only [complete, finish]
        rw [side_update (by rw [hphase]; rfl) rfl]
        exact hthreads
      · simp only [complete, finish, resumeSender_store] at hd ⊢
        rcases List.mem_cons.mp hd with rfl | hd
        · have hmsg := delivered_of_drained (hs.store.phases c _ hphase) hlength
          exact hmsg
        · exact hs.delivered d hd

theorem timeout_inv (hs : Inv s) (he : Enabled s (.timeout t)) :
    Meets (· = .assertion) Inv (step s (.timeout t)) := by
  obtain ⟨⟨p, hphase, hp⟩, htimer⟩ := he
  have hside : side s.phase t ≠ none := by
    rw [side, hphase]
    exact hp
  cases hsusp : (s.mq.threads t).suspended with
  | false =>
      rw [hs.threads.timers t hside hsusp] at htimer
      cases htimer
  | true =>
      rw [step, mqTimeout, hsusp]
      refine ⟨hs.store, hs.threads.erase (fun u hu => ?_) ?_ ?_, hs.delivered⟩
      · simp only [wake_of_ne hu, setError_of_ne _ hu]
      · simp only [wake_self]
      · simp only [wake_self]

theorem control_inv (hs : Inv s) (cmd : Int) :
    Meets (· = .assertion) Inv (step s (.control cmd)) := by
  rw [step, rtMqControl]
  by_cases hcmd : cmd = ipcCmdReset
  · rw [if_pos hcmd]
    obtain ⟨ts₁, ts₂, hall₁, hall₂, hthreads⟩ := hs.threads.resumeAll
    obtain ⟨store, hrelease, hsize, hstore⟩ := hs.store.reset
    rw [hall₁, ok_bind, hall₂, ok_bind, hrelease]
    refine ⟨hstore, hthreads, fun d hd => ?_⟩
    show Delivered store.msgSize.toNat d
    rw [hsize]
    exact hs.delivered d hd
  · rw [if_neg hcmd]
    exact hs

theorem step_inv (s : MqSys) (e : Event) (hs : Inv s) (he : Enabled s e) :
    Meets (· = .assertion) Inv (step s e) := by
  cases e with
  | send c bytes timeout => exact send_inv hs he
  | urgent c bytes => exact urgent_inv hs he
  | recv c size timeout => exact recv_inv hs he
  | woken t => exact woken_inv hs he
  | copy c =>
      obtain ⟨p, hphase⟩ := he
      rw [step, hphase]
      exact copy_inv hs hphase
  | finish c =>
      obtain ⟨p, hphase, hcopied⟩ := he
      rw [step, hphase]
      exact finish_inv hs hphase hcopied
  | timeout t => exact timeout_inv hs he
  | control cmd => exact control_inv hs cmd
  | tick => exact ⟨hs.store, hs.threads, hs.delivered⟩
  | priority t p =>
      have hsame : ∀ u,
          (modify s.mq.threads t (fun x => { x with currentPriority := p }) u).suspended =
            (s.mq.threads u).suspended ∧
          (modify s.mq.threads t (fun x => { x with currentPriority := p }) u).timer =
            (s.mq.threads u).timer := by
        refine forall_of_ne t (fun _ => trivial) (fun u hu _ => ?_) ?_
        · rw [modify_of_ne hu]
          exact ⟨rfl, rfl⟩
        · rw [modify_self]
          exact ⟨rfl, rfl⟩
      exact ⟨hs.store, hs.threads.congr hsame, hs.delivered⟩
  | other t x =>
      have hphase : s.phase (.thread t) = none := he
      refine ⟨hs.store, hs.threads.change (t := t) ?_ fun u hu => ?_, hs.delivered⟩
      · rw [side, hphase]
        rfl
      · exact Function.update_of_ne hu ..

end Steps

/-! ## Every run -/

section Runs

variable {threads : Threads} {tick : BitVec 32} {mem : Mem} {msgPool msgSize poolSize : Word}
  {flag : Flag}

/-- The buffers fit into the pool. -/
theorem buffers_fit (d : Nat) :
    (BitVec.ofNat 16 (poolSize.toNat / d)).toNat * d ≤ poolSize.toNat := by
  have hle : (BitVec.ofNat 16 (poolSize.toNat / d)).toNat ≤ poolSize.toNat / d := by
    rw [BitVec.toNat_ofNat]
    exact Nat.mod_le ..
  exact (Nat.mul_le_mul_right d hle).trans (Nat.div_mul_le_self ..)

variable (threads tick mem msgSize flag) in
/-- What `rt_mq_init` starts its loop from. -/
theorem init_store (hpool : msgPool ≠ 0) (hend : msgPool.toNat + poolSize.toNat ≤ 2 ^ 64) :
    ∃ store, (rtMqInit threads tick mem msgPool msgSize poolSize flag).store =
        linkBuffers store store.maxMsgs.toNat ∧
      Geometry store ∧ store.msgQueueFree = 0 ∧ store.msgQueueHead = 0 ∧
        store.msgQueueTail = 0 ∧ store.entry = 0 := by
  refine ⟨_, rfl, ⟨?_, ?_⟩, rfl, rfl, rfl, rfl⟩
  · show 0 < msgPool.toNat
    bv_omega
  · exact (Nat.add_le_add_left (buffers_fit _) _).trans hend

/-- A new message queue has all buffers free. -/
theorem boot_inv (hpool : msgPool ≠ 0) (hend : msgPool.toNat + poolSize.toNat ≤ 2 ^ 64) :
    Inv (boot (rtMqInit threads tick mem msgPool msgSize poolSize flag)) := by
  refine ⟨?_, ⟨fun i => ?_, fun t hside => absurd rfl hside⟩,
    fun d hd => absurd hd List.not_mem_nil⟩
  · obtain ⟨store, heq, hg, hfree, hhead, htail, hentry⟩ := init_store threads tick mem msgSize flag
      hpool hend
    show StoreOk (rtMqInit threads tick mem msgPool msgSize poolSize flag).store (fun _ => none) []
      fun _ => []
    obtain ⟨hlists, hsame, ht⟩ := linkBuffers_spec hg hfree hhead htail (Nat.le_refl _)
    rw [heq]
    refine ⟨ht.geometry hg, ⟨_, [], hlists, ?_, ?_⟩, fun c p hp => by cases hp⟩
    · rw [hsame, hentry]
      rfl
    · rw [ht.buffers, List.append_nil]
      exact Split.start nodup_buffers (List.reverse_perm _)
  · cases i with
    | recv => exact Parked.nil fun _ h => by cases h
    | send => exact Parked.nil fun _ h => by cases h

/-- **Every run.**  Each buffer stays in one place, the queue carries the messages of a deque, and
each receive delivers the first of them. -/
theorem mq_conserved (hpool : msgPool ≠ 0) (hend : msgPool.toNat + poolSize.toNat ≤ 2 ^ 64)
    (es : List Event)
    (hes : Guarded step Enabled
      (boot (rtMqInit threads tick mem msgPool msgSize poolSize flag)) es) :
    Meets (· = .assertion) Conserved
      (run step (boot (rtMqInit threads tick mem msgPool msgSize poolSize flag)) es) :=
  (run_meets step_inv (boot_inv hpool hend) hes).mono fun _ hs => ⟨hs.store.placed, hs.delivered⟩

end Runs

/-- Three buffers for messages of 4 bytes. -/
def three : MqSys :=
  boot (rtMqInit (fun _ => ⟨false, 10, .eok, false, 0, 0⟩) 0 (fun _ => 0) 0x1000 4 36 .fifo)

/-- Two threads send while an interrupt handler sends an urgent message, and two receive. -/
def crossing : List Event :=
  [.send (.thread 1) [1, 2] 0, .send (.thread 2) [3] 0, .copy (.thread 2),
    .urgent (.handler 0 2) [7, 8], .copy (.handler 0 2), .copy (.handler 0 2), .finish (.thread 2),
    .finish (.handler 0 2), .copy (.thread 1), .copy (.thread 1), .finish (.thread 1),
    .recv (.thread 3) 1 0, .recv (.thread 4) 1 0, .copy (.thread 4), .finish (.thread 4),
    .copy (.thread 3), .finish (.thread 3)]

/-- The first receive takes the urgent message, cut to one byte, the second one the message that
was linked first. -/
theorem mq_conserved_crossing : ∃ s, run step three crossing = .ok s ∧
    s.delivered.map (fun d => (d.sent, d.got)) = [([7, 8], [7]), ([3], [3])] ∧
      s.deque = [[1, 2]] ∧ Conserved s := by
  have hrun : (run step three crossing).map
      (fun s => (s.delivered.map (fun d => (d.sent, d.got)), s.deque)) =
      .ok ([([7, 8], [7]), ([3], [3])], [[1, 2]]) := by decide
  obtain ⟨s, hs, hread⟩ := exists_of_map_eq_ok hrun
  rw [Prod.mk.injEq] at hread
  have hall : Meets (· = .assertion) Conserved (run step three crossing) :=
    mq_conserved (by decide) (by decide) crossing (by decide)
  exact ⟨s, hs, hread.1, hread.2, hall.of_ok hs⟩

end RtHypervisor.Ports.MessageQueue
