import Mathlib.Tactic
import RtHypervisor.Ports.MessageQueue

/-!
# The buffers of a message queue

What the operations on `Store` do to the free list and to the queue (`Lists`).  A write to the
link of a buffer leaves the other links and all data alone (`Touches`), a write to the data of a
buffer all links and the other data: buffers do not overlap.
-/

namespace RtHypervisor.Ports.MessageQueue

open RtHypervisor.Verified.Run
open RtHypervisor.Verified.ByteMem
open RtHypervisor.Verified.LinkedWords
open RtHypervisor.Verified.WaitQueue

/-- The buffers of the pool. -/
def buffers (s : Store) : List Nat :=
  List.range' s.msgPool s.maxMsgs.toNat (s.msgSize.toNat + sizeofMessage)

/-- They fit into the address space. -/
structure Geometry (s : Store) : Prop where
  pool_pos : 0 < s.msgPool
  bound : s.msgPool + s.maxMsgs.toNat * (s.msgSize.toNat + sizeofMessage) ≤ 2 ^ 64

/-- Buffer `b` holds the message `bytes`. -/
def Carries (s : Store) (b : Nat) (bytes : List Byte) : Prop :=
  bytes.length ≤ s.msgSize.toNat ∧ ∀ i, i < bytes.length → bytes[i]? = some (dataAt s b i)

/-- The free list and the queue, and the messages in the queue. -/
structure Lists (s : Store) (free queue : List Nat) (deque : List (List Byte)) : Prop where
  freeChain : Chain s.mem s.msgQueueFree free
  queueChain : Chain s.mem s.msgQueueHead queue
  tail : s.msgQueueTail = queue.getLastD 0
  carried : List.Forall₂ (Carries s) queue deque

/-- At most the links of `xs` and the data of `ys` change. -/
structure Touches (s s' : Store) (xs ys : List Nat) : Prop where
  msgPool : s'.msgPool = s.msgPool
  msgSize : s'.msgSize = s.msgSize
  maxMsgs : s'.maxMsgs = s.maxMsgs
  next : ∀ b ∈ buffers s, b ∉ xs → load64 s'.mem b = load64 s.mem b
  data : ∀ b ∈ buffers s, b ∉ ys → ∀ i, i < s.msgSize.toNat → dataAt s' b i = dataAt s b i

section Layout

variable {s s' s'' : Store} {a b c i : Nat} {p : Nat} {v : Byte} {xs xs' ys ys' : List Nat}

private theorem buffers_apart : (buffers s).Pairwise fun b c => b + 8 + s.msgSize.toNat ≤ c :=
  (range'_apart _ _ _).imp fun hle => by
    rw [sizeofMessage] at hle
    omega

theorem nodup_buffers : (buffers s).Nodup := buffers_apart.imp fun hle => by omega

theorem separate (hb : b ∈ buffers s) (hc : c ∈ buffers s) (hne : b ≠ c) :
    b + 8 + s.msgSize.toNat ≤ c ∨ c + 8 + s.msgSize.toNat ≤ b :=
  pairwise_or buffers_apart hb hc hne

theorem Geometry.mem (h : Geometry s) (hb : b ∈ buffers s) : 0 < b ∧ b < 2 ^ 64 := by
  obtain ⟨k, hk, rfl⟩ := List.mem_range'.mp hb
  have hle : (k + 1) * (s.msgSize.toNat + sizeofMessage) ≤
      s.maxMsgs.toNat * (s.msgSize.toNat + sizeofMessage) := Nat.mul_le_mul_right _ hk
  have hpos := h.pool_pos
  have hbound := h.bound
  rw [Nat.add_mul, Nat.one_mul] at hle
  have hcomm := Nat.mul_comm k (s.msgSize.toNat + sizeofMessage)
  rw [sizeofMessage] at *
  omega

/-- The lists and the counter are no part of the buffers. -/
theorem Touches.of_mem (hpool : s'.msgPool = s.msgPool) (hsize : s'.msgSize = s.msgSize)
    (hmax : s'.maxMsgs = s.maxMsgs) (hmem : s'.mem = s.mem) : Touches s s' xs ys :=
  ⟨hpool, hsize, hmax, fun b _ _ => by rw [hmem], fun b _ _ i _ => by rw [dataAt, dataAt, hmem]⟩

theorem Touches.buffers (h : Touches s s' xs ys) : buffers s' = buffers s := by
  rw [MessageQueue.buffers, h.msgPool, h.maxMsgs, h.msgSize, MessageQueue.buffers]

theorem Touches.geometry (h : Touches s s' xs ys) (hg : Geometry s) : Geometry s' := by
  refine ⟨?_, ?_⟩
  · rw [h.msgPool]
    exact hg.pool_pos
  · rw [h.msgPool, h.maxMsgs, h.msgSize]
    exact hg.bound

theorem Touches.mono (h : Touches s s' xs ys) (hx : ∀ b ∈ xs, b ∈ xs') (hy : ∀ b ∈ ys, b ∈ ys') :
    Touches s s' xs' ys' :=
  ⟨h.msgPool, h.msgSize, h.maxMsgs, fun b hb hxs => h.next b hb fun hmem => hxs (hx b hmem),
    fun b hb hys => h.data b hb fun hmem => hys (hy b hmem)⟩

theorem Touches.trans (h : Touches s s' xs ys) (h' : Touches s' s'' xs ys) :
    Touches s s'' xs ys := by
  refine ⟨h'.msgPool.trans h.msgPool, h'.msgSize.trans h.msgSize, h'.maxMsgs.trans h.maxMsgs,
    fun b hb hxs => ?_, fun b hb hys i hi => ?_⟩
  · have hb' : b ∈ MessageQueue.buffers s' := by rwa [h.buffers]
    rw [h'.next b hb' hxs, h.next b hb hxs]
  · have hb' : b ∈ MessageQueue.buffers s' := by rwa [h.buffers]
    have hi' : i < s'.msgSize.toNat := by rwa [h.msgSize]
    rw [h'.data b hb' hys i hi', h.data b hb hys i hi]

/-- The link of a buffer is written. -/
theorem setNext_touches (ha : a ∈ buffers s) : Touches s (setNext s a p) [a] [] := by
  refine ⟨rfl, rfl, rfl, fun b hb hne => ?_, fun b hb _ i hi => ?_⟩
  · rw [List.mem_singleton] at hne
    have hsep := separate hb ha hne
    exact load64_store64_of_disjoint (by omega)
  · refine store64_off ?_
    rw [sizeofMessage]
    by_cases hne : b = a
    · omega
    · have hsep := separate hb ha hne
      omega

theorem load64_setNext (hp : p < 2 ^ 64) : (load64 (setNext s a p).mem a).toNat = p := by
  rw [setNext, load64_store64_self, BitVec.toNat_ofNat, Nat.mod_eq_of_lt hp]

/-- A byte of the data of a buffer is written. -/
theorem setData_touches (ha : a ∈ buffers s) (hi : i < s.msgSize.toNat) :
    Touches s (setData s a i v) [] [a] := by
  refine ⟨rfl, rfl, rfl, fun b hb _ => ?_, fun b hb hne j hj => ?_⟩
  · refine load64_update_of_off ?_
    rw [sizeofMessage]
    by_cases hne : b = a
    · omega
    · have hsep := separate hb ha hne
      omega
  · rw [List.mem_singleton] at hne
    have hsep := separate hb ha hne
    refine Function.update_of_ne ?_ ..
    rw [sizeofMessage]
    omega

theorem dataAt_setData_self : dataAt (setData s a i v) a i = v := Function.update_self ..

theorem dataAt_setData_of_ne {j : Nat} (hne : j ≠ i) :
    dataAt (setData s a i v) a j = dataAt s a j :=
  Function.update_of_ne (by omega) ..

theorem Carries.touch {bytes : List Byte} (h : Carries s b bytes) (ht : Touches s s' xs ys)
    (hb : b ∈ buffers s) (hys : b ∉ ys) : Carries s' b bytes := by
  refine ⟨by rw [ht.msgSize]; exact h.1, fun i hi => ?_⟩
  rw [ht.data b hb hys i (lt_of_lt_of_le hi h.1)]
  exact h.2 i hi

private theorem carried_touch {queue : List Nat} {deque : List (List Byte)}
    (h : List.Forall₂ (Carries s) queue deque) (ht : Touches s s' xs ys)
    (hmem : ∀ b ∈ queue, b ∈ buffers s ∧ b ∉ ys) : List.Forall₂ (Carries s') queue deque := by
  induction h with
  | nil => exact List.Forall₂.nil
  | cons hcarries _ ih =>
      obtain ⟨hb, hys⟩ := hmem _ (List.mem_cons_self ..)
      refine List.Forall₂.cons (hcarries.touch ht hb hys) ?_
      exact ih fun c hc => hmem c (List.mem_cons_of_mem _ hc)

end Layout

/-! ## One step -/

section Lists

variable {s s' : Store} {free queue : List Nat} {deque : List (List Byte)} {b : Nat}
  {bytes : List Byte} {xs ys : List Nat}

/-- Other links and other data change. -/
theorem Lists.touch (h : Lists s free queue deque) (ht : Touches s s' xs ys)
    (hmem : ∀ b ∈ free ++ queue, b ∈ buffers s ∧ b ∉ xs ∧ b ∉ ys)
    (hfree : s'.msgQueueFree = s.msgQueueFree) (hhead : s'.msgQueueHead = s.msgQueueHead)
    (htail : s'.msgQueueTail = s.msgQueueTail) : Lists s' free queue deque := by
  have hlink : ∀ b ∈ free ++ queue, load64 s'.mem b = load64 s.mem b := fun b hb =>
    ht.next b (hmem b hb).1 (hmem b hb).2.1
  refine ⟨?_, ?_, htail.trans h.tail, ?_⟩
  · rw [hfree]
    exact h.freeChain.frame fun b hb => hlink b (List.mem_append_left _ hb)
  · rw [hhead]
    exact h.queueChain.frame fun b hb => hlink b (List.mem_append_right _ hb)
  · exact carried_touch h.carried ht fun b hb =>
      ⟨(hmem b (List.mem_append_right _ hb)).1, (hmem b (List.mem_append_right _ hb)).2.2⟩

/-- A send takes the first free buffer. -/
theorem Lists.takeFree (h : Lists s free queue deque) (hfree : s.msgQueueFree ≠ 0) :
    ∃ free', free = s.msgQueueFree :: free' ∧ Lists (takeFree s).1 free' queue deque ∧
      Touches s (takeFree s).1 [] [] := by
  obtain ⟨free', rfl⟩ := h.freeChain.eq_cons hfree
  exact ⟨free', rfl, ⟨h.freeChain.2.2, h.queueChain, h.tail, h.carried⟩,
    Touches.of_mem rfl rfl rfl rfl⟩

/-- The head of a list is an address. -/
theorem head_lt (hg : Geometry s) (hin : ∀ c ∈ queue, c ∈ buffers s) (h : Chain s.mem b queue) :
    b < 2 ^ 64 := by
  cases queue with
  | nil =>
      rw [chain_nil] at h
      omega
  | cons c queue =>
      rw [h.1]
      exact (hg.mem (hin c (List.mem_cons_self ..))).2

/-- A buffer is put into the free list. -/
theorem Lists.putFree (h : Lists s free queue deque) (hg : Geometry s) (hb : b ∈ buffers s)
    (hout : b ∉ free ++ queue) (hin : ∀ c ∈ free ++ queue, c ∈ buffers s) :
    Lists (putFree s b) (b :: free) queue deque ∧ Touches s (putFree s b) [b] [] := by
  have ht : Touches s (setNext s b s.msgQueueFree) [b] [] := setNext_touches hb
  have hl : Lists (setNext s b s.msgQueueFree) free queue deque :=
    h.touch ht (fun c hc => ⟨hin c hc, fun hcb => hout (List.mem_singleton.mp hcb ▸ hc),
      List.not_mem_nil⟩) rfl rfl rfl
  have hlink : (load64 (setNext s b s.msgQueueFree).mem b).toNat = s.msgQueueFree :=
    load64_setNext (head_lt hg (fun c hc => hin c (List.mem_append_left _ hc)) h.freeChain)
  have hput : Touches (setNext s b s.msgQueueFree) (MessageQueue.putFree s b) [b] [] :=
    Touches.of_mem rfl rfl rfl rfl
  refine ⟨⟨?_, hl.queueChain, hl.tail, hl.carried⟩, ht.trans hput⟩
  have hchain : Chain (setNext s b s.msgQueueFree).mem b (b :: free) :=
    hl.freeChain.link (fun _ _ => rfl) (by have := hg.mem hb; omega) hlink
  exact hchain

private theorem countEntry_eq {n : Nat} (hentry : s.entry.toNat = n) (hn : n < 65535) :
    countEntry s = ({ s with entry := s.entry + 1 }, .eok) ∧ (s.entry + 1).toNat = n + 1 := by
  have hlt : s.entry < mqEntryMax := by
    rw [BitVec.lt_def, hentry]
    exact hn
  rw [countEntry, if_pos hlt]
  refine ⟨rfl, ?_⟩
  bv_omega

/-- The counter is no part of the lists. -/
theorem Lists.withEntry (h : Lists s free queue deque) (entry : BitVec 16) :
    Lists { s with entry := entry } free queue deque :=
  ⟨h.freeChain, h.queueChain, h.tail, h.carried⟩

private theorem linkTail_empty (htail : s.msgQueueTail = 0) (hhead : s.msgQueueHead = 0) :
    linkTail s b = countEntry { s with msgQueueTail := b, msgQueueHead := b } := by
  simp only [MessageQueue.linkTail, htail, hhead, ne_eq, not_true_eq_false, if_false, if_true]

private theorem linkTail_behind (htail : s.msgQueueTail ≠ 0) (hhead : s.msgQueueHead ≠ 0) :
    linkTail s b = countEntry { setNext s s.msgQueueTail b with msgQueueTail := b } := by
  have hkeep : (setNext s s.msgQueueTail b).msgQueueHead ≠ 0 := hhead
  simp only [MessageQueue.linkTail, if_pos htail, if_neg hkeep]

/-- A message is linked behind the others. -/
theorem Lists.linkTail (h : Lists s free queue deque) (hb : b ∈ buffers s) (hg : Geometry s)
    (hout : b ∉ free ++ queue) (hin : ∀ c ∈ free ++ queue, c ∈ buffers s)
    (hnodup : (free ++ queue).Nodup) (hend : next s b = 0) (hcarries : Carries s b bytes)
    (hentry : s.entry.toNat = queue.length) (hfull : queue.length < 65535) :
    ∃ s', linkTail s b = (s', .eok) ∧ Lists s' free (queue ++ [b]) (deque ++ [bytes]) ∧
      s'.entry.toNat = queue.length + 1 ∧ Touches s s' queue [] := by
  have hpos : b ≠ 0 := by have := hg.mem hb; omega
  rcases List.eq_nil_or_concat' queue with rfl | ⟨front, last, rfl⟩
  · have htail : s.msgQueueTail = 0 := h.tail
    have hhead : s.msgQueueHead = 0 := h.queueChain
    have hdeque : deque = [] := List.forall₂_nil_left_iff.mp h.carried
    rw [hdeque]
    have hl : Lists { s with msgQueueTail := b, msgQueueHead := b } free [b] [bytes] :=
      ⟨h.freeChain, ⟨rfl, hpos, hend⟩, rfl,
        List.Forall₂.cons ⟨hcarries.1, hcarries.2⟩ List.Forall₂.nil⟩
    obtain ⟨hcount, hnext⟩ :=
      countEntry_eq (s := { s with msgQueueTail := b, msgQueueHead := b }) hentry hfull
    refine ⟨_, ?_, hl.withEntry _, hnext, Touches.of_mem rfl rfl rfl rfl⟩
    rw [linkTail_empty htail hhead]
    exact hcount
  · have hlast : s.msgQueueTail = last := h.tail.trans List.getLastD_concat
    have hhead : s.msgQueueHead ≠ 0 := h.queueChain.ne_zero (by simp)
    have hmem : last ∈ buffers s := hin last (by simp)
    have hlastpos : last ≠ 0 := by have := hg.mem hmem; omega
    have hbl : b ≠ last := by
      rintro rfl
      exact hout (by simp)
    have hne : ∀ c, c ∈ free ∨ c ∈ front → c ∈ buffers s ∧ c ≠ last := by
      intro c hc
      refine ⟨hin c (by simp; tauto), ?_⟩
      rintro rfl
      rw [← List.append_assoc] at hnodup
      refine List.disjoint_of_nodup_append hnodup (List.mem_append.mpr hc)
        (List.mem_singleton_self _)
    generalize hs₁ : setNext s last b = s₁
    have ht : Touches s s₁ [last] [] := hs₁ ▸ setNext_touches hmem
    have hlink : (load64 s₁.mem last).toNat = b := hs₁ ▸ load64_setNext (hg.mem hb).2
    have hsame : ∀ c, c ∈ buffers s → c ≠ last → load64 s₁.mem c = load64 s.mem c := fun c hc hcl =>
      ht.next c hc fun hcl' => hcl (List.mem_singleton.mp hcl')
    have hfields : s₁.msgQueueFree = s.msgQueueFree ∧ s₁.msgQueueHead = s.msgQueueHead ∧
        s₁.entry = s.entry := by
      rw [← hs₁]
      exact ⟨rfl, rfl, rfl⟩
    obtain ⟨hfree₁, hhead₁, hentry₁⟩ := hfields
    have hl : Lists { s₁ with msgQueueTail := b } free (front ++ [last] ++ [b])
        (deque ++ [bytes]) := by
      refine ⟨?_, ?_, List.getLastD_concat.symm, ?_⟩
      · show Chain s₁.mem s₁.msgQueueFree free
        rw [hfree₁]
        exact h.freeChain.frame fun c hc => hsame c (hne c (Or.inl hc)).1 (hne c (Or.inl hc)).2
      · show Chain s₁.mem s₁.msgQueueHead _
        rw [hhead₁]
        refine h.queueChain.snoc (fun c hc => hsame c (hne c (Or.inr hc)).1 (hne c (Or.inr hc)).2)
          hlink hpos ?_
        rw [hsame b hb hbl]
        exact hend
      · have hq : List.Forall₂ (Carries s₁) (front ++ [last]) deque :=
          carried_touch h.carried ht fun c hc =>
            ⟨hin c (List.mem_append_right _ hc), List.not_mem_nil⟩
        have hnew : Carries s₁ b bytes := hcarries.touch ht hb List.not_mem_nil
        exact List.rel_append hq (List.Forall₂.cons hnew List.Forall₂.nil)
    obtain ⟨hcount, hnext⟩ := countEntry_eq (s := { s₁ with msgQueueTail := b })
      (by rw [← hentry, ← hentry₁]) hfull
    refine ⟨_, ?_, hl.withEntry _, hnext, ?_⟩
    · rw [linkTail_behind (hlast ▸ hlastpos) hhead, hlast, hs₁]
      exact hcount
    · have hrest : Touches s₁ { s₁ with msgQueueTail := b, entry := s₁.entry + 1 } [last] [] :=
        Touches.of_mem rfl rfl rfl rfl
      refine (ht.trans hrest).mono (fun c hc => ?_) fun c hc => hc
      rw [List.mem_singleton.mp hc]
      exact List.mem_append_right _ (List.mem_singleton_self _)

private theorem linkHead_eq :
    linkHead s b = countEntry
      { setNext s b s.msgQueueHead with
        msgQueueHead := b
        msgQueueTail := if s.msgQueueTail = 0 then b else s.msgQueueTail } := by
  have hkeep : (setNext s b s.msgQueueHead).msgQueueTail = s.msgQueueTail := rfl
  simp only [MessageQueue.linkHead, hkeep]
  by_cases htail : s.msgQueueTail = 0
  · rw [if_pos htail, if_pos htail]
  · rw [if_neg htail, if_neg htail, ← hkeep]

/-- A message is linked in front of the others. -/
theorem Lists.linkHead (h : Lists s free queue deque) (hb : b ∈ buffers s) (hg : Geometry s)
    (hout : b ∉ free ++ queue) (hin : ∀ c ∈ free ++ queue, c ∈ buffers s)
    (hcarries : Carries s b bytes) (hentry : s.entry.toNat = queue.length)
    (hfull : queue.length < 65535) :
    ∃ s', linkHead s b = (s', .eok) ∧ Lists s' free (b :: queue) (bytes :: deque) ∧
      s'.entry.toNat = queue.length + 1 ∧ Touches s s' [b] [] := by
  have hpos : b ≠ 0 := by have := hg.mem hb; omega
  have hhead : s.msgQueueHead < 2 ^ 64 :=
    head_lt hg (fun c hc => hin c (List.mem_append_right _ hc)) h.queueChain
  have htail : (if s.msgQueueTail = 0 then b else s.msgQueueTail) = (b :: queue).getLastD 0 := by
    rw [h.tail]
    cases queue with
    | nil => rfl
    | cons c queue =>
        have hlast : ((c :: queue).getLastD 0) ∈ buffers s := by
          rw [List.getLastD_cons]
          exact hin _ (List.mem_append_right _ List.getLastD_mem_cons)
        have hne : (c :: queue).getLastD 0 ≠ 0 := by have := hg.mem hlast; omega
        rw [if_neg hne]
        rfl
  rw [linkHead_eq, htail]
  generalize hs₁ : setNext s b s.msgQueueHead = s₁
  have ht : Touches s s₁ [b] [] := hs₁ ▸ setNext_touches hb
  have hlink : (load64 s₁.mem b).toNat = s.msgQueueHead := hs₁ ▸ load64_setNext hhead
  have hentry₁ : s₁.entry = s.entry := by
    rw [← hs₁]
    rfl
  have hl₁ : Lists s₁ free queue deque := by
    refine h.touch ht (fun c hc => ⟨hin c hc, fun hcb => ?_, List.not_mem_nil⟩) ?_ ?_ ?_
    · exact hout (List.mem_singleton.mp hcb ▸ hc)
    · rw [← hs₁]
      rfl
    · rw [← hs₁]
      rfl
    · rw [← hs₁]
      rfl
  have hhead₁ : s₁.msgQueueHead = s.msgQueueHead := by
    rw [← hs₁]
    rfl
  have hl : Lists { s₁ with msgQueueHead := b, msgQueueTail := (b :: queue).getLastD 0 } free
      (b :: queue) (bytes :: deque) := by
    have hnew : Carries s₁ b bytes := hcarries.touch ht hb List.not_mem_nil
    refine ⟨hl₁.freeChain, ?_, rfl, List.Forall₂.cons ⟨hnew.1, hnew.2⟩ hl₁.carried⟩
    exact hl₁.queueChain.link (fun _ _ => rfl) hpos (hlink.trans hhead₁.symm)
  obtain ⟨hcount, hnext⟩ := countEntry_eq
    (s := { s₁ with msgQueueHead := b, msgQueueTail := (b :: queue).getLastD 0 })
    (by rw [← hentry, ← hentry₁]) hfull
  exact ⟨_, hcount, hl.withEntry _, hnext, ht.trans (Touches.of_mem rfl rfl rfl rfl)⟩

/-- The first message is unlinked. -/
theorem Lists.unlinkHead (h : Lists s free (b :: queue) (bytes :: deque))
    (hnodup : (b :: queue).Nodup) :
    ∃ s', unlinkHead s = .ok (s', b) ∧ Lists s' free queue deque ∧ Carries s' b bytes ∧
      s'.entry = s.entry ∧ Touches s s' [] [] := by
  obtain ⟨hhead, hpos, htail⟩ := h.queueChain
  obtain ⟨hcarries, hcarried⟩ := List.forall₂_cons.mp h.carried
  have hlast : (if s.msgQueueTail = b then 0 else s.msgQueueTail) = queue.getLastD 0 := by
    rw [h.tail]
    cases queue with
    | nil => exact if_pos rfl
    | cons c queue =>
        have hne : (b :: c :: queue).getLastD 0 ≠ b := by
          rw [List.getLastD_cons, List.getLastD_cons]
          intro heq
          exact (List.nodup_cons.mp hnodup).1 (heq ▸ List.getLastD_mem_cons)
        rw [if_neg hne]
        rfl
  refine ⟨{ s with
    msgQueueHead := next s b
    msgQueueTail := if s.msgQueueTail = b then 0 else s.msgQueueTail }, ?_,
    ⟨h.freeChain, htail, hlast, hcarried⟩, hcarries, rfl, Touches.of_mem rfl rfl rfl rfl⟩
  rw [MessageQueue.unlinkHead, hhead, decide_eq_true hpos]
  by_cases heq : s.msgQueueTail = b
  · simp only [check_true, ok_bind, if_pos heq]
    rfl
  · simp only [check_true, ok_bind, if_neg heq]
    rfl

/-- A receive takes the first message. -/
theorem Lists.takeHead (h : Lists s free queue deque) (hnodup : queue.Nodup)
    (hentry : s.entry.toNat = queue.length) (hne : s.entry ≠ 0) :
    ∃ s' b queue' bytes deque', queue = b :: queue' ∧ deque = bytes :: deque' ∧
      takeHead s = .ok (s', b) ∧ Lists s' free queue' deque' ∧ Carries s' b bytes ∧
      s'.entry.toNat = queue'.length ∧ Touches s s' [] [] := by
  have hpos : s.entry.toNat ≠ 0 := fun h0 => hne (BitVec.eq_of_toNat_eq h0)
  cases queue with
  | nil => exact absurd hentry hpos
  | cons b queue =>
      cases deque with
      | nil => cases h.carried
      | cons bytes deque =>
          obtain ⟨s', hunlink, hlists, hcarries, hsame, ht⟩ := h.unlinkHead hnodup
          rw [List.length_cons] at hentry
          refine ⟨{ s' with entry := s'.entry - 1 }, b, queue, bytes, deque, rfl, rfl, ?_,
            hlists.withEntry _, hcarries, ?_, ht.trans (Touches.of_mem rfl rfl rfl rfl)⟩
          · have hlt : 0 < s'.entry := by
              rw [hsame]
              bv_omega
            rw [MessageQueue.takeHead, hunlink, ok_bind]
            simp only [if_pos hlt]
            rfl
          · show (s'.entry - 1).toNat = queue.length
            rw [hsame]
            bv_omega

/-- A reset puts the messages into the free list, the first one first. -/
theorem Lists.releaseAll {fuel : Nat} (h : Lists s free queue deque) (hg : Geometry s)
    (hin : ∀ c ∈ free ++ queue, c ∈ buffers s) (hnodup : (free ++ queue).Nodup)
    (hfuel : queue.length < fuel) :
    ∃ s', releaseAll s fuel = .ok s' ∧ Lists s' (queue.reverse ++ free) [] [] ∧
      Touches s s' queue [] := by
  induction queue generalizing s free deque fuel with
  | nil =>
      obtain ⟨fuel, rfl⟩ := Nat.exists_eq_succ_of_ne_zero (Nat.ne_of_gt hfuel)
      have hhead : s.msgQueueHead = 0 := h.queueChain
      have hdeque : deque = [] := List.forall₂_nil_left_iff.mp h.carried
      refine ⟨s, ?_, hdeque ▸ h, Touches.of_mem rfl rfl rfl rfl⟩
      rw [MessageQueue.releaseAll, if_neg (by rw [hhead]; decide)]
      rfl
  | cons b queue ih =>
      obtain ⟨fuel, rfl⟩ := Nat.exists_eq_succ_of_ne_zero (Nat.ne_of_gt (Nat.zero_lt_of_lt hfuel))
      cases deque with
      | nil => cases h.carried
      | cons bytes deque =>
          have hqueue : (b :: queue).Nodup := (List.nodup_append.mp hnodup).2.1
          obtain ⟨s₁, hunlink, hlists₁, -, -, ht₁⟩ := h.unlinkHead hqueue
          have hperm : (free ++ b :: queue).Perm (b :: free ++ queue) := List.perm_middle
          obtain ⟨hb, hnodup'⟩ := List.nodup_cons.mp (hperm.nodup_iff.mp hnodup)
          have hin₁ : ∀ c ∈ b :: free ++ queue, c ∈ buffers s₁ := fun c hc => by
            rw [ht₁.buffers]
            exact hin c (hperm.mem_iff.mpr hc)
          obtain ⟨hlists₂, ht₂⟩ := hlists₁.putFree (ht₁.geometry hg)
            (hin₁ b (List.mem_cons_self ..)) hb fun c hc => hin₁ c (List.mem_cons_of_mem b hc)
          have ht₁₂ : Touches s (MessageQueue.putFree s₁ b) [b] [] :=
            (ht₁.mono (fun _ hc => absurd hc List.not_mem_nil) fun _ hc => hc).trans ht₂
          have hfuel' : queue.length < fuel := Nat.lt_of_succ_lt_succ hfuel
          obtain ⟨s', hall, hlists', ht'⟩ := ih hlists₂ (ht₁₂.geometry hg)
            (fun c hc => by rw [ht₂.buffers]; exact hin₁ c hc) (hperm.nodup_iff.mp hnodup) hfuel'
          refine ⟨s', ?_, ?_, ?_⟩
          · rw [MessageQueue.releaseAll,
              if_pos (by rw [h.queueChain.1]; exact h.queueChain.2.1), hunlink]
            exact hall
          · rw [List.reverse_cons, List.append_assoc]
            exact hlists'
          · refine (ht₁₂.mono (fun c hc => ?_) fun _ hc => hc).trans
              (ht'.mono (fun c hc => List.mem_cons_of_mem b hc) fun _ hc => hc)
            rw [List.mem_singleton.mp hc]
            exact List.mem_cons_self ..

end Lists

/-! ## A new message queue -/

/-- The loop of `rt_mq_init` puts the buffers into the free list. -/
theorem linkBuffers_spec {s : Store} (hg : Geometry s) (hfree : s.msgQueueFree = 0)
    (hhead : s.msgQueueHead = 0) (htail : s.msgQueueTail = 0) {k : Nat}
    (hk : k ≤ s.maxMsgs.toNat) :
    Lists (linkBuffers s k)
        (List.range' s.msgPool k (s.msgSize.toNat + sizeofMessage)).reverse [] [] ∧
      (linkBuffers s k).entry = s.entry ∧ Touches s (linkBuffers s k) (buffers s) [] := by
  induction k with
  | zero => exact ⟨⟨hfree, hhead, htail, List.Forall₂.nil⟩, rfl, Touches.of_mem rfl rfl rfl rfl⟩
  | succ k ih =>
      obtain ⟨hlists, hentry, ht⟩ := ih (by omega)
      have hmem : s.msgPool + (s.msgSize.toNat + sizeofMessage) * k ∈ buffers s :=
        List.mem_range'.mpr ⟨k, hk, rfl⟩
      have hat : bufferAt s.msgPool s.msgSize.toNat k =
          s.msgPool + (s.msgSize.toNat + sizeofMessage) * k := by
        rw [bufferAt, Nat.mul_comm k]
        exact Nat.mod_eq_of_lt (hg.mem hmem).2
      have hsub : ∀ c ∈ List.range' s.msgPool k (s.msgSize.toNat + sizeofMessage),
          c ∈ buffers s ∧ c ≠ s.msgPool + (s.msgSize.toNat + sizeofMessage) * k := by
        intro c hc
        obtain ⟨i, hi, rfl⟩ := List.mem_range'.mp hc
        refine ⟨List.mem_range'.mpr ⟨i, by omega, rfl⟩, fun heq => ?_⟩
        have hpos : 0 < s.msgSize.toNat + sizeofMessage := Nat.add_pos_right _ (by decide)
        have hik : i = k := Nat.eq_of_mul_eq_mul_left hpos (Nat.add_left_cancel heq)
        omega
      have hlisted : ∀ c,
          c ∈ (List.range' s.msgPool k (s.msgSize.toNat + sizeofMessage)).reverse ++ [] →
            c ∈ List.range' s.msgPool k (s.msgSize.toNat + sizeofMessage) := by
        intro c hc
        rwa [List.append_nil, List.mem_reverse] at hc
      obtain ⟨hput, htput⟩ := hlists.putFree (ht.geometry hg)
        (by rw [ht.buffers]; exact hmem) (fun hc => (hsub _ (hlisted _ hc)).2 rfl)
        fun c hc => by rw [ht.buffers]; exact (hsub c (hlisted c hc)).1
      rw [linkBuffers, hat, List.range'_concat, List.reverse_append]
      refine ⟨hput, hentry, ht.trans (htput.mono (fun c hc => ?_) fun _ hc => hc)⟩
      rw [List.mem_singleton.mp hc]
      exact hmem

end RtHypervisor.Ports.MessageQueue
