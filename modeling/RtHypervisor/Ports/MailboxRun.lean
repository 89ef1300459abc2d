import RtHypervisor.Ports.Mailbox

/-!
# Mailboxes as bounded deques

The mails between `outOffset` and `inOffset` are a deque: a send appends, an urgent send
prepends, a receive takes the first.  `Ledger.deque` is that deque, kept beside the code from
what the calls return; every mail carries a number, so that equal values are told apart.

The deque holds `size` mails as long as the argument of `rt_mb_init` fits the field
(`mailbox_deque`).
-/

namespace RtHypervisor.Ports.Mailbox

open RtHypervisor.Verified.Run
open RtHypervisor.Verified
open RtHypervisor.Ports.Ipc

/-- Where a thread is in the calls of a mailbox. -/
inductive Phase
  | idle
  | sending (w : Wait)
  | receiving (w : Wait)
deriving DecidableEq, Repr

/-- The list a thread waits in. -/
def Phase.side : Phase → Option Side
  | .idle => none
  | .sending _ => some .send
  | .receiving _ => some .recv

abbrev Mail := Nat × Word

/-- The mails that were accepted, those received and discarded of them, and the rest. -/
structure Ledger where
  accepted : List Mail
  received : List Mail
  discarded : List Mail
  deque : List Mail

structure MbSys where
  mb : Mb
  phase : ThreadId → Phase
  ledger : Ledger

inductive Event
  | send (t : ThreadId) (value : Word) (timeout : BitVec 32)
  | urgent (value : Word)
  | recv (t : ThreadId) (timeout : BitVec 32)
  | woken (t : ThreadId)
  | timeout (t : ThreadId)
  | control (cmd : Int)
  | tick
  | priority (t : ThreadId) (p : Nat)
  | other (t : ThreadId) (x : Thread)

/-- A thread calls, or goes on, while it is not suspended; a call that does not wait may be
made from an interrupt.  The timer of a thread runs out while it is active, and what a thread
does elsewhere, it does outside the calls of the mailbox. -/
def Enabled (s : MbSys) : Event → Prop
  | .send t _ timeout => timeout = 0 ∨ s.phase t = .idle ∧ (s.mb.threads t).suspended = false
  | .recv t timeout => timeout = 0 ∨ s.phase t = .idle ∧ (s.mb.threads t).suspended = false
  | .woken t => s.phase t ≠ .idle ∧ (s.mb.threads t).suspended = false
  | .timeout t => s.phase t ≠ .idle ∧ (s.mb.threads t).timer = true
  | .other t _ => s.phase t = .idle
  | _ => True

/-- The next mail to be accepted. -/
def Ledger.mail (l : Ledger) (value : Word) : Mail := (l.accepted.length, value)

def Ledger.append (l : Ledger) (value : Word) : Ledger :=
  { l with accepted := l.accepted ++ [l.mail value], deque := l.deque ++ [l.mail value] }

def Ledger.prepend (l : Ledger) (value : Word) : Ledger :=
  { l with accepted := l.accepted ++ [l.mail value], deque := l.mail value :: l.deque }

/-- A value is received, as the first mail if there is one. -/
def Ledger.receive (l : Ledger) (value : Word) : Ledger :=
  match l.deque with
  | [] => { l with received := l.mail value :: l.received }
  | m :: rest => { l with received := (m.1, value) :: l.received, deque := rest }

def Ledger.discard (l : Ledger) : Ledger :=
  { l with discarded := l.deque ++ l.discarded, deque := [] }

/-- A send has gone on to where it returns or waits. -/
def afterSend (s : MbSys) (t : ThreadId) (value : Word) (mb : Mb) : Outcome → MbSys
  | .returned e _ =>
      { s with mb := mb, ledger := if e = .eok then s.ledger.append value else s.ledger }
  | .blocked w => { s with mb := mb, phase := Function.update s.phase t (.sending w) }

/-- A receive has gone on to where it returns or waits. -/
def afterRecv (s : MbSys) (t : ThreadId) (mb : Mb) : Outcome → MbSys
  | .returned _ (some value) => { s with mb := mb, ledger := s.ledger.receive value }
  | .returned _ none => { s with mb := mb }
  | .blocked w => { s with mb := mb, phase := Function.update s.phase t (.receiving w) }

/-- The thread is back from its call of `rt_schedule`. -/
def leave (s : MbSys) (t : ThreadId) : MbSys :=
  { s with phase := Function.update s.phase t .idle }

def step (s : MbSys) : Event → Except Fault MbSys
  | .send t value timeout => do
      let (mb, o) ← rtMbSendWait s.mb t value timeout
      pure (afterSend s t value mb o)
  | .urgent value =>
      let (mb, e) := rtMbUrgent s.mb value
      pure { s with mb := mb, ledger := if e = .eok then s.ledger.prepend value else s.ledger }
  | .recv t timeout => do
      let (mb, o) ← rtMbRecv s.mb t timeout
      pure (afterRecv s t mb o)
  | .woken t =>
      match s.phase t with
      | .sending w => do
          let (mb, o) ← mbSendWoken s.mb t w
          pure (afterSend (leave s t) t w.value mb o)
      | .receiving w => do
          let (mb, o) ← mbRecvWoken s.mb t w
          pure (afterRecv (leave s t) t mb o)
      | .idle => pure s
  | .timeout t => do
      let mb ← mbTimeout s.mb t
      pure { s with mb := mb }
  | .control cmd => do
      let (mb, e) ← rtMbControl s.mb cmd
      pure { s with mb := mb, ledger := if e = .eok then s.ledger.discard else s.ledger }
  | .tick => pure { s with mb := { s.mb with tick := s.mb.tick + 1 } }
  | .priority t p =>
      pure
        { s with
          mb := { s.mb with
            threads := modify s.mb.threads t fun x => { x with currentPriority := p } } }
  | .other t x => pure { s with mb := { s.mb with threads := Function.update s.mb.threads t x } }

def init (mb : Mb) : MbSys where
  mb := mb
  phase := fun _ => .idle
  ledger := ⟨[], [], [], []⟩

/-! ## The deque -/

/-- The call of a send is accepted unless it finds `n` mails; then it is refused if it does
not wait, and blocks if it does. -/
def SendOk (n : Nat) (s : Mb) (timeout : BitVec 32) (x : Except Fault (Mb × Outcome)) : Prop :=
  if s.entry.toNat = n then
    if timeout = 0 then ∃ s', x = .ok (s', .returned .efull none)
    else Meets (· = .assertion) (fun r => ∃ w, r.2 = .blocked w) x
  else ∃ s', x = .ok (s', .returned .eok none)

/-- The ring holds the mails of a deque of capacity `n`. -/
structure RingOk (n : Nat) (s : Mb) (deque : List Mail) : Prop where
  entry : s.entry.toNat = deque.length
  capacity : deque.length ≤ n
  out_lt : s.outOffset.toNat < n
  in_eq : s.inOffset.toNat = (s.outOffset.toNat + s.entry.toNat) % n
  queue : Ring.contents n s.outOffset.toNat s.entry.toNat s.msgPool = deque.map Prod.snd

/-- A mailbox is a deque of capacity `n`, that accepts the sends it has room for, and of which
every mail that was accepted is received, discarded or still there, each once. -/
structure Deque (n : Nat) (s : MbSys) : Prop where
  ring : RingOk n s.mb s.ledger.deque
  in_lt : s.mb.inOffset.toNat < n
  send : ∀ t value timeout, SendOk n s.mb timeout (rtMbSendWait s.mb t value timeout)
  loop : ∀ t w, SendOk n s.mb w.timeout (sendLoop s.mb t w)
  urgent : ∀ value,
    (rtMbUrgent s.mb value).2 = if s.mb.entry.toNat = n then .efull else .eok
  numbered : s.ledger.accepted.map Prod.fst = List.range s.ledger.accepted.length
  delivered : (s.ledger.received ++ s.ledger.discarded ++ s.ledger.deque).Perm s.ledger.accepted

section Ring

variable {n : Nat} {s s' : Mb} {d : List Mail} {m : Mail}

theorem RingOk.congr (h : RingOk n s d) (hentry : s'.entry = s.entry)
    (hin : s'.inOffset = s.inOffset) (hout : s'.outOffset = s.outOffset)
    (hpool : s'.msgPool = s.msgPool) : RingOk n s' d := by
  refine ⟨?_, h.capacity, ?_, ?_, ?_⟩
  · rw [hentry]
    exact h.entry
  · rw [hout]
    exact h.out_lt
  · rw [hin, hout, hentry]
    exact h.in_eq
  · rw [hout, hentry, hpool]
    exact h.queue

theorem RingOk.in_lt (h : RingOk n s d) : s.inOffset.toNat < n := by
  rw [h.in_eq]
  exact Nat.mod_lt _ (by have := h.out_lt; omega)

private theorem nextOffset_toNat (hsize : s.size.toNat = n) {offset : BitVec 16}
    (h : offset.toNat < n) :
    (nextOffset s offset).toNat = (offset.toNat + 1) % n := by
  rw [← Ring.wrap_eq h, nextOffset]
  have hlt := s.size.isLt
  have hadd : (offset + 1).toNat = offset.toNat + 1 := by bv_omega
  by_cases hle : s.size ≤ offset + 1
  · have hle' : n ≤ offset.toNat + 1 := by
      rw [← hadd, ← hsize]
      exact hle
    rw [if_pos hle, if_pos hle']
    rfl
  · have hle' : ¬n ≤ offset.toNat + 1 := by
      rw [← hadd, ← hsize]
      exact hle
    rw [if_neg hle, if_neg hle', hadd]

theorem full_iff (hsize : s.size.toNat = n) : s.entry = s.size ↔ s.entry.toNat = n := by
  rw [← hsize, BitVec.toNat_inj]

/-- A mail behind the last one. -/
def appended (s : Mb) (value : Word) : Mb :=
  { s with
    msgPool := Function.update s.msgPool s.inOffset.toNat value
    inOffset := nextOffset s s.inOffset
    entry := s.entry + 1 }

/-- A mail in front of the first one. -/
def prepended (s : Mb) (value : Word) : Mb :=
  let outOffset := if 0 < s.outOffset then s.outOffset - 1 else s.size - 1
  { s with
    outOffset := outOffset
    msgPool := Function.update s.msgPool outOffset.toNat value
    entry := s.entry + 1 }

/-- The first mail is gone. -/
def removed (s : Mb) : Mb :=
  { s with outOffset := nextOffset s s.outOffset, entry := s.entry - 1 }

private theorem entry_add (hsize : s.size.toNat = n) (hroom : s.entry.toNat < n) :
    (s.entry + 1).toNat = s.entry.toNat + 1 := by
  have hlt := s.size.isLt
  bv_omega

private theorem putMail_eq (hsize : s.size.toNat = n) (hroom : s.entry.toNat < n) (value : Word) :
    putMail s value = (resumeReceiver (appended s value), .eok) := by
  have hlt := s.size.isLt
  have hmax : s.entry < mbEntryMax := by
    rw [mbEntryMax]
    bv_omega
  rw [putMail, if_pos hmax]
  rfl

theorem appended_ring (hsize : s.size.toNat = n) (h : RingOk n s d) (hroom : s.entry.toNat < n) :
    RingOk n (appended s m.2) (d ++ [m]) := by
  have hadd : (appended s m.2).entry.toNat = s.entry.toNat + 1 := entry_add hsize hroom
  refine ⟨?_, ?_, h.out_lt, ?_, ?_⟩
  · rw [hadd, List.length_append, h.entry]
    rfl
  · rw [List.length_append, ← h.entry]
    exact hroom
  · show (nextOffset s s.inOffset).toNat = (s.outOffset.toNat + (appended s m.2).entry.toNat) % n
    rw [nextOffset_toNat hsize h.in_lt, h.in_eq, hadd, Nat.mod_add_mod, Nat.add_assoc]
  · show Ring.contents n s.outOffset.toNat (appended s m.2).entry.toNat
      (Function.update s.msgPool s.inOffset.toNat m.2) = _
    rw [hadd, h.in_eq, Ring.contents_append hroom, h.queue, List.map_append]
    rfl

private theorem rtMbUrgent_eq (hsize : s.size.toNat = n) (hroom : s.entry.toNat < n)
    (value : Word) :
    rtMbUrgent s value = (resumeReceiver (prepended s value), .eok) := by
  have hne : s.entry ≠ s.size := by
    rw [ne_eq, full_iff hsize]
    omega
  rw [rtMbUrgent, if_neg hne]
  rfl

private theorem prepended_ring (hsize : s.size.toNat = n) (h : RingOk n s d)
    (hroom : s.entry.toNat < n) :
    RingOk n (prepended s m.2) (m :: d) := by
  have hadd : (prepended s m.2).entry.toNat = s.entry.toNat + 1 := entry_add hsize hroom
  have hout : (prepended s m.2).outOffset.toNat < n ∧
      ((prepended s m.2).outOffset.toNat + 1) % n = s.outOffset.toNat := by
    have hlt := h.out_lt
    have hbound := s.size.isLt
    show (if 0 < s.outOffset then s.outOffset - 1 else s.size - 1).toNat < n ∧
      ((if 0 < s.outOffset then s.outOffset - 1 else s.size - 1).toNat + 1) % n = s.outOffset.toNat
    by_cases hpos : 0 < s.outOffset
    · have hsub : (s.outOffset - 1).toNat + 1 = s.outOffset.toNat := by bv_omega
      rw [if_pos hpos, hsub, Nat.mod_eq_of_lt hlt]
      exact ⟨by omega, rfl⟩
    · have hzero : s.outOffset.toNat = 0 := by bv_omega
      have hsub : (s.size - 1).toNat + 1 = n := by bv_omega
      rw [if_neg hpos, hsub, Nat.mod_self, hzero]
      exact ⟨by omega, rfl⟩
  refine ⟨?_, ?_, hout.1, ?_, ?_⟩
  · rw [hadd, List.length_cons, h.entry]
  · rw [List.length_cons, ← h.entry]
    exact hroom
  · show s.inOffset.toNat =
      ((prepended s m.2).outOffset.toNat + (prepended s m.2).entry.toNat) % n
    rw [hadd, h.in_eq, ← hout.2, Nat.mod_add_mod, Nat.add_assoc, Nat.add_comm 1]
  · show Ring.contents n (prepended s m.2).outOffset.toNat (prepended s m.2).entry.toNat
      (Function.update s.msgPool (prepended s m.2).outOffset.toNat m.2) = _
    rw [hadd, Ring.contents_cons hroom hout.1, hout.2, h.queue, List.map_cons]

private theorem getMail_eq (h : RingOk n s (m :: d)) :
    getMail s = (resumeSender (removed s), m.2) := by
  have hentry := h.entry
  have hpos : 0 < s.entry := by
    rw [List.length_cons] at hentry
    bv_omega
  have hqueue := h.queue
  rw [h.entry, List.length_cons, Ring.contents_succ h.out_lt, List.map_cons] at hqueue
  rw [getMail, (List.cons.inj hqueue).1]
  simp only [hpos, if_true]
  rfl

theorem removed_ring (hsize : s.size.toNat = n) (h : RingOk n s (m :: d)) :
    RingOk n (removed s) d := by
  have hentry := h.entry
  rw [List.length_cons] at hentry
  have hsub : (removed s).entry.toNat = d.length := by
    show (s.entry - 1).toNat = d.length
    bv_omega
  have hout : (removed s).outOffset.toNat = (s.outOffset.toNat + 1) % n :=
    nextOffset_toNat hsize h.out_lt
  have hcapacity := h.capacity
  rw [List.length_cons] at hcapacity
  refine ⟨hsub, by omega, ?_, ?_, ?_⟩
  · rw [hout]
    exact Nat.mod_lt _ (by omega)
  · show s.inOffset.toNat = _
    rw [hout, hsub, h.in_eq, hentry, Nat.mod_add_mod, Nat.add_assoc, Nat.add_comm 1]
  · have hqueue := h.queue
    rw [hentry, Ring.contents_succ h.out_lt, List.map_cons] at hqueue
    show Ring.contents n (removed s).outOffset.toNat (removed s).entry.toNat s.msgPool = _
    rw [hout, hsub]
    exact (List.cons.inj hqueue).2

end Ring

/-! ## Steps -/

/-- The threads of a mailbox are where `phase` says. -/
def ThreadsOk (s : Mb) (phase : ThreadId → Phase) : Prop :=
  TwoLists s.threads s.suspendThread s.suspendSenderThread fun t => (phase t).side

structure Inv (n : Nat) (s : MbSys) : Prop where
  size : s.mb.size.toNat = n
  ring : RingOk n s.mb s.ledger.deque
  threads : ThreadsOk s.mb s.phase
  numbered : s.ledger.accepted.map Prod.fst = List.range s.ledger.accepted.length
  delivered : (s.ledger.received ++ s.ledger.discarded ++ s.ledger.deque).Perm s.ledger.accepted

section Resume

variable {s : Mb} {phase : ThreadId → Phase} {n : Nat} {d : List Mail}

private theorem resumeReceiver_ring (h : RingOk n s d) : RingOk n (resumeReceiver s) d := by
  rw [resumeReceiver]
  split
  · exact h.congr rfl rfl rfl rfl
  · exact h

private theorem resumeSender_ring (h : RingOk n s d) : RingOk n (resumeSender s) d := by
  rw [resumeSender]
  split
  · exact h.congr rfl rfl rfl rfl
  · exact h

private theorem resumeReceiver_size : (resumeReceiver s).size = s.size := by
  rw [resumeReceiver]
  split
  · rfl
  · rfl

private theorem resumeSender_size : (resumeSender s).size = s.size := by
  rw [resumeSender]
  split
  · rfl
  · rfl

theorem resumeReceiver_threads (h : ThreadsOk s phase) : ThreadsOk (resumeReceiver s) phase := by
  rw [resumeReceiver]
  cases hlist : s.suspendThread with
  | nil =>
      rw [if_neg (by simp)]
      exact h
  | cons t list =>
      rw [ThreadsOk, hlist] at h
      rw [if_pos (by simp), (h.queues .recv).resume_eq]
      exact h.resumeReceiver

theorem resumeSender_threads (h : ThreadsOk s phase) : ThreadsOk (resumeSender s) phase := by
  rw [resumeSender]
  cases hlist : s.suspendSenderThread with
  | nil =>
      rw [if_neg (by simp)]
      exact h
  | cons t list =>
      rw [ThreadsOk, hlist] at h
      rw [if_pos (by simp), (h.queues .send).resume_eq]
      exact h.resumeSender

private theorem block_outcome {t : ThreadId} {w : Wait} {list : List ThreadId}
    (hrun : (s.threads t).suspended = false) :
    Meets (· = .assertion)
      (fun r => (r.1 t).suspended = true ∧ (∀ u, u ≠ t → r.1 u = s.threads u) ∧
        ∃ us, r.2.1 = listInsert us list t s.flag)
      (block s list t w) := by
  have hblock := @block_meets s.threads t list s.flag w.timeout hrun
  refine hblock.bind ?_
  rintro threads ⟨b, rfl⟩
  exact ⟨by simp only [modify_self], fun u hu => by simp only [modify_of_ne hu], _, rfl⟩

end Resume

section Ledger

variable {l : Ledger} {value : Word}

theorem Ledger.numbered_snoc {accepted : List Mail}
    (h : accepted.map Prod.fst = List.range accepted.length) :
    (accepted ++ [(accepted.length, value)]).map Prod.fst =
      List.range (accepted ++ [(accepted.length, value)]).length := by
  rw [List.map_append, h, List.length_append, List.map_singleton, List.length_singleton,
    List.range_succ]

theorem Ledger.append_perm (h : (l.received ++ l.discarded ++ l.deque).Perm l.accepted) :
    ((l.append value).received ++ (l.append value).discarded ++ (l.append value).deque).Perm
      (l.append value).accepted := by
  show (l.received ++ l.discarded ++ (l.deque ++ [l.mail value])).Perm
    (l.accepted ++ [l.mail value])
  rw [← List.append_assoc]
  exact h.append_right _

theorem Ledger.prepend_perm (h : (l.received ++ l.discarded ++ l.deque).Perm l.accepted) :
    ((l.prepend value).received ++ (l.prepend value).discarded ++ (l.prepend value).deque).Perm
      (l.prepend value).accepted := by
  show (l.received ++ l.discarded ++ l.mail value :: l.deque).Perm (l.accepted ++ [l.mail value])
  refine List.perm_middle.trans ?_
  exact (h.cons _).trans (List.perm_append_singleton _ _).symm

theorem Ledger.receive_cons {m : Mail} {rest : List Mail} (hdeque : l.deque = m :: rest) :
    l.receive m.2 = { l with received := m :: l.received, deque := rest } := by
  rw [receive, hdeque]

theorem Ledger.discard_perm (h : (l.received ++ l.discarded ++ l.deque).Perm l.accepted) :
    (l.discard.received ++ l.discard.discarded ++ l.discard.deque).Perm l.discard.accepted := by
  show (l.received ++ (l.deque ++ l.discarded) ++ []).Perm l.accepted
  rw [List.append_nil]
  refine List.Perm.trans ?_ h
  rw [List.append_assoc]
  exact List.perm_append_comm.append_left _

end Ledger

section Steps

variable {n : Nat} {s : MbSys} {t : ThreadId}

theorem Inv.room (hs : Inv n s) (hroom : ¬s.mb.entry = s.mb.size) : s.mb.entry.toNat < n := by
  rw [full_iff hs.size] at hroom
  have hcapacity := hs.ring.capacity
  have hentry := hs.ring.entry
  omega

/-- A mail is accepted. -/
theorem put_inv (hs : Inv n s) (hroom : ¬s.mb.entry = s.mb.size) (value : Word) :
    Inv n { s with
      mb := resumeReceiver (appended s.mb value)
      ledger := s.ledger.append value } := by
  refine ⟨?_, ?_, ?_, Ledger.numbered_snoc hs.numbered, Ledger.append_perm hs.delivered⟩
  · rw [resumeReceiver_size]
    exact hs.size
  · exact resumeReceiver_ring
      (@appended_ring _ _ _ (s.ledger.mail value) hs.size hs.ring (hs.room hroom))
  · exact resumeReceiver_threads hs.threads

theorem urgent_inv (hs : Inv n s) (hroom : ¬s.mb.entry = s.mb.size) (value : Word) :
    Inv n { s with
      mb := resumeReceiver (prepended s.mb value)
      ledger := s.ledger.prepend value } := by
  refine ⟨?_, ?_, ?_, Ledger.numbered_snoc hs.numbered, Ledger.prepend_perm hs.delivered⟩
  · rw [resumeReceiver_size]
    exact hs.size
  · exact resumeReceiver_ring
      (@prepended_ring _ _ _ (s.ledger.mail value) hs.size hs.ring (hs.room hroom))
  · exact resumeReceiver_threads hs.threads

/-- The first mail is received. -/
theorem get_inv (hs : Inv n s) (hsome : ¬s.mb.entry = 0) : ∃ value,
    getMail s.mb = (resumeSender (removed s.mb), value) ∧
      Inv n { s with
        mb := resumeSender (removed s.mb)
        ledger := s.ledger.receive value } := by
  cases hdeque : s.ledger.deque with
  | nil =>
      have hentry := hs.ring.entry
      rw [hdeque] at hentry
      exact absurd (BitVec.eq_of_toNat_eq hentry) hsome
  | cons m rest =>
      have hring := hs.ring
      have hdelivered := hs.delivered
      rw [hdeque] at hring hdelivered
      refine ⟨m.2, getMail_eq hring, ?_⟩
      rw [Ledger.receive_cons hdeque]
      refine ⟨?_, resumeSender_ring (removed_ring hs.size hring), resumeSender_threads hs.threads,
        hs.numbered, List.perm_middle.symm.trans hdelivered⟩
      rw [resumeSender_size]
      exact hs.size

/-- A send goes on to where it returns or waits. -/
theorem sendLoop_inv (hs : Inv n s) (hidle : s.phase t = .idle)
    (hrun : (s.mb.threads t).suspended = false) (w : Wait) :
    Meets (· = .assertion) (Inv n)
      (sendLoop s.mb t w >>= fun r => pure (afterSend s t w.value r.1 r.2)) := by
  have hne : ∀ u, u ≠ t → setError s.mb.threads t .eok u = s.mb.threads u :=
    fun u hu => setError_of_ne _ hu
  have hside : (s.phase t).side = none := by rw [hidle]; rfl
  rw [sendLoop]
  by_cases hfull : s.mb.entry = s.mb.size
  · rw [if_pos hfull]
    by_cases hzero : w.timeout = 0
    · simp only [hzero, if_true]
      exact ⟨hs.size, hs.ring.congr rfl rfl rfl rfl, hs.threads.change hside hne, hs.numbered,
        hs.delivered⟩
    · simp only [hzero, if_false, bind_assoc]
      have hrun' : (setError s.mb.threads t .eok t).suspended = false := by
        rw [setError_self]
        exact hrun
      have hblock := @block_outcome { s.mb with threads := setError s.mb.threads t .eok } t w
        s.mb.suspendSenderThread hrun'
      refine hblock.bind ?_
      rintro ⟨threads, list, w'⟩ ⟨hself, hother, us, hlist⟩
      have hlist' : list = listInsert us s.mb.suspendSenderThread t s.mb.flag := hlist
      subst hlist'
      refine ⟨hs.size, hs.ring.congr rfl rfl rfl rfl, ?_, hs.numbered, hs.delivered⟩
      refine hs.threads.waitSend hside hrun (fun u hu => (hother u hu).trans (hne u hu)) hself
        (fun u hu => ?_) ?_
      · simp only [afterSend, Function.update_of_ne hu]
      · simp only [afterSend, Function.update_self, Phase.side]
  · rw [if_neg hfull, putMail_eq hs.size (hs.room hfull)]
    exact put_inv hs hfull w.value

/-- A receive goes on to where it returns or waits. -/
theorem recvLoop_inv (hs : Inv n s) (hidle : s.phase t = .idle)
    (hrun : (s.mb.threads t).suspended = false) (w : Wait) :
    Meets (· = .assertion) (Inv n)
      (recvLoop s.mb t w >>= fun r => pure (afterRecv s t r.1 r.2)) := by
  have hne : ∀ u, u ≠ t → setError s.mb.threads t .eok u = s.mb.threads u :=
    fun u hu => setError_of_ne _ hu
  have hside : (s.phase t).side = none := by rw [hidle]; rfl
  rw [recvLoop]
  by_cases hempty : s.mb.entry = 0
  · rw [if_pos hempty]
    by_cases hzero : w.timeout = 0
    · simp only [hzero, if_true]
      have hne' : ∀ u, u ≠ t →
          setError (setError s.mb.threads t .eok) t .etimeout u = s.mb.threads u :=
        fun u hu => by rw [setError_of_ne _ hu, hne u hu]
      exact ⟨hs.size, hs.ring.congr rfl rfl rfl rfl, hs.threads.change hside hne', hs.numbered,
        hs.delivered⟩
    · simp only [hzero, if_false, bind_assoc]
      have hrun' : (setError s.mb.threads t .eok t).suspended = false := by
        rw [setError_self]
        exact hrun
      have hblock := @block_outcome { s.mb with threads := setError s.mb.threads t .eok } t w
        s.mb.suspendThread hrun'
      refine hblock.bind ?_
      rintro ⟨threads, list, w'⟩ ⟨hself, hother, us, hlist⟩
      have hlist' : list = listInsert us s.mb.suspendThread t s.mb.flag := hlist
      subst hlist'
      refine ⟨hs.size, hs.ring.congr rfl rfl rfl rfl, ?_, hs.numbered, hs.delivered⟩
      refine hs.threads.waitRecv hside hrun (fun u hu => (hother u hu).trans (hne u hu)) hself
        (fun u hu => ?_) ?_
      · simp only [afterRecv, Function.update_of_ne hu]
      · simp only [afterRecv, Function.update_self, Phase.side]
  · obtain ⟨value, hget, hinv⟩ := get_inv hs hempty
    rw [if_neg hempty, hget]
    exact hinv

theorem Wait.resumed_value (w : Wait) (tick : BitVec 32) : (w.resumed tick).value = w.value := by
  rw [resumed]
  split
  · rfl
  · rfl

theorem leave_inv (hs : Inv n s) (hrun : (s.mb.threads t).suspended = false) :
    Inv n (leave s t) := by
  refine ⟨hs.size, hs.ring, hs.threads.leave hrun (fun u hu => ?_) ?_, hs.numbered, hs.delivered⟩
  · simp only [leave, Function.update_of_ne hu]
  · simp only [leave, Function.update_self, Phase.side]

theorem send_inv (hs : Inv n s) (value : Word) (timeout : BitVec 32)
    (he : Enabled s (.send t value timeout)) :
    Meets (· = .assertion) (Inv n) (step s (.send t value timeout)) := by
  rw [step, rtMbSendWait]
  split
  · exact ⟨hs.size, hs.ring, hs.threads, hs.numbered, hs.delivered⟩
  · rename_i hwait
    rcases he with hzero | ⟨hidle, hrun⟩
    · -- a call that does not wait finds room
      have hroom : ¬s.mb.entry = s.mb.size := fun hfull => hwait ⟨hfull, hzero⟩
      rw [sendLoop, if_neg hroom, putMail_eq hs.size (hs.room hroom)]
      exact put_inv hs hroom value
    · exact sendLoop_inv hs hidle hrun ⟨value, timeout, 0⟩

theorem recv_inv (hs : Inv n s) (timeout : BitVec 32) (he : Enabled s (.recv t timeout)) :
    Meets (· = .assertion) (Inv n) (step s (.recv t timeout)) := by
  rw [step, rtMbRecv]
  split
  · exact ⟨hs.size, hs.ring, hs.threads, hs.numbered, hs.delivered⟩
  · rename_i hwait
    rcases he with hzero | ⟨hidle, hrun⟩
    · have hsome : ¬s.mb.entry = 0 := fun hempty => hwait ⟨hempty, hzero⟩
      obtain ⟨value, hget, hinv⟩ := get_inv hs hsome
      rw [recvLoop, if_neg hsome, hget]
      exact hinv
    · exact recvLoop_inv hs hidle hrun ⟨0, timeout, 0⟩

theorem woken_inv (hs : Inv n s) (hrun : (s.mb.threads t).suspended = false) :
    Meets (· = .assertion) (Inv n) (step s (.woken t)) := by
  have hleave := leave_inv hs hrun
  have hidle : (leave s t).phase t = .idle := Function.update_self ..
  rw [step]
  cases hphase : s.phase t with
  | idle => exact hs
  | sending w =>
      simp only [mbSendWoken]
      split
      · rename_i herr
        simp only [pure_bind, afterSend, herr, if_false]
        exact hleave
      · have hloop := sendLoop_inv hleave hidle hrun (w.resumed s.mb.tick)
        rw [w.resumed_value] at hloop
        exact hloop
  | receiving w =>
      simp only [mbRecvWoken]
      split
      · exact hleave
      · exact recvLoop_inv hleave hidle hrun (w.resumed s.mb.tick)

theorem timeout_inv (hs : Inv n s) (hphase : s.phase t ≠ .idle)
    (htimer : (s.mb.threads t).timer = true) :
    Meets (· = .assertion) (Inv n) (step s (.timeout t)) := by
  have hside : (s.phase t).side ≠ none := by
    cases hp : s.phase t with
    | idle => exact absurd hp hphase
    | sending w => simp [Phase.side]
    | receiving w => simp [Phase.side]
  cases hsusp : (s.mb.threads t).suspended with
  | false =>
      rw [hs.threads.timers t hside hsusp] at htimer
      cases htimer
  | true =>
      rw [step, mbTimeout, hsusp]
      refine ⟨hs.size, hs.ring.congr rfl rfl rfl rfl, hs.threads.erase (fun u hu => ?_) ?_ ?_,
        hs.numbered, hs.delivered⟩
      · simp only [wake_of_ne hu, setError_of_ne _ hu]
      · simp only [wake_self]
      · simp only [wake_self]

theorem control_inv (hs : Inv n s) (cmd : Int) :
    Meets (· = .assertion) (Inv n) (step s (.control cmd)) := by
  rw [step, rtMbControl]
  by_cases hcmd : cmd = ipcCmdReset
  · rw [if_pos hcmd]
    obtain ⟨ts₁, ts₂, hall₁, hall₂, hthreads⟩ := hs.threads.resumeAll
    rw [hall₁, ok_bind, hall₂, ok_bind]
    have hpos := hs.ring.out_lt
    refine ⟨hs.size, ⟨rfl, Nat.zero_le n, ?_, ?_, rfl⟩, hthreads, hs.numbered,
      Ledger.discard_perm hs.delivered⟩
    · show 0 < n
      omega
    · exact (Nat.zero_mod n).symm
  · rw [if_neg hcmd]
    exact hs

theorem step_inv (s : MbSys) (e : Event) (hs : Inv n s) (he : Enabled s e) :
    Meets (· = .assertion) (Inv n) (step s e) := by
  cases e with
  | send t value timeout => exact send_inv hs value timeout he
  | urgent value =>
      rw [step]
      by_cases hfull : s.mb.entry = s.mb.size
      · rw [rtMbUrgent, if_pos hfull]
        exact hs
      · rw [rtMbUrgent_eq hs.size (hs.room hfull)]
        exact urgent_inv hs hfull value
  | recv t timeout => exact recv_inv hs timeout he
  | woken t => exact woken_inv hs he.2
  | timeout t => exact timeout_inv hs he.1 he.2
  | control cmd => exact control_inv hs cmd
  | tick => exact ⟨hs.size, hs.ring.congr rfl rfl rfl rfl, hs.threads, hs.numbered, hs.delivered⟩
  | priority t p =>
      have hsame : ∀ u,
          (modify s.mb.threads t (fun x => { x with currentPriority := p }) u).suspended =
          (s.mb.threads u).suspended ∧
          (modify s.mb.threads t (fun x => { x with currentPriority := p }) u).timer =
          (s.mb.threads u).timer := by
        refine forall_of_ne t (fun _ => trivial) (fun u hu _ => ?_) ?_
        · rw [modify_of_ne hu]
          exact ⟨rfl, rfl⟩
        · rw [modify_self]
          exact ⟨rfl, rfl⟩
      refine ⟨hs.size, hs.ring.congr rfl rfl rfl rfl, hs.threads.congr hsame, hs.numbered,
        hs.delivered⟩
  | other t x =>
      have hidle : s.phase t = .idle := he
      refine ⟨hs.size, hs.ring.congr rfl rfl rfl rfl,
        hs.threads.change (t := t) ?_ fun u hu => ?_, hs.numbered, hs.delivered⟩
      · simp only [hidle, Phase.side]
      · simp only [Function.update_of_ne hu]

end Steps

/-! ## The mailbox as a deque -/

section Deque

variable {n : Nat} {s : MbSys}

private theorem sendLoop_ok {mb : Mb} (hsize : mb.size.toNat = n) (hcapacity : mb.entry.toNat ≤ n)
    (t : ThreadId) (w : Wait) : SendOk n mb w.timeout (sendLoop mb t w) := by
  rw [SendOk, sendLoop]
  by_cases hfull : mb.entry = mb.size
  · rw [if_pos hfull, if_pos ((full_iff hsize).mp hfull)]
    by_cases hzero : w.timeout = 0
    · rw [if_pos hzero]
      simp only [hzero, if_true]
      exact ⟨_, rfl⟩
    · rw [if_neg hzero]
      simp only [hzero, if_false, block, bind_assoc]
      exact startTimer_meets.bind fun _ _ => ⟨_, rfl⟩
  · have hne : ¬mb.entry.toNat = n := fun h => hfull ((full_iff hsize).mpr h)
    rw [if_neg hfull, if_neg hne, putMail_eq hsize (by omega)]
    exact ⟨_, rfl⟩

private theorem rtMbSendWait_ok {mb : Mb} (hsize : mb.size.toNat = n)
    (hcapacity : mb.entry.toNat ≤ n) (t : ThreadId) (value : Word) (timeout : BitVec 32) :
    SendOk n mb timeout (rtMbSendWait mb t value timeout) := by
  rw [rtMbSendWait]
  split
  · rename_i hfull
    rw [SendOk, if_pos ((full_iff hsize).mp hfull.1), if_pos hfull.2]
    exact ⟨_, rfl⟩
  · exact sendLoop_ok hsize hcapacity t ⟨value, timeout, 0⟩

theorem Inv.deque (hs : Inv n s) : Deque n s := by
  have hcapacity : s.mb.entry.toNat ≤ n := by
    rw [hs.ring.entry]
    exact hs.ring.capacity
  refine ⟨hs.ring, hs.ring.in_lt,
    fun t value timeout => rtMbSendWait_ok hs.size hcapacity t value timeout,
    fun t w => sendLoop_ok hs.size hcapacity t w, fun value => ?_, hs.numbered, hs.delivered⟩
  by_cases hfull : s.mb.entry = s.mb.size
  · rw [if_pos ((full_iff hs.size).mp hfull), rtMbUrgent, if_pos hfull]
  · rw [if_neg fun h => hfull ((full_iff hs.size).mpr h),
      rtMbUrgent_eq hs.size (hs.room hfull)]

end Deque

/-- The mailbox of `rt_mb_init`, at the start of a run. -/
def boot (threads : Threads) (tick : BitVec 32) (msgpool : Nat → Word) (size : Word) (flag : Flag) :
    MbSys :=
  init (rtMbInit threads tick msgpool size flag)

/-- Every run of a mailbox of `size` mails evolves as a deque of capacity `size`. -/
def EvolvesAsDeque (size : Word) : Prop :=
  ∀ threads tick msgpool flag es,
    Guarded step Enabled (boot threads tick msgpool size flag) es →
      Meets (· = .assertion) (Deque size.toNat)
        (run step (boot threads tick msgpool size flag) es)

section Runs

variable {threads : Threads} {tick : BitVec 32} {msgpool : Nat → Word} {size : Word} {flag : Flag}

theorem boot_inv (hpos : size.setWidth 16 ≠ 0) :
    Inv (size.setWidth 16).toNat (boot threads tick msgpool size flag) := by
  have hpos' : 0 < (size.setWidth 16).toNat := by
    have hne : (size.setWidth 16).toNat ≠ 0 := fun h => hpos (BitVec.eq_of_toNat_eq h)
    omega
  refine ⟨rfl, ⟨rfl, Nat.zero_le _, hpos', ?_, rfl⟩, ⟨fun i => ?_, ?_⟩, rfl, List.Perm.refl _⟩
  · exact (Nat.zero_mod _).symm
  · cases i with
    | recv => exact Parked.nil fun _ h => by cases h
    | send => exact Parked.nil fun _ h => by cases h
  · intro t hside
    exact absurd rfl hside

private theorem resumeReceiver_entry {s : Mb} : (resumeReceiver s).entry = s.entry := by
  rw [resumeReceiver]
  split
  · rfl
  · rfl

/-- Sends that do not wait fill an empty mailbox. -/
theorem fill (hpos : size.setWidth 16 ≠ 0) {k : Nat} (hk : k ≤ (size.setWidth 16).toNat) :
    ∃ s, run step (boot threads tick msgpool size flag) (List.replicate k (.send 0 0 0)) = .ok s ∧
      Inv (size.setWidth 16).toNat s ∧ s.mb.entry.toNat = k := by
  induction k with
  | zero => exact ⟨_, rfl, boot_inv hpos, rfl⟩
  | succ k ih =>
      obtain ⟨s, hrun, hs, hentry⟩ := ih (by omega)
      have hroom : ¬s.mb.entry = s.mb.size := by
        rw [full_iff hs.size]
        omega
      rw [List.replicate_succ', run_append_ok hrun]
      refine ⟨_, ?_, put_inv hs hroom 0, ?_⟩
      · show (step s (.send 0 0 0) >>= fun s => run step s []) = _
        rw [step, rtMbSendWait, if_neg fun h => hroom h.1, sendLoop, if_neg hroom,
          putMail_eq hs.size (hs.room hroom)]
        rfl
      · show (resumeReceiver _).entry.toNat = k + 1
        rw [resumeReceiver_entry, ← hentry]
        exact entry_add hs.size (hs.room hroom)

/-- A size that does not fit the field is cut to one that fills up too early. -/
theorem not_deque (hsize : 65536 ≤ size.toNat) : ¬EvolvesAsDeque size := by
  intro hdeque
  have hlt := (size.setWidth 16).isLt
  obtain ⟨es, s, hes, hrun, hfull⟩ : ∃ es s, Guarded step Enabled
      (boot (fun _ => ⟨false, 10, .eok, false, 0, 0⟩) 0 (fun _ => 0) size .fifo) es ∧
      run step (boot (fun _ => ⟨false, 10, .eok, false, 0, 0⟩) 0 (fun _ => 0) size .fifo) es =
        .ok s ∧ s.mb.entry = s.mb.size ∧ s.mb.entry.toNat < 65536 := by
    by_cases hzero : size.setWidth 16 = 0
    · exact ⟨[], _, trivial, rfl, hzero.symm, Nat.zero_lt_succ _⟩
    · obtain ⟨s, hrun, hs, hentry⟩ := @fill (fun _ => ⟨false, 10, .eok, false, 0, 0⟩) 0
        (fun _ => 0) size .fifo hzero _ (Nat.le_refl _)
      refine ⟨_, s, Guarded.of_forall fun e he s => ?_, hrun, ?_, by omega⟩
      · rw [List.eq_of_mem_replicate he]
        exact Or.inl rfl
      · rw [full_iff hs.size, hentry]
  have hok := (hdeque _ _ _ _ es hes).of_ok hrun
  have hsend := hok.send 0 0 0
  rw [SendOk, if_neg (by omega), rtMbSendWait, if_pos ⟨hfull.1, rfl⟩] at hsend
  obtain ⟨s', hs'⟩ := hsend
  cases hs'

/-- **Every run, for every size.**  A mailbox is a deque of the size it is initialised with if
and only if that size fits the field that keeps it. -/
theorem mailbox_deque (hpos : size ≠ 0) : EvolvesAsDeque size ↔ size.toNat < 65536 := by
  constructor
  · intro hdeque
    by_contra hlarge
    exact not_deque (by omega) hdeque
  · intro hlt threads tick msgpool flag es hes
    have hwidth : (size.setWidth 16).toNat = size.toNat := by
      rw [BitVec.toNat_setWidth]
      exact Nat.mod_eq_of_lt hlt
    have hne : size.setWidth 16 ≠ 0 := by
      intro h
      rw [h] at hwidth
      exact hpos (BitVec.eq_of_toNat_eq hwidth.symm)
    rw [← hwidth]
    exact (run_meets step_inv (boot_inv hne) hes).mono fun s hs => hs.deque

/-- A mailbox of two mails. -/
theorem mailbox_deque_two : EvolvesAsDeque 2 ↔ (2 : Word).toNat < 65536 :=
  mailbox_deque (by decide)

/-- A mailbox for 65536 mails takes none. -/
theorem size_truncated :
    (rtMbSendWait (rtMbInit (fun _ => ⟨false, 10, .eok, false, 0, 0⟩) 0 (fun _ => 0) 0x10000
      .fifo) 1 7 0).map Prod.snd = .ok (.returned .efull none) ∧ ¬EvolvesAsDeque 0x10000 :=
  ⟨by decide, not_deque (by decide)⟩

end Runs

end RtHypervisor.Ports.Mailbox
