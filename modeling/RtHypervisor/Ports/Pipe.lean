import Mathlib.Tactic
import RtHypervisor.Ports.RingBuffer

/-!
# Pipes

A read that finds no writer returns 0 before it looks at the ring buffer.  Bytes are lost, too,
when the last descriptor is closed, for the ring buffer is destroyed then, and when a counter of
8 bits has gone around: a pipe opened 256 times is taken for one that is not open.

`pipe_delivers` says which runs deliver every byte before the end of file.  What happens while
the lock is held is one step.  When a call that waits goes on is left open, and with it the wait
queues.
-/

namespace RtHypervisor.Ports.Pipe

open RtHypervisor.Verified
open RtHypervisor.Verified.Run
open RtHypervisor.Ports.RingBuffer

/-- `fd->flags & O_ACCMODE`. -/
inductive AccMode
  | rdonly
  | wronly
  | rdwr
  | other
deriving DecidableEq, Repr

def AccMode.reads : AccMode → Bool
  | .rdonly | .rdwr => true
  | _ => false

def AccMode.writes : AccMode → Bool
  | .wronly | .rdwr => true
  | _ => false

/-- `struct rt_pipe_device`, with the `ref_count` of its device. -/
structure PipeDevice where
  isNamed : Bool
  fifo : Option RtRingbuffer
  bufsz : BitVec 16
  readers : BitVec 8
  writers : BitVec 8
  refCount : BitVec 8

/-- `EAGAIN`. -/
def eagain : BitVec 32 := 11

/-- `EPIPE`. -/
def epipe : BitVec 32 := 32

/-- `rt_ringbuffer_create`; `pool` is what `rt_malloc` returns. -/
def rtRingbufferCreate (size : BitVec 16) (pool : Option (Nat → Byte)) :
    Except Fault (Option RtRingbuffer) := do
  check .assertion (decide (0 < size))
  match pool with
  | none => pure none
  | some pool => do
      let rb ← rtRingbufferInit pool (size &&& ~~~(3 : BitVec 16))
      pure (some rb)

def one (b : Bool) : BitVec 8 := if b then 1 else 0

/-- `pipe_fops_open`, and whether it succeeds. -/
def pipeFopsOpen (p : PipeDevice) (mode : AccMode) (pool : Option (Nat → Byte)) :
    Except Fault (PipeDevice × Bool) := do
  let fifo ← if p.refCount = 0 then rtRingbufferCreate p.bufsz pool else pure p.fifo
  if p.refCount = 0 ∧ fifo.isNone then pure ({ p with fifo := none }, false)
  else
    pure
      ({ p with
        fifo := fifo
        readers := p.readers + one mode.reads
        writers := p.writers + one mode.writes
        refCount := p.refCount + 1 }, true)

/-- `pipe_fops_close`, up to the release of the lock. -/
def pipeFopsClose (p : PipeDevice) (mode : AccMode) : PipeDevice :=
  { p with
    fifo := if p.refCount = 1 then none else p.fifo
    readers := p.readers - one mode.reads
    writers := p.writers - one mode.writes
    refCount := p.refCount - 1 }

/-- The end of `pipe_fops_close`, which deletes an unnamed pipe that is not open. -/
def pipeFopsCloseEnd (p : PipeDevice) : Option PipeDevice :=
  if p.refCount = 0 ∧ p.isNamed = false then none else some p

/-- How `pipe_fops_read` goes on: it returns 0, bytes or `-EAGAIN`, or it waits. -/
inductive ReadOutcome
  | zero
  | data (bytes : List Byte)
  | again
  | waits
deriving DecidableEq, Repr

/-- The loop of `pipe_fops_read`, up to where it waits. -/
def readLoop (p : PipeDevice) (nonblock : Bool) (count : BitVec 64) :
    Except Fault (PipeDevice × ReadOutcome) :=
  if p.writers = 0 then pure (p, .zero)
  else
    match p.fifo with
    | none => throw .assertion
    | some rb =>
        let (rb, bytes) := rtRingbufferGet rb (count.setWidth 16)
        let p := { p with fifo := some rb }
        if bytes ≠ [] then pure (p, .data bytes)
        else if nonblock then pure (p, .again)
        else pure (p, .waits)

/-- The variables of `pipe_fops_write`; `pos` is how far `pbuf` is. -/
structure Write where
  nonblock : Bool
  buf : Nat → Byte
  count : BitVec 64
  pos : Nat
  ret : BitVec 32

/-- The loop of `pipe_fops_write`, up to where it waits, with what it returns if it does and the
bytes it has put. -/
def writeLoop (p : PipeDevice) (w : Write) :
    Except Fault (PipeDevice × Write × Option (BitVec 32) × List Byte) :=
  if p.readers = 0 then pure (p, w, some (if w.ret = 0 then -epipe else w.ret), [])
  else
    match p.fifo with
    | none => throw .assertion
    | some rb =>
        let ptr := fun i => w.buf (w.pos + i)
        let (rb, len) := rtRingbufferPut rb ptr ((w.count - w.ret.signExtend 64).setWidth 16)
        let ret := w.ret + BitVec.ofNat 32 len
        let returned :=
          if ret.signExtend 64 = w.count then some ret
          else if w.nonblock then some (if ret = 0 then -eagain else ret)
          else none
        pure ({ p with fifo := some rb }, { w with pos := w.pos + len, ret := ret }, returned,
          (List.range len).map ptr)

/-! ## Runs -/

abbrev ThreadId := Nat

/-- Where a thread is: in front of the lock in a read or a write, or at the end of a close. -/
inductive Phase
  | reading (nonblock : Bool) (count : BitVec 64)
  | writing (w : Write)
  | closing

/-- A read that has returned 0: how many writers were open then, and what was in the buffer. -/
structure Eof where
  writers : Nat
  buffered : List Byte
deriving DecidableEq, Repr

/-- `pipe` is nothing once it is deleted, and `files` has the modes of the descriptors that are
open.  `accepted` are the bytes the writes have put and `delivered` those the reads have
returned. -/
structure System where
  pipe : Option PipeDevice
  files : List AccMode
  phase : ThreadId → Option Phase
  accepted : List Byte
  delivered : List Byte
  eofs : List Eof

inductive Event
  | open (mode : AccMode) (pool : Option (Nat → Byte))
  | close (t : ThreadId) (mode : AccMode)
  | closeEnd (t : ThreadId)
  | read (t : ThreadId) (nonblock : Bool) (count : BitVec 64)
  | readLoop (t : ThreadId)
  | write (t : ThreadId) (nonblock : Bool) (buf : Nat → Byte) (count : BitVec 64)
  | writeLoop (t : ThreadId)

def contents (rb : RtRingbuffer) : List Byte :=
  Ring.contents rb.bufferSize.toNat rb.readIndex.toNat (rtRingbufferDataLen rb) rb.bufferPtr

def PipeDevice.buffered (p : PipeDevice) : List Byte := (p.fifo.map contents).getD []

/-- The bytes in the ring buffer. -/
def System.buffered (s : System) : List Byte := (s.pipe.map PipeDevice.buffered).getD []

def System.openWriters (s : System) : Nat := s.files.countP AccMode.writes

/-- A descriptor that is closed is open, and a thread is in one call at a time. -/
def Enabled (s : System) : Event → Prop
  | .open .. => True
  | .close t mode => s.phase t = none ∧ mode ∈ s.files
  | .closeEnd t => (s.phase t).any (fun p => p matches .closing) = true
  | .read t .. | .write t .. => s.phase t = none ∧ s.files ≠ []
  | .readLoop t => (s.phase t).any (fun p => p matches .reading ..) = true
  | .writeLoop t => (s.phase t).any (fun p => p matches .writing _) = true

instance (s : System) : ∀ e, Decidable (Enabled s e)
  | .open .. => inferInstanceAs (Decidable True)
  | .close .. | .read .. | .write .. => inferInstanceAs (Decidable (_ ∧ _))
  | .closeEnd _ | .readLoop _ | .writeLoop _ => inferInstanceAs (Decidable (_ = _))

def System.leave (s : System) (t : ThreadId) : System :=
  { s with phase := Function.update s.phase t none }

/-- A read returns 0. -/
def System.eof (s : System) (t : ThreadId) : System :=
  { s.leave t with eofs := ⟨s.openWriters, s.buffered⟩ :: s.eofs }

def step (s : System) (e : Event) : Except Fault System :=
  match s.pipe with
  | none => throw .wildPointer
  | some p =>
      match e with
      | .open mode pool => do
          let (p, ok) ← pipeFopsOpen p mode pool
          pure { s with pipe := some p, files := if ok then mode :: s.files else s.files }
      | .close t mode =>
          pure
            { s with
              pipe := some (pipeFopsClose p mode)
              files := s.files.erase mode
              phase := Function.update s.phase t (some .closing) }
      | .closeEnd t => pure { s.leave t with pipe := pipeFopsCloseEnd p }
      | .read t nonblock count =>
          if p.writers = 0 then pure (s.eof t)
          else pure { s with phase := Function.update s.phase t (some (.reading nonblock count)) }
      | .readLoop t =>
          match s.phase t with
          | some (.reading nonblock count) => do
              let (p, r) ← readLoop p nonblock count
              match r with
              | .zero => pure (s.eof t)
              | .data bytes =>
                  pure { s.leave t with pipe := some p, delivered := s.delivered ++ bytes }
              | .again => pure { s.leave t with pipe := some p }
              | .waits => pure { s with pipe := some p }
          | _ => pure s
      | .write t nonblock buf count =>
          -- without a reader it returns `-EPIPE`
          if p.readers = 0 ∨ count = 0 then pure s
          else
            pure
              { s with
                phase := Function.update s.phase t (some (.writing ⟨nonblock, buf, count, 0, 0⟩)) }
      | .writeLoop t =>
          match s.phase t with
          | some (.writing w) => do
              let (p, w, returned, bytes) ← writeLoop p w
              pure
                { s with
                  pipe := some p
                  phase := Function.update s.phase t
                    (if returned.isSome then none else some (.writing w))
                  accepted := s.accepted ++ bytes }
          | _ => pure s

/-- A new pipe: `rt_pipe_create`, as `mkfifo` and `pipe` use it. -/
def boot (isNamed : Bool) (bufsz : BitVec 16) : System :=
  ⟨some ⟨isNamed, none, bufsz, 0, 0, 0⟩, [], fun _ => none, [], [], []⟩

/-- The reads deliver what the writes accept, the rest is in the buffer, and 0 is returned only
when there is no rest and no writer is open. -/
structure Delivers (s : System) : Prop where
  delivered : s.delivered <+: s.accepted
  kept : s.accepted = s.delivered ++ s.buffered
  eofs : ∀ r ∈ s.eofs, r.writers = 0 ∧ r.buffered = []

/-- No read looks for writers in vain while there are bytes in the buffer, and the buffer is
empty when it is destroyed or replaced. -/
def Drained (s : System) (e : Event) : Prop :=
  ∀ p ∈ s.pipe,
    match e with
    | .open .. => p.refCount = 0 → s.buffered = []
    | .close .. => p.refCount = 1 → s.buffered = []
    | .closeEnd _ => p.refCount = 0 ∧ p.isNamed = false → s.buffered = []
    | .read .. | .readLoop _ => p.writers = 0 → s.buffered = [] ∧ s.openWriters < 256
    | .write .. | .writeLoop _ => True

instance (s : System) : ∀ e, Decidable (Drained s e)
  | .open .. | .close .. | .closeEnd _ | .read .. | .readLoop _ =>
      inferInstanceAs (Decidable (∀ p ∈ s.pipe, _ → _))
  | .write .. | .writeLoop _ => inferInstanceAs (Decidable (∀ p ∈ s.pipe, True))

structure Inv (s : System) : Prop where
  fifo : ∀ p, s.pipe = some p → ∀ rb, p.fifo = some rb → ∃ q, Holds rb q
  writers : ∀ p, s.pipe = some p → p.writers.toNat = s.openWriters % 256

section Steps

variable {s s' : System} {p p' : PipeDevice} {t : ThreadId} {rb : RtRingbuffer} {q : List Byte}
  {mode : AccMode}

theorem contents_eq (h : Holds rb q) : contents rb = q := h.represents.bytes

private theorem buffered_eq (hp : s.pipe = some p) : s.buffered = p.buffered := by
  rw [System.buffered, hp]
  rfl

private theorem buffered_some (hf : p.fifo = some rb) : p.buffered = contents rb := by
  rw [PipeDevice.buffered, hf]
  rfl

/-- A ring buffer that has been created is empty. -/
theorem create_holds {size : BitVec 16} {pool : Option (Nat → Byte)}
    (h : rtRingbufferCreate size pool = .ok (some rb)) : Holds rb [] := by
  obtain ⟨-, -, h⟩ := bind_eq_ok.mp h
  cases pool with
  | none => cases h
  | some pool =>
      obtain ⟨rb', hinit, h⟩ := bind_eq_ok.mp h
      cases h
      obtain ⟨u, hpos, -⟩ := bind_eq_ok.mp hinit
      have hzero : (0 : BitVec 16).toInt = 0 := rfl
      rw [check_eq_ok, BitVec.slt_eq_decide, decide_eq_true_eq, hzero] at hpos
      have halign := toNat_alignDown size
      have hsize : (rtAlignSize : Int) ≤ (size &&& ~~~(3 : BitVec 16)).toInt := by
        rw [rtAlignSize] at halign ⊢
        rw [BitVec.toInt_eq_toNat_cond] at hpos ⊢
        by_cases hsmall : 2 * (size &&& ~~~(3 : BitVec 16)).toNat < 2 ^ 16
        · rw [if_pos hsmall] at hpos ⊢
          omega
        · rw [if_neg hsmall] at hpos
          omega
      obtain ⟨rb₂, hinit₂, -, hholds⟩ := holds_init pool hsize
      rw [hinit] at hinit₂
      cases hinit₂
      exact hholds

/-! What the moves do to the property. -/

theorem Delivers.of_kept (h : s.accepted = s.delivered ++ s.buffered)
    (he : ∀ r ∈ s.eofs, r.writers = 0 ∧ r.buffered = []) : Delivers s := by
  refine ⟨?_, h, he⟩
  rw [h]
  exact List.prefix_append ..

theorem Delivers.same (h : Delivers s) (ha : s'.accepted = s.accepted)
    (hd : s'.delivered = s.delivered) (hb : s'.buffered = s.buffered) (he : s'.eofs = s.eofs) :
    Delivers s' := by
  refine Delivers.of_kept ?_ ?_
  · rw [ha, hd, hb]
    exact h.kept
  · rw [he]
    exact h.eofs

theorem Delivers.put {bytes : List Byte} (h : Delivers s)
    (ha : s'.accepted = s.accepted ++ bytes) (hd : s'.delivered = s.delivered)
    (hb : s'.buffered = s.buffered ++ bytes) (he : s'.eofs = s.eofs) : Delivers s' := by
  refine Delivers.of_kept ?_ ?_
  · rw [ha, hd, hb, h.kept, List.append_assoc]
  · rw [he]
    exact h.eofs

theorem Delivers.get {bytes : List Byte} (h : Delivers s) (ha : s'.accepted = s.accepted)
    (hd : s'.delivered = s.delivered ++ bytes) (hb : s.buffered = bytes ++ s'.buffered)
    (he : s'.eofs = s.eofs) : Delivers s' := by
  refine Delivers.of_kept ?_ ?_
  · rw [ha, hd, h.kept, hb, List.append_assoc]
  · rw [he]
    exact h.eofs

/-- The buffer may go. -/
theorem Delivers.destroy_iff {c : Prop} [Decidable c] (h : Delivers s)
    (ha : s'.accepted = s.accepted) (hd : s'.delivered = s.delivered)
    (hb : s'.buffered = if c then [] else s.buffered) (he : s'.eofs = s.eofs) :
    Delivers s' ↔ (c → s.buffered = []) := by
  by_cases hc : c
  · rw [if_pos hc] at hb
    constructor
    · intro h' _
      have hkept := h'.kept
      rw [ha, hd, hb, h.kept, List.append_nil] at hkept
      simpa using hkept
    · intro hempty
      exact h.same ha hd (hb.trans (hempty hc).symm) he
  · rw [if_neg hc] at hb
    exact iff_of_true (h.same ha hd hb he) fun hc' => absurd hc' hc

/-- A read returns 0. -/
theorem Delivers.eof_iff (h : Delivers s) :
    Delivers (s.eof t) ↔ s.buffered = [] ∧ s.openWriters = 0 := by
  constructor
  · intro h'
    exact (h'.eofs _ (List.mem_cons_self ..)).symm
  · rintro ⟨hempty, hnone⟩
    refine Delivers.of_kept h.kept fun r hr => ?_
    rcases List.mem_cons.mp hr with rfl | hr
    · exact ⟨hnone, hempty⟩
    · exact h.eofs r hr

/-- The counter of the writers has not gone around. -/
theorem Inv.openWriters_eq (hi : Inv s) (hp : s.pipe = some p) (hw : p.writers = 0) :
    s.openWriters = 0 ↔ s.openWriters < 256 := by
  have hmod := hi.writers p hp
  rw [hw] at hmod
  simp only [BitVec.ofNat_eq_ofNat, BitVec.toNat_ofNat, Nat.zero_mod] at hmod
  omega

private theorem drained_iff {P : PipeDevice → Prop} (hp : s.pipe = some p) :
    (∀ p ∈ s.pipe, P p) ↔ P p := by
  constructor
  · intro h
    exact h p hp
  · intro h p' hp'
    cases hp.symm.trans hp'
    exact h

private theorem toNat_add_one (c : BitVec 8) (b : Bool) :
    (c + one b).toNat = (c.toNat + b.toNat) % 256 := by
  rw [BitVec.toNat_add]
  cases b <;> rfl

private theorem toNat_sub_one (c : BitVec 8) {n : Nat} (b : Bool) (hc : c.toNat = n % 256)
    (hn : b.toNat ≤ n) : (c - one b).toNat = (n - b.toNat) % 256 := by
  rw [BitVec.toNat_sub, hc]
  cases b with
  | false =>
      simp only [one, Bool.false_eq_true, if_false, Bool.toNat_false, BitVec.ofNat_eq_ofNat,
        BitVec.toNat_ofNat]
      omega
  | true =>
      rw [Bool.toNat_true] at hn
      simp only [one, if_true, Bool.toNat_true, BitVec.ofNat_eq_ofNat, BitVec.toNat_ofNat]
      omega

private theorem countP_cons (l : List AccMode) :
    (mode :: l).countP AccMode.writes = l.countP AccMode.writes + mode.writes.toNat := by
  rw [List.countP_cons]
  cases mode.writes <;> rfl

private theorem countP_erase {l : List AccMode} (h : mode ∈ l) :
    l.countP AccMode.writes = (l.erase mode).countP AccMode.writes + mode.writes.toNat := by
  rw [(List.perm_cons_erase h).countP_eq, countP_cons]

/-- What `pipe_fops_open` does to the device. -/
theorem open_cases {pool : Option (Nat → Byte)} {ok : Bool}
    (h : pipeFopsOpen p mode pool = .ok (p', ok)) :
    p'.writers = (if ok then p.writers + one mode.writes else p.writers) ∧
      ((p.refCount = 0 ∧ ∀ rb, p'.fifo = some rb → Holds rb []) ∨
        (p.refCount ≠ 0 ∧ p'.fifo = p.fifo)) := by
  rw [pipeFopsOpen] at h
  by_cases hzero : p.refCount = 0
  · simp only [if_pos hzero] at h
    obtain ⟨fifo, hf, h⟩ := bind_eq_ok.mp h
    cases fifo with
    | none =>
        rw [if_pos ⟨hzero, rfl⟩] at h
        cases h
        exact ⟨rfl, Or.inl ⟨hzero, fun rb hrb => by cases hrb⟩⟩
    | some rb =>
        rw [if_neg (fun hn => by cases hn.2)] at h
        cases h
        refine ⟨rfl, Or.inl ⟨hzero, fun rb' hrb => ?_⟩⟩
        cases hrb
        exact create_holds hf
  · simp only [if_neg hzero] at h
    obtain ⟨fifo, hf, h⟩ := bind_eq_ok.mp h
    rw [if_neg fun hn => hzero hn.1] at h
    cases hf
    cases h
    exact ⟨rfl, Or.inr ⟨hzero, rfl⟩⟩

private theorem open_step {pool : Option (Nat → Byte)} (hi : Inv s) (hp : s.pipe = some p)
    (h : step s (.open mode pool) = .ok s') :
    Inv s' ∧ (Delivers s → (Delivers s' ↔ Drained s (.open mode pool))) := by
  simp only [step, hp] at h
  obtain ⟨⟨p', ok⟩, hopen, h⟩ := bind_eq_ok.mp h
  cases h
  obtain ⟨hwriters, hfifo⟩ := open_cases hopen
  refine ⟨⟨fun p₂ hp₂ rb hrb => ?_, fun p₂ hp₂ => ?_⟩, fun hd => ?_⟩
  · cases hp₂
    rcases hfifo with ⟨-, hnew⟩ | ⟨-, hsame⟩
    · exact ⟨[], hnew rb hrb⟩
    · exact hi.fifo p hp rb (hsame ▸ hrb)
  · cases hp₂
    rw [hwriters]
    cases ok with
    | false => exact hi.writers p hp
    | true =>
        have hcount : (mode :: s.files).countP AccMode.writes =
            s.openWriters + mode.writes.toNat := countP_cons s.files
        refine Eq.trans ?_ (congrArg (· % 256) hcount.symm)
        simp only [if_true]
        rw [toNat_add_one, hi.writers p hp, Nat.mod_add_mod]
  · rw [Drained, drained_iff hp]
    refine hd.destroy_iff rfl rfl ?_ rfl
    rw [buffered_eq hp]
    rcases hfifo with ⟨hzero, hnew⟩ | ⟨hne, hsame⟩
    · rw [if_pos hzero]
      cases hf : p'.fifo with
      | none => simp [System.buffered, PipeDevice.buffered, hf]
      | some rb => rw [buffered_eq rfl, buffered_some hf, contents_eq (hnew rb hf)]
    · rw [if_neg hne, buffered_eq rfl, PipeDevice.buffered, hsame, PipeDevice.buffered]

private theorem close_step (hi : Inv s) (hp : s.pipe = some p) (he : mode ∈ s.files)
    (h : step s (.close t mode) = .ok s') :
    Inv s' ∧ (Delivers s → (Delivers s' ↔ Drained s (.close t mode))) := by
  simp only [step, hp] at h
  cases h
  refine ⟨⟨fun p₂ hp₂ rb hrb => ?_, fun p₂ hp₂ => ?_⟩, fun hd => ?_⟩
  · cases hp₂
    simp only [pipeFopsClose] at hrb
    split at hrb
    · cases hrb
    · exact hi.fifo p hp rb hrb
  · cases hp₂
    have hcount : s.openWriters = (s.files.erase mode).countP AccMode.writes + mode.writes.toNat :=
      countP_erase he
    have hsub := toNat_sub_one p.writers mode.writes (hi.writers p hp) (by omega)
    simp only [pipeFopsClose, System.openWriters]
    rw [hsub, hcount, Nat.add_sub_cancel]
  · rw [Drained, drained_iff hp]
    refine hd.destroy_iff rfl rfl ?_ rfl
    rw [buffered_eq rfl, buffered_eq hp, PipeDevice.buffered, PipeDevice.buffered]
    simp only [pipeFopsClose]
    split <;> rfl

private theorem closeEnd_step (hi : Inv s) (hp : s.pipe = some p)
    (h : step s (.closeEnd t) = .ok s') :
    Inv s' ∧ (Delivers s → (Delivers s' ↔ Drained s (.closeEnd t))) := by
  simp only [step, hp] at h
  cases h
  refine ⟨⟨fun p₂ hp₂ rb hrb => ?_, fun p₂ hp₂ => ?_⟩, fun hd => ?_⟩
  · simp only [pipeFopsCloseEnd] at hp₂
    split at hp₂
    · cases hp₂
    · cases hp₂
      exact hi.fifo p hp rb hrb
  · simp only [pipeFopsCloseEnd] at hp₂
    split at hp₂
    · cases hp₂
    · cases hp₂
      exact hi.writers p hp
  · rw [Drained, drained_iff hp]
    refine hd.destroy_iff rfl rfl ?_ rfl
    rw [buffered_eq hp]
    simp only [System.buffered, pipeFopsCloseEnd]
    split <;> rfl

/-- A step of a thread that leaves the device alone. -/
theorem Inv.same (hi : Inv s) (hp : s'.pipe = s.pipe) (hf : s'.files = s.files) : Inv s' := by
  refine ⟨?_, ?_⟩
  · rw [hp]
    exact hi.fifo
  · rw [hp, System.openWriters, hf]
    exact hi.writers

/-- A step that changes the ring buffer only. -/
theorem Inv.refill (hi : Inv s) (hp : s.pipe = some p)
    (hp' : s'.pipe = some { p with fifo := some rb }) (hf : s'.files = s.files)
    (hh : Holds rb q) : Inv s' := by
  refine ⟨fun p₂ hp₂ rb₂ hrb => ?_, fun p₂ hp₂ => ?_⟩
  · cases hp'.symm.trans hp₂
    cases hrb
    exact ⟨q, hh⟩
  · cases hp'.symm.trans hp₂
    rw [System.openWriters, hf]
    exact hi.writers p hp

/-- A read that finds no writer returns 0. -/
theorem eof_step (hi : Inv s) (hp : s.pipe = some p) (hw : p.writers = 0) :
    Inv (s.eof t) ∧ (Delivers s → (Delivers (s.eof t) ↔
      (p.writers = 0 → s.buffered = [] ∧ s.openWriters < 256))) := by
  refine ⟨hi.same rfl rfl, fun hd => ?_⟩
  rw [hd.eof_iff, hi.openWriters_eq hp hw]
  exact ⟨fun h _ => h, fun h => h hw⟩

private theorem read_step {nonblock : Bool} {count : BitVec 64} (hi : Inv s) (hp : s.pipe = some p)
    (h : step s (.read t nonblock count) = .ok s') :
    Inv s' ∧ (Delivers s → (Delivers s' ↔ Drained s (.read t nonblock count))) := by
  rw [Drained, drained_iff hp]
  simp only [step, hp] at h
  by_cases hw : p.writers = 0
  · rw [if_pos hw] at h
    cases h
    exact eof_step hi hp hw
  · rw [if_neg hw] at h
    cases h
    refine ⟨hi.same hp.symm rfl, fun hd => iff_of_true ?_ fun hw' => absurd hw' hw⟩
    exact hd.same rfl rfl (congrArg (fun o => (o.map PipeDevice.buffered).getD []) hp.symm) rfl

/-- The loop of a read takes bytes off the front of the buffer. -/
theorem readLoop_cases {nonblock : Bool} {count : BitVec 64} {r : ReadOutcome}
    (hfifo : ∀ rb, p.fifo = some rb → ∃ q, Holds rb q) (hw : p.writers ≠ 0)
    (h : readLoop p nonblock count = .ok (p', r)) :
    ∃ rb q bytes, p' = { p with fifo := some rb } ∧ Holds rb q ∧ p.buffered = bytes ++ q ∧
      (r = .data bytes ∨ (bytes = [] ∧ (r = .again ∨ r = .waits))) := by
  rw [readLoop, if_neg hw] at h
  cases hf : p.fifo with
  | none =>
      rw [hf] at h
      cases h
  | some rb =>
      simp only [hf] at h
      obtain ⟨q, hq⟩ := hfifo rb hf
      obtain ⟨-, hholds, hbytes⟩ := hq.get (count.setWidth 16)
      have hsplit : p.buffered = (rtRingbufferGet rb (count.setWidth 16)).2 ++
          (dequeue q (count.setWidth 16).toNat).1 := by
        rw [buffered_some hf, contents_eq hq, Result.bytes.inj hbytes, dequeue,
          List.take_append_drop]
      refine ⟨_, _, _, ?_, hholds, hsplit, ?_⟩
      · split at h
        · cases h
          rfl
        · split at h <;> cases h <;> rfl
      · split at h
        · cases h
          exact Or.inl rfl
        · rename_i hnil
          refine Or.inr ⟨not_not.mp hnil, ?_⟩
          split at h
          · cases h
            exact Or.inl rfl
          · cases h
            exact Or.inr rfl

private theorem readLoop_step (hi : Inv s) (hp : s.pipe = some p)
    (h : step s (.readLoop t) = .ok s') (he : Enabled s (.readLoop t)) :
    Inv s' ∧ (Delivers s → (Delivers s' ↔ Drained s (.readLoop t))) := by
  rw [Drained, drained_iff hp]
  cases hphase : s.phase t with
  | none =>
      rw [Enabled, hphase] at he
      cases he
  | some ph =>
      cases ph with
      | reading nonblock count =>
          simp only [step, hp, hphase] at h
          obtain ⟨⟨p', r⟩, hloop, h⟩ := bind_eq_ok.mp h
          by_cases hw : p.writers = 0
          · rw [readLoop, if_pos hw] at hloop
            cases hloop
            cases h
            exact eof_step hi hp hw
          · obtain ⟨rb, q, bytes, rfl, hholds, hsplit, hr⟩ := readLoop_cases (hi.fifo p hp) hw hloop
            have hbuffered : ∀ s₂ : System, s₂.pipe = some { p with fifo := some rb } →
                s₂.buffered = q := fun s₂ h₂ => by
              rw [buffered_eq h₂, buffered_some rfl, contents_eq hholds]
            rw [← buffered_eq hp] at hsplit
            rcases hr with rfl | ⟨rfl, rfl | rfl⟩
            · cases h
              refine ⟨hi.refill hp rfl rfl hholds,
                fun hd => iff_of_true ?_ fun hw' => absurd hw' hw⟩
              exact hd.get rfl rfl (hsplit.trans (congrArg _ (hbuffered _ rfl).symm)) rfl
            · cases h
              refine ⟨hi.refill hp rfl rfl hholds,
                fun hd => iff_of_true ?_ fun hw' => absurd hw' hw⟩
              exact hd.same rfl rfl ((hbuffered _ rfl).trans hsplit.symm) rfl
            · cases h
              refine ⟨hi.refill hp rfl rfl hholds,
                fun hd => iff_of_true ?_ fun hw' => absurd hw' hw⟩
              exact hd.same rfl rfl ((hbuffered _ rfl).trans hsplit.symm) rfl
      | writing w =>
          rw [Enabled, hphase] at he
          cases he
      | closing =>
          rw [Enabled, hphase] at he
          cases he

private theorem write_step {nonblock : Bool} {buf : Nat → Byte} {count : BitVec 64} (hi : Inv s)
    (hp : s.pipe = some p) (h : step s (.write t nonblock buf count) = .ok s') :
    Inv s' ∧ (Delivers s → (Delivers s' ↔ Drained s (.write t nonblock buf count))) := by
  rw [Drained, drained_iff hp]
  simp only [step, hp] at h
  split at h
  · cases h
    exact ⟨hi, fun hd => iff_of_true hd trivial⟩
  · cases h
    refine ⟨hi.same hp.symm rfl, fun hd => iff_of_true ?_ trivial⟩
    exact hd.same rfl rfl (congrArg (fun o => (o.map PipeDevice.buffered).getD []) hp.symm) rfl

/-- The loop of a write puts bytes behind those in the buffer. -/
theorem writeLoop_cases {w w' : Write} {returned : Option (BitVec 32)} {bytes : List Byte}
    (hfifo : ∀ rb, p.fifo = some rb → ∃ q, Holds rb q)
    (h : writeLoop p w = .ok (p', w', returned, bytes)) :
    (p' = p ∧ bytes = []) ∨
      ∃ rb, p' = { p with fifo := some rb } ∧ Holds rb (p.buffered ++ bytes) := by
  rw [writeLoop] at h
  split at h
  · cases h
    exact Or.inl ⟨rfl, rfl⟩
  · cases hf : p.fifo with
    | none =>
        rw [hf] at h
        cases h
    | some rb =>
        simp only [hf] at h
        obtain ⟨q, hq⟩ := hfifo rb hf
        obtain ⟨-, hholds, hcount⟩ := hq.put (fun i => w.buf (w.pos + i))
          ((w.count - w.ret.signExtend 64).setWidth 16)
        rw [enqueue_eq] at hholds hcount
        rw [← Result.count.inj hcount, ← contents_eq hq, ← buffered_some hf] at hholds
        cases h
        exact Or.inr ⟨_, rfl, hholds⟩

private theorem writeLoop_step (hi : Inv s) (hp : s.pipe = some p)
    (h : step s (.writeLoop t) = .ok s') (he : Enabled s (.writeLoop t)) :
    Inv s' ∧ (Delivers s → (Delivers s' ↔ Drained s (.writeLoop t))) := by
  rw [Drained, drained_iff hp]
  cases hphase : s.phase t with
  | none =>
      rw [Enabled, hphase] at he
      cases he
  | some ph =>
      cases ph with
      | reading nonblock count =>
          rw [Enabled, hphase] at he
          cases he
      | closing =>
          rw [Enabled, hphase] at he
          cases he
      | writing w =>
          simp only [step, hp, hphase] at h
          obtain ⟨⟨p', w', returned, bytes⟩, hloop, h⟩ := bind_eq_ok.mp h
          cases h
          rcases writeLoop_cases (hi.fifo p hp) hloop with ⟨rfl, rfl⟩ | ⟨rb, rfl, hholds⟩
          · refine ⟨hi.same hp.symm rfl, fun hd => iff_of_true ?_ trivial⟩
            exact hd.same (List.append_nil _) rfl
              (congrArg (fun o => (o.map PipeDevice.buffered).getD []) hp.symm) rfl
          · refine ⟨hi.refill hp rfl rfl hholds, fun hd => iff_of_true ?_ trivial⟩
            refine hd.put rfl rfl ?_ rfl
            rw [buffered_eq rfl, buffered_some rfl, contents_eq hholds, buffered_eq hp]

/-- A step keeps the invariant, and delivers if and only if nothing is dropped. -/
theorem step_iff {e : Event} (hi : Inv s) (he : Enabled s e) (h : step s e = .ok s') :
    Inv s' ∧ (Delivers s → (Delivers s' ↔ Drained s e)) := by
  cases hp : s.pipe with
  | none =>
      simp only [step, hp] at h
      cases h
  | some p =>
      cases e with
      | «open» mode pool => exact open_step hi hp h
      | close t mode => exact close_step hi hp he.2 h
      | closeEnd t => exact closeEnd_step hi hp h
      | read t nonblock count => exact read_step hi hp h
      | readLoop t => exact readLoop_step hi hp h he
      | write t nonblock buf count => exact write_step hi hp h
      | writeLoop t => exact writeLoop_step hi hp h he

end Steps

theorem boot_inv (isNamed : Bool) (bufsz : BitVec 16) : Inv (boot isNamed bufsz) :=
  ⟨fun _ hp _ hrb => (by cases hp; cases hrb), fun _ hp => (by cases hp; rfl)⟩

private theorem boot_delivers (isNamed : Bool) (bufsz : BitVec 16) :
    Delivers (boot isNamed bufsz) :=
  Delivers.of_kept rfl fun _ h => absurd h List.not_mem_nil

/-- A pipe delivers every byte before the end of file in exactly the runs in which no byte is
dropped. -/
theorem pipe_delivers (isNamed : Bool) (bufsz : BitVec 16) (es : List Event) (s : System)
    (hg : Guarded step Enabled (boot isNamed bufsz) es)
    (hrun : run step (boot isNamed bufsz) es = .ok s) :
    Always step Delivers (boot isNamed bufsz) es ↔
      Guarded step Drained (boot isNamed bufsz) es :=
  always_iff_guarded (fun _ _ _ hi he h => (step_iff hi he h).1)
    (fun _ _ _ hi he h hd => (step_iff hi he h).2 hd) (boot_inv isNamed bufsz)
    (boot_delivers isNamed bufsz) hg hrun

/-- Three bytes go through the pipe, the writer closes it, and the reader finds the end. -/
def through : List Event :=
  [.open .rdonly (some fun _ => 0), .open .wronly none, .write 1 false (BitVec.ofNat 8) 3,
    .writeLoop 1, .read 0 false 8, .readLoop 0, .close 1 .wronly, .closeEnd 1, .read 0 false 8]

theorem pipe_delivers_three : Always step Delivers (boot true 64) through := by
  have hdelivered : (run step (boot true 64) through).map System.delivered = .ok [0, 1, 2] := by
    decide
  obtain ⟨s, hrun, -⟩ := exists_of_map_eq_ok hdelivered
  exact (pipe_delivers true 64 through s (by decide) hrun).mpr (by decide)

/-- The writer closes the pipe before the reader reads. -/
def closedEarly : List Event :=
  [.open .rdonly (some fun _ => 0), .open .wronly none, .write 1 false (BitVec.ofNat 8) 3,
    .writeLoop 1, .close 1 .wronly, .closeEnd 1, .read 0 false 8]

/-- The read returns 0 although three bytes are in the buffer. -/
theorem eof_before_data :
    ∃ s, Guarded step Enabled (boot true 64) closedEarly ∧
      run step (boot true 64) closedEarly = .ok s ∧ s.delivered = [] ∧
      s.eofs = [⟨0, [0, 1, 2]⟩] := by
  have hguarded : Guarded step Enabled (boot true 64) closedEarly := by decide
  have heofs : (run step (boot true 64) closedEarly).map (fun s => (s.delivered, s.eofs)) =
      .ok ([], [⟨0, [0, 1, 2]⟩]) := by
    decide
  obtain ⟨s, hrun, hs⟩ := exists_of_map_eq_ok heofs
  exact ⟨s, hguarded, hrun, congrArg Prod.fst hs, congrArg Prod.snd hs⟩

end RtHypervisor.Ports.Pipe
