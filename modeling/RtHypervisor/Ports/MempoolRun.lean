import Mathlib.Tactic
import RtHypervisor.Ports.Mempool

/-!
# Blocks of a pool are conserved

The free list and the blocks that are given out partition the blocks of the pool, over every
run (`conserved_of_room`).  This needs a pool with room for a block: `rt_mp_init` takes others
too, writes in front of them and leaves a free list of one block that is none.
`mempool_conserved` is the equivalence.
-/

namespace RtHypervisor.Ports.Mempool

open RtHypervisor.Verified.Run
open RtHypervisor.Verified.ByteMem
open RtHypervisor.Verified.LinkedWords
open RtHypervisor.Verified.WaitQueue
open RtHypervisor.Ports.Ipc
open RtHypervisor.Ports.SmallMem (rtAlign rtAlignDown sub64 rtAlignSize)

/-! ## What is conserved -/

/-- The blocks of a pool. -/
def blocks (s : RtMempool) : List Nat :=
  List.range' s.startAddress s.blockTotalCount (s.blockSize + 8)

/-- The blocks lie in the pool and do not overlap; `block_free_count` is the length of the free
list; and each block is either in it or given out. -/
structure Conserved (s : MpSys) : Prop where
  inside : ∀ b ∈ blocks s.pool, s.pool.startAddress ≤ b ∧
    b + 8 + s.pool.blockSize ≤ s.pool.startAddress + s.pool.size
  apart : (blocks s.pool).Pairwise fun b c => b + 8 + s.pool.blockSize ≤ c
  partition : ∃ free, Chain s.pool.mem s.pool.blockList free ∧
    s.pool.blockFreeCount = free.length ∧
    (free.map (· + 8) ++ s.outstanding).Perm ((blocks s.pool).map (· + 8))

/-- The addresses of the pool. -/
def InPool (start size : Word) (a : Nat) : Prop :=
  start.toNat ≤ a ∧ a < start.toNat + size.toNat

/-- The blocks fit into the pool, which fits into the address space. -/
structure Geometry (s : RtMempool) : Prop where
  start_pos : 0 < s.startAddress
  fits : s.blockTotalCount * (s.blockSize + 8) ≤ s.size
  bound : s.startAddress + s.size ≤ 2 ^ 64

private theorem cell_le {p n d i : Nat} (hi : i < n) : p + i * d + d ≤ p + n * d := by
  have hle : (i + 1) * d ≤ n * d := Nat.mul_le_mul_right _ hi
  rw [Nat.add_mul, Nat.one_mul] at hle
  omega

section Geometry

variable {s : RtMempool} {b c : Nat}

theorem Geometry.inside (h : Geometry s) (hb : b ∈ blocks s) :
    s.startAddress ≤ b ∧ b + 8 + s.blockSize ≤ s.startAddress + s.size := by
  obtain ⟨i, hi, rfl⟩ := List.mem_range'.mp hb
  have hcell := cell_le (p := s.startAddress) (d := s.blockSize + 8) hi
  have hfits := h.fits
  rw [Nat.mul_comm]
  omega

private theorem blocks_apart : (blocks s).Pairwise fun b c => b + 8 + s.blockSize ≤ c :=
  (range'_apart _ _ _).imp fun hle => by omega

theorem separate (hb : b ∈ blocks s) (hc : c ∈ blocks s) (hne : b ≠ c) :
    b + 8 + s.blockSize ≤ c ∨ c + 8 + s.blockSize ≤ b :=
  pairwise_or blocks_apart hb hc hne

private theorem nodup_blocks : (blocks s).Nodup :=
  blocks_apart.imp fun hle => by omega

end Geometry

/-! ## A new pool -/

/-- A pool of `size` bytes has room for a block. -/
def HasRoom (size blockSize : Word) : Prop :=
  rtAlign blockSize.toNat + 8 ≤ rtAlignDown size.toNat

section Init

variable {mem : Mem} {p d n i : Nat}

/-- Where the blocks are when nothing wraps. -/
theorem blockAt_eq (hd : d + 8 < 2 ^ 64) (hi : p + i * (d + 8) < 2 ^ 64) :
    blockAt p d i = p + i * (d + 8) := by
  rw [blockAt, stride, Nat.mod_eq_of_lt hd, Nat.mod_eq_of_lt hi]

/-- The loop links the blocks. -/
theorem load64_linkBlocks (hend : p + n * (d + 8) ≤ 2 ^ 64) (hd : d + 8 < 2 ^ 64) {k : Nat}
    (hk : k ≤ n) (hi : i < k) :
    load64 (linkBlocks mem p d k) (p + i * (d + 8)) = BitVec.ofNat 64 (blockAt p d (i + 1)) := by
  induction k with
  | zero => omega
  | succ k ih =>
      have hcell := cell_le (p := p) (d := d + 8) (show k < n by omega)
      rw [linkBlocks, blockAt_eq hd (by omega)]
      rcases Nat.lt_or_eq_of_le (Nat.lt_succ_iff.mp hi) with hlt | heq
      · have hbelow := cell_le (p := p) (d := d + 8) hlt
        rw [load64_store64_of_disjoint (by omega)]
        exact ih (by omega) hlt
      · rw [heq, load64_store64_self]

/-- The loop writes to the blocks only. -/
theorem linkBlocks_unchanged (hend : p + n * (d + 8) ≤ 2 ^ 64) (hd : d + 8 < 2 ^ 64) {k : Nat}
    (hk : k ≤ n) {region : Nat → Prop}
    (hregion : ∀ a, p ≤ a → a < p + n * (d + 8) → region a) :
    UnchangedOff region mem (linkBlocks mem p d k) := by
  induction k with
  | zero => exact UnchangedOff.refl mem
  | succ k ih =>
      have hcell := cell_le (p := p) (d := d + 8) (show k < n by omega)
      refine (ih (by omega)).trans ?_
      rw [linkBlocks, blockAt_eq hd (by omega)]
      exact unchangedOff_store64 fun j hj => hregion _ (by omega) (by omega)

/-- All of them, and the last one is the end of the list. -/
theorem chain_linkBlocks (hp : 0 < p) (hend : p + (n + 1) * (d + 8) ≤ 2 ^ 64)
    (hd : d + 8 < 2 ^ 64) :
    Chain (store64 (linkBlocks mem p d (n + 1)) (p + n * (d + 8)) 0) p
      (List.range' p (n + 1) (d + 8)) := by
  refine chain_range' (by omega) (fun i hi => ?_) ?_
  · have hcell := cell_le (p := p) (d := d + 8) hi
    have hnext := cell_le (p := p) (d := d + 8) (show i + 1 < n + 1 by omega)
    rw [load64_store64_of_disjoint (by omega),
      load64_linkBlocks hend hd (le_refl _) (by omega), blockAt_eq hd (by omega),
        BitVec.toNat_ofNat]
    exact Nat.mod_eq_of_lt (by omega)
  · rw [load64_store64_self]
    rfl

end Init

section NewPool

variable {threads : Threads} {tick : BitVec 32} {mem : Mem} {addr start size blockSize : Word}
  {s : RtMempool}

private theorem init_eq (h : rtMpInit threads tick mem addr start size blockSize = .ok s) :
    0 < start.toNat ∧
      let blockSize := rtAlign blockSize.toNat
      let count := rtAlignDown size.toNat / stride blockSize
      s =
        { threads := threads
          tick := tick
          mem := store64 (linkBlocks mem start.toNat blockSize count)
            (blockAt start.toNat blockSize (sub64 count 1)) 0
          addr := addr
          startAddress := start.toNat
          size := rtAlignDown size.toNat
          blockSize := blockSize
          blockList := start.toNat
          blockTotalCount := count
          blockFreeCount := count
          suspendThread := [] } := by
  obtain ⟨_, hstart, h⟩ := bind_eq_ok.mp h
  obtain ⟨_, -, h⟩ := bind_eq_ok.mp h
  have hne : start ≠ 0 := of_decide_eq_true (check_eq_ok.mp hstart)
  exact ⟨by bv_omega, (Except.ok.inj h).symm⟩

private theorem init_fields (h : rtMpInit threads tick mem addr start size blockSize = .ok s) :
    0 < start.toNat ∧ s.startAddress = start.toNat ∧ s.blockList = start.toNat ∧
      s.size = rtAlignDown size.toNat ∧ s.blockSize = rtAlign blockSize.toNat := by
  obtain ⟨hpos, rfl⟩ := init_eq h
  exact ⟨hpos, rfl, rfl, rfl, rfl⟩

theorem HasRoom.count_pos (h : HasRoom size blockSize) :
    ∃ n, rtAlignDown size.toNat / stride (rtAlign blockSize.toNat) = n + 1 ∧
      stride (rtAlign blockSize.toNat) = rtAlign blockSize.toNat + 8 := by
  rw [HasRoom] at h
  have hle : rtAlignDown size.toNat ≤ size.toNat := Nat.sub_le ..
  have hstride : stride (rtAlign blockSize.toNat) = rtAlign blockSize.toNat + 8 :=
    Nat.mod_eq_of_lt (by have := size.isLt; omega)
  rw [hstride]
  exact ⟨_, (Nat.succ_pred_eq_of_pos (Nat.div_pos h (by omega))).symm, rfl⟩

/-- What `rt_mp_init` makes of a range with room for a block. -/
theorem init_spec (h : rtMpInit threads tick mem addr start size blockSize = .ok s)
    (hpool : start.toNat + size.toNat ≤ 2 ^ 64) (hroom : HasRoom size blockSize) :
    Geometry s ∧ Chain s.mem s.blockList (blocks s) ∧ s.blockFreeCount = s.blockTotalCount ∧
      UnchangedOff (InPool start size) mem s.mem := by
  obtain ⟨hpos, rfl⟩ := init_eq h
  obtain ⟨n, hcount, hstride⟩ := hroom.count_pos
  have hle : rtAlignDown size.toNat ≤ size.toNat := Nat.sub_le ..
  have hfits : (n + 1) * (rtAlign blockSize.toNat + 8) ≤ rtAlignDown size.toNat := by
    rw [← hcount, hstride]
    exact Nat.div_mul_le_self ..
  have hd : rtAlign blockSize.toNat + 8 < 2 ^ 64 := by
    rw [HasRoom] at hroom
    have hlt := size.isLt
    omega
  have hlast := cell_le (p := start.toNat) (d := rtAlign blockSize.toNat + 8) (Nat.lt_add_one n)
  have hsub : sub64 (n + 1) 1 = n := by
    have hn : n + 1 ≤ (n + 1) * (rtAlign blockSize.toNat + 8) :=
      Nat.le_mul_of_pos_right _ (by omega)
    have hsize := size.isLt
    rw [sub64]
    omega
  simp only [hcount, hsub]
  rw [blockAt_eq hd (by omega)]
  refine ⟨⟨hpos, hfits, by show start.toNat + rtAlignDown size.toNat ≤ 2 ^ 64; omega⟩,
    chain_linkBlocks hpos (by omega) hd, trivial, ?_⟩
  have hlinks : UnchangedOff (InPool start size) mem
      (linkBlocks mem start.toNat (rtAlign blockSize.toNat) (n + 1)) :=
    linkBlocks_unchanged (by omega) hd (le_refl _) fun a hlo hhi => ⟨hlo, by omega⟩
  exact hlinks.trans (unchangedOff_store64 fun j hj => ⟨by omega, by omega⟩)

end NewPool

/-! ## One call -/

/-- The part of the invariant about memory.  Each block that is given out names the pool. -/
structure PoolOk (s : RtMempool) (outstanding : List Nat) : Prop where
  geometry : Geometry s
  partition : ∃ free, Chain s.mem s.blockList free ∧ s.blockFreeCount = free.length ∧
    (free.map (· + 8) ++ outstanding).Perm ((blocks s).map (· + 8))
  owned : ∀ p ∈ outstanding, load64 s.mem (p - 8) = s.addr

section PoolOk

variable {s : RtMempool} {outstanding free : List Nat} {p a b : Nat}

theorem PoolOk.withThreads (h : PoolOk s outstanding) (threads : Threads) (tick : BitVec 32)
    (list : List ThreadId) :
    PoolOk { s with threads := threads, tick := tick, suspendThread := list } outstanding :=
  ⟨⟨h.geometry.start_pos, h.geometry.fits, h.geometry.bound⟩, h.partition, h.owned⟩

private theorem mem_of_partition
    (h : (free.map (· + 8) ++ outstanding).Perm ((blocks s).map (· + 8)))
    (hp : p ∈ outstanding) : ∃ b ∈ blocks s, p = b + 8 := by
  have hmem : p ∈ (blocks s).map (· + 8) := h.mem_iff.mp (List.mem_append_right _ hp)
  obtain ⟨b, hb, rfl⟩ := List.mem_map.mp hmem
  exact ⟨b, hb, rfl⟩

private theorem mem_of_free (h : (free.map (· + 8) ++ outstanding).Perm ((blocks s).map (· + 8)))
    (hb : b ∈ free) : b ∈ blocks s := by
  have hmem : b + 8 ∈ (blocks s).map (· + 8) :=
    h.mem_iff.mp (List.mem_append_left _ (List.mem_map.mpr ⟨b, hb, rfl⟩))
  obtain ⟨c, hc, heq⟩ := List.mem_map.mp hmem
  rwa [← Nat.add_right_cancel heq]

private theorem nodup_of_partition
    (h : (free.map (· + 8) ++ outstanding).Perm ((blocks s).map (· + 8))) :
    (free.map (· + 8) ++ outstanding).Nodup :=
  h.nodup_iff.mpr (nodup_blocks.map fun _ _ => Nat.add_right_cancel)

/-- The first free block is given out. -/
theorem PoolOk.take (h : PoolOk s outstanding) (hcount : s.blockFreeCount ≠ 0) :
    ∃ s' p, takeBlock s = .ok (s', p) ∧ p ≠ 0 ∧ PoolOk s' (p :: outstanding) ∧
      s'.threads = s.threads ∧ s'.suspendThread = s.suspendThread := by
  obtain ⟨free, hchain, hlength, hperm⟩ := h.partition
  cases free with
  | nil => exact absurd hlength hcount
  | cons b free =>
      obtain ⟨hfirst, hb, htail⟩ := hchain
      rw [← hfirst] at hb htail hperm
      have hmem : s.blockList ∈ blocks s := mem_of_free hperm (List.mem_cons_self ..)
      have hnodup := nodup_of_partition hperm
      rw [List.map_cons, List.cons_append, List.nodup_cons, List.mem_append, not_or] at hnodup
      refine ⟨{ s with
        blockFreeCount := s.blockFreeCount - 1
        blockList := (load64 s.mem s.blockList).toNat
        mem := store64 s.mem s.blockList s.addr }, s.blockList + 8, ?_, by omega,
        ⟨⟨h.geometry.start_pos, h.geometry.fits, h.geometry.bound⟩, ⟨free, ?_, ?_, ?_⟩, ?_⟩,
          rfl, rfl⟩
      · rw [takeBlock, decide_eq_true hb]
        rfl
      · refine htail.frame fun c hc => load64_store64_of_disjoint ?_
        have hne : s.blockList ≠ c := by
          rintro heq
          exact hnodup.1.1 (List.mem_map.mpr ⟨c, hc, by rw [heq]⟩)
        have hsep := separate hmem (mem_of_free hperm (List.mem_cons_of_mem _ hc)) hne
        omega
      · show s.blockFreeCount - 1 = free.length
        rw [hlength, List.length_cons, Nat.add_sub_cancel]
      · exact List.perm_middle.trans hperm
      · intro p hp
        rcases List.mem_cons.mp hp with rfl | hp
        · show load64 (store64 s.mem s.blockList s.addr) (s.blockList + 8 - 8) = s.addr
          rw [Nat.add_sub_cancel, load64_store64_self]
        · obtain ⟨c, hc, rfl⟩ := mem_of_partition hperm hp
          have hne : s.blockList ≠ c := by
            rintro heq
            exact hnodup.1.2 (heq ▸ hp)
          have hsep := separate hmem hc hne
          have hold := h.owned (c + 8) hp
          rw [Nat.add_sub_cancel] at hold
          show load64 (store64 s.mem s.blockList s.addr) (c + 8 - 8) = s.addr
          rw [Nat.add_sub_cancel, load64_store64_of_disjoint (by omega), hold]

/-- A block comes back. -/
theorem PoolOk.give (h : PoolOk s outstanding) (hp : p ∈ outstanding) :
    ∃ s', giveBlock s p = .ok s' ∧ PoolOk s' (outstanding.erase p) ∧ s'.threads = s.threads ∧
      s'.suspendThread = s.suspendThread := by
  obtain ⟨free, hchain, hlength, hperm⟩ := h.partition
  obtain ⟨b, hb, rfl⟩ := mem_of_partition hperm hp
  have hinside := h.geometry.inside hb
  have hbound := h.geometry.bound
  have hsub : sub64 (b + 8) 8 = b := by
    rw [sub64]
    omega
  have hnodup := nodup_of_partition hperm
  have hfree : b ∉ free := by
    intro hmem
    exact (List.disjoint_of_nodup_append hnodup) (List.mem_map.mpr ⟨b, hmem, rfl⟩) hp
  have hhead : (BitVec.ofNat 64 s.blockList).toNat = s.blockList := by
    rw [BitVec.toNat_ofNat]
    refine Nat.mod_eq_of_lt ?_
    cases free with
    | nil =>
        rw [chain_nil] at hchain
        omega
    | cons c free =>
        have hc := h.geometry.inside (mem_of_free hperm (List.mem_cons_self ..))
        rw [hchain.1]
        omega
  have howned := h.owned (b + 8) hp
  rw [Nat.add_sub_cancel] at howned
  have hpos := h.geometry.start_pos
  refine ⟨{ s with
    blockFreeCount := s.blockFreeCount + 1
    mem := store64 s.mem b (BitVec.ofNat 64 s.blockList)
    blockList := b }, ?_, ⟨⟨h.geometry.start_pos, h.geometry.fits, h.geometry.bound⟩,
    ⟨b :: free, hchain.push (by omega) hhead fun c hc => ?_, ?_, ?_⟩, fun p hp' => ?_⟩, rfl, rfl⟩
  · rw [giveBlock, hsub, decide_eq_true howned]
    rfl
  · have hne : b ≠ c := fun heq => hfree (heq ▸ hc)
    have hsep := separate hb (mem_of_free hperm hc) hne
    omega
  · show s.blockFreeCount + 1 = (b :: free).length
    rw [hlength, List.length_cons]
  · have hback : ((b + 8) :: outstanding.erase (b + 8)).Perm outstanding :=
      (List.perm_cons_erase hp).symm
    rw [List.map_cons]
    refine List.Perm.trans ?_ hperm
    exact List.perm_middle.symm.trans (hback.append_left _)
  · have hold : p ∈ outstanding := List.mem_of_mem_erase hp'
    obtain ⟨c, hc, rfl⟩ := mem_of_partition hperm hold
    have hne : b ≠ c := by
      rintro rfl
      exact (List.Nodup.not_mem_erase (List.nodup_append.mp hnodup).2.1) hp'
    have hsep := separate hb hc hne
    have hkeep := h.owned (c + 8) hold
    rw [Nat.add_sub_cancel] at hkeep
    show load64 (store64 s.mem b _) (c + 8 - 8) = s.addr
    rw [Nat.add_sub_cancel, load64_store64_of_disjoint (by omega), hkeep]

/-- The owner of a block writes to its data. -/
theorem PoolOk.write (h : PoolOk s outstanding) (hp : p ∈ outstanding) (hlo : p ≤ a)
    (hhi : a < p + s.blockSize) (v : BitVec 8) :
    PoolOk { s with mem := Function.update s.mem a v } outstanding := by
  obtain ⟨free, hchain, hlength, hperm⟩ := h.partition
  obtain ⟨b, hb, rfl⟩ := mem_of_partition hperm hp
  have hoff : ∀ c ∈ blocks s, load64 (Function.update s.mem a v) c = load64 s.mem c := by
    intro c hc
    refine load64_update_of_off ?_
    by_cases hne : b = c
    · omega
    · have hsep := separate hb hc hne
      omega
  refine ⟨⟨h.geometry.start_pos, h.geometry.fits, h.geometry.bound⟩,
    ⟨free, hchain.frame fun c hc => hoff c (mem_of_free hperm hc), hlength, hperm⟩,
    fun q hq => ?_⟩
  obtain ⟨c, hc, rfl⟩ := mem_of_partition hperm hq
  have hold := h.owned (c + 8) hq
  rw [Nat.add_sub_cancel] at hold
  show load64 (Function.update s.mem a v) (c + 8 - 8) = s.addr
  rw [Nat.add_sub_cancel, hoff c hc, hold]

end PoolOk

/-! ## Threads that wait -/

/-- A thread is behind its call of `rt_schedule`. -/
def Waiting (phase : ThreadId → Option Phase) (t : ThreadId) : Prop :=
  ∃ w, phase t = some (.waiting w)

/-- The suspended threads that wait are in the list, and one that was resumed has its timer
off. -/
structure WaitsOk (ts : Threads) (list : List ThreadId) (phase : ThreadId → Option Phase) :
    Prop where
  parked : Parked ts list (Waiting phase)
  timers : ∀ t, Waiting phase t → (ts t).suspended = false → (ts t).timer = false

section WaitsOk

variable {ts ts' : Threads} {list : List ThreadId} {phase : ThreadId → Option Phase} {t : ThreadId}
  {x : Option Phase}

/-- A thread that does not wait changes. -/
theorem WaitsOk.change (h : WaitsOk ts list phase) (ht : ¬Waiting phase t)
    (hne : ∀ u, u ≠ t → ts' u = ts u) : WaitsOk ts' list phase :=
  ⟨h.parked.change hne fun hw => absurd hw ht,
    forall_of_ne t h.timers (fun u hu hold => by rwa [hne u hu]) fun hw => absurd hw ht⟩

/-- The phase of a thread changes that runs. -/
theorem WaitsOk.leave (h : WaitsOk ts list phase) (hrun : (ts t).suspended = false)
    (hx : ∀ w, x ≠ some (.waiting w)) : WaitsOk ts list (Function.update phase t x) := by
  have hself : ¬Waiting (Function.update phase t x) t := by
    rintro ⟨w, hw⟩
    rw [Function.update_self] at hw
    exact hx w hw
  have hother : ∀ u, u ≠ t → (Waiting (Function.update phase t x) u ↔ Waiting phase u) := by
    intro u hu
    rw [Waiting, Waiting, Function.update_of_ne hu]
  refine ⟨h.parked.congr fun u => ?_, ?_⟩
  · by_cases hu : u = t
    · simp [hu, hself, hrun]
    · rw [hother u hu]
  · refine forall_of_ne t h.timers (fun u hu hold hw => ?_) fun hw => absurd hw hself
    exact hold ((hother u hu).mp hw)

/-- A thread that runs begins to wait. -/
theorem WaitsOk.block (h : WaitsOk ts list phase) (hrun : (ts t).suspended = false)
    (hne : ∀ u, u ≠ t → ts' u = ts u) (ht : (ts' t).suspended = true) (w : Wait) :
    WaitsOk ts' (t :: list) (Function.update phase t (some (.waiting w))) := by
  have hwaits : ∀ u, Waiting (Function.update phase t (some (.waiting w))) u ↔
      u = t ∨ Waiting phase u := by
    intro u
    by_cases hu : u = t
    · simp [hu, Waiting]
    · simp [hu, Waiting]
  refine ⟨h.parked.push hrun hne ht hwaits, ?_⟩
  refine forall_of_ne t h.timers (fun u hu hold hw => ?_) fun _ hsusp => ?_
  · rw [hne u hu]
    exact hold (((hwaits u).mp hw).resolve_left hu)
  · rw [ht] at hsusp
    cases hsusp

/-- A thread leaves the list. -/
theorem WaitsOk.erase (h : WaitsOk ts list phase) (hne : ∀ u, u ≠ t → ts' u = ts u)
    (hsusp : (ts' t).suspended = false) (htimer : (ts' t).timer = false) :
    WaitsOk ts' (list.erase t) phase :=
  ⟨h.parked.erase hne hsusp,
    forall_of_ne t h.timers (fun u hu hold => by rwa [hne u hu]) fun _ _ => htimer⟩

/-- The first thread of the list is resumed. -/
theorem WaitsOk.resume (h : WaitsOk ts (t :: list) phase) : WaitsOk (wake ts t) list phase := by
  have herase : WaitsOk (wake ts t) ((t :: list).erase t) phase :=
    h.erase (fun u hu => wake_of_ne hu) (by rw [wake_self]) (by rw [wake_self])
  rwa [List.erase_cons_head] at herase

/-- A thread changes, but goes on waiting if it does. -/
theorem WaitsOk.same (h : WaitsOk ts list phase) (hne : ∀ u, u ≠ t → ts' u = ts u)
    (hsusp : (ts' t).suspended = (ts t).suspended) (htimer : (ts' t).timer = (ts t).timer) :
    WaitsOk ts' list phase := by
  refine ⟨h.parked.change hne fun _ => hsusp, ?_⟩
  refine forall_of_ne t h.timers (fun u hu hold => by rwa [hne u hu]) ?_
  rw [hsusp, htimer]
  exact h.timers t

theorem WaitsOk.setError (h : WaitsOk ts list phase) (t : ThreadId) (e : Err) :
    WaitsOk (setError ts t e) list phase :=
  h.same (fun u hu => setError_of_ne e hu) (by rw [setError_self]) (by rw [setError_self])

end WaitsOk

/-! ## Steps -/

structure Inv (s : MpSys) : Prop where
  pool : PoolOk s.pool s.outstanding
  waits : WaitsOk s.pool.threads s.pool.suspendThread s.phase

section Steps

variable {s : MpSys} {t : ThreadId}

private theorem finish_block (hs : Inv s) (hrun : (s.pool.threads t).suspended = false) (w : Wait) :
    Meets (· = .assertion) (fun out => Inv (finish s t out.1 out.2)) (allocLoop s.pool t w) := by
  rw [allocLoop]
  by_cases hcount : s.pool.blockFreeCount = 0
  · rw [if_pos hcount]
    by_cases hzero : w.time = 0
    · rw [if_pos hzero]
      refine ⟨hs.pool.withThreads _ _ _, ?_⟩
      refine (hs.waits.setError t .etimeout).leave ?_ fun _ h => by cases h
      show (setError s.pool.threads t .etimeout t).suspended = false
      rw [setError_self]
      exact hrun
    · rw [if_neg hzero]
      have hrun' : (setError s.pool.threads t .eok t).suspended = false := by
        rw [setError_self]
        exact hrun
      rw [rtThreadSuspend_of_running hrun']
      refine startTimer_meets.bind ?_
      rintro threads ⟨b, rfl⟩
      rw [setError, modify_modify, modify_modify]
      exact ⟨hs.pool.withThreads _ _ _,
        hs.waits.block hrun (fun u hu => Function.update_of_ne hu ..)
        (congrArg Thread.suspended modify_self) _⟩
  · rw [if_neg hcount]
    obtain ⟨pool, p, htake, hp, hok, hthreads, hlist⟩ := hs.pool.take hcount
    rw [htake]
    show Inv (finish s t pool (.returned p))
    rw [finish, if_neg hp]
    refine ⟨hok, ?_⟩
    show WaitsOk pool.threads pool.suspendThread (Function.update s.phase t none)
    rw [hthreads, hlist]
    exact hs.waits.leave hrun fun _ h => by cases h

private theorem allocIsr_inv (hs : Inv s) : Meets (· = .assertion) Inv (step s .allocIsr) := by
  rw [step, rtMpAllocIsr]
  by_cases hcount : s.pool.blockFreeCount = 0
  · rw [if_pos hcount]
    exact ⟨hs.pool, hs.waits⟩
  · rw [if_neg hcount]
    obtain ⟨pool, p, htake, hp, hok, hthreads, hlist⟩ := hs.pool.take hcount
    rw [htake]
    refine ⟨?_, ?_⟩
    · show PoolOk pool (if p = 0 then s.outstanding else p :: s.outstanding)
      rwa [if_neg hp]
    · show WaitsOk pool.threads pool.suspendThread s.phase
      rw [hthreads, hlist]
      exact hs.waits

theorem woken_inv (hs : Inv s) (hphase : Waiting s.phase t)
    (hrun : (s.pool.threads t).suspended = false) :
    Meets (· = .assertion) Inv (step s (.woken t)) := by
  obtain ⟨w, hw⟩ := hphase
  rw [step, hw]
  refine meets_ite (fun _ => ⟨hs.pool, ?_⟩) fun _ => ⟨hs.pool, ?_⟩
  · exact hs.waits.leave hrun fun _ h => by cases h
  · exact hs.waits.leave hrun fun _ h => by cases h

theorem free_inv (hs : Inv s) {block : Nat} (hblock : block = 0 ∨ block ∈ s.outstanding) :
    Meets (· = .assertion) Inv (step s (.free block)) := by
  rw [step, rtMpFree]
  by_cases hzero : block = 0
  · rw [if_pos hzero]
    have hmem : block ∉ s.outstanding := by
      intro hmem
      obtain ⟨free, -, -, hperm⟩ := hs.pool.partition
      obtain ⟨b, -, heq⟩ := mem_of_partition hperm hmem
      omega
    refine ⟨?_, hs.waits⟩
    show PoolOk s.pool (s.outstanding.erase block)
    rw [List.erase_of_not_mem hmem]
    exact hs.pool
  · rw [if_neg hzero]
    obtain ⟨pool, hgive, hok, hthreads, hlist⟩ := hs.pool.give (hblock.resolve_left hzero)
    have hwaits := hs.waits
    rw [← hthreads, ← hlist] at hwaits
    rw [hgive, ok_bind]
    cases hcase : pool.suspendThread with
    | nil => exact ⟨hok, hwaits⟩
    | cons t list =>
        have hfirst := hwaits.setError t .eok
        rw [hcase] at hfirst
        have hresume : rtThreadResume (setError pool.threads t .eok) (t :: list) t =
            (wake (setError pool.threads t .eok) t, list) := hfirst.parked.resume_eq
        simp only [hresume]
        exact ⟨hok.withThreads _ _ _, hfirst.resume⟩

theorem timeout_inv (hs : Inv s) (hphase : Waiting s.phase t)
    (htimer : (s.pool.threads t).timer = true) :
    Meets (· = .assertion) Inv (step s (.timeout t)) := by
  cases hsusp : (s.pool.threads t).suspended with
  | false =>
      have hoff := hs.waits.timers t hphase hsusp
      rw [htimer] at hoff
      cases hoff
  | true =>
      rw [step, mpTimeout, threadTimeout, hsusp, setError, wake, modify_modify]
      exact ⟨hs.pool.withThreads _ _ _, hs.waits.erase (fun u hu => Function.update_of_ne hu ..)
        (congrArg Thread.suspended modify_self) (congrArg Thread.timer modify_self)⟩

theorem step_inv (s : MpSys) (e : Event) (hs : Inv s) (he : Enabled s e) :
    Meets (· = .assertion) Inv (step s e) := by
  cases e with
  | alloc t time => exact (finish_block hs he.2 ⟨time, 0⟩).bind fun out hout => hout
  | allocIsr => exact allocIsr_inv hs
  | woken t => exact woken_inv hs he.1 he.2
  | retry t =>
      obtain ⟨⟨w, hw⟩, hrun⟩ := he
      rw [step, hw]
      exact (finish_block hs hrun w).bind fun out hout => hout
  | free block => exact free_inv hs he
  | timeout t => exact timeout_inv hs he.1 he.2
  | tick => exact ⟨hs.pool.withThreads _ _ _, hs.waits⟩
  | write a b =>
      obtain ⟨p, hp, hlo, hhi⟩ := he
      exact ⟨hs.pool.write hp hlo hhi b, hs.waits⟩
  | priority t p =>
      refine ⟨hs.pool.withThreads _ _ _, hs.waits.same (fun u hu => Function.update_of_ne hu ..)
        ?_ ?_⟩
      · show (modify s.pool.threads t _ t).suspended = _
        rw [modify_self]
      · show (modify s.pool.threads t _ t).timer = _
        rw [modify_self]
  | other t x =>
      refine ⟨hs.pool.withThreads _ _ _, hs.waits.change (t := t) ?_ fun u hu =>
        Function.update_of_ne hu ..⟩
      rintro ⟨w, hw⟩
      have hnone : s.phase t = none := he
      rw [hnone] at hw
      cases hw

end Steps

/-! ## Every run -/

theorem Inv.conserved {s : MpSys} (hs : Inv s) : Conserved s :=
  ⟨fun _ hb => hs.pool.geometry.inside hb, blocks_apart, hs.pool.partition⟩

section Main

variable {threads : Threads} {tick : BitVec 32} {mem : Mem} {addr start size blockSize : Word}
  {pool : RtMempool}

theorem boot_inv (hinit : rtMpInit threads tick mem addr start size blockSize = .ok pool)
    (hpool : start.toNat + size.toNat ≤ 2 ^ 64) (hroom : HasRoom size blockSize) :
    Inv (boot pool) := by
  obtain ⟨hgeometry, hchain, hcount, -⟩ := init_spec hinit hpool hroom
  have hlist : pool.suspendThread = [] := by
    obtain ⟨-, rfl⟩ := init_eq hinit
    rfl
  refine ⟨⟨hgeometry, ⟨blocks pool, hchain, ?_, ?_⟩, fun p hp => by cases hp⟩, ?_⟩
  · show pool.blockFreeCount = (blocks pool).length
    rw [hcount, blocks, List.length_range']
  · show ((blocks pool).map (· + 8) ++ []).Perm ((blocks pool).map (· + 8))
    rw [List.append_nil]
  · show WaitsOk pool.threads pool.suspendThread fun _ => none
    rw [hlist]
    refine ⟨Parked.nil ?_, ?_⟩
    · rintro t ⟨w, hw⟩
      cases hw
    · rintro t ⟨w, hw⟩
      cases hw

/-- A pool of which blocks are conserved has room for one. -/
theorem hasRoom_of_conserved
    (hinit : rtMpInit threads tick mem addr start size blockSize = .ok pool)
    (h : Conserved (boot pool)) : HasRoom size blockSize := by
  obtain ⟨hpos, hfirst, hlist, hsize, hblockSize⟩ := init_fields hinit
  obtain ⟨free, hchain, -, hperm⟩ := h.partition
  have hstart : pool.startAddress ∈ blocks pool := by
    cases hcount : pool.blockTotalCount with
    | succ n =>
        rw [blocks, hcount, List.range'_succ]
        exact List.mem_cons_self ..
    | zero =>
        -- the free list is not empty, whatever the number of blocks
        have hnil : blocks pool = [] := by rw [blocks, hcount, List.range'_zero]
        have hperm' : (free.map (· + 8) ++ []).Perm ((blocks pool).map (· + 8)) := hperm
        rw [hnil, List.map_nil, List.append_nil] at hperm'
        have hfree : free = [] := List.map_eq_nil_iff.mp hperm'.eq_nil
        have hzero : pool.blockList = 0 := by
          rw [hfree] at hchain
          exact hchain
        omega
  have hinside : pool.startAddress ≤ pool.startAddress ∧
      pool.startAddress + 8 + pool.blockSize ≤ pool.startAddress + pool.size :=
    h.inside pool.startAddress hstart
  rw [HasRoom, ← hsize, ← hblockSize]
  omega

/-- `rt_mp_init` writes inside the pool, and blocks are conserved from then on. -/
structure Conserves (mem : Mem) (start size : Word) (pool : RtMempool) : Prop where
  init : UnchangedOff (InPool start size) mem pool.mem
  runs : ∀ es, Guarded step Enabled (boot pool) es →
    Meets (· = .assertion) Conserved (run step (boot pool) es)

/-- **Every run.**  Blocks are conserved in every run of a new pool, and `rt_mp_init` writes
inside the pool only, if and only if the pool has room for a block. -/
theorem mempool_conserved (hinit : rtMpInit threads tick mem addr start size blockSize = .ok pool)
    (hpool : start.toNat + size.toNat ≤ 2 ^ 64) :
    Conserves mem start size pool ↔ HasRoom size blockSize := by
  constructor
  · intro h
    exact hasRoom_of_conserved hinit (h.runs [] trivial)
  · intro hroom
    obtain ⟨-, -, -, hunchanged⟩ := init_spec hinit hpool hroom
    exact ⟨hunchanged, fun es hes =>
      (run_meets step_inv (boot_inv hinit hpool hroom) hes).mono fun s hs => hs.conserved⟩

end Main

/-- Threads that run, and memory full of ones. -/
def ready : Threads := fun _ => ⟨false, 10, .eok, false, 0, 0⟩

def ones : Mem := fun _ => 0xff

/-- Two blocks of 8 bytes. -/
theorem mempool_conserved_two : ∃ pool,
    rtMpInit ready 0 ones 0x1000 0x8000 32 8 = .ok pool ∧
      (Conserves ones 0x8000 32 pool ↔ HasRoom 32 8) := by
  have hinit : (rtMpInit ready 0 ones 0x1000 0x8000 32 8).map RtMempool.blockFreeCount = .ok 2 := by
    decide
  obtain ⟨pool, hpool, -⟩ := exists_of_map_eq_ok hinit
  exact ⟨pool, hpool, mempool_conserved hpool (by decide)⟩

/-- A pool that is too small for a block of 16 bytes: `rt_mp_init` writes 24 bytes in front of
it and counts no free block, but the free list has one. -/
theorem small_pool_not_conserved : ∃ pool,
    rtMpInit ready 0 ones 0x1000 0x8000 8 16 = .ok pool ∧
      ¬UnchangedOff (InPool 0x8000 8) ones pool.mem ∧
      pool.blockFreeCount = 0 ∧ pool.blockList = 0x8000 ∧ ¬Conserved (boot pool) := by
  have hinit : (rtMpInit ready 0 ones 0x1000 0x8000 8 16).map
      (fun pool => (pool.mem (0x8000 - 24), pool.blockFreeCount, pool.blockList)) =
      .ok (0, 0, 0x8000) := by decide +kernel
  obtain ⟨pool, hpool, hread⟩ := exists_of_map_eq_ok hinit
  simp only [Prod.mk.injEq] at hread
  obtain ⟨hbyte, hcount, hlist⟩ := hread
  refine ⟨pool, hpool, fun hunchanged => ?_, hcount, hlist, fun hconserved => ?_⟩
  · have hsame := hunchanged (0x8000 - 24) (by rintro ⟨hlo, -⟩; revert hlo; decide)
    rw [hbyte] at hsame
    revert hsame
    decide
  · have hroom : HasRoom 8 16 := hasRoom_of_conserved hpool hconserved
    revert hroom
    rw [HasRoom]
    decide

end RtHypervisor.Ports.Mempool
