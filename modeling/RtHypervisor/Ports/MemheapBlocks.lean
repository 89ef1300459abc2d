import RtHypervisor.Ports.Memheap

/-!
# The two rings of a memory heap

`Blocks m bs tail` says that the blocks `bs` tile the pool up to the tail header, that the headers
are linked to a ring in this order, and that each header is marked as its block is.  Splitting a
block (`Blocks.link`), merging two (`Blocks.unlink`) and marking one (`Blocks.mark`) keep it.
`FreeRing m fl` says the same of the free list, which is independent of it.
-/

namespace RtHypervisor.Ports.Memheap

open RtHypervisor.Verified
open RtHypervisor.Verified.LinkedRing

/-- A block of the pool: the address of its header and the size of its data. -/
structure Block where
  addr : Nat
  size : Nat
  used : Bool

/-- The blocks lie one behind the other from `o` to the tail. -/
def Tiles : Nat → List Block → Nat → Prop
  | o, [], tail => o = tail
  | o, b :: bs, tail => b.addr = o ∧ Tiles (o + memheapSize + b.size) bs tail

def addrs (bs : List Block) (tail : Nat) : List Nat := bs.map Block.addr ++ [tail]

/-- The mark of a header. -/
def tag (used : Bool) : BitVec 32 :=
  memheapMagic ||| if used then memheapUsed else memheapFreed

structure Blocks (m : RtMemheap) (bs : List Block) (tail : Nat) : Prop where
  tiles : Tiles m.startAddr bs tail
  ring : Ring m.next m.prev (addrs bs tail)
  tags : ∀ b ∈ bs, m.magic b.addr = tag b.used
  tailTag : m.magic tail = tag true
  pools : ∀ b ∈ bs, m.poolPtr b.addr = m.self

/-! ## Tiles -/

section Tiles

variable {bs cs pre post : List Block} {b c : Block} {o tail x : Nat}

private theorem tiles_append :
    Tiles o (bs ++ cs) tail ↔ ∃ mid, Tiles o bs mid ∧ Tiles mid cs tail := by
  induction bs generalizing o with
  | nil => exact ⟨fun h => ⟨o, rfl, h⟩, fun ⟨mid, hmid, h⟩ => by rwa [← hmid] at h⟩
  | cons b bs ih =>
      constructor
      · rintro ⟨hb, h⟩
        obtain ⟨mid, hbs, hcs⟩ := ih.mp h
        exact ⟨mid, ⟨hb, hbs⟩, hcs⟩
      · rintro ⟨mid, ⟨hb, hbs⟩, hcs⟩
        exact ⟨hb, ih.mpr ⟨mid, hbs, hcs⟩⟩

theorem Tiles.le (h : Tiles o bs tail) : o ≤ tail := by
  induction bs generalizing o with
  | nil => exact h.le
  | cons b bs ih =>
      have hle := ih h.2
      omega

/-- A block ends before the tail. -/
theorem Tiles.bounds (h : Tiles o bs tail) (hb : b ∈ bs) :
    o ≤ b.addr ∧ b.addr + memheapSize + b.size ≤ tail := by
  induction bs generalizing o with
  | nil => cases hb
  | cons c bs ih =>
      rcases List.mem_cons.mp hb with rfl | hb
      · have hle := h.2.le
        have haddr := h.1
        omega
      · have hbounds := ih h.2 hb
        omega

theorem Tiles.first (h : Tiles o bs tail) : ∃ rest, addrs bs tail = o :: rest := by
  cases bs with
  | nil => exact ⟨[], by rw [h]; rfl⟩
  | cons b bs => exact ⟨addrs bs tail, by rw [← h.1]; rfl⟩

/-- What lies around a block. -/
theorem Tiles.around (h : Tiles o (pre ++ b :: post) tail) :
    Tiles o pre b.addr ∧ Tiles (b.addr + memheapSize + b.size) post tail := by
  obtain ⟨mid, hpre, hb, hpost⟩ := tiles_append.mp h
  rw [hb]
  exact ⟨hpre, hpost⟩

/-- No header lies in the data of a block. -/
theorem Tiles.not_mem (h : Tiles o (pre ++ b :: post) tail) (hlo : b.addr < x)
    (hhi : x < b.addr + memheapSize + b.size) : x ∉ addrs (pre ++ b :: post) tail := by
  obtain ⟨hpre, hpost⟩ := h.around
  have htail := hpost.le
  intro hx
  rcases List.mem_append.mp hx with hx | hx
  · obtain ⟨c, hc, rfl⟩ := List.mem_map.mp hx
    rcases List.mem_append.mp hc with hc | hc
    · have hbound := hpre.bounds hc
      omega
    · rcases List.mem_cons.mp hc with rfl | hc
      · omega
      · have hbound := hpost.bounds hc
        omega
  · rw [List.mem_singleton] at hx
    omega

end Tiles

/-! ## The block list -/

section Blocks

variable {m m' : RtMemheap} {bs pre post : List Block} {b c : Block} {tail new : Nat} {n : Nat}

private theorem isUsed_iff {item : Nat} {used : Bool} (h : m.magic item = tag used) :
    isUsed m item = used := by
  rw [isUsed, h]
  cases used with
  | false => decide
  | true => decide

/-- The block list does not depend on the free list and the counters. -/
theorem Blocks.congr (h : Blocks m bs tail) (hstart : m'.startAddr = m.startAddr)
    (hself : m'.self = m.self) (hmagic : m'.magic = m.magic) (hpool : m'.poolPtr = m.poolPtr)
    (hnext : m'.next = m.next) (hprev : m'.prev = m.prev) : Blocks m' bs tail where
  tiles := by rw [hstart]; exact h.tiles
  ring := by rw [hnext, hprev]; exact h.ring
  tags := by rw [hmagic]; exact h.tags
  tailTag := by rw [hmagic]; exact h.tailTag
  pools := by rw [hpool, hself]; exact h.pools

/-- The ring, read from a block. -/
theorem Blocks.ring_at (h : Blocks m (pre ++ b :: post) tail) :
    Ring m.next m.prev (b.addr :: (addrs post tail ++ pre.map Block.addr)) := by
  have hring := h.ring
  have hsplit : addrs (pre ++ b :: post) tail =
      pre.map Block.addr ++ (b.addr :: addrs post tail) := by
    simp [addrs]
  rw [hsplit] at hring
  exact hring.rotate

theorem Blocks.next_eq (h : Blocks m (pre ++ b :: post) tail) :
    m.next b.addr = b.addr + memheapSize + b.size := by
  obtain ⟨rest, hrest⟩ := h.tiles.around.2.first
  have hring := h.ring_at
  rw [hrest] at hring
  exact hring.next_eq

theorem mem_behind : c ∈ pre ++ b :: c :: post :=
  List.mem_append_right _ (List.mem_cons_of_mem b (List.mem_cons_self ..))

theorem Blocks.nodup (h : Blocks m bs tail) : (addrs bs tail).Nodup := h.ring.nodup

theorem Blocks.isUsed_eq (h : Blocks m bs tail) (hb : b ∈ bs) : isUsed m b.addr = b.used :=
  isUsed_iff (h.tags b hb)

theorem Blocks.isUsed_tail (h : Blocks m bs tail) : isUsed m tail = true :=
  isUsed_iff h.tailTag

/-- A block is split in two. -/
theorem Blocks.link (h : Blocks m (pre ++ b :: post) tail) (hroom : n + memheapSize ≤ b.size) :
    Blocks (linkBlock m b.addr (b.addr + memheapSize + n))
      (pre ++ { b with size := n } ::
        ⟨b.addr + memheapSize + n, b.size - memheapSize - n, false⟩ :: post) tail := by
  have hpos : 0 < memheapSize := by decide
  have hnew : b.addr + memheapSize + n ∉ addrs (pre ++ b :: post) tail :=
    h.tiles.not_mem (by omega) (by omega)
  have hne : b.addr ≠ b.addr + memheapSize + n := by omega
  have hmem : ∀ c ∈ pre ++ b :: post, c.addr ≠ b.addr + memheapSize + n := fun c hc heq =>
    hnew (heq ▸ List.mem_append_left _ (List.mem_map_of_mem hc))
  have htail : tail ≠ b.addr + memheapSize + n := fun heq =>
    hnew (heq ▸ List.mem_append_right _ (List.mem_singleton_self _))
  have htags : ∀ c ∈ pre ++ b :: post,
      Function.update m.magic (b.addr + memheapSize + n) (tag false) c.addr = tag c.used :=
    fun c hc => by
      rw [Function.update_of_ne (hmem c hc)]
      exact h.tags c hc
  have hpools : ∀ c ∈ pre ++ b :: post,
      Function.update m.poolPtr (b.addr + memheapSize + n) m.self c.addr = m.self :=
    fun c hc => by
      rw [Function.update_of_ne (hmem c hc)]
      exact h.pools c hc
  constructor
  · obtain ⟨hpre, hpost⟩ := h.tiles.around
    refine tiles_append.mpr ⟨b.addr, hpre, rfl, rfl, ?_⟩
    have hend : b.addr + memheapSize + n + memheapSize + (b.size - memheapSize - n) =
        b.addr + memheapSize + b.size := by omega
    rw [hend]
    exact hpost
  · have hring := h.ring
    have hsplit : addrs (pre ++ b :: post) tail =
        pre.map Block.addr ++ b.addr :: addrs post tail := by
      simp [addrs]
    rw [hsplit] at hring hnew
    have hput := hring.insert hnew
    simp only [linkBlock, setMagic]
    rw [Function.update_of_ne hne]
    simpa [addrs] using hput
  · intro c hc
    rcases List.mem_append.mp hc with hc | hc
    · exact htags c (List.mem_append_left _ hc)
    · rcases List.mem_cons.mp hc with rfl | hc
      · exact htags b List.mem_append_cons_self
      · rcases List.mem_cons.mp hc with rfl | hc
        · exact Function.update_self ..
        · exact htags c (List.mem_append_right _ (List.mem_cons_of_mem _ hc))
  · simp only [linkBlock, setMagic]
    rw [Function.update_of_ne htail]
    exact h.tailTag
  · intro c hc
    rcases List.mem_append.mp hc with hc | hc
    · exact hpools c (List.mem_append_left _ hc)
    · rcases List.mem_cons.mp hc with rfl | hc
      · exact hpools b List.mem_append_cons_self
      · rcases List.mem_cons.mp hc with rfl | hc
        · exact Function.update_self ..
        · exact hpools c (List.mem_append_right _ (List.mem_cons_of_mem _ hc))

/-- Two blocks are merged. -/
theorem Blocks.unlink (h : Blocks m (pre ++ b :: c :: post) tail) :
    Blocks (unlinkBlock m c.addr)
      (pre ++ { b with size := b.size + memheapSize + c.size } :: post) tail := by
  have hsub : ∀ d ∈ pre ++ b :: post, d ∈ pre ++ b :: c :: post := fun d hd => by
    rcases List.mem_append.mp hd with hd | hd
    · exact List.mem_append_left _ hd
    · rcases List.mem_cons.mp hd with rfl | hd
      · exact List.mem_append_cons_self
      · exact List.mem_append_right _ (List.mem_cons_of_mem _ (List.mem_cons_of_mem _ hd))
  have hchanged : ∀ {P : Nat → Bool → Prop}, (∀ d ∈ pre ++ b :: c :: post, P d.addr d.used) →
      ∀ d ∈ pre ++ { b with size := b.size + memheapSize + c.size } :: post,
        P d.addr d.used := by
    intro P hP d hd
    rcases List.mem_append.mp hd with hd | hd
    · exact hP d (hsub d (List.mem_append_left _ hd))
    · rcases List.mem_cons.mp hd with rfl | hd
      · exact hP b (hsub b List.mem_append_cons_self)
      · exact hP d (hsub d (List.mem_append_right _ (List.mem_cons_of_mem _ hd)))
  constructor
  · obtain ⟨hpre, hpost⟩ := h.tiles.around
    refine tiles_append.mpr ⟨b.addr, hpre, rfl, ?_⟩
    have hend : b.addr + memheapSize + (b.size + memheapSize + c.size) =
        b.addr + memheapSize + b.size + memheapSize + c.size := by omega
    rw [hend]
    exact hpost.2
  · have hring := h.ring
    have hsplit : addrs (pre ++ b :: c :: post) tail =
        (pre.map Block.addr ++ [b.addr]) ++ c.addr :: addrs post tail := by
      simp [addrs]
    rw [hsplit] at hring
    have htaken := hring.remove (by simp)
    have hself : Function.update m.prev (m.next c.addr) (m.prev c.addr) c.addr =
        m.prev c.addr := by
      by_cases heq : c.addr = m.next c.addr
      · rw [← heq, Function.update_self]
      · rw [Function.update_of_ne heq]
    simp only [unlinkBlock]
    rw [hself]
    simpa [addrs] using htaken
  · exact hchanged (P := fun a used => m.magic a = tag used) h.tags
  · exact h.tailTag
  · exact hchanged (P := fun a _ => m.poolPtr a = m.self) h.pools

/-- A block is marked. -/
theorem Blocks.mark (h : Blocks m (pre ++ b :: post) tail) (used : Bool) :
    Blocks (setMagic m b.addr (if used then memheapUsed else memheapFreed))
      (pre ++ { b with used } :: post) tail := by
  have hnodup : (b.addr :: (addrs post tail ++ pre.map Block.addr)).Nodup := h.ring_at.nodup
  have hother : ∀ a ∈ addrs post tail ++ pre.map Block.addr, a ≠ b.addr := fun a ha heq =>
    (List.nodup_cons.mp hnodup).1 (heq ▸ ha)
  constructor
  · obtain ⟨hpre, hpost⟩ := h.tiles.around
    exact tiles_append.mpr ⟨b.addr, hpre, rfl, hpost⟩
  · have hring := h.ring
    simpa [addrs, setMagic] using hring
  · intro c hc
    rcases List.mem_append.mp hc with hmem | hmem
    · have hne := hother c.addr (List.mem_append_right _ (List.mem_map_of_mem hmem))
      exact (Function.update_of_ne hne ..).trans (h.tags c (List.mem_append_left _ hmem))
    · rcases List.mem_cons.mp hmem with rfl | hmem
      · exact Function.update_self ..
      · have hne := hother c.addr
          (List.mem_append_left _ (List.mem_append_left _ (List.mem_map_of_mem hmem)))
        exact (Function.update_of_ne hne ..).trans
          (h.tags c (List.mem_append_right _ (List.mem_cons_of_mem _ hmem)))
  · have hne := hother tail
      (List.mem_append_left _ (List.mem_append_right _ (List.mem_singleton_self _)))
    exact (Function.update_of_ne hne ..).trans h.tailTag
  · intro c hc
    rcases List.mem_append.mp hc with hmem | hmem
    · exact h.pools c (List.mem_append_left _ hmem)
    · rcases List.mem_cons.mp hmem with rfl | hmem
      · exact h.pools b List.mem_append_cons_self
      · exact h.pools c (List.mem_append_right _ (List.mem_cons_of_mem _ hmem))

end Blocks

/-! ## The free list -/

/-- The free list, from its head. -/
def FreeRing (m : RtMemheap) (fl : List Nat) : Prop :=
  Ring m.nextFree m.prevFree (m.freeList :: fl)

section FreeRing

variable {m : RtMemheap} {fl pre post : List Nat} {a new : Nat}

/-- The free list does not depend on the block list and the counters. -/
theorem FreeRing.congr {m' : RtMemheap} (h : FreeRing m fl) (hlist : m'.freeList = m.freeList)
    (hnext : m'.nextFree = m.nextFree) (hprev : m'.prevFree = m.prevFree) : FreeRing m' fl := by
  unfold FreeRing
  rw [hlist, hnext, hprev]
  exact h

theorem FreeRing.link (h : FreeRing m fl) (hnew : new ∉ m.freeList :: fl) :
    FreeRing (linkFree m new) (new :: fl) := by
  have hne : m.freeList ≠ new := fun heq => hnew (heq ▸ List.mem_cons_self ..)
  have hput := Ring.insert_head h hnew
  simp only [FreeRing, linkFree]
  rwa [Function.update_of_ne hne]

theorem FreeRing.unlink (h : FreeRing m (pre ++ a :: post)) :
    FreeRing (unlinkFree m a) (pre ++ post) := by
  have hring : Ring m.nextFree m.prevFree ((m.freeList :: pre) ++ a :: post) := h
  have htaken := hring.remove (List.cons_ne_nil _ _)
  have hself : Function.update m.prevFree (m.nextFree a) (m.prevFree a) a = m.prevFree a := by
    by_cases heq : a = m.nextFree a
    · rw [← heq, Function.update_self]
    · rw [Function.update_of_ne heq]
  simp only [FreeRing, unlinkFree]
  rw [hself]
  exact htaken

theorem FreeRing.clear (h : FreeRing m fl) (ha : a ∉ m.freeList :: fl) :
    FreeRing (clearFree m a) fl := by
  have hne : ∀ c ∈ m.freeList :: fl, c ≠ a := fun c hc heq => ha (heq ▸ hc)
  exact Ring.congr h (fun c hc => Function.update_of_ne (hne c hc) ..)
    fun c hc => Function.update_of_ne (hne c hc) ..

/-- The first of the free list, or its head, and what is before it. -/
theorem FreeRing.first (h : FreeRing m fl) :
    m.nextFree m.freeList ∈ m.freeList :: fl ∧
      m.prevFree (m.nextFree m.freeList) = m.freeList := by
  cases fl with
  | nil =>
      have hlink := (List.isChain_cons_cons.mp h.2).1
      rw [hlink.1]
      exact ⟨List.mem_cons_self .., hlink.2⟩
  | cons b fl =>
      have hlink := (List.isChain_cons_cons.mp h.2).1
      rw [hlink.1]
      exact ⟨List.mem_cons_of_mem _ (List.mem_cons_self ..), hlink.2⟩

/-- `rt_memheap_free` inserts where the others do. -/
theorem FreeRing.insertHeader_eq (h : FreeRing m fl) (hnew : new ∉ m.freeList :: fl) :
    insertHeader m new = linkFree m new := by
  obtain ⟨hmem, hback⟩ := h.first
  have hne : m.nextFree m.freeList ≠ new := fun heq => hnew (heq ▸ hmem)
  have hhead : m.freeList ≠ new := fun heq => hnew (heq ▸ List.mem_cons_self ..)
  simp only [insertHeader, linkFree, hback, Function.update_of_ne hne, Function.update_of_ne hhead]

end FreeRing

end RtHypervisor.Ports.Memheap
