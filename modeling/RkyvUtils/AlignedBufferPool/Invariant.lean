import RkyvUtils.Lib.SlotTable
import RkyvUtils.AlignedBuffer.SharedSpec
import RkyvUtils.AlignedBufferPool.BufferPool

/-!
# `AlignedBufferPool.Invariant` — who owns which block

Every handle has at most one stake in a block. It is the *sole* owner (a unique buffer, a handle whose
`fetch_sub` was the last, a queued buffer), or one of those who *refer* to it and are counted in its
header (a shared buffer, a handle about to do its `fetch_sub`). The invariant is one equation for every
block: the number of sole owners, plus 1 if anyone refers to it, is 1 for an allocated block and 0 for
every other. Around it stand what each handle knows of its own block (`SlotOk`, which nobody else can
break), that the count in the header is the number of references, and what the queues and the strong
count satisfy.
-/

namespace RkyvUtils

open Word Ownership SlotTable

def Block.Live (blk : Block) : Prop := blk.status = .allocated

def Block.Dead (blk : Block) : Prop := blk.status = .deallocated

instance : DecidablePred Block.Live := fun blk => inferInstanceAs (Decidable (blk.status = _))

instance : DecidablePred Block.Dead := fun blk => inferInstanceAs (Decidable (blk.status = _))

/-- 1 if block `b` is allocated. -/
def Heap.alive (h : Heap) (b : BlockId) : Nat := mark Block.Live h.blocks b

/-- 1 if block `b` was deallocated. -/
def Heap.dead (h : Heap) (b : BlockId) : Nat := mark Block.Dead h.blocks b

namespace BufferPool

open UniqueAlignedBuffer RawAlignedBuffer

/-! ## Stakes -/

/-- The block a handle refers to and is counted for. -/
def Slot.ref : Slot → Option BlockId
  | .shared this => this.buf.buf.prov
  | .releasing this .fetchSub _ => this.buf.prov
  | _ => none

/-- The block a handle is the sole owner of. -/
def Slot.sole : Slot → Option BlockId
  | .unique this => this.buf.buf.prov
  | .releasing this .load _ | .releasing this .store _ => this.buf.prov
  | .releasing _ (.call raw) _ | .releasing _ (.dealloc raw) _ => raw.buf.prov
  | .releasing _ (.push _ raw) _ | .releasing _ (.reject raw) _ => raw.buf.prov
  | _ => none

/-- 1 for a handle that holds an upgraded reference to the pool. -/
def Slot.upgraded : Slot → Nat
  | .releasing _ (.push _ _) _ | .releasing _ (.reject _) _ | .releasing _ .unref _ => 1
  | _ => 0

namespace State

/-- How many handles refer to block `b`. -/
def refs (s : State) (b : BlockId) : Nat := total (fun slot => hit slot.ref b) s.slots

/-- How many queued buffers are on block `b`. -/
def queued (s : State) (b : BlockId) : Nat :=
  total (total (fun this => hit this.buf.buf.prov b)) s.queues

/-- How many sole owners block `b` has. -/
def soles (s : State) (b : BlockId) : Nat :=
  total (fun slot => hit slot.sole b) s.slots + s.queued b

def upgrades (s : State) : Nat := total Slot.upgraded s.slots

variable {s : State} {i : Nat} {slot slot' : Slot}

theorem refs_setSlot (slot' : Slot) (hi : s.slots[i]? = some slot) (b : BlockId) :
    (s.setSlot i slot').refs b + hit slot.ref b = s.refs b + hit slot'.ref b := total_set hi _

theorem soles_setSlot (slot' : Slot) (hi : s.slots[i]? = some slot) (b : BlockId) :
    (s.setSlot i slot').soles b + hit slot.sole b = s.soles b + hit slot'.sole b := by
  have := total_set (f := fun slot => hit slot.sole b) hi slot'
  show total _ (s.slots.set i slot') + s.queued b + _ = total _ s.slots + s.queued b + _
  omega

theorem upgrades_setSlot (slot' : Slot) (hi : s.slots[i]? = some slot) :
    (s.setSlot i slot').upgrades + slot.upgraded = s.upgrades + slot'.upgraded := total_set hi _

theorem refs_addSlot (b : BlockId) : (s.addSlot slot).refs b = s.refs b + hit slot.ref b := by
  simp [refs, addSlot]

theorem soles_addSlot (b : BlockId) : (s.addSlot slot).soles b = s.soles b + hit slot.sole b := by
  simp only [soles, queued, addSlot, total_append, total_cons, total_nil]; omega

theorem upgrades_addSlot : (s.addSlot slot).upgrades = s.upgrades + slot.upgraded := by
  simp [upgrades, addSlot]

end State

/-! ## What a handle knows of its block -/

/-- A handle to a block whose count is whatever it is, with the value `v` in the tagged word; or a handle
    without a block. -/
inductive Grips (p : Params) (h : Heap) :
    RawAlignedBuffer Home → Nat → List (Option UInt8) → Prop
  | empty (alloc : Home) : Grips p h (newIn alloc) 0 []
  | block {b : BlockId} {blk : Block} {rc v : Nat} (alloc : Home)
      (hb : h.blocks[b]? = some (blk.counted rc)) (ok : blk.Ok p) (hv : v ≤ blk.data.length) :
      Grips p h (onBlock p blk b v alloc) v blk.data

/-- A shared buffer shows the bytes `xs`. -/
structure Shows (p : Params) (h : Heap) (this : SharedAlignedBuffer Home) (xs : List UInt8)
    (data : List (Option UInt8)) : Prop where
  grips : Grips p h this.buf xs.length data
  bytes : data.take xs.length = xs.map some

/-- A block in the hands of one owner that is giving it up, with reference count `rc`. -/
def Held (p : Params) (h : Heap) (this : RawAlignedBuffer Home) (rc : Nat) : Prop :=
  ∃ (b : BlockId) (blk : Block) (v : Nat) (alloc : Home), this = onBlock p blk b v alloc ∧
    h.blocks[b]? = some (blk.counted rc) ∧ blk.Ok p ∧ v ≤ blk.data.length

/-- The argument of `deallocate_buffer`: the block's data pointer and its capacity, the same as in the
    header, where the count is 1. -/
def Given (p : Params) (h : Heap) (raw : RawBuffer) : Prop :=
  ∃ (b : BlockId) (blk : Block), raw = ⟨blk.dataPtr p b, .pack p.toTarget blk.data.length true⟩ ∧
    h.blocks[b]? = some (blk.counted 1) ∧ blk.Ok p

/-- The allocator of the buffer is one of the pool's, if any. -/
def HomeOk (cfg : Config) : Home → Prop
  | .global => True
  | .pool queue => queue < cfg.queues

/-- What a handle in the middle of giving up its block knows. -/
def PcOk (p : Params) (cfg : Config) (h : Heap) (this : RawAlignedBuffer Home) : Pc → Prop
  | .fetchSub => ∃ v data, Grips p h this v data
  | .load | .store => Held p h this 0
  | .call raw => Given p h raw
  | .dealloc raw | .reject raw => Given p h raw ∧ cfg.queues ≠ 0
  | .push queue raw =>
      Given p h raw ∧ queue < cfg.queues ∧ cfg.policy (raw.cap.value p.toTarget) = true
  | .unref => True

def SlotOk (p : Params) (cfg : Config) (h : Heap) : Slot → Prop
  | .unique this => (∃ o xs data, Stores p h this o xs data) ∧ HomeOk cfg this.buf.alloc
  | .shared this => (∃ xs data, Shows p h this xs data) ∧ HomeOk cfg this.buf.alloc
  | .releasing this pc after =>
      PcOk p cfg h this pc ∧ HomeOk cfg this.alloc ∧ ∀ len, after = .emptied len → len = 0
  | .gone => True

/-- A buffer in queue `queue`: length 0, count 1, the capacity of the header in the tagged word, and
    accepted by the policy. -/
structure Queued (p : Params) (cfg : Config) (h : Heap) (queue : Nat)
    (this : UniqueAlignedBuffer Home) : Prop where
  len : this.len = 0
  alloc : this.buf.alloc = .pool queue
  given : Given p h this.buf.rawBuffer
  policy : cfg.policy (this.capacity p) = true

/-- **The invariant.** -/
structure Inv (p : Params) (cfg : Config) (s : State) : Prop where
  slots : ∀ (i : Nat) (slot : Slot), s.slots[i]? = some slot → SlotOk p cfg s.heap slot
  queues_length : s.queues.length = cfg.queues
  queue_le : ∀ (q : Nat) (entries : List (UniqueAlignedBuffer Home)),
    s.queues[q]? = some entries → entries.length ≤ cfg.capacity
  queues : ∀ (q : Nat) (entries : List (UniqueAlignedBuffer Home)),
    s.queues[q]? = some entries → ∀ this ∈ entries, Queued p cfg s.heap q this
  own : ∀ b, s.soles b + min 1 (s.refs b) = s.heap.alive b
  counted : ∀ (b : BlockId) (blk : Block), s.heap.blocks[b]? = some blk → 0 < s.refs b →
    blk.header = some ⟨s.refs b, blk.data.length⟩
  bound : ∀ b, s.refs b ≤ p.half
  strong : s.strong = s.handle.toNat + s.upgrades
  drained : s.strong = 0 → ∀ (q : Nat) (entries : List (UniqueAlignedBuffer Home)),
    s.queues[q]? = some entries → entries = []
  given : cfg.queues = 0 → ∀ b, s.given.count b = s.heap.dead b

/-! ## Nobody else can break what a handle knows -/

/-- What the steps of other handles leave of the block a handle has a stake in: the block itself for its
    sole owner, the block up to its count for those who refer to it. -/
structure Kept (h h' : Heap) (slot : Slot) : Prop where
  sole : ∀ b, slot.sole = some b → h'.blocks[b]? = h.blocks[b]?
  ref : ∀ b, slot.ref = some b → h'.blocks[b]? = h.blocks[b]? ∨
    ∃ blk rc, h.blocks[b]? = some blk ∧ h'.blocks[b]? = some (blk.counted rc)

theorem Kept.refl (h : Heap) (slot : Slot) : Kept h h slot := ⟨fun _ _ => rfl, fun _ _ => Or.inl rfl⟩

variable {p : Params} {cfg : Config} {h h' : Heap}

/-- A handle still grips its block after a change of the count. -/
theorem Grips.kept {this : RawAlignedBuffer Home} {v : Nat} {data : List (Option UInt8)}
    (hg : Grips p h this v data)
    (hk : ∀ b, this.buf.prov = some b → h'.blocks[b]? = h.blocks[b]? ∨
      ∃ blk rc, h.blocks[b]? = some blk ∧ h'.blocks[b]? = some (blk.counted rc)) :
    Grips p h' this v data := by
  cases hg with
  | empty alloc => exact .empty alloc
  | @block b blk rc v alloc hb ok hv =>
      rcases hk b rfl with hk | ⟨blk', rc', hb', hk⟩
      · exact .block alloc (hk.trans hb) ok hv
      · rw [hb] at hb'
        cases hb'
        exact .block alloc (show h'.blocks[b]? = some (blk.counted rc') from hk) ok hv

theorem Held.kept {this : RawAlignedBuffer Home} {rc : Nat} (hh : Held p h this rc)
    (hk : ∀ b, this.buf.prov = some b → h'.blocks[b]? = h.blocks[b]?) : Held p h' this rc := by
  obtain ⟨b, blk, v, alloc, rfl, hb, ok, hv⟩ := hh
  exact ⟨b, blk, v, alloc, rfl, (hk b rfl).trans hb, ok, hv⟩

theorem Given.kept {raw : RawBuffer} (hg : Given p h raw)
    (hk : ∀ b, raw.buf.prov = some b → h'.blocks[b]? = h.blocks[b]?) : Given p h' raw := by
  obtain ⟨b, blk, rfl, hb, ok⟩ := hg
  exact ⟨b, blk, rfl, (hk b rfl).trans hb, ok⟩

theorem Queued.kept {queue : Nat} {this : UniqueAlignedBuffer Home} (hq : Queued p cfg h queue this)
    (hk : ∀ b, this.buf.buf.prov = some b → h'.blocks[b]? = h.blocks[b]?) :
    Queued p cfg h' queue this := ⟨hq.len, hq.alloc, hq.given.kept hk, hq.policy⟩

/-- **What a handle knows is stable** under everything `Kept` allows. -/
theorem SlotOk.kept {slot : Slot} (hok : SlotOk p cfg h slot) (hk : Kept h h' slot) :
    SlotOk p cfg h' slot := by
  cases slot with
  | unique this =>
      obtain ⟨⟨o, xs, data, hs⟩, hhome⟩ := hok
      refine ⟨⟨o, xs, data, hs.congr (fun b hb => hk.sole b ?_)⟩, hhome⟩
      rw [← hb]
      exact hs.holds.prov_eq
  | shared this =>
      obtain ⟨⟨xs, data, hs⟩, hhome⟩ := hok
      exact ⟨⟨xs, data, hs.grips.kept hk.ref, hs.bytes⟩, hhome⟩
  | releasing this pc after =>
      obtain ⟨hpc, hrest⟩ := hok
      refine ⟨?_, hrest⟩
      cases pc with
      | fetchSub =>
          obtain ⟨v, data, hg⟩ := hpc
          exact ⟨v, data, hg.kept hk.ref⟩
      | load | store => exact Held.kept hpc hk.sole
      | call raw => exact Given.kept hpc hk.sole
      | dealloc raw | reject raw | push queue raw => exact ⟨hpc.1.kept hk.sole, hpc.2⟩
      | unref => trivial
  | gone => trivial

end BufferPool

end RkyvUtils
