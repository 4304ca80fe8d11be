import RkyvUtils.Lib.Run
import RkyvUtils.AlignedBuffer.Shared
import RkyvUtils.AlignedBufferPool.Scratch

/-!
# `AlignedBufferPool.BufferPool` — buffers, handles and pools as one system

The state is the heap, the table of all handles ever made (a handle keeps its place in the table when it
is given up; converting a buffer makes a new handle), and the pool behind one `Arc`: its queues, its
strong count, and whether the owner still has it. An action names a handle and what is done to it. What
a caller does with a unique buffer is one step; giving a handle up is several, one for every atomic
operation and every allocator call of `RawAlignedBuffer::drop` and
`BufferPoolAllocator::deallocate_buffer`, so the steps of different handles interleave in every order.

A panic unwinds one caller and the others go on; an abort (`allocError`, `refcountAbort`) stops the
system. The number of queues is a parameter: none for the buffers of `aligned-buffer` alone, one for an
`AlignedBufferPool`, two for a `SerializerPool`.
-/

namespace RkyvUtils

/-- The `alloc` field of a buffer: `Global`, or the `BufferPoolAllocator` of a queue. -/
inductive Home where
  | global
  | pool (queue : Nat)
deriving DecidableEq, Repr

/-- A clone of a `BufferPoolAllocator` holds a weak reference to the pool; `Global` holds nothing. -/
def Home.weight : Home → Nat
  | .global => 0
  | .pool _ => 1

namespace BufferPool

open Run

/-- The parameters of a pool. -/
structure Config where
  /-- how many `AlignedBufferPoolInner`s the `Arc` holds -/
  queues : Nat
  /-- the capacity of each `ArrayQueue` -/
  capacity : Nat
  /-- `should_retain` -/
  policy : Nat → Bool

/-- Where a handle is in giving up its block. -/
inductive Pc where
  /-- `RawAlignedBuffer::drop`, from the start to `fetch_sub` -/
  | fetchSub
  /-- the last reference: `ref_count.load` -/
  | load
  /-- `ref_count.store(1)` and the read of the capacity from the header -/
  | store
  /-- `deallocate_buffer(raw)` is called -/
  | call (raw : RawBuffer)
  /-- the guard is dropped: `alloc_info` and `deallocate` -/
  | dealloc (raw : RawBuffer)
  /-- the closure of `with` runs under an upgraded reference: the buffer goes to the queue -/
  | push (queue : Nat) (raw : RawBuffer)
  /-- the queue was full: the guard is dropped inside the closure -/
  | reject (raw : RawBuffer)
  /-- the upgraded reference is dropped -/
  | unref
deriving DecidableEq, Repr

/-- What is left when the block is given up: nothing, or the buffer after a shrink to capacity 0. -/
inductive After where
  | dropped
  | emptied (len : Nat)
deriving DecidableEq, Repr

inductive Slot where
  | unique (this : UniqueAlignedBuffer Home)
  | shared (this : SharedAlignedBuffer Home)
  | releasing (this : RawAlignedBuffer Home) (pc : Pc) (after : After)
  | gone
deriving DecidableEq, Repr

structure State where
  heap : Heap
  slots : List Slot
  /-- the `ArrayQueue`s, first in first out -/
  queues : List (List (UniqueAlignedBuffer Home))
  /-- the owner has not dropped the pool -/
  handle : Bool
  /-- the strong count of the `Arc` -/
  strong : Nat
  /-- the blocks passed to `deallocate_buffer`, one entry a call -/
  given : List BlockId
  /-- how many `BufferPoolAllocator`s were made, and how many dropped -/
  allocMade : Nat
  allocDropped : Nat
deriving DecidableEq, Repr

namespace State

/-- A new pool, and no buffer yet. Each `AlignedBufferPoolInner` has an allocator of its own. -/
def init (cfg : Config) : State :=
  ⟨Heap.empty, [], List.replicate cfg.queues [], true, 1, [], cfg.queues, 0⟩

def setSlot (s : State) (i : Nat) (slot : Slot) : State := { s with slots := s.slots.set i slot }

def addSlot (s : State) (slot : Slot) : State := { s with slots := s.slots ++ [slot] }

end State

inductive Action where
  /-- `UniqueAlignedBuffer::new` -/
  | new
  /-- `UniqueAlignedBuffer::with_capacity` -/
  | withCapacity (capacity : Nat)
  /-- `AlignedBufferPoolInner::get` -/
  | get (queue : Nat)
  /-- any operation on a unique buffer -/
  | mutate (i : Nat) (op : BufferOp)
  | intoShared (i : Nat)
  | clone (i : Nat)
  | tryUnique (i : Nat)
  /-- `as_slice` -/
  | read (i : Nat)
  /-- the start of a drop -/
  | drop (i : Nat)
  /-- the next step of a handle that is being given up -/
  | advance (i : Nat)
  /-- the owner drops the pool -/
  | dropPool
deriving DecidableEq, Repr

variable {p : Params} (A : Allocator p.toTarget) (cfg : Config)

/-- The handle once its block is given up. -/
def finishSlot (this : RawAlignedBuffer Home) : After → Slot
  | .dropped => .gone
  | .emptied len => .unique ⟨{ this with buf := .dangling, capOrLen := .zero }, len⟩

/-- The end of giving up a block. The allocator is dropped with the buffer. -/
def finish (s : State) (i : Nat) (this : RawAlignedBuffer Home) (after : After) : State :=
  let dropped := if after = .dropped then this.alloc.weight else 0
  { s with allocDropped := s.allocDropped + dropped }.setSlot i (finishSlot this after)

/-- The drop of the pool's contents: every queued buffer is dropped, and the allocator of each queue. -/
def dropInner (s : State) : State :=
  { s with
    slots := s.slots ++ s.queues.flatten.map (fun this => .releasing this.buf .fetchSub .dropped)
    queues := s.queues.map (fun _ => [])
    allocDropped := s.allocDropped + cfg.queues }

/-- The drop of one strong reference. -/
def releaseStrong (s : State) : State :=
  let s := { s with strong := s.strong - 1 }
  if s.strong = 0 then dropInner cfg s else s

variable (p) in
/-- One step of giving up a block: `RawAlignedBuffer::drop` up to `call`, then
    `BufferAllocator::deallocate_buffer`, the trait's own for `Global`. -/
def advance (s : State) (i : Nat) (this : RawAlignedBuffer Home) (after : After) :
    Pc → Except Fault State
  | .fetchSub =>
      if ¬this.isAllocated p then return finish s i this after
      else do
        let (heap, old) ← s.heap.fetchSub p (this.headerPtr p)
        let s := { s with heap }
        if old ≠ 1 then return finish s i this after
        else return s.setSlot i (.releasing this .load after)
  | .load => do
      let _ ← s.heap.loadRefCount (this.headerPtr p)
      return s.setSlot i (.releasing this .store after)
  | .store => do
      let heap ← s.heap.storeRefCount (this.headerPtr p) 1
      let raw ← this.dropRaw p heap
      return { s with heap }.setSlot i (.releasing this (.call raw) after)
  | .call raw =>
      let s := { s with given := s.given ++ raw.buf.prov.toList }
      match this.alloc with
      | .global => do
          let heap ← deallocateBuffer p s.heap raw
          return finish { s with heap } i this after
      | .pool queue =>
          if cfg.policy (raw.cap.value p.toTarget) = false then
            return s.setSlot i (.releasing this (.dealloc raw) after)
          else
            -- the clone of the allocator is moved into the closure
            let s := { s with allocMade := s.allocMade + 1 }
            if s.strong = 0 then
              -- `upgrade` fails and the closure is dropped uncalled
              return { s with allocDropped := s.allocDropped + 1 }.setSlot i
                (.releasing this (.dealloc raw) after)
            else
              return { s with strong := s.strong + 1 }.setSlot i
                (.releasing this (.push queue raw) after)
  | .dealloc raw => do
      let heap ← deallocateBuffer p s.heap raw
      return finish { s with heap } i this after
  | .push queue raw =>
      let entries := s.queues.getD queue []
      if entries.length < cfg.capacity then
        let entry : UniqueAlignedBuffer Home := ⟨⟨raw.buf, raw.cap, .pool queue⟩, 0⟩
        return { s with queues := s.queues.set queue (entries ++ [entry]) }.setSlot i
          (.releasing this .unref after)
      else
        -- the rejected buffer is forgotten, and the clone of the allocator with it
        return s.setSlot i (.releasing this (.reject raw) after)
  | .reject raw => do
      let heap ← deallocateBuffer p s.heap raw
      return { s with heap }.setSlot i (.releasing this .unref after)
  | .unref => return finish (releaseStrong cfg s) i this after

/-- An operation on unique buffer `this` of slot `i`. A shrink to capacity 0 calls `deallocate_buffer`,
    which takes its own steps. -/
def mutate (s : State) (i : Nat) (this : UniqueAlignedBuffer Home) (op : BufferOp) :
    Except Fault State :=
  if op.frees p this = true then do
    p.debugAssert (this.buf.isAllocated p)
    return s.setSlot i (.releasing this.buf (.call this.buf.rawBuffer) (.emptied this.len))
  else
    match op.apply A s.heap this with
    | (heap, this, none) => return { s with heap }.setSlot i (.unique this)
    | (heap, this, some f) =>
        if f.unwinds then return { s with heap }.setSlot i (.unique this) else .error f

variable (p) in
/-- `try_unique` on the shared buffer of slot `i`. When its assertion panics the buffer is dropped. -/
def tryUnique (s : State) (i : Nat) (this : SharedAlignedBuffer Home) : Except Fault State :=
  match this.tryUnique p s.heap with
  | .ok (.ok unique) => return (s.setSlot i .gone).addSlot (.unique unique)
  | .ok (.error _) => return s
  | .error f =>
      if f = .debugAssert ∧ this.buf.isAllocated p = false then
        return s.setSlot i (.releasing this.buf .fetchSub .dropped)
      else .error f

/-- One action. An action that names no handle of its kind does nothing. -/
def step (s : State) : Action → Except Fault State
  | .new => return s.addSlot (.unique (.newIn .global))
  | .withCapacity capacity =>
      match UniqueAlignedBuffer.withCapacityIn A s.heap capacity Home.global with
      | .ok (heap, this) => return { s with heap }.addSlot (.unique this)
      | .error f => if f.unwinds then return s else .error f
  | .get queue =>
      if s.handle = false then return s
      else match s.queues[queue]? with
        | none => return s
        | some [] =>
            -- the pool's allocator is cloned twice, and one clone dropped
            return { s with
              allocMade := s.allocMade + 2
              allocDropped := s.allocDropped + 1 }.addSlot (.unique (.newIn (.pool queue)))
        | some (this :: rest) =>
            return { s with queues := s.queues.set queue rest }.addSlot (.unique this)
  | .mutate i op =>
      match s.slots[i]? with
      | some (.unique this) => mutate A s i this op
      | _ => return s
  | .intoShared i =>
      match s.slots[i]? with
      | some (.unique this) => do
          let shared ← this.intoShared p
          return (s.setSlot i .gone).addSlot (.shared shared)
      | _ => return s
  | .clone i =>
      match s.slots[i]? with
      | some (.shared this) => do
          let (heap, copy) ← this.clone p s.heap
          return { s with heap, allocMade := s.allocMade + this.buf.alloc.weight }.addSlot
            (.shared copy)
      | _ => return s
  | .tryUnique i =>
      match s.slots[i]? with
      | some (.shared this) => tryUnique p s i this
      | _ => return s
  | .read i =>
      match s.slots[i]? with
      | some (.unique this) => do
          let _ ← this.asSlice p s.heap
          return s
      | some (.shared this) => do
          let _ ← this.asSlice p s.heap
          return s
      | _ => return s
  | .drop i =>
      match s.slots[i]? with
      | some (.unique this) => return s.setSlot i (.releasing this.buf .fetchSub .dropped)
      | some (.shared this) => return s.setSlot i (.releasing this.buf .fetchSub .dropped)
      | _ => return s
  | .advance i =>
      match s.slots[i]? with
      | some (.releasing this pc after) => advance p cfg s i this after pc
      | _ => return s
  | .dropPool => if s.handle = false then return s else return releaseStrong cfg { s with handle := false }

/-- Every state a system with a new pool can reach is the end of such a run. -/
def runFrom (actions : List Action) : Except Fault State := run (step A cfg) (State.init cfg) actions

end BufferPool

end RkyvUtils
