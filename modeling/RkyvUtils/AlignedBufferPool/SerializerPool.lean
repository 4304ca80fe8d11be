import Mathlib.Data.List.AList
import RkyvUtils.Lib.Recycle
import RkyvUtils.AlignedBufferPool.BufferPool

/-!
# `AlignedBufferPool.SerializerPool` — `Serializer`s and the pool they come from

`serializer_pool.rs`. A serializer has a writer and a scratch buffer, from the two buffer queues of the
pool, and a sharing table, from a third queue. The system is the one of `BufferPool` with two queues, the
queue of tables, and all serializers ever handed out. Serializing a value is any sequence of writes, of
`push_alloc` and `pop_alloc`, and of `start_sharing` and `finish_sharing`, given up at any point.

The drop of a serializer starts the drops of its buffers, which then take their own steps, and leaves
`RentedUnify`, whose drop is one step.
-/

namespace RkyvUtils

open Run Recycle

/-! ## Sharing -/

inductive SharingState where
  | started
  | pending
  | finished (pos : Nat)
deriving DecidableEq, Repr

inductive SharingError where
  | notStarted
  | alreadyFinished
deriving DecidableEq, Repr

/-- `FxHashMap<usize, Option<NonZeroUsize>>`, from addresses to masked positions. -/
abbrev SharingMap := AList fun _ : Nat => Option Nat

/-- What `start_sharing` and `finish_sharing` can answer; `finish_sharing` may also panic. -/
inductive SharingAnswer where
  | state (state : SharingState)
  | done
  | failed (error : SharingError)
  | panicked
deriving DecidableEq, Repr

inductive SharingCall where
  | startSharing (address : Nat)
  | finishSharing (address pos : Nat)
deriving DecidableEq, Repr

namespace SharingMap

variable (p : Params)

/-- `usize::MAX`. -/
def usizeMax : Nat := 2 ^ p.bits - 1

def startSharing (map : SharingMap) (address : Nat) : SharingMap × SharingAnswer :=
  match map.lookup address with
  | none => (map.insert address none, .state .started)
  | some (some pos) => (map, .state (.finished (pos ^^^ usizeMax p)))
  | some none => (map, .state .pending)

/-- The `unwrap` of `NonZeroUsize::new` panics for the position `usize::MAX`. -/
def finishSharing (map : SharingMap) (address pos : Nat) : SharingMap × SharingAnswer :=
  match map.lookup address with
  | none => (map, .failed .notStarted)
  | some (some _) => (map, .failed .alreadyFinished)
  | some none =>
      if pos ^^^ usizeMax p = 0 then (map, .panicked)
      else (map.insert address (some (pos ^^^ usizeMax p)), .done)

def call (map : SharingMap) : SharingCall → SharingMap × SharingAnswer
  | .startSharing address => startSharing p map address
  | .finishSharing address pos => finishSharing p map address pos

theorem eq_empty_iff (map : SharingMap) : map = ∅ ↔ map.entries.isEmpty = true :=
  AList.ext_iff.trans List.isEmpty_iff.symm

end SharingMap

/-! ## The pool -/

namespace SerializerPool

/-- `Serializer { writer, scratch, unify }`; the buffers are named by their places in the table. -/
structure Serializer where
  writer : Nat
  scratch : Nat
  unify : SharingMap
deriving DecidableEq

inductive Rental where
  | live (this : Serializer)
  /-- the buffers are given up, `RentedUnify` is to be dropped -/
  | unify (map : SharingMap)
  | gone
deriving DecidableEq

structure State where
  buffers : BufferPool.State
  /-- `Inner::unify` -/
  unify : List SharingMap
  serializers : List Rental
deriving DecidableEq

inductive Action where
  | get
  /-- `Writer::write` -/
  | write (i : Nat) (bytes : List UInt8)
  | pushAlloc (i : Nat) (layout : Layout)
  | popAlloc (i : Nat) (ptr : Ptr) (layout : Layout)
  | sharing (i : Nat) (call : SharingCall)
  | intoBuffer (i : Nat)
  /-- the drop of a serializer starts -/
  | drop (i : Nat)
  /-- `RentedUnify::drop` -/
  | dropUnify (i : Nat)
  /-- anything else that is done to a buffer, the next step of one that is given up, the drop of the
      pool by its owner -/
  | buffers (action : BufferPool.Action)
deriving DecidableEq

variable {p : Params} (A : Allocator p.toTarget) (capacity : Nat) (policy : Nat → Bool)

/-- The writers are queue 0, the scratch buffers queue 1. -/
def config : BufferPool.Config := ⟨2, capacity, policy⟩

def State.init : State := ⟨BufferPool.State.init (config capacity policy), [], []⟩

/-- The buffers of a serializer are its own. -/
def Rental.owns (i : Nat) : Rental → Bool
  | .live this => this.writer = i || this.scratch = i
  | _ => false

/-- The queues of the pool are reached through `get` only, and the buffers of a serializer through the
    serializer. -/
def allowed (s : State) : BufferPool.Action → Bool
  | .get _ => false
  | .new | .withCapacity _ | .dropPool => true
  | .mutate i _ | .intoShared i | .clone i | .tryUnique i | .read i | .drop i | .advance i =>
      s.serializers.all fun rental => !rental.owns i

/-- The buffers change. With the last strong reference the queue of tables goes as well. -/
def settle (s : State) (buffers : BufferPool.State) : State :=
  { s with buffers, unify := if buffers.strong = 0 then [] else s.unify }

/-- An operation on a buffer of serializer `i`. -/
def mutate (s : State) (i : Nat) (buffer : Serializer → Nat) (op : BufferOp) : Except Fault State :=
  match s.serializers[i]? with
  | some (.live this) => do
      let buffers ← BufferPool.step A (config capacity policy) s.buffers (.mutate (buffer this) op)
      return settle s buffers
  | _ => return s

/-- The end of serializer `i`: `into_buffer` makes the writer a shared buffer, a drop gives it up, and
    either drops the other fields. -/
def giveUp (s : State) (i : Nat) (writer : Nat → BufferPool.Action) : Except Fault State :=
  match s.serializers[i]? with
  | some (.live this) => do
      let buffers ← BufferPool.step A (config capacity policy) s.buffers (writer this.writer)
      let buffers ← BufferPool.step A (config capacity policy) buffers (.drop this.scratch)
      return { settle s buffers with serializers := s.serializers.set i (.unify this.unify) }
  | _ => return s

def step (s : State) : Action → Except Fault State
  | .get =>
      if s.buffers.handle = false then return s
      else do
        let writers ← BufferPool.step A (config capacity policy) s.buffers (.get 0)
        let buffers ← BufferPool.step A (config capacity policy) writers (.get 1)
        return {
          buffers
          unify := (take ∅ s.unify).2
          serializers := s.serializers ++
            [.live ⟨s.buffers.slots.length, writers.slots.length, (take ∅ s.unify).1⟩] }
  | .write i bytes => mutate A capacity policy s i Serializer.writer (.unique (.extendFromSlice bytes))
  | .pushAlloc i layout => mutate A capacity policy s i Serializer.scratch (.pushAlloc layout)
  | .popAlloc i ptr layout => mutate A capacity policy s i Serializer.scratch (.popAlloc ptr layout)
  | .sharing i call =>
      match s.serializers[i]? with
      | some (.live this) =>
          return { s with
            serializers := s.serializers.set i
              (.live { this with unify := (SharingMap.call p this.unify call).1 }) }
      | _ => return s
  | .intoBuffer i => giveUp A capacity policy s i .intoShared
  | .drop i => giveUp A capacity policy s i .drop
  | .dropUnify i =>
      match s.serializers[i]? with
      | some (.unify map) =>
          return { s with
            -- the map is pushed as it is, if the weak reference can be upgraded
            unify := if s.buffers.strong = 0 then s.unify else put capacity s.unify map
            serializers := s.serializers.set i .gone }
      | _ => return s
  | .buffers action =>
      if allowed s action = true then do
        let buffers ← BufferPool.step A (config capacity policy) s.buffers action
        return settle s buffers
      else return s

/-- Every state a new `SerializerPool` can reach is the end of such a run. -/
def runFrom (actions : List Action) : Except Fault State :=
  run (step A capacity policy) (State.init capacity policy) actions

end SerializerPool

end RkyvUtils
