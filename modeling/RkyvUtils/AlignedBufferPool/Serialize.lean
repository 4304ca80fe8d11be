import RkyvUtils.Lib.Program
import RkyvUtils.AlignedBuffer.Archive
import RkyvUtils.AlignedBufferPool.CapacityLimits
import RkyvUtils.AlignedBufferPool.SerializerBuffers

/-!
# `AlignedBufferPool.Serialize` — `SerializerPool::serialize`

`serialize` gets a serializer, lets the value serialize itself into it, and makes the writer a shared buffer,
or gives everything up when the value returns an error or panics. A value is any client of the traits of
`rkyv::ser` (`Program`): it chooses each call by the answers to the ones before. Any number of calls of
`serialize` are under way at a time, and everything else that can be done to the pool goes on around them.

To the value its serializer is one of its own (`Alone`): the bytes it has written, the bytes in its scratch
space, where the two buffers have their bytes, and its table of shared pointers. `serializations_alone` says
that each call in any interleaving goes as it would with that serializer alone, from the buffers and the table
that the pool had for it, and that the buffer it returns shows what was written.
-/

namespace RkyvUtils

open Run Word

namespace SerializerPool

/-! ## Values -/

/-- A call of a method of `rkyv::ser`. -/
inductive Request where
  | pos
  | write (bytes : List UInt8)
  | pushAlloc (layout : Layout)
  | popAlloc (ptr : Ptr) (layout : Layout)
  | sharing (call : SharingCall)
deriving DecidableEq, Repr

inductive Reply where
  | pos (pos : Nat)
  | done
  | block (block : Slice)
  | notPopped (error : BufferAllocError)
  | sharing (answer : SharingAnswer)
deriving DecidableEq, Repr

/-- How a value ends that returns no position. -/
inductive Failure (ε : Type) where
  | error (error : ε)
  | panic
deriving DecidableEq, Repr

/-- `T: rkyv::Serialize` with the value: what `serialize_using` runs on the serializer. -/
abbrev Value (ε : Type) := Program Request Reply (Except (Failure ε) Nat)

/-- The action of serializer `i` behind a request; `pos` only reads. -/
def Request.action (i : Nat) : Request → Option Action
  | .pos => none
  | .write bytes => some (.write i bytes)
  | .pushAlloc layout => some (.pushAlloc i layout)
  | .popAlloc ptr layout => some (.popAlloc i ptr layout)
  | .sharing call => some (.sharing i call)

variable {p : Params} (A : Allocator p.toTarget) (capacity : Nat) (policy : Nat → Bool)

/-- What a method of the writer or the scratch buffer answers; there is no answer of one that panics. -/
def replyOf {α : Type} (buffers : BufferPool.State) (k : Nat) (method : UniqueAlignedBuffer Home → Except Fault α)
    (reply : α → Reply) : Option Reply :=
  match buffers.slots[k]? with
  | some (.unique this) =>
      match method this with
      | .ok a => some (reply a)
      | .error _ => none
  | _ => none

/-- What a serializer answers to a request. -/
def reply (buffers : BufferPool.State) (this : Serializer) : Request → Option Reply
  | .pos => replyOf buffers this.writer (fun writer => .ok writer.len) .pos
  | .write bytes =>
      replyOf buffers this.writer (fun writer => writer.extendFromSlice A buffers.heap bytes) fun _ => .done
  | .pushAlloc layout =>
      replyOf buffers this.scratch (fun scratch => Scratch.pushAlloc A buffers.heap scratch layout)
        fun r => .block r.2.2
  | .popAlloc ptr layout =>
      replyOf buffers this.scratch (fun scratch => Scratch.popAlloc p buffers.heap scratch ptr layout)
        fun r =>
          match r.2 with
          | .ok () => .done
          | .error error => .notPopped error
  | .sharing call =>
      match (SharingMap.call p this.unify call).2 with
      | .panicked => none
      | answer => some (.sharing answer)

/-! ## A serializer of one's own -/

/-- Where a buffer has its bytes. -/
structure Storage where
  /-- of the first byte -/
  addr : Nat
  capacity : Nat
deriving DecidableEq, Repr

def Storage.of {α : Type} (p : Params) (this : UniqueAlignedBuffer α) : Storage :=
  ⟨this.asMutPtr.addr, this.capacity p⟩

/-- `reserve` refuses to make room for `n` bytes in all: there is not so much, and the sum or the amortised
    capacity is past a limit. -/
def Storage.Refuses (p : Params) (storage : Storage) (n : Nat) : Prop :=
  storage.capacity < n ∧
    (2 ^ p.bits ≤ n ∨ ¬p.Accepts (RawAlignedBuffer.doubledCap storage.capacity n))

/-- A reservation makes room for `n` bytes in all. Where there is so much already the bytes stay. -/
structure Storage.Makes (p : Params) (storage : Storage) (n : Nat) (storage' : Storage) : Prop where
  granted : ¬storage.Refuses p n
  room : n ≤ storage'.capacity
  stays : n ≤ storage.capacity → storage' = storage

/-- What a serializer is to the value that uses it. -/
structure Alone where
  /-- the bytes written -/
  out : List UInt8
  outAt : Storage
  /-- the bytes in the scratch space -/
  scratch : List UInt8
  scratchAt : Storage
  table : SharingMap

/-- What the pool has for a serializer: where its two buffers, which store nothing, have their bytes, and
    its table. -/
structure Start where
  outAt : Storage
  scratchAt : Storage
  table : SharingMap

def Start.alone (start : Start) : Alone := ⟨[], start.outAt, [], start.scratchAt, start.table⟩

/-- The padding in front of the next block of the scratch space. -/
def Alone.allocPad (p : Params) (t : Alone) (layout : Layout) : Nat :=
  wrappingSub p.bits 0 (t.scratchAt.addr + t.scratch.length) % layout.align

/-- The bytes in the scratch space behind the next block. -/
def Alone.allocEnd (p : Params) (t : Alone) (layout : Layout) : Nat :=
  t.scratch.length + (t.allocPad p layout + layout.size)

/-- An address is one of the scratch space. -/
def Alone.Contains (t : Alone) (addr : Nat) : Prop :=
  t.scratchAt.addr ≤ addr ∧ addr < t.scratchAt.addr + t.scratch.length

/-- The answers of a serializer that nobody else uses, and what it is afterwards. Only the storage of a buffer
    that has grown, its address and how much more than needed, is up to the allocator. -/
inductive Serves (p : Params) (t : Alone) : Request → Option Reply → Alone → Prop
  | pos : Serves p t .pos (some (.pos t.out.length)) t
  | write (bytes : List UInt8) {outAt : Storage} (hmakes : t.outAt.Makes p (t.out.length + bytes.length) outAt) :
      Serves p t (.write bytes) (some .done) { t with out := t.out ++ bytes, outAt }
  | writePanics {bytes : List UInt8} (hrefuses : t.outAt.Refuses p (t.out.length + bytes.length)) :
      Serves p t (.write bytes) none t
  | pushAlloc {layout : Layout} {block : Slice} {scratchAt : Storage}
      (hmakes : t.scratchAt.Makes p (t.allocEnd p layout) scratchAt)
      (haddr : block.ptr.addr = scratchAt.addr + (t.scratch.length + t.allocPad p layout))
      (hlen : block.len = layout.size) :
      Serves p t (.pushAlloc layout) (some (.block block))
        { t with scratch := t.scratch ++ List.replicate (t.allocPad p layout + layout.size) 0, scratchAt }
  | pushAllocPanics {layout : Layout} (hrefuses : t.scratchAt.Refuses p (t.allocEnd p layout)) :
      Serves p t (.pushAlloc layout) none t
  | popAlloc {ptr : Ptr} {layout : Layout} (hin : t.Contains ptr.addr)
      (hfit : ptr.addr - t.scratchAt.addr + layout.size ≤ t.scratch.length) :
      Serves p t (.popAlloc ptr layout) (some .done)
        { t with scratch := t.scratch.take (ptr.addr - t.scratchAt.addr) }
  | notInReverseOrder {ptr : Ptr} {layout : Layout} (hin : t.Contains ptr.addr)
      (hfit : t.scratch.length < ptr.addr - t.scratchAt.addr + layout.size) :
      Serves p t (.popAlloc ptr layout)
        (some (.notPopped (.notPoppedInReverseOrder t.scratch.length (ptr.addr - t.scratchAt.addr) layout.size))) t
  | notContained {ptr : Ptr} (layout : Layout) (hin : ¬t.Contains ptr.addr) :
      Serves p t (.popAlloc ptr layout) (some (.notPopped .doesNotContainAllocation)) t
  | sharing {call : SharingCall} (hanswer : (SharingMap.call p t.table call).2 ≠ .panicked) :
      Serves p t (.sharing call) (some (.sharing (SharingMap.call p t.table call).2))
        { t with table := (SharingMap.call p t.table call).1 }
  | sharingPanics {call : SharingCall} (hanswer : (SharingMap.call p t.table call).2 = .panicked) :
      Serves p t (.sharing call) none { t with table := (SharingMap.call p t.table call).1 }

/-- A value by itself: from a serializer with nothing in it but a table it comes to `t`, with `rest` left. -/
def Runs {ε : Type} (p : Params) (value : Value ε) (start : Start) (t : Alone) (rest : Value ε) : Prop :=
  Program.Goes (Serves p) (.error .panic) start.alone value t rest

variable (p) in
def storageOf (buffers : BufferPool.State) (k : Nat) : Storage :=
  match buffers.slots[k]? with
  | some (.unique this) => .of p this
  | _ => ⟨0, 0⟩

variable (p) in
/-- What serializer `i` of the pool was made of, which nothing has been done with. -/
def startOf (pool : State) (i : Nat) : Start :=
  match pool.serializers[i]? with
  | some (.live this) =>
      ⟨storageOf p pool.buffers this.writer, storageOf p pool.buffers this.scratch, this.unify⟩
  | _ => ⟨⟨0, 0⟩, ⟨0, 0⟩, ∅⟩

/-! ## Calls of `serialize` -/

inductive Progress (ε : Type) where
  /-- the value is being serialized into serializer `i`, with `rest` still to run -/
  | running (i : Nat) (rest : Value ε)
  /-- `Ok`: the position, and the handle of the shared buffer -/
  | returned (pos : Nat) (buffer : Nat)
  | failed (failure : Failure ε)

/-- A call of `SerializerPool::serialize`. -/
structure Serialization (ε : Type) where
  value : Value ε
  /-- what `get` had for it -/
  start : Start
  progress : Progress ε

/-- The pool, and every call of `serialize` ever made. -/
structure Callers (ε : Type) where
  pool : State
  calls : List (Serialization ε)

inductive Move (ε : Type) where
  /-- `serialize` is called -/
  | serialize (value : Value ε)
  /-- the next step of call `c` -/
  | next (c : Nat)
  /-- anything else that is done to the pool -/
  | other (action : Action)

/-- The serializer an action is about. -/
def Action.serializer? : Action → Option Nat
  | .write i _ | .pushAlloc i _ | .popAlloc i _ _ | .sharing i _ | .intoBuffer i | .drop i | .dropUnify i => some i
  | .get | .buffers _ => none

/-- The serializer of a call is borrowed by its value. -/
def Serialization.borrows {ε : Type} (i : Nat) : Serialization ε → Bool
  | ⟨_, _, .running j _⟩ => j = i
  | _ => false

namespace Callers

variable {ε : Type}

def init : Callers ε := ⟨State.init capacity policy, []⟩

/-- A serializer that is borrowed is used by its value only. -/
def allowed (s : Callers ε) (action : Action) : Bool :=
  match action.serializer? with
  | some i => s.calls.all fun call => !call.borrows i
  | none => true

/-- The next step of call `c`, with `rest` left of its value. -/
def next (s : Callers ε) (c : Nat) (value : Value ε) (start : Start) (i : Nat) (rest : Value ε) :
    Except Fault (Callers ε) :=
  match s.pool.serializers[i]? with
  | some (.live this) =>
      match rest with
      | .ask request next => do
          let pool ←
            match request.action i with
            | some action => SerializerPool.step A capacity policy s.pool action
            | none => .ok s.pool
          let rest := Program.resume (.error .panic) next (reply A s.pool.buffers this request)
          return ⟨pool, s.calls.set c ⟨value, start, .running i rest⟩⟩
      | .done (.ok pos) => do
          let pool ← SerializerPool.step A capacity policy s.pool (.intoBuffer i)
          return ⟨pool, s.calls.set c ⟨value, start, .returned pos s.pool.buffers.slots.length⟩⟩
      | .done (.error failure) => do
          let pool ← SerializerPool.step A capacity policy s.pool (.drop i)
          return ⟨pool, s.calls.set c ⟨value, start, .failed failure⟩⟩
  | _ => return s

def step (s : Callers ε) : Move ε → Except Fault (Callers ε)
  | .serialize value =>
      if s.pool.buffers.handle = false then return s
      else do
        let pool ← SerializerPool.step A capacity policy s.pool .get
        let i := s.pool.serializers.length
        return ⟨pool, s.calls ++ [⟨value, startOf p pool i, .running i value⟩]⟩
  | .next c =>
      match s.calls[c]? with
      | some ⟨value, start, .running i rest⟩ => next A capacity policy s c value start i rest
      | _ => return s
  | .other action =>
      if s.allowed action = true then do
        let pool ← SerializerPool.step A capacity policy s.pool action
        return { s with pool }
      else return s

/-- No table with entries is put back into the queue. -/
def PutsBackEmpty (s : Callers ε) : Move ε → Prop
  | .other action => SerializerPool.PutsBackEmpty capacity s.pool action
  | .serialize _ | .next _ => True

/-- Every state that a new pool and its callers can reach is the end of such a run. -/
def runFrom (moves : List (Move ε)) : Except Fault (Callers ε) :=
  run (step A capacity policy) (init capacity policy) moves

end Callers

end SerializerPool

end RkyvUtils
