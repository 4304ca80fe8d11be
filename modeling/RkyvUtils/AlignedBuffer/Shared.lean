import RkyvUtils.Lib.Run
import RkyvUtils.AlignedBuffer.Unique

/-!
# `AlignedBuffer.Shared` — `SharedAlignedBuffer`

`shared.rs`, and `UniqueAlignedBuffer::into_shared`. A shared buffer is a raw buffer whose tagged word
holds the length; the capacity is in the header of the block, together with the reference count.
-/

namespace RkyvUtils

open Run

/-- `SharedAlignedBuffer { buf }`. -/
structure SharedAlignedBuffer (α : Type) where
  buf : RawAlignedBuffer α
deriving DecidableEq, Repr

variable {α : Type} (p : Params)

/-- `UniqueAlignedBuffer::into_shared`. -/
def UniqueAlignedBuffer.intoShared (this : UniqueAlignedBuffer α) :
    Except Fault (SharedAlignedBuffer α) := do
  let buf ← this.buf.resetLen p this.len
  p.debugAssert (buf.value p = this.len)
  return ⟨buf⟩

namespace SharedAlignedBuffer

def len (this : SharedAlignedBuffer α) : Nat := this.buf.value p

def asSlice (h : Heap) (this : SharedAlignedBuffer α) : Except Fault (List UInt8) :=
  h.read p this.buf.buf (this.len p)

def isUnique (h : Heap) (this : SharedAlignedBuffer α) : Except Fault Bool := this.buf.isUnique p h

def refCount (h : Heap) (this : SharedAlignedBuffer α) : Except Fault Nat := this.buf.refCount p h

/-- `try_unique`: `Ok(UniqueAlignedBuffer)` or `Err(this)`. -/
def tryUnique (h : Heap) (this : SharedAlignedBuffer α) :
    Except Fault (Except (SharedAlignedBuffer α) (UniqueAlignedBuffer α)) := do
  if ← this.isUnique p h then
    let len := this.len p
    let buf ← this.buf.resetCap p h
    return .ok ⟨buf, len⟩
  else return .error this

/-- `Clone`. -/
def clone (h : Heap) (this : SharedAlignedBuffer α) :
    Except Fault (Heap × SharedAlignedBuffer α) := do
  let (h, buf) ← this.buf.refClone p h
  return (h, ⟨buf⟩)

/-- The drop of the only field. -/
def drop (h : Heap) (this : SharedAlignedBuffer α) : Except Fault Heap := this.buf.drop p h

/-! ## A shared buffer and its clones -/

/-- What may happen to clones: one more is made of the buffer itself or of clone `i`, or clone `i` is
    dropped. -/
inductive CloneOp where
  | clone
  | cloneOf (i : Nat)
  | dropClone (i : Nat)
deriving DecidableEq, Repr

/-- A new clone of `other`, next to the live ones. -/
def addClone (s : Heap × List (SharedAlignedBuffer α)) (other : SharedAlignedBuffer α) :
    Except Fault (Heap × List (SharedAlignedBuffer α)) := do
  let (h, copy) ← other.clone p s.1
  return (h, s.2 ++ [copy])

/-- One step on the heap and the live clones. Naming a clone that is not there does nothing. -/
def cloneStep (this : SharedAlignedBuffer α) (s : Heap × List (SharedAlignedBuffer α)) :
    CloneOp → Except Fault (Heap × List (SharedAlignedBuffer α))
  | .clone => addClone p s this
  | .cloneOf i =>
      match s.2[i]? with
      | none => return s
      | some other => addClone p s other
  | .dropClone i =>
      match s.2[i]? with
      | none => return s
      | some other => do
          let h ← other.drop p s.1
          return (h, s.2.eraseIdx i)

/-- `into_shared`, then clones made and dropped, then `try_unique`: the shared buffer, the heap and the
    clones at the end, and the answer of `try_unique`. -/
def shareAndBack (h : Heap) (this : UniqueAlignedBuffer α) (ops : List CloneOp) :
    Except Fault (SharedAlignedBuffer α × Heap × List (SharedAlignedBuffer α) ×
      Except (SharedAlignedBuffer α) (UniqueAlignedBuffer α)) := do
  let shared ← this.intoShared p
  let (h, clones) ← run (cloneStep p shared) (h, []) ops
  let result ← shared.tryUnique p h
  return (shared, h, clones, result)

end SharedAlignedBuffer

end RkyvUtils
