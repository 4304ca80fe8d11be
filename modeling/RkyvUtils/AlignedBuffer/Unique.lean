import RkyvUtils.AlignedBuffer.Raw

/-!
# `AlignedBuffer.Unique` — `UniqueAlignedBuffer`

`unique.rs`: the growable byte vector on top of `RawAlignedBuffer`. All safe mutators are constructors of
`UniqueOp`; `UniqueOp.apply` runs the method of that name. A method that panics or aborts leaves the
buffer as it was, except `extend`, which keeps the bytes it has written so far.
-/

namespace RkyvUtils

open Word

/-- `UniqueAlignedBuffer { buf, len }`. -/
structure UniqueAlignedBuffer (α : Type) where
  buf : RawAlignedBuffer α
  len : Nat
deriving DecidableEq, Repr

/-- What a call of `next()` does on the iterator given to `extend`. -/
inductive Next where
  | some (byte : UInt8)
  | none
  | panic
deriving DecidableEq, Repr

/-- An iterator of bytes: the lower bound of its `size_hint`, and what the calls of `next()` do one after
    the other (`None` once the list is used up). The bound need not be true. -/
structure ByteIter where
  lower : Nat
  nexts : List Next
deriving DecidableEq, Repr

/-- Heap and buffer after a call, and the panic or abort it ended with, if any. -/
abbrev Ended (α : Type) := Heap × UniqueAlignedBuffer α × Option Fault

namespace UniqueAlignedBuffer

variable {α : Type} {p : Params} (A : Allocator p.toTarget)

/-- `new_in`. -/
def newIn (alloc : α) : UniqueAlignedBuffer α := ⟨.newIn alloc, 0⟩

def withCapacityIn (h : Heap) (capacity : Nat) (alloc : α) :
    Except Fault (Heap × UniqueAlignedBuffer α) := do
  let (h, buf) ← RawAlignedBuffer.withCapacityIn A h capacity alloc
  return (h, ⟨buf, 0⟩)

variable (p) in
def capacity (this : UniqueAlignedBuffer α) : Nat := this.buf.value p

/-- `as_mut_ptr()`. -/
def asMutPtr (this : UniqueAlignedBuffer α) : Ptr := this.buf.buf

variable (p) in
/-- `as_slice()`: the visible bytes. -/
def asSlice (h : Heap) (this : UniqueAlignedBuffer α) : Except Fault (List UInt8) :=
  h.read p this.buf.buf this.len

/-! ## Capacity -/

def reserve (h : Heap) (this : UniqueAlignedBuffer α) (additional : Nat) :
    Except Fault (Heap × UniqueAlignedBuffer α) := do
  let (h, buf) ← this.buf.reserve A h this.len additional
  return (h, { this with buf })

def reserveExact (h : Heap) (this : UniqueAlignedBuffer α) (additional : Nat) :
    Except Fault (Heap × UniqueAlignedBuffer α) := do
  let (h, buf) ← this.buf.reserveExact A h this.len additional
  return (h, { this with buf })

def tryReserve (h : Heap) (this : UniqueAlignedBuffer α) (additional : Nat) :
    Except Fault (Heap × UniqueAlignedBuffer α × Except RawBufferError Unit) := do
  let (h, buf, result) ← this.buf.tryReserve A h this.len additional
  return (h, { this with buf }, result)

def tryReserveExact (h : Heap) (this : UniqueAlignedBuffer α) (additional : Nat) :
    Except Fault (Heap × UniqueAlignedBuffer α × Except RawBufferError Unit) := do
  let (h, buf, result) ← this.buf.tryReserveExact A h this.len additional
  return (h, { this with buf }, result)

def shrinkToFit (h : Heap) (this : UniqueAlignedBuffer α) :
    Except Fault (Heap × UniqueAlignedBuffer α) :=
  if this.len < this.capacity p then do
    let (h, buf) ← this.buf.shrinkToFit A h this.len
    return (h, { this with buf })
  else return (h, this)

def shrinkTo (h : Heap) (this : UniqueAlignedBuffer α) (minCapacity : Nat) :
    Except Fault (Heap × UniqueAlignedBuffer α) :=
  if minCapacity < this.capacity p then do
    let (h, buf) ← this.buf.shrinkToFit A h (max this.len minCapacity)
    return (h, { this with buf })
  else return (h, this)

/-! ## Length -/

def truncate (this : UniqueAlignedBuffer α) (len : Nat) : UniqueAlignedBuffer α :=
  { this with len := min len this.len }

def clear (this : UniqueAlignedBuffer α) : UniqueAlignedBuffer α := { this with len := 0 }

variable (p) in
/-- `set_len` (unsafe). -/
def setLen (this : UniqueAlignedBuffer α) (newLen : Nat) : Except Fault (UniqueAlignedBuffer α) := do
  p.debugAssert (newLen ≤ this.capacity p)
  return { this with len := newLen }

/-! ## Bytes -/

def push (h : Heap) (this : UniqueAlignedBuffer α) (value : UInt8) :
    Except Fault (Heap × UniqueAlignedBuffer α) := do
  let (h, this) ←
    (if this.len = this.capacity p then this.reserve A h 1 else .ok (h, this))
  let h ← h.write p (this.asMutPtr.add this.len) [value]
  return (h, { this with len := this.len + 1 })

def appendElements (h : Heap) (this : UniqueAlignedBuffer α) (other : List UInt8) :
    Except Fault (Heap × UniqueAlignedBuffer α) := do
  let count := other.length
  let (h, this) ← this.reserve A h count
  let h ← h.write p (this.asMutPtr.add this.len) other
  return (h, { this with len := this.len + count })

def append (h : Heap) (this : UniqueAlignedBuffer α) (other : List UInt8) :
    Except Fault (Heap × UniqueAlignedBuffer α) :=
  this.appendElements A h other

def extendFromSlice (h : Heap) (this : UniqueAlignedBuffer α) (other : List UInt8) :
    Except Fault (Heap × UniqueAlignedBuffer α) :=
  this.append A h other

variable (p) in
/-- `for _ in 0..n { ptr::write(ptr, value); ptr = ptr.add(1); }` -/
def writeAll (h : Heap) (ptr : Ptr) (value : UInt8) : Nat → Except Fault Heap
  | 0 => return h
  | n + 1 => do
      let h ← h.write p ptr [value]
      writeAll h (ptr.add 1) value n

/-- `extend_with`. The length is set by the `SetLenOnDrop` guard at the end. -/
def extendWith (h : Heap) (this : UniqueAlignedBuffer α) (n : Nat) (value : UInt8) :
    Except Fault (Heap × UniqueAlignedBuffer α) := do
  let (h, this) ← this.reserve A h n
  let h ← writeAll p h (this.asMutPtr.add this.len) value n
  return (h, { this with len := this.len + n })

def resize (h : Heap) (this : UniqueAlignedBuffer α) (newLen : Nat) (value : UInt8) :
    Except Fault (Heap × UniqueAlignedBuffer α) :=
  if this.len < newLen then this.extendWith A h (newLen - this.len) value
  else return (h, this.truncate newLen)

variable (p) in
/-- `this[start..start + bytes.len()].copy_from_slice(bytes)` through `index_mut`: the slice of the
    visible bytes is formed, the range checked, then the bytes written. -/
def indexMut (h : Heap) (this : UniqueAlignedBuffer α) (start : Nat) (bytes : List UInt8) :
    Except Fault (Heap × UniqueAlignedBuffer α) := do
  let slice ← this.asSlice p h
  if slice.length < start + bytes.length then .error .indexOutOfBounds
  else
    let h ← h.write p (this.asMutPtr.add start) bytes
    return (h, this)

/-! ## `extend` -/

/-- How the loop over the free capacity ends: it ran its course with calls of `next()` to come, the
    iterator ended, or it panicked. -/
inductive FillEnd where
  | full (nexts : List Next)
  | ended
  | panicked

variable (p) in
/-- The loop of `extend` over the free capacity: `localLen` is the length the `SetLenOnDrop` guard will
    set. -/
def fill (h : Heap) (ptr : Ptr) (localLen : Nat) :
    Nat → List Next → Except Fault (Heap × Nat × FillEnd)
  | 0, nexts => return (h, localLen, .full nexts)
  | _ + 1, [] => return (h, localLen, .ended)
  | _ + 1, .none :: _ => return (h, localLen, .ended)
  | _ + 1, .panic :: _ => return (h, localLen, .panicked)
  | free + 1, .some byte :: nexts => do
      let h ← h.write p ptr [byte]
      fill h (ptr.add 1) (localLen + 1) free nexts

/-- `for byte in iter { self.push(byte); }` -/
def pushAll (h : Heap) (this : UniqueAlignedBuffer α) : List Next → Ended α
  | [] => (h, this, none)
  | .none :: _ => (h, this, none)
  | .panic :: _ => (h, this, some .iteratorPanic)
  | .some byte :: nexts =>
      match this.push A h byte with
      | .error f => (h, this, some f)
      | .ok (h, this) => pushAll h this nexts

def extend (h : Heap) (this : UniqueAlignedBuffer α) (iter : ByteIter) : Ended α :=
  match this.reserve A h iter.lower with
  | .error f => (h, this, some f)
  | .ok (h, this) =>
      -- an unchecked difference of words
      let free := wrappingSub p.bits (this.capacity p) this.len
      match fill p h (this.asMutPtr.add this.len) this.len free iter.nexts with
      | .error f => (h, this, some f)
      | .ok (h, len, .ended) => (h, { this with len }, none)
      | .ok (h, len, .panicked) => (h, { this with len }, some .iteratorPanic)
      | .ok (h, len, .full nexts) => pushAll A h { this with len } nexts

end UniqueAlignedBuffer

/-! ## The safe mutators -/

/-- The safe mutators with their arguments. -/
inductive UniqueOp where
  | push (value : UInt8)
  | append (other : List UInt8)
  | extendFromSlice (other : List UInt8)
  | extend (iter : ByteIter)
  | resize (newLen : Nat) (value : UInt8)
  | truncate (len : Nat)
  | clear
  | reserve (additional : Nat)
  | reserveExact (additional : Nat)
  | tryReserve (additional : Nat)
  | tryReserveExact (additional : Nat)
  | shrinkTo (minCapacity : Nat)
  | shrinkToFit
  | indexMut (start : Nat) (bytes : List UInt8)
deriving DecidableEq, Repr

namespace UniqueOp

variable {α : Type}

/-- The call gives the whole block up: a shrink to capacity 0 of a buffer that has one. -/
def frees (p : Params) (this : UniqueAlignedBuffer α) : UniqueOp → Bool
  | shrinkTo minCapacity => minCapacity < this.capacity p ∧ max this.len minCapacity = 0
  | shrinkToFit => this.len < this.capacity p ∧ this.len = 0
  | _ => false

/-- A call that changes nothing when it panics or aborts. -/
def settle (h : Heap) (this : UniqueAlignedBuffer α) :
    Except Fault (Heap × UniqueAlignedBuffer α) → Ended α
  | .ok (h, this) => (h, this, none)
  | .error f => (h, this, some f)

/-- A call that returns a `Result` as well. -/
def settleTry (h : Heap) (this : UniqueAlignedBuffer α) :
    Except Fault (Heap × UniqueAlignedBuffer α × Except RawBufferError Unit) → Ended α
  | .ok (h, this, _) => (h, this, none)
  | .error f => (h, this, some f)

def apply {p : Params} (A : Allocator p.toTarget) (h : Heap) (this : UniqueAlignedBuffer α) :
    UniqueOp → Ended α
  | push value => settle h this (this.push A h value)
  | append other => settle h this (this.append A h other)
  | extendFromSlice other => settle h this (this.extendFromSlice A h other)
  | extend iter => this.extend A h iter
  | resize newLen value => settle h this (this.resize A h newLen value)
  | truncate len => (h, this.truncate len, none)
  | clear => (h, this.clear, none)
  | reserve additional => settle h this (this.reserve A h additional)
  | reserveExact additional => settle h this (this.reserveExact A h additional)
  | tryReserve additional => settleTry h this (this.tryReserve A h additional)
  | tryReserveExact additional => settleTry h this (this.tryReserveExact A h additional)
  | shrinkTo minCapacity => settle h this (this.shrinkTo A h minCapacity)
  | shrinkToFit => settle h this (this.shrinkToFit A h)
  | indexMut start bytes => settle h this (this.indexMut p h start bytes)

end UniqueOp

end RkyvUtils
