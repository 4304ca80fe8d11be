import RkyvUtils.AlignedBuffer.Alloc

/-!
# `AlignedBuffer.Raw` — `RawAlignedBuffer`

`raw.rs`, function by function. A method of the source takes the heap and the buffer and returns the new
ones; a `Result<(), RawBufferError>` is returned next to them, a panic or an abort is a `Fault`. The
parameter `α` is the type of the `alloc` field (`Global`, `BufferPoolAllocator`); the answers of the
allocator behind it come from `A`.
-/

namespace RkyvUtils

open Word

/-- `RawAlignedBuffer { buf, cap_or_len, alloc }`. -/
structure RawAlignedBuffer (α : Type) where
  buf : Ptr
  capOrLen : TaggedCap
  alloc : α
deriving DecidableEq, Repr

/-- `RawBuffer { buf, cap }`, what `deallocate_buffer` is given. -/
structure RawBuffer where
  buf : Ptr
  cap : TaggedCap
deriving DecidableEq, Repr

/-- `MAX_REFCOUNT = isize::MAX`. -/
def Params.maxRefcount (p : Params) : Nat := maxSigned p.bits

/-- `handle_reserve`. -/
def handleReserve : Except RawBufferError Unit → Except Fault Unit
  | .error .capacityOverflow => .error .capacityOverflow
  | .error (.allocError _) => .error .allocError
  | .ok () => .ok ()

/-! ## The atomic operations on the reference count, one step each -/

namespace Heap

variable (p : Params)

/-- `header.ref_count.fetch_add(1)`: the old value. -/
def fetchAdd (h : Heap) (q : Ptr) : Except Fault (Heap × Nat) := do
  let hd ← h.header q
  let h ← h.setHeader q { hd with refCount := wrappingAdd p.bits hd.refCount 1 }
  return (h, hd.refCount)

/-- `header.ref_count.fetch_sub(1)`: the old value. -/
def fetchSub (h : Heap) (q : Ptr) : Except Fault (Heap × Nat) := do
  let hd ← h.header q
  let h ← h.setHeader q { hd with refCount := wrappingSub p.bits hd.refCount 1 }
  return (h, hd.refCount)

/-- `header.ref_count.load()`. -/
def loadRefCount (h : Heap) (q : Ptr) : Except Fault Nat := do
  let hd ← h.header q
  return hd.refCount

/-- `header.ref_count.store(n)`. -/
def storeRefCount (h : Heap) (q : Ptr) (n : Nat) : Except Fault Heap := do
  let hd ← h.header q
  h.setHeader q { hd with refCount := n }

end Heap

/-! ## `RawBuffer` and the default `BufferAllocator::deallocate_buffer` -/

namespace RawBuffer

variable (p : Params)

/-- `RawBuffer::alloc_info`: the start of the block and the layout recomputed from the capacity. -/
def allocInfo (h : Heap) (raw : RawBuffer) : Except Fault (Ptr × Layout) := do
  match ← p.layout (raw.cap.value p.toTarget) with
  | .error _ => .error .invalidLayout
  | .ok layout =>
      let header := raw.buf.sub p.bufferOffset
      -- the header is read by the debug assertion only
      if p.debug then
        let hd ← h.header header
        p.debugAssert (raw.cap.value p.toTarget = hd.allocBufferSize)
      return (header, layout)

end RawBuffer

/-- `BufferAllocator::deallocate_buffer` as the trait gives it. -/
def deallocateBuffer (p : Params) (h : Heap) (raw : RawBuffer) : Except Fault Heap := do
  let (ptr, layout) ← raw.allocInfo p h
  h.deallocate ptr layout

namespace RawAlignedBuffer

variable {α : Type} (p : Params)

/-- `RawAlignedBuffer::new_in`. -/
def newIn (alloc : α) : RawAlignedBuffer α := ⟨.dangling, .zero, alloc⟩

/-- `cap_or_len()`: the capacity of a unique buffer, the length of a shared one. -/
def value (this : RawAlignedBuffer α) : Nat := this.capOrLen.value p.toTarget

def isAllocated (this : RawAlignedBuffer α) : Bool := this.capOrLen.isAllocated p.toTarget

/-- `self.buf.as_ptr().sub(Self::BUFFER_OFFSET) as *mut Header`. -/
def headerPtr (this : RawAlignedBuffer α) : Ptr := this.buf.sub p.bufferOffset

def resetLen (this : RawAlignedBuffer α) (len : Nat) : Except Fault (RawAlignedBuffer α) := do
  p.debugAssert (len ≤ this.value p)
  let capOrLen ← this.capOrLen.withValue p.toTarget len
  return { this with capOrLen }

def resetCap (h : Heap) (this : RawAlignedBuffer α) : Except Fault (RawAlignedBuffer α) :=
  if ¬this.isAllocated p then do
    p.debugAssert (this.value p = 0)
    return this
  else do
    let header ← h.header (this.headerPtr p)
    let capOrLen ← TaggedCap.new p.toTarget header.allocBufferSize true
    return { this with capOrLen }

def needsToGrow (this : RawAlignedBuffer α) (len additional : Nat) : Bool :=
  wrappingSub p.bits (this.value p) len < additional

/-! ## Allocation and reallocation -/

variable {p} (A : Allocator p.toTarget)

/-- What a reservation returns: the heap, the buffer, and the `Result`. -/
abbrev Reserved (α : Type) := Heap × RawAlignedBuffer α × Except RawBufferError Unit

/-- `RawAlignedBuffer::alloc` (the plain name is the field's). -/
def alloc' (h : Heap) (this : RawAlignedBuffer α) (cap : Nat) : Except Fault (Reserved α) := do
  p.debugAssert (this.value p = 0)
  p.debugAssert (¬this.isAllocated p)
  match ← p.layout cap with
  | .error _ => return (h, this, .error .capacityOverflow)
  | .ok layout =>
    match p.allocGuard layout.size with
    | .error e => return (h, this, .error e)
    | .ok () =>
      match h.allocate A layout with
      | (h, none) => return (h, this, .error (.allocError layout))
      | (h, some (ptr, len)) =>
          -- the allocator may return more than was asked for, and all of it counts
          let cap := len - p.bufferOffset
          let h ← h.setHeader ptr ⟨1, cap⟩
          let capOrLen ← TaggedCap.new p.toTarget cap true
          return (h, { this with buf := ptr.add p.bufferOffset, capOrLen }, .ok ())

variable (p) in
/-- The write back of `realloc`: the new pointer, the capacity in the header and in the tagged word. -/
def reallocFinish (this : RawAlignedBuffer α) (layout : Layout) (res : Heap × Option (Ptr × Nat)) :
    Except Fault (Reserved α) :=
  match res with
  | (h, none) => return (h, this, .error (.allocError layout))
  | (h, some (ptr, len)) => do
      let cap := len - p.bufferOffset
      let header ← h.header ptr
      let h ← h.setHeader ptr { header with allocBufferSize := cap }
      let capOrLen ← this.capOrLen.withValue p.toTarget cap
      return (h, { this with buf := ptr.add p.bufferOffset, capOrLen }, .ok ())

def realloc (h : Heap) (this : RawAlignedBuffer α) (cap : Nat) : Except Fault (Reserved α) := do
  p.debugAssert (this.value p ≠ 0)
  p.debugAssert (this.isAllocated p)
  match ← p.layout cap with
  | .error e => return (h, this, .error e)
  | .ok newLayout =>
    match p.allocGuard newLayout.size with
    | .error e => return (h, this, .error e)
    | .ok () =>
      match ← p.layout (this.value p) with
      -- `unreachable!()`: the layout was computed when the block was requested
      | .error _ => .error .unreachable
      | .ok oldLayout => do
          p.debugAssert (oldLayout.align = newLayout.align)
          let ptr := this.buf.sub p.bufferOffset
          -- `grow` and `shrink` each get the two layouts in the order they ask for
          if oldLayout.size = newLayout.size then return (h, this, .ok ())
          else if oldLayout.size < newLayout.size then
            reallocFinish p this newLayout (← h.grow A ptr oldLayout newLayout)
          else
            reallocFinish p this newLayout (← h.shrink A ptr oldLayout newLayout)

def growTo (h : Heap) (this : RawAlignedBuffer α) (cap : Nat) : Except Fault (Reserved α) := do
  p.debugAssert (this.value p < cap)
  if ¬this.isAllocated p then alloc' A h this cap else realloc A h this cap

/-- `grow_amortized`. `self.cap_or_len() * 2` is an unchecked product of words. -/
def growAmortized (h : Heap) (this : RawAlignedBuffer α) (len additional : Nat) :
    Except Fault (Reserved α) := do
  p.debugAssert (0 < additional)
  match checkedAdd p.bits len additional with
  | none => return (h, this, .error .capacityOverflow)
  | some requiredCap =>
      let cap := max ((this.value p * 2) % 2 ^ p.bits) requiredCap
      let cap := max Params.minNonZeroCap cap
      growTo A h this cap

def growExact (h : Heap) (this : RawAlignedBuffer α) (len additional : Nat) :
    Except Fault (Reserved α) :=
  match checkedAdd p.bits len additional with
  | none => return (h, this, .error .capacityOverflow)
  | some cap => growTo A h this cap

def tryReserve (h : Heap) (this : RawAlignedBuffer α) (len additional : Nat) :
    Except Fault (Reserved α) :=
  if this.needsToGrow p len additional then growAmortized A h this len additional
  else return (h, this, .ok ())

def tryReserveExact (h : Heap) (this : RawAlignedBuffer α) (len additional : Nat) :
    Except Fault (Reserved α) :=
  if this.needsToGrow p len additional then growExact A h this len additional
  else return (h, this, .ok ())

/-- `reserve`: `grow_amortized` behind `handle_reserve`. -/
def reserve (h : Heap) (this : RawAlignedBuffer α) (len additional : Nat) :
    Except Fault (Heap × RawAlignedBuffer α) :=
  if this.needsToGrow p len additional then do
    let (h, this, result) ← growAmortized A h this len additional
    handleReserve result
    return (h, this)
  else return (h, this)

def reserveExact (h : Heap) (this : RawAlignedBuffer α) (len additional : Nat) :
    Except Fault (Heap × RawAlignedBuffer α) := do
  let (h, this, result) ← tryReserveExact A h this len additional
  handleReserve result
  return (h, this)

/-- `with_capacity_in`. -/
def withCapacityIn (h : Heap) (size : Nat) (alloc : α) : Except Fault (Heap × RawAlignedBuffer α) :=
  let buf := newIn alloc
  if size = 0 then return (h, buf)
  else do
    let (h, buf, result) ← alloc' A h buf size
    handleReserve result
    return (h, buf)

/-! ## Giving memory back -/

variable (p) in
/-- The argument of `dealloc_slow(buf.buf, buf.cap_or_len, ..)`. -/
def rawBuffer (this : RawAlignedBuffer α) : RawBuffer := ⟨this.buf, this.capOrLen⟩

variable (p) in
/-- `dealloc_buf` inside `shrink`, for an allocator with the default `deallocate_buffer`. -/
def deallocBuf (h : Heap) (this : RawAlignedBuffer α) : Except Fault (Reserved α) := do
  p.debugAssert (this.isAllocated p)
  let h ← deallocateBuffer p h (this.rawBuffer)
  return (h, { this with buf := .dangling, capOrLen := .zero }, .ok ())

def shrink (h : Heap) (this : RawAlignedBuffer α) (cap : Nat) : Except Fault (Reserved α) :=
  if this.value p < cap then .error .shrinkLarger
  else if cap = this.value p then return (h, this, .ok ())
  else if cap = 0 then deallocBuf p h this
  else realloc A h this cap

def shrinkToFit (h : Heap) (this : RawAlignedBuffer α) (cap : Nat) :
    Except Fault (Heap × RawAlignedBuffer α) := do
  let (h, this, result) ← shrink A h this cap
  handleReserve result
  return (h, this)

/-! ## Reference counting -/

variable (p)

/-- `ref_count()`. -/
def refCount (h : Heap) (this : RawAlignedBuffer α) : Except Fault Nat :=
  if ¬this.isAllocated p then do
    p.debugAssert (this.value p ≠ 0)
    return 1
  else h.loadRefCount (this.headerPtr p)

def isUnique (h : Heap) (this : RawAlignedBuffer α) : Except Fault Bool := do
  return (← this.refCount p h) = 1

/-- `ref_clone()`. The abort is decided on the value that `fetch_add` returned. -/
def refClone (h : Heap) (this : RawAlignedBuffer α) : Except Fault (Heap × RawAlignedBuffer α) :=
  if ¬this.isAllocated p then return (h, newIn this.alloc)
  else do
    let (h, oldSize) ← h.fetchAdd p (this.headerPtr p)
    if p.maxRefcount < oldSize then .error .refcountAbort
    else return (h, ⟨this.buf, this.capOrLen, this.alloc⟩)

/-- The end of `drop` once the last reference is gone: `store(1)`, and the capacity in the header as a
    tagged word, which is what `dealloc_slow` is given. -/
def dropRaw (h : Heap) (this : RawAlignedBuffer α) : Except Fault (RawBuffer) := do
  let header ← h.header (this.headerPtr p)
  let cap ← TaggedCap.new p.toTarget header.allocBufferSize true
  p.debugAssert (cap.value p.toTarget = header.allocBufferSize)
  return ⟨this.buf, cap⟩

/-- `Drop for RawAlignedBuffer`, run without interruption, with the default `deallocate_buffer`. -/
def drop (h : Heap) (this : RawAlignedBuffer α) : Except Fault Heap :=
  if ¬this.isAllocated p then return h
  else do
    let (h, old) ← h.fetchSub p (this.headerPtr p)
    if old ≠ 1 then return h
    else
      let _ ← h.loadRefCount (this.headerPtr p)
      let h ← h.storeRefCount (this.headerPtr p) 1
      let raw ← this.dropRaw p h
      deallocateBuffer p h raw

end RawAlignedBuffer

end RkyvUtils
