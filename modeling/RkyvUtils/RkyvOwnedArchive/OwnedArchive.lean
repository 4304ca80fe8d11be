import RkyvUtils.AlignedBufferPool.BufferPool

/-!
# `RkyvOwnedArchive.OwnedArchive` — a shared buffer, and the position of an archived value in it

`lib.rs` and `pool.rs` of `rkyv-owned-archive`. An archive is built by a constructor that lets `rkyv` check
the position, and turned into one of another type by the reference that a closure of the caller returns.
The reference is kept as a position: `map` subtracts the start of the buffer from its address, `deref`
adds it again.

Of `rkyv`, `access_pos_with_context` is a parameter; `access_pos_unchecked` is the address `pos` bytes behind
the start of the slice, for a value inside it. A closure is any function from what it is given (memory, the
address of the value, the slice) to the address it returns; it may change memory, fail, or panic.
-/

namespace RkyvUtils

open Word

/-- The type of an archived value: `mem::size_of::<T>()`, which is at most `isize::MAX`. -/
structure Portable (t : Target) where
  sizeOf : Nat
  sizeOf_lt : sizeOf < t.half

/-- A `&[u8]`. -/
structure ByteSlice where
  addr : Nat
  len : Nat
deriving DecidableEq, Repr

/-- How a step can end other than with an archive. -/
inductive ArchiveStop (ε : Type) where
  /-- a fault of the buffer, or an unchecked access outside the slice -/
  | fault (f : Fault)
  /-- the closure panicked -/
  | closure
  /-- "attempt to add with overflow" -/
  | overflow
  /-- one of the two assertions that the reference is within the buffer -/
  | outside
  /-- the closure of `try_map` returned `Err` -/
  | err (error : ε)
deriving DecidableEq, Repr

/-- `assert!((start..=end).contains(&x))`. -/
def assertContains {ε : Type} (start stop x : Nat) : Except (ArchiveStop ε) Unit :=
  if start ≤ x ∧ x ≤ stop then .ok () else .error .outside

/-- `OwnedArchive { buffer, pos, _phantom }`. -/
structure OwnedArchive (p : Params) (α : Type) where
  buffer : SharedAlignedBuffer α
  pos : Nat
  phantom : Portable p.toTarget

variable {α ε C : Type} {p : Params}

/-- The slice that a shared buffer dereferences to. -/
def SharedAlignedBuffer.slice (p : Params) (this : SharedAlignedBuffer α) : ByteSlice :=
  ⟨this.buf.buf.addr, this.len p⟩

namespace OwnedArchive

/-! ## Constructors -/

/-- `new_unchecked_with_pos`. -/
def newUncheckedWithPos (buffer : SharedAlignedBuffer α) (pos : Nat) (T : Portable p.toTarget) :
    OwnedArchive p α := ⟨buffer, pos, T⟩

/-- `access_pos_with_context::<T, C, E>(bytes, pos, context)`: the context afterwards and the result. -/
abbrev Access (p : Params) (C ε : Type) :=
  Portable p.toTarget → ByteSlice → Nat → C → C × Except ε Unit

/-- `access_pos_with_context` as `rkyv` documents it: it accepts no value that lies outside the slice. -/
structure CheckedAccess (p : Params) (C ε : Type) where
  access : Access p C ε
  inside : ∀ (T : Portable p.toTarget) (bytes : ByteSlice) (pos : Nat) (context : C),
    (access T bytes pos context).2 = .ok () → pos + T.sizeOf ≤ bytes.len

variable (access : Access p C ε) (buffer : SharedAlignedBuffer α) (T : Portable p.toTarget)

/-- `new_with_pos_and_context`. -/
def newWithPosAndContext (pos : Nat) (context : C) : C × Except ε (OwnedArchive p α) :=
  match access T (buffer.slice p) pos context with
  | (context, .error e) => (context, .error e)
  | (context, .ok _) => (context, .ok ⟨buffer, pos, T⟩)

/-- `buffer.len().saturating_sub(mem::size_of::<T>())`. -/
def rootPos : Nat := buffer.len p - T.sizeOf

/-- `new_with_context`. -/
def newWithContext (context : C) : C × Except ε (OwnedArchive p α) :=
  newWithPosAndContext access buffer T (rootPos buffer T) context

/-- `new_with_pos`, with the validator that it makes for the slice. -/
def newWithPos (validator : ByteSlice → C) (pos : Nat) : Except ε (OwnedArchive p α) :=
  (newWithPosAndContext access buffer T pos (validator (buffer.slice p))).2

def new (validator : ByteSlice → C) : Except ε (OwnedArchive p α) :=
  newWithPos access buffer T validator (rootPos buffer T)

/-- `new_with_pos_and_pooled_validator`, with the validator that the pool gives out for the slice. -/
def newWithPosAndPooledValidator (validatorPool : ByteSlice → C) (pos : Nat) :
    Except ε (OwnedArchive p α) := do
  (access T (buffer.slice p) pos (validatorPool (buffer.slice p))).2
  return newUncheckedWithPos buffer pos T

def newWithPooledValidator (validatorPool : ByteSlice → C) : Except ε (OwnedArchive p α) :=
  newWithPosAndPooledValidator access buffer T validatorPool (rootPos buffer T)

/-- The checked constructors, with their arguments. -/
inductive Constructor (C : Type) where
  | new (validator : ByteSlice → C)
  | newWithPos (validator : ByteSlice → C) (pos : Nat)
  | newWithContext (context : C)
  | newWithPosAndContext (pos : Nat) (context : C)
  | newWithPooledValidator (validatorPool : ByteSlice → C)
  | newWithPosAndPooledValidator (validatorPool : ByteSlice → C) (pos : Nat)

def Constructor.build : Constructor C → Except ε (OwnedArchive p α)
  | .new validator => OwnedArchive.new access buffer T validator
  | .newWithPos validator pos => OwnedArchive.newWithPos access buffer T validator pos
  | .newWithContext context => (OwnedArchive.newWithContext access buffer T context).2
  | .newWithPosAndContext pos context =>
      (OwnedArchive.newWithPosAndContext access buffer T pos context).2
  | .newWithPooledValidator validatorPool =>
      OwnedArchive.newWithPooledValidator access buffer T validatorPool
  | .newWithPosAndPooledValidator validatorPool pos =>
      OwnedArchive.newWithPosAndPooledValidator access buffer T validatorPool pos

/-! ## `deref`, `clone` and the maps -/

variable (this : OwnedArchive p α) (h : Heap)

/-- `&*self`: the address. The safety section of `access_pos_unchecked` asks for a value at `pos`. -/
def deref : Except Fault Nat :=
  if this.pos + this.phantom.sizeOf ≤ this.buffer.len p then
    .ok (this.buffer.buf.buf.addr + this.pos)
  else .error .memory

def clone : Except Fault (Heap × OwnedArchive p α) := do
  let (h, buffer) ← this.buffer.clone p h
  return (h, ⟨buffer, this.pos, this.phantom⟩)

/-- The part of the maps behind the closure, which returned a `&U` at `ptrStart`. -/
def relocate (U : Portable p.toTarget) (ptrStart : Nat) :
    Except (ArchiveStop ε) (OwnedArchive p α) := do
  let ptrEnd ← p.usizeAdd .overflow ptrStart U.sizeOf
  let bufStart := this.buffer.buf.buf.addr
  let bufEnd ← p.usizeAdd .overflow bufStart (this.buffer.len p)
  assertContains bufStart bufEnd ptrStart
  assertContains bufStart bufEnd ptrEnd
  let pos := ptrStart - bufStart
  return newUncheckedWithPos this.buffer pos U

variable (U : Portable p.toTarget)

/-- `map_with_buffer`. The answer `none` of a closure is a panic. -/
def mapWithBuffer (f : Heap → Nat → ByteSlice → Option (Heap × Nat)) :
    Except (ArchiveStop ε) (Heap × OwnedArchive p α) := do
  let value ← this.deref.mapError .fault
  match f h value (this.buffer.slice p) with
  | none => .error .closure
  | some (h, ptrStart) => do
      let mapped ← this.relocate U ptrStart
      return (h, mapped)

def map (f : Heap → Nat → Option (Heap × Nat)) :
    Except (ArchiveStop ε) (Heap × OwnedArchive p α) :=
  this.mapWithBuffer h U fun h value _ => f h value

/-- `try_map_with_buffer`. -/
def tryMapWithBuffer (f : Heap → Nat → ByteSlice → Option (Heap × Except ε Nat)) :
    Except (ArchiveStop ε) (Heap × OwnedArchive p α) := do
  let value ← this.deref.mapError .fault
  match f h value (this.buffer.slice p) with
  | none => .error .closure
  | some (_, .error e) => .error (.err e)
  | some (h, .ok ptrStart) => do
      let mapped ← this.relocate U ptrStart
      return (h, mapped)

def tryMap (f : Heap → Nat → Option (Heap × Except ε Nat)) :
    Except (ArchiveStop ε) (Heap × OwnedArchive p α) :=
  this.tryMapWithBuffer h U fun h value _ => f h value

end OwnedArchive

end RkyvUtils
