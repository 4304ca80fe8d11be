import RkyvUtils.AlignedBuffer.Alloc

/-!
# `AlignedBuffer.Global` — the `Global` allocator over `std::alloc`

`alloc.rs`: `Global` and the methods that the trait `Allocator` gives by default, down to the bytes. Below
them is `std`'s global allocator with its documented contract: `System` answers requests, the functions of
`Memory` check the safety sections (`contract`) and say what becomes of the blocks. Memory is the list of
all blocks handed out; a block keeps its place when it is released. `released` lists the blocks given back
or taken over, with the layout that was named, in order.
-/

namespace RkyvUtils

/-- A block of `std::alloc`: the layout it was requested with, and its bytes (`none` is uninitialised). -/
structure SysBlock where
  base : Nat
  layout : Layout
  bytes : List (Option UInt8)
  live : Bool
deriving DecidableEq, Repr

structure Memory where
  blocks : List SysBlock
  released : List (BlockId × Layout)
deriving DecidableEq, Repr

/-- The answers of `std::alloc::{alloc, alloc_zeroed, realloc}`: an address, or null. -/
structure System where
  alloc : Memory → Layout → Option Nat
  allocZeroed : Memory → Layout → Option Nat
  realloc : Memory → Ptr → Layout → Nat → Option Nat
  alloc_aligned : ∀ m l base, alloc m l = some base → l.align ∣ base
  allocZeroed_aligned : ∀ m l base, allocZeroed m l = some base → l.align ∣ base
  realloc_aligned : ∀ m q l size base, realloc m q l size = some base → l.align ∣ base

/-- The first aligned address behind every block so far. -/
def Memory.firstFree (m : Memory) (align : Nat) : Nat :=
  Word.roundUp (m.blocks.foldl (fun top blk => max top (blk.base + blk.layout.size)) 1) align

/-- A `std::alloc` that never reuses memory: each block lies behind all the others. -/
def System.bump : System :=
  let answer (m : Memory) (l : Layout) : Option Nat :=
    if l.align ∣ m.firstFree l.align then some (m.firstFree l.align) else none
  have aligned (m : Memory) (l : Layout) (base : Nat) (h : answer m l = some base) : l.align ∣ base := by
    simp only [answer] at h
    split at h
    · cases h; assumption
    · cases h
  { alloc := answer
    allocZeroed := answer
    realloc := fun m _ l _ => answer m l
    alloc_aligned := aligned
    allocZeroed_aligned := aligned
    realloc_aligned := fun m _ l _ base => aligned m l base }

/-! ## `std::alloc` -/

namespace Memory

variable (t : Target) (sys : System)

/-- A new block behind all the others, and the pointer to it. -/
def push (m : Memory) (blk : SysBlock) : Memory × Ptr :=
  ({ m with blocks := m.blocks ++ [blk] }, ⟨blk.base, some m.blocks.length⟩)

/-- What `dealloc` and `realloc` ask for: the start of a block currently allocated, with its layout. -/
def target (m : Memory) (q : Ptr) (l : Layout) : Except Fault (BlockId × SysBlock) :=
  match q.prov with
  | none => .error .contract
  | some b =>
      match m.blocks[b]? with
      | none => .error .contract
      | some blk =>
          if blk.live ∧ q.addr = blk.base ∧ blk.layout = l then .ok (b, blk) else .error .contract

/-- The block is given back. -/
def release (m : Memory) (b : BlockId) (blk : SysBlock) : Memory where
  blocks := m.blocks.set b { blk with live := false }
  released := m.released ++ [(b, blk.layout)]

/-- `alloc` or `alloc_zeroed`, with the byte that the new block is filled with. -/
def allocFilled (answer : Memory → Layout → Option Nat) (fill : Option UInt8) (m : Memory) (l : Layout) :
    Except Fault (Memory × Option Ptr) :=
  if l.size = 0 then .error .contract
  else match answer m l with
    | none => .ok (m, none)
    | some base =>
        let (m, q) := m.push ⟨base, l, List.replicate l.size fill, true⟩
        .ok (m, some q)

def alloc : Memory → Layout → Except Fault (Memory × Option Ptr) := allocFilled sys.alloc none

def allocZeroed : Memory → Layout → Except Fault (Memory × Option Ptr) :=
  allocFilled sys.allocZeroed (some 0)

def dealloc (m : Memory) (q : Ptr) (l : Layout) : Except Fault Memory := do
  let (b, blk) ← m.target q l
  return m.release b blk

/-- Bytes kept up to length `n`, and filled up. -/
def resized (fill : Option UInt8) (n : Nat) (bytes : List (Option UInt8)) : List (Option UInt8) :=
  bytes.take n ++ List.replicate (n - bytes.length) fill

def realloc (m : Memory) (q : Ptr) (l : Layout) (newSize : Nat) : Except Fault (Memory × Option Ptr) := do
  let (b, blk) ← m.target q l
  if newSize = 0 ∨ ¬Layout.Valid t ⟨newSize, l.align⟩ then .error .contract
  else match sys.realloc m q l newSize with
    | none => return (m, none)
    | some base =>
        let (m, q) := (m.release b blk).push ⟨base, ⟨newSize, l.align⟩, resized none newSize blk.bytes, true⟩
        return (m, some q)

/-! ## Access to bytes -/

/-- The block a pointer to its start was derived from. -/
def deref (m : Memory) (q : Ptr) : Except Fault (BlockId × SysBlock) :=
  match q.prov with
  | none => .error .memory
  | some b =>
      match m.blocks[b]? with
      | none => .error .memory
      | some blk => if blk.live ∧ q.addr = blk.base then .ok (b, blk) else .error .memory

/-- `bytes` over the bytes of a block from index `i` on. -/
def overwrite (m : Memory) (b : BlockId) (blk : SysBlock) (i : Nat) (bytes : List (Option UInt8)) : Memory :=
  { m with
    blocks := m.blocks.set b
      { blk with bytes := blk.bytes.take i ++ bytes ++ blk.bytes.drop (i + bytes.length) } }

/-- `q.add(i).write_bytes(byte, n)`. -/
def writeBytes (m : Memory) (q : Ptr) (i n : Nat) (byte : UInt8) : Except Fault Memory :=
  if n = 0 then .ok m else do
    let (b, blk) ← m.deref q
    if blk.bytes.length < i + n then .error .memory
    else return m.overwrite b blk i (List.replicate n (some byte))

/-- `ptr::copy_nonoverlapping(src, dst, n)`. -/
def copyNonoverlapping (m : Memory) (src dst : Ptr) (n : Nat) : Except Fault Memory :=
  if n = 0 then .ok m else do
    let (b, srcBlk) ← m.deref src
    let (b', dstBlk) ← m.deref dst
    if b = b' ∨ srcBlk.bytes.length < n ∨ dstBlk.bytes.length < n then .error .memory
    else return m.overwrite b' dstBlk 0 (srcBlk.bytes.take n)

end Memory

/-! ## `Global` -/

/-- A returned `Result<NonNull<[u8]>, AllocError>`, next to memory. -/
abbrev Returned := Memory × Option (Ptr × Nat)

namespace Global

variable (t : Target) (sys : System)

/-- `NonNull::slice_from_raw_parts(NonNull::new(raw_ptr).ok_or(AllocError)?, size)`. -/
def slice (r : Memory × Option Ptr) (size : Nat) : Returned := (r.1, r.2.map fun q => (q, size))

def allocImpl (m : Memory) (layout : Layout) (zeroed : Bool) : Except Fault Returned :=
  match layout.size with
  | 0 => .ok (m, some (.dangling, 0))
  | size => do
      let r ← if zeroed then m.allocZeroed sys layout else m.alloc sys layout
      return slice r size

def allocate (m : Memory) (layout : Layout) : Except Fault Returned := allocImpl sys m layout false

def allocateZeroed (m : Memory) (layout : Layout) : Except Fault Returned := allocImpl sys m layout true

def deallocate (m : Memory) (q : Ptr) (layout : Layout) : Except Fault Memory :=
  if layout.size ≠ 0 then m.dealloc q layout else .ok m

/-- The branches of `grow` and `shrink` for two alignments: allocate, copy, free. -/
def reallocate (allocate : Memory → Except Fault Returned) (m : Memory) (q : Ptr) (oldLayout : Layout)
    (n : Nat) : Except Fault Returned := do
  match ← allocate m with
  | (m, none) => return (m, none)
  | (m, some (newPtr, len)) => do
      let m ← m.copyNonoverlapping q newPtr n
      let m ← deallocate m q oldLayout
      return (m, some (newPtr, len))

def growImpl (m : Memory) (q : Ptr) (oldLayout newLayout : Layout) (zeroed : Bool) :
    Except Fault Returned := do
  t.debugAssert (oldLayout.size ≤ newLayout.size)
  match oldLayout.size with
  | 0 => allocImpl sys m newLayout zeroed
  | oldSize =>
      if oldLayout.align = newLayout.align then do
        let newSize := newLayout.size
        match ← m.realloc t sys q oldLayout newSize with
        | (m, none) => return (m, none)
        | (m, some q) => do
            let m ← if zeroed then m.writeBytes q oldSize (newSize - oldSize) 0 else .ok m
            return (m, some (q, newSize))
      else reallocate (fun m => allocImpl sys m newLayout zeroed) m q oldLayout oldSize

def grow (m : Memory) (q : Ptr) (oldLayout newLayout : Layout) : Except Fault Returned :=
  growImpl t sys m q oldLayout newLayout false

def growZeroed (m : Memory) (q : Ptr) (oldLayout newLayout : Layout) : Except Fault Returned :=
  growImpl t sys m q oldLayout newLayout true

def shrink (m : Memory) (q : Ptr) (oldLayout newLayout : Layout) : Except Fault Returned := do
  t.debugAssert (newLayout.size ≤ oldLayout.size)
  match newLayout.size with
  | 0 => do
      let m ← deallocate m q oldLayout
      return (m, some (.dangling, 0))
  | newSize =>
      if oldLayout.align = newLayout.align then do
        let r ← m.realloc t sys q oldLayout newSize
        return slice r newSize
      else reallocate (fun m => allocate sys m newLayout) m q oldLayout newSize

/-! ## The methods that `Allocator` gives by default, over the methods of `Global` -/

def defaultAllocateZeroed (m : Memory) (layout : Layout) : Except Fault Returned := do
  match ← allocate sys m layout with
  | (m, none) => return (m, none)
  | (m, some (ptr, len)) => do
      let m ← m.writeBytes ptr 0 len 0
      return (m, some (ptr, len))

def defaultGrow (m : Memory) (q : Ptr) (oldLayout newLayout : Layout) : Except Fault Returned := do
  t.debugAssert (oldLayout.size ≤ newLayout.size)
  reallocate (fun m => allocate sys m newLayout) m q oldLayout oldLayout.size

def defaultGrowZeroed (m : Memory) (q : Ptr) (oldLayout newLayout : Layout) : Except Fault Returned := do
  t.debugAssert (oldLayout.size ≤ newLayout.size)
  reallocate (fun m => allocateZeroed sys m newLayout) m q oldLayout oldLayout.size

def defaultShrink (m : Memory) (q : Ptr) (oldLayout newLayout : Layout) : Except Fault Returned := do
  t.debugAssert (newLayout.size ≤ oldLayout.size)
  reallocate (fun m => allocate sys m newLayout) m q oldLayout newLayout.size

end Global

end RkyvUtils
