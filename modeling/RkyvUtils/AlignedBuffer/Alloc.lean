import RkyvUtils.Lib.Ownership
import RkyvUtils.AlignedBuffer.Layout

/-!
# `AlignedBuffer.Alloc` — memory blocks, pointers, and the `Allocator` contract

`alloc.rs` documents what an allocator may do and what its callers owe it. The heap is the list of all
blocks an allocator ever handed out; a block keeps its place in the list when it is given back, so a
pointer, which carries the block it was derived from next to its address, can never be confused with a
pointer to a later block at the same address. An access outside an allocated block is `Fault.memory`, an
allocator call outside its safety section is `Fault.contract`.

An `Allocator` is any choice of answers that meets the contract: it may fail, move the block, and return
more bytes than asked for. It sees the whole heap and the number of calls made so far, so nothing is
assumed about how it picks.
-/

namespace RkyvUtils

open Word Ownership

/-- The place of a block in the heap. -/
abbrev BlockId := Nat

/-- A raw pointer: its address, and the block it was derived from. -/
structure Ptr where
  addr : Nat
  prov : Option BlockId
deriving DecidableEq, Repr

namespace Ptr

/-- `NonNull::<u8>::dangling()`: the address is the alignment of `u8`. -/
def dangling : Ptr := ⟨1, none⟩

def add (q : Ptr) (n : Nat) : Ptr := { q with addr := q.addr + n }

def sub (q : Ptr) (n : Nat) : Ptr := { q with addr := q.addr - n }

end Ptr

/-- The `Header` at the start of a block. -/
structure Header where
  refCount : Nat
  allocBufferSize : Nat
deriving DecidableEq, Repr

/-- What became of a block: allocated, moved by a successful `grow` or `shrink`, or deallocated. -/
inductive BlockStatus where
  | allocated
  | replaced
  | deallocated
deriving DecidableEq, Repr

/-- A memory block: where it is, its size and the layout last requested for it, the header once written,
    and the bytes from `BUFFER_OFFSET` on (`none` is an uninitialised byte). -/
structure Block where
  base : Nat
  size : Nat
  layout : Layout
  header : Option Header
  data : List (Option UInt8)
  status : BlockStatus
deriving DecidableEq, Repr

/-- Memory as the allocator sees it: every block handed out so far, and the number of calls. -/
structure Heap where
  blocks : List Block
  calls : Nat
deriving DecidableEq, Repr

namespace Heap

def empty : Heap := ⟨[], 0⟩

end Heap

/-- Memory fitting: the layout has the alignment the block was allocated with, and its size lies between
    the size last requested and the size last returned. -/
def Block.Fits (blk : Block) (l : Layout) : Prop :=
  l.align = blk.layout.align ∧ blk.layout.size ≤ l.size ∧ l.size ≤ blk.size

instance (blk : Block) (l : Layout) : Decidable (blk.Fits l) := inferInstanceAs (Decidable (_ ∧ _))

/-- A returned `NonNull<[u8]>`. -/
structure Grant where
  base : Nat
  size : Nat
deriving DecidableEq, Repr

/-- What the contract says of a returned block: non-null, aligned, inside the address space, at least as
    large as asked, and of a size that is itself a valid `Layout` size. That distinct blocks do not
    overlap is built into the heap. -/
def Grant.Meets (t : Target) (l : Layout) (g : Grant) : Prop :=
  0 < g.base ∧ l.align ∣ g.base ∧ g.base + g.size ≤ 2 ^ t.bits ∧ l.size ≤ g.size ∧
    Layout.Valid t ⟨g.size, l.align⟩

/-- An allocator that obeys the contract. -/
structure Allocator (t : Target) where
  allocate : Heap → Layout → Option Grant
  grow : Heap → Ptr → Layout → Layout → Option Grant
  shrink : Heap → Ptr → Layout → Layout → Option Grant
  allocate_meets : ∀ h l g, allocate h l = some g → g.Meets t l
  grow_meets : ∀ h q old new g, grow h q old new = some g → g.Meets t new
  shrink_meets : ∀ h q old new g, shrink h q old new = some g → g.Meets t new

instance (t : Target) (l : Layout) (g : Grant) : Decidable (g.Meets t l) :=
  inferInstanceAs (Decidable (_ ∧ _))

/-- The first aligned address behind every block so far. -/
def Heap.firstFree (h : Heap) (align : Nat) : Nat :=
  roundUp (h.blocks.foldl (fun top blk => max top (blk.base + blk.size)) 1) align

/-- An allocator that never reuses memory: the answer to every request is a block of exactly the size
    asked for behind all the others. -/
def Allocator.bump (t : Target) : Allocator t :=
  let answer (h : Heap) (l : Layout) : Option Grant :=
    if Grant.Meets t l ⟨h.firstFree l.align, l.size⟩ then some ⟨h.firstFree l.align, l.size⟩ else none
  have meets (h : Heap) (l : Layout) (g : Grant) (hg : answer h l = some g) : g.Meets t l := by
    simp only [answer] at hg
    split at hg
    · cases hg; assumption
    · cases hg
  { allocate := answer
    grow := fun h _ _ new => answer h new
    shrink := fun h _ _ new => answer h new
    allocate_meets := meets
    grow_meets := fun h _ _ new g => meets h new g
    shrink_meets := fun h _ _ new g => meets h new g }

namespace Heap

variable (p : Params)

/-! ## Access through a pointer -/

/-- The allocated block a pointer was derived from. -/
def deref (h : Heap) (q : Ptr) : Except Fault (BlockId × Block) :=
  match q.prov with
  | none => .error .memory
  | some b =>
      match h.blocks[b]? with
      | none => .error .memory
      | some blk => if blk.status = .allocated then .ok (b, blk) else .error .memory

/-- The block the pointer was derived from, with its contents replaced. -/
def update (h : Heap) (b : BlockId) (blk : Block) : Heap := { h with blocks := h.blocks.set b blk }

/-- `&*(ptr as *const Header)`. -/
def header (h : Heap) (q : Ptr) : Except Fault Header := do
  let (_, blk) ← h.deref q
  if q.addr ≠ blk.base then .error .memory
  else match blk.header with
    | none => .error .memory
    | some hd => return hd

/-- A write of the header. -/
def setHeader (h : Heap) (q : Ptr) (hd : Header) : Except Fault Heap := do
  let (b, blk) ← h.deref q
  if q.addr ≠ blk.base then .error .memory
  else return h.update b { blk with header := some hd }

/-- The bytes `bs` written over `l` from index `i` on. -/
def splice (l : List (Option UInt8)) (i : Nat) (bs : List UInt8) : List (Option UInt8) :=
  l.take i ++ bs.map some ++ l.drop (i + bs.length)

/-- A write of consecutive bytes; writing no bytes touches no memory. -/
def write (h : Heap) (q : Ptr) (bs : List UInt8) : Except Fault Heap :=
  if bs.length = 0 then return h else do
    let (b, blk) ← h.deref q
    let start := blk.base + p.bufferOffset
    -- the header in front of the data is not written through a data pointer
    if q.addr < start ∨ blk.data.length < q.addr - start + bs.length then .error .memory
    else return h.update b { blk with data := splice blk.data (q.addr - start) bs }

/-- `slice::from_raw_parts(ptr, n)`, read: every byte must be allocated and initialised; an empty slice
    touches no memory. -/
def read (h : Heap) (q : Ptr) (n : Nat) : Except Fault (List UInt8) :=
  if n = 0 then return [] else do
    let (_, blk) ← h.deref q
    let start := blk.base + p.bufferOffset
    if q.addr < start ∨ blk.data.length < q.addr - start + n then .error .memory
    else
      let bytes := (blk.data.drop (q.addr - start)).take n
      if bytes.all Option.isSome then return bytes.filterMap id else .error .memory

/-! ## The allocator's methods -/

/-- A list cut or filled up with uninitialised bytes to length `n`. -/
def padTo (n : Nat) (l : List (Option UInt8)) : List (Option UInt8) :=
  l.take n ++ List.replicate (n - l.length) none

/-- A returned block: the kept part of the old contents, the rest uninitialised. -/
def granted (g : Grant) (l : Layout) (header : Option Header) (kept : List (Option UInt8)) : Block :=
  ⟨g.base, g.size, l, header, padTo (g.size - p.bufferOffset) kept, .allocated⟩

variable {p} in
/-- `Allocator::allocate`. -/
def allocate (A : Allocator p.toTarget) (h : Heap) (l : Layout) : Heap × Option (Ptr × Nat) :=
  match A.allocate h l with
  | none => ({ h with calls := h.calls + 1 }, none)
  | some g =>
      ({ blocks := h.blocks ++ [granted p g l none []], calls := h.calls + 1 },
        some (⟨g.base, some h.blocks.length⟩, g.size))

/-- What every other method asks of its pointer and layout: the start of a block currently allocated,
    and a layout that fits it. -/
def target (h : Heap) (q : Ptr) (l : Layout) : Except Fault (BlockId × Block) :=
  match h.deref q with
  | .error _ => .error .contract
  | .ok (b, blk) => if q.addr = blk.base ∧ blk.Fits l then .ok (b, blk) else .error .contract

/-- The heap after a block was moved: the old block is gone, the new one has the first `kept` bytes. -/
def moved (h : Heap) (b : BlockId) (blk : Block) (g : Grant) (l : Layout) (kept : Nat) : Heap :=
  { blocks := h.blocks.set b { blk with status := .replaced } ++
      [granted p g l blk.header (blk.data.take kept)]
    calls := h.calls + 1 }

variable {p} in
/-- `Allocator::grow`. The check on the sizes is strict, where the trait asks for `≥` only: a run without
    faults calls `grow` with a larger size only. -/
def grow (A : Allocator p.toTarget) (h : Heap) (q : Ptr) (old new : Layout) :
    Except Fault (Heap × Option (Ptr × Nat)) := do
  let (b, blk) ← h.target q old
  if ¬old.size < new.size then .error .contract
  else match A.grow h q old new with
    | none => return ({ h with calls := h.calls + 1 }, none)
    | some g =>
        return (moved p h b blk g new (old.size - p.bufferOffset),
          some (⟨g.base, some h.blocks.length⟩, g.size))

variable {p} in
/-- `Allocator::shrink`, with the same strict check the other way. -/
def shrink (A : Allocator p.toTarget) (h : Heap) (q : Ptr) (old new : Layout) :
    Except Fault (Heap × Option (Ptr × Nat)) := do
  let (b, blk) ← h.target q old
  if ¬new.size < old.size then .error .contract
  else match A.shrink h q old new with
    | none => return ({ h with calls := h.calls + 1 }, none)
    | some g =>
        return (moved p h b blk g new (new.size - p.bufferOffset),
          some (⟨g.base, some h.blocks.length⟩, g.size))

/-- `Allocator::deallocate`. -/
def deallocate (h : Heap) (q : Ptr) (l : Layout) : Except Fault Heap := do
  let (b, blk) ← h.target q l
  return h.update b { blk with status := .deallocated }

end Heap

/-! ## Blocks of buffers -/

/-- Binding a call that returned. -/
theorem ok_bind {ε α β : Type} (a : α) (f : α → Except ε β) : (Except.ok a >>= f) = f a := rfl

/-- A call followed by another that both returned. -/
theorem bind_eq_ok {α β : Type} {x : Except Fault α} {f : α → Except Fault β} {r : β}
    (h : x >>= f = .ok r) : ∃ a, x = .ok a ∧ f a = .ok r := by
  cases x with
  | ok a => exact ⟨a, rfl, h⟩
  | error e => cases h

namespace Block

variable (p : Params)

/-- The data pointer of block `b`, behind the header. -/
def dataPtr (blk : Block) (b : BlockId) : Ptr := ⟨blk.base + p.bufferOffset, some b⟩

@[simp] theorem dataPtr_sub (blk : Block) (b : BlockId) :
    (blk.dataPtr p b).sub p.bufferOffset = ⟨blk.base, some b⟩ := by
  simp [dataPtr, Ptr.sub]

@[simp] theorem dataPtr_add (blk : Block) (b : BlockId) (i : Nat) :
    (blk.dataPtr p b).add i = ⟨blk.base + p.bufferOffset + i, some b⟩ := rfl

/-- The geometry of an allocated block of a buffer: header, offset and data fill the block, the block
    was allocated at the block alignment, and its size is a valid `Layout` size. -/
structure Ok (blk : Block) : Prop where
  status : blk.status = .allocated
  size_eq : blk.size = p.bufferOffset + blk.data.length
  size_le : blk.size + p.blockAlign ≤ p.half
  base_pos : 0 < blk.base
  base_aligned : p.blockAlign ∣ blk.base
  base_le : blk.base + blk.size ≤ 2 ^ p.bits
  layout_align : blk.layout.align = p.blockAlign
  layout_le : blk.layout.size ≤ blk.size
  data_pos : 0 < blk.data.length

variable {p} {blk : Block}

/-- The capacity of a block fits the tagged word. -/
theorem Ok.data_lt (hok : blk.Ok p) : blk.data.length < p.half := by
  have := hok.size_eq
  have := hok.size_le
  have := p.blockAlign_pos
  omega

/-- The layout recomputed from the capacity fits the block. -/
theorem Ok.fits (hok : blk.Ok p) : blk.Fits ⟨p.bufferOffset + blk.data.length, p.blockAlign⟩ :=
  ⟨hok.layout_align.symm, hok.size_eq ▸ hok.layout_le, by rw [hok.size_eq]⟩

/-- `RawAlignedBuffer::layout` of the capacity succeeds. -/
theorem Ok.layout_eq (hok : blk.Ok p) :
    p.layout blk.data.length = .ok (.ok ⟨p.bufferOffset + blk.data.length, p.blockAlign⟩) := by
  have hle := hok.size_le
  rw [hok.size_eq] at hle
  rw [p.layout_eq, if_pos hle]

/-- Only the header and the contents of the bytes may change under `Ok`. -/
theorem Ok.setHeader (hok : blk.Ok p) (hd : Header) : ({ blk with header := some hd } : Block).Ok p :=
  ⟨hok.1, hok.2, hok.3, hok.4, hok.5, hok.6, hok.7, hok.8, hok.9⟩

theorem Ok.setData (hok : blk.Ok p) {data : List (Option UInt8)}
    (hlen : data.length = blk.data.length) : ({ blk with data := data } : Block).Ok p :=
  ⟨hok.1, hlen ▸ hok.2, hok.3, hok.4, hok.5, hok.6, hok.7, hok.8, hlen ▸ hok.9⟩

end Block

namespace Heap

variable {p : Params} {h : Heap} {b : BlockId} {blk : Block}

@[simp] theorem blocks_update : (h.update b blk).blocks = h.blocks.set b blk := rfl

/-- Writing a block back changes nothing. -/
theorem update_self (hb : h.blocks[b]? = some blk) : h.update b blk = h := by
  obtain ⟨hlt, hget⟩ := List.getElem?_eq_some_iff.mp hb
  unfold update
  rw [← hget, List.set_getElem_self]

@[simp] theorem splice_nil (l : List (Option UInt8)) (i : Nat) : splice l i [] = l := by
  simp [splice]

@[simp] theorem length_splice {l : List (Option UInt8)} {i : Nat} {bs : List UInt8}
    (hi : i + bs.length ≤ l.length) : (splice l i bs).length = l.length := by
  simp [splice]; omega

/-- What lies before the written bytes, and the written bytes. -/
theorem take_splice {l : List (Option UInt8)} {i : Nat} {bs : List UInt8}
    (hi : i + bs.length ≤ l.length) :
    (splice l i bs).take (i + bs.length) = l.take i ++ bs.map some := by
  have hlen : (l.take i ++ bs.map some).length = i + bs.length := by simp; omega
  unfold splice
  rw [← hlen, List.take_left]

/-- Writing inside the first `n` bytes is writing inside those bytes alone. -/
theorem take_splice_of_le {l : List (Option UInt8)} {i n : Nat} {bs : List UInt8}
    (hi : i + bs.length ≤ n) (hn : n ≤ l.length) :
    (splice l i bs).take n = splice (l.take n) i bs := by
  have hfront : (l.take i ++ bs.map some).length = i + bs.length := by simp; omega
  unfold splice
  rw [List.take_append, hfront, List.take_of_length_le (by omega), List.take_take, List.drop_take,
    Nat.min_eq_left (by omega)]

/-! ### Access to an allocated block succeeds -/

section

variable (hb : h.blocks[b]? = some blk) (hs : blk.status = .allocated)
include hb hs

theorem deref_eq (addr : Nat) : h.deref ⟨addr, some b⟩ = .ok (b, blk) := by
  simp only [deref, hb, hs, if_true]

theorem header_eq {hd : Header} (hh : blk.header = some hd) :
    h.header ⟨blk.base, some b⟩ = .ok hd := by
  unfold header
  rw [deref_eq hb hs, ok_bind]
  simp only [ne_eq, not_true_eq_false, if_false, hh]; rfl

theorem setHeader_eq (hd : Header) :
    h.setHeader ⟨blk.base, some b⟩ hd = .ok (h.update b { blk with header := some hd }) := by
  unfold setHeader
  rw [deref_eq hb hs, ok_bind]
  simp only [ne_eq, not_true_eq_false, if_false]; rfl

theorem write_eq {i : Nat} {bs : List UInt8} (hi : i + bs.length ≤ blk.data.length) :
    h.write p ⟨blk.base + p.bufferOffset + i, some b⟩ bs
      = .ok (h.update b { blk with data := splice blk.data i bs }) := by
  unfold write
  by_cases hz : bs.length = 0
  · rw [if_pos hz, List.length_eq_zero_iff.mp hz, splice_nil, update_self hb]; rfl
  rw [if_neg hz, deref_eq hb hs, ok_bind]
  dsimp only
  rw [if_neg (by omega), show blk.base + p.bufferOffset + i - (blk.base + p.bufferOffset) = i by omega]
  rfl

theorem read_eq {i : Nat} {bs : List UInt8} (hi : (blk.data.drop i).take bs.length = bs.map some) :
    h.read p ⟨blk.base + p.bufferOffset + i, some b⟩ bs.length = .ok bs := by
  unfold read
  by_cases hz : bs.length = 0
  · rw [if_pos hz, List.length_eq_zero_iff.mp hz]; rfl
  · have hlen : i + bs.length ≤ blk.data.length := by
      have := congrArg List.length hi
      simp only [List.length_take, List.length_drop, List.length_map] at this
      omega
    rw [if_neg hz, deref_eq hb hs, ok_bind]
    dsimp only
    rw [show blk.base + p.bufferOffset + i - (blk.base + p.bufferOffset) = i by omega,
      if_neg (by omega), hi]
    simp [pure, Except.pure]

theorem target_eq {l : Layout} (hfit : blk.Fits l) : h.target ⟨blk.base, some b⟩ l = .ok (b, blk) := by
  unfold target
  rw [deref_eq hb hs]
  simp only [true_and, if_pos hfit]

end

/-! ### Blocks the allocator returns -/

@[simp] theorem length_padTo (n : Nat) (l : List (Option UInt8)) : (padTo n l).length = n := by
  simp [padTo]; omega

/-- Padding keeps what fits. -/
theorem take_padTo {n k : Nat} {l : List (Option UInt8)} (hk : k ≤ n) (hl : k ≤ l.length) :
    (padTo n l).take k = l.take k := by
  unfold padTo
  rw [List.take_append_of_le_length (by simp; omega), List.take_take, Nat.min_eq_left hk]

/-- **A returned block has the geometry of a buffer block**, and at least the requested capacity. -/
theorem granted_ok {g : Grant} {cap : Nat} (hd : Option Header) (kept : List (Option UInt8))
    (hg : g.Meets p.toTarget ⟨p.bufferOffset + cap, p.blockAlign⟩) (hcap : 0 < cap) :
    (granted p g ⟨p.bufferOffset + cap, p.blockAlign⟩ hd kept).Ok p ∧
      cap ≤ (granted p g ⟨p.bufferOffset + cap, p.blockAlign⟩ hd kept).data.length := by
  obtain ⟨hpos, hdvd, hle, hsize, -, hvalid⟩ := hg
  dsimp only at hsize hvalid hdvd
  have hlen : (granted p g ⟨p.bufferOffset + cap, p.blockAlign⟩ hd kept).data.length
      = g.size - p.bufferOffset := length_padTo _ _
  refine ⟨⟨rfl, ?_, hvalid, hpos, hdvd, hle, rfl, hsize, ?_⟩, ?_⟩
  · rw [hlen]; show g.size = _; omega
  · rw [hlen]; omega
  · rw [hlen]; omega

end Heap

end RkyvUtils
