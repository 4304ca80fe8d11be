import RkyvUtils.AlignedBuffer.UniqueSpec

/-!
# `AlignedBufferPool.Scratch` — the scratch allocator of a `Serializer`

`push_alloc` and `pop_alloc` of `serializer_pool.rs`, on the scratch buffer. A block is handed out as
an address and a length inside the buffer; giving it back cuts the buffer at that address.
-/

namespace RkyvUtils

open Word Ownership

/-- `NonNull<[u8]>`. -/
structure Slice where
  ptr : Ptr
  len : Nat
deriving DecidableEq, Repr

inductive BufferAllocError where
  | notPoppedInReverseOrder (pos poppedPos poppedSize : Nat)
  | doesNotContainAllocation
deriving DecidableEq, Repr

namespace Scratch

variable {α : Type} {p : Params} (A : Allocator p.toTarget)

variable (p) in
/-- `0usize.wrapping_sub(alloc_offset) % layout.align()`. -/
def allocPad (scratch : UniqueAlignedBuffer α) (layout : Layout) : Nat :=
  let allocOffset := scratch.asMutPtr.addr + scratch.len
  wrappingSub p.bits 0 allocOffset % layout.align

variable (p) in
def allocLen (scratch : UniqueAlignedBuffer α) (layout : Layout) : Nat :=
  allocPad p scratch layout + layout.size

variable (p) in
/-- `debug_assert!((*result_slice).iter().all(|&b| b == 0))`; the slice is read by the assertion only. -/
def assertZeroed (h : Heap) (slice : Slice) : Except Fault Unit :=
  if p.debug then do
    let bytes ← h.read p slice.ptr slice.len
    p.debugAssert (bytes.all (· == 0))
  else return ()

/-- `push_alloc`. The padding is taken from the address before `reserve`. -/
def pushAlloc (h : Heap) (scratch : UniqueAlignedBuffer α) (layout : Layout) :
    Except Fault (Heap × UniqueAlignedBuffer α × Slice) := do
  let pad := allocPad p scratch layout
  let len := allocLen p scratch layout
  let (h, scratch) ← scratch.reserve A h len
  let h ← h.write p (scratch.asMutPtr.add scratch.len) (List.replicate len 0)
  let start := scratch.len + pad
  let scratch ← scratch.setLen p (scratch.len + len)
  let result : Slice := ⟨scratch.asMutPtr.add start, layout.size⟩
  assertZeroed p h result
  return (h, scratch, result)

variable (p) in
/-- `pop_alloc`. Only addresses are compared, so the block the pointer came from plays no part. -/
def popAlloc (h : Heap) (scratch : UniqueAlignedBuffer α) (ptr : Ptr) (layout : Layout) :
    Except Fault (UniqueAlignedBuffer α × Except BufferAllocError Unit) := do
  let bytes ← scratch.asSlice p h
  let first := scratch.asMutPtr.addr
  if first ≤ ptr.addr ∧ ptr.addr < first + bytes.length then
    let poppedPos := ptr.addr - first
    if poppedPos + layout.size ≤ scratch.len then
      let scratch ← scratch.setLen p poppedPos
      return (scratch, .ok ())
    else return (scratch, .error (.notPoppedInReverseOrder scratch.len poppedPos layout.size))
  else return (scratch, .error .doesNotContainAllocation)

/-! ## What the two calls do to the stored bytes -/

open UniqueAlignedBuffer

variable {h : Heap} {this : UniqueAlignedBuffer α} {o : Option BlockId} {xs : List UInt8}
  {data : List (Option UInt8)}

/-- Setting a length inside the capacity. -/
theorem setLen_eq (hs : Stores p h this o xs data) {n : Nat} (hn : n ≤ data.length) :
    this.setLen p n = .ok { this with len := n } := by
  unfold setLen
  rw [hs.capacity_eq, Target.debugAssert_ok hn]
  rfl

/-- The assertion holds of zero bytes at the end of the buffer. -/
theorem assertZeroed_eq {n m : Nat} (hs : Stores p h this o (xs ++ List.replicate (n + m) 0) data) :
    assertZeroed p h ⟨this.asMutPtr.add (xs.length + n), m⟩ = .ok () := by
  unfold assertZeroed
  cases p.debug with
  | false => rfl
  | true =>
      have hbytes : (data.drop (xs.length + n)).take m = (List.replicate m (0 : UInt8)).map some := by
        have hb := congrArg (List.drop (xs.length + n)) hs.bytes
        rw [List.drop_take] at hb
        have hlen : (xs ++ List.replicate (n + m) (0 : UInt8)).length - (xs.length + n) = m := by
          simp; omega
        rw [hlen] at hb
        rw [hb, ← List.map_drop, ← List.drop_drop, List.drop_left, List.drop_replicate,
          Nat.add_sub_cancel_left]
      have hread : h.read p (this.asMutPtr.add (xs.length + n)) m = .ok (List.replicate m 0) := by
        have := hs.holds.read (xs.length + n) (List.replicate m 0)
          (by rw [List.length_replicate]; exact hbytes)
        rwa [List.length_replicate] at this
      rw [if_pos rfl]
      dsimp only
      rw [hread, ok_bind, Target.debugAssert_ok]
      simp

/-- **`push_alloc` behind its reservation**: zero bytes are appended, and the block is the last `size` of
    them. -/
theorem pushAlloc_reserved {layout : Layout} {h₁ : Heap} {this₁ : UniqueAlignedBuffer α}
    {o₁ : Option BlockId} {data₁ : List (Option UInt8)}
    (hreserve : this.reserve A h (allocLen p this layout) = .ok (h₁, this₁))
    (hs₁ : Stores p h₁ this₁ o₁ xs data₁) (hroom : xs.length + allocLen p this layout ≤ data₁.length) :
    ∃ h₂ data₂, pushAlloc A h this layout
        = .ok (h₂, { this₁ with len := this₁.len + allocLen p this layout },
            ⟨this₁.asMutPtr.add (xs.length + allocPad p this layout), layout.size⟩) ∧
      Leads p h₁ this₁ o₁ (xs ++ List.replicate (allocLen p this layout) 0) h₂
        { this₁ with len := this₁.len + allocLen p this layout } o₁ data₂ ∧
      data₂.length = data₁.length := by
  obtain ⟨h₂, data₂, hw, hl₂, hlen⟩ :=
    hs₁.write_end (List.replicate (allocLen p this layout) 0) (by simpa using hroom)
  have hset : this₁.setLen p (this₁.len + allocLen p this layout)
      = .ok { this₁ with len := this₁.len + allocLen p this layout } := by
    rw [hs₁.length_eq]
    exact setLen_eq hs₁ hroom
  rw [List.length_replicate] at hl₂
  refine ⟨h₂, data₂, ?_, hl₂, hlen⟩
  have hz := assertZeroed_eq (n := allocPad p this layout) (m := layout.size) hl₂.stores
  unfold pushAlloc
  dsimp only
  rw [hreserve, ok_bind]
  dsimp only
  rw [hw, ok_bind, hset, ok_bind, hs₁.length_eq]
  rw [show ({ this₁ with len := this₁.len + allocLen p this layout } : UniqueAlignedBuffer α).asMutPtr
    = this₁.asMutPtr from rfl] at hz
  rw [show ({ this₁ with len := xs.length + allocLen p this layout } : UniqueAlignedBuffer α).asMutPtr
    = this₁.asMutPtr from rfl, hz]
  rfl

/-- **A successful `push_alloc`** appends zero bytes, as many as the padding and the size; the block is
    the last `size` of them. Otherwise the reservation panicked or aborted. -/
theorem pushAlloc_spec (hs : Stores p h this o xs data) (layout : Layout) :
    (∃ h' this' o' data', pushAlloc A h this layout
        = .ok (h', this', ⟨this'.asMutPtr.add (xs.length + allocPad p this layout), layout.size⟩) ∧
      Leads p h this o (xs ++ List.replicate (allocLen p this layout) 0) h' this' o' data') ∨
    pushAlloc A h this layout = .error .capacityOverflow ∨
    pushAlloc A h this layout = .error .allocError := by
  rcases reserve_spec A hs (allocLen p this layout) with ⟨h₁, this₁, o₁, data₁, hr, hl, hcap⟩ | hr | hr
  · left
    obtain ⟨h₂, data₂, hpush, hl₂, -⟩ := pushAlloc_reserved A hr hl.stores hcap
    exact ⟨h₂, _, o₁, data₂, hpush, hl.trans hl₂⟩
  · right; left
    unfold pushAlloc
    dsimp only
    rw [hr]; rfl
  · right; right
    unfold pushAlloc
    dsimp only
    rw [hr]; rfl

/-- **`pop_alloc`** never writes, and cuts the stored bytes or leaves them alone. -/
theorem popAlloc_spec (hs : Stores p h this o xs data) (ptr : Ptr) (layout : Layout) :
    popAlloc p h this ptr layout =
      if this.asMutPtr.addr ≤ ptr.addr ∧ ptr.addr < this.asMutPtr.addr + xs.length then
        if ptr.addr - this.asMutPtr.addr + layout.size ≤ xs.length then
          .ok ({ this with len := ptr.addr - this.asMutPtr.addr }, .ok ())
        else .ok (this, .error (.notPoppedInReverseOrder xs.length
          (ptr.addr - this.asMutPtr.addr) layout.size))
      else .ok (this, .error .doesNotContainAllocation) := by
  have hle := hs.length_le
  unfold popAlloc
  rw [hs.asSlice_eq, ok_bind]
  dsimp only
  rw [hs.length_eq]
  split
  · split
    · rw [setLen_eq hs (by omega)]; rfl
    · rfl
  · rfl

end Scratch

/-! ## Everything that can be done to a unique buffer -/

/-- A mutator, or a call of the scratch allocator. -/
inductive BufferOp where
  | unique (op : UniqueOp)
  | pushAlloc (layout : Layout)
  | popAlloc (ptr : Ptr) (layout : Layout)
deriving DecidableEq, Repr

namespace BufferOp

open UniqueAlignedBuffer

variable {α : Type} {p : Params} (A : Allocator p.toTarget)

def frees (p : Params) (this : UniqueAlignedBuffer α) : BufferOp → Bool
  | unique op => op.frees p this
  | _ => false

def apply (h : Heap) (this : UniqueAlignedBuffer α) : BufferOp → Ended α
  | unique op => op.apply A h this
  | pushAlloc layout =>
      match Scratch.pushAlloc A h this layout with
      | .ok (h, this, _) => (h, this, none)
      | .error f => (h, this, some f)
  | popAlloc ptr layout =>
      match Scratch.popAlloc p h this ptr layout with
      | .ok (this, _) => (h, this, none)
      | .error f => (h, this, some f)

variable {h : Heap} {this : UniqueAlignedBuffer α} {o : Option BlockId} {xs : List UInt8}
  {data : List (Option UInt8)}

/-- **Whatever is done to a unique buffer** that keeps its block, the buffer again stores some list, no
    memory but its own is touched, and the call ends with a value, a panic or an abort for want of
    memory. -/
theorem apply_spec (hs : Stores p h this o xs data) (op : BufferOp) (hkeep : op.frees p this = false) :
    ∃ h' this' e o' ys data', op.apply A h this = (h', this', e) ∧
      Leads p h this o ys h' this' o' data' ∧
      ∀ f, e = some f → f.unwinds = true ∨ f = .allocError := by
  cases op with
  | unique op =>
      have hend := UniqueAlignedBuffer.apply_spec A hs op hkeep
      simp only [apply]
      generalize op.apply A h this = e at hend
      cases hend with
      | returned hl =>
          exact ⟨_, _, _, _, _, _, rfl, hl, fun f hf => Or.inl (by
            simp [Fault.unwinds, UniqueOp.onList_isCallers hf])⟩
      | reservation hl hf =>
          refine ⟨_, _, _, _, _, _, rfl, hl, fun f he => ?_⟩
          cases he
          rcases hf with rfl | rfl
          · exact Or.inl rfl
          · exact Or.inr rfl
  | pushAlloc layout =>
      rcases Scratch.pushAlloc_spec A hs layout with ⟨h', this', o', data', hp, hl⟩ | hp | hp
      · simp only [apply, hp]
        exact ⟨_, _, _, _, _, _, rfl, hl, fun f hf => by cases hf⟩
      · simp only [apply, hp]
        exact ⟨_, _, _, _, _, _, rfl, .refl hs, fun f hf => by cases hf; exact Or.inl rfl⟩
      · simp only [apply, hp]
        exact ⟨_, _, _, _, _, _, rfl, .refl hs, fun f hf => by cases hf; exact Or.inr rfl⟩
  | popAlloc ptr layout =>
      have hlen := hs.length_eq
      simp only [apply, Scratch.popAlloc_spec hs]
      by_cases hin : this.asMutPtr.addr ≤ ptr.addr ∧ ptr.addr < this.asMutPtr.addr + xs.length
      · by_cases hfit : ptr.addr - this.asMutPtr.addr + layout.size ≤ xs.length
        · have ht := hs.take (ptr.addr - this.asMutPtr.addr)
          rw [Nat.min_eq_left (by omega)] at ht
          simp only [if_pos hin, if_pos hfit]
          exact ⟨_, _, _, _, _, _, rfl, ⟨ht, rfl, .refl⟩, fun f hf => by cases hf⟩
        · simp only [if_pos hin, if_neg hfit]
          exact ⟨_, _, _, _, _, _, rfl, .refl hs, fun f hf => by cases hf⟩
      · simp only [if_neg hin]
        exact ⟨_, _, _, _, _, _, rfl, .refl hs, fun f hf => by cases hf⟩

end BufferOp

end RkyvUtils
