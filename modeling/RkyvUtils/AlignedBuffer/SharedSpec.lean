import RkyvUtils.AlignedBuffer.Shared
import RkyvUtils.AlignedBuffer.UniqueRuns

/-!
# `AlignedBuffer.SharedSpec` — reference counting, and the way from unique to shared and back

First the counting operations on a handle to an allocated block, whatever the count is. Then the round
trip of `into_shared` and `try_unique`: between the two the heap differs from the one before in the
reference count of one block only, and the count is the number of handles. A buffer without a block has
no header to count in; its `ref_count` is the constant 1, behind an assertion that never holds.
-/

namespace RkyvUtils

open Word Ownership Run

/-- The block with reference count `rc` and its own capacity in the header. -/
def Block.counted (blk : Block) (rc : Nat) : Block :=
  { blk with header := some ⟨rc, blk.data.length⟩ }

namespace Block

variable {p : Params} {blk : Block} {rc rc' : Nat}

@[simp] theorem counted_counted : (blk.counted rc).counted rc' = blk.counted rc' := rfl

@[simp] theorem data_counted : (blk.counted rc).data = blk.data := rfl

@[simp] theorem dataPtr_counted (b : BlockId) : (blk.counted rc).dataPtr p b = blk.dataPtr p b := rfl

theorem Ok.counted (hok : blk.Ok p) (rc : Nat) : (blk.counted rc).Ok p := hok.setHeader _

/-- A header that has the capacity right is the one of its own count. -/
theorem counted_self (hh : blk.header = some ⟨rc, blk.data.length⟩) : blk.counted rc = blk := by
  unfold counted
  rw [← hh]

end Block

/-- Writing one block twice. -/
@[simp] theorem Heap.update_update (h : Heap) (b : BlockId) (blk blk' : Block) :
    (h.update b blk).update b blk' = h.update b blk' := by
  simp [Heap.update]

namespace RawAlignedBuffer

variable {α : Type} {p : Params}

/-- A handle to block `b` with the value `v` in its tagged word. -/
def onBlock (p : Params) (blk : Block) (b : BlockId) (v : Nat) (alloc : α) : RawAlignedBuffer α :=
  ⟨blk.dataPtr p b, .pack p.toTarget v true, alloc⟩

variable {h : Heap} {b : BlockId} {blk : Block} {v rc : Nat} {alloc : α}

@[simp] theorem headerPtr_onBlock : (onBlock p blk b v alloc).headerPtr p = ⟨blk.base, some b⟩ :=
  Block.dataPtr_sub p blk b

theorem value_onBlock (hv : v < p.half) : (onBlock p blk b v alloc).value p = v :=
  TaggedCap.value_pack hv _

theorem isAllocated_onBlock (blk : Block) (b : BlockId) (alloc : α) (hv : v < p.half) :
    (onBlock p blk b v alloc).isAllocated p = true :=
  TaggedCap.isAllocated_pack hv _

/-! ## Counting on an allocated block -/

section

variable (hb : h.blocks[b]? = some (blk.counted rc)) (ok : blk.Ok p)
include hb ok

/-- The header is there to be read. -/
theorem header_counted : h.header ⟨blk.base, some b⟩ = .ok ⟨rc, blk.data.length⟩ :=
  Heap.header_eq hb (ok.counted rc).status rfl

theorem setHeader_counted (rc' : Nat) :
    h.setHeader ⟨blk.base, some b⟩ ⟨rc', blk.data.length⟩ = .ok (h.update b (blk.counted rc')) :=
  Heap.setHeader_eq hb (ok.counted rc).status _

/-- `fetch_add` of the count, which wraps. -/
theorem fetchAdd_counted : h.fetchAdd p ⟨blk.base, some b⟩
    = .ok (h.update b (blk.counted (wrappingAdd p.bits rc 1)), rc) := by
  unfold Heap.fetchAdd
  rw [header_counted hb ok, ok_bind]
  dsimp only
  rw [setHeader_counted hb ok]
  rfl

/-- `fetch_sub` of the count, which wraps. -/
theorem fetchSub_counted : h.fetchSub p ⟨blk.base, some b⟩
    = .ok (h.update b (blk.counted (wrappingSub p.bits rc 1)), rc) := by
  unfold Heap.fetchSub
  rw [header_counted hb ok, ok_bind]
  dsimp only
  rw [setHeader_counted hb ok]
  rfl

theorem loadRefCount_counted : h.loadRefCount ⟨blk.base, some b⟩ = .ok rc := by
  unfold Heap.loadRefCount
  rw [header_counted hb ok]
  rfl

/-- A store leaves the capacity in the header. -/
theorem storeRefCount_counted (n : Nat) :
    h.storeRefCount ⟨blk.base, some b⟩ n = .ok (h.update b (blk.counted n)) := by
  unfold Heap.storeRefCount
  rw [header_counted hb ok, ok_bind]
  exact setHeader_counted hb ok n

/-- The end of `drop` reads the capacity back from the header. -/
theorem dropRaw_onBlock : (onBlock p blk b v alloc).dropRaw p h
    = .ok ⟨blk.dataPtr p b, .pack p.toTarget blk.data.length true⟩ := by
  unfold dropRaw
  rw [headerPtr_onBlock, header_counted hb ok, ok_bind]
  dsimp only
  rw [TaggedCap.new_eq ok.data_lt, ok_bind, Target.debugAssert_ok (TaggedCap.value_pack ok.data_lt _)]
  rfl

variable (hv : v < p.half)
include hv

/-- **`ref_count`** reads the count. -/
theorem refCount_onBlock : (onBlock p blk b v alloc).refCount p h = .ok rc := by
  unfold refCount
  rw [isAllocated_onBlock _ _ _ hv, if_neg (by simp), headerPtr_onBlock]
  exact loadRefCount_counted hb ok

/-- **`ref_clone`** adds one to the count, unless the old count is past the limit. -/
theorem refClone_onBlock : (onBlock p blk b v alloc).refClone p h =
    if p.maxRefcount < rc then .error .refcountAbort
    else .ok (h.update b (blk.counted (rc + 1)), onBlock p blk b v alloc) := by
  unfold refClone
  rw [isAllocated_onBlock _ _ _ hv, if_neg (by simp), headerPtr_onBlock, fetchAdd_counted hb ok, ok_bind]
  by_cases hle : p.maxRefcount < rc
  · simp only [if_pos hle]
  · have hhalf := p.half_add_half
    have hpos := p.half_pos
    have hmax : p.maxRefcount = p.half - 1 := rfl
    have hadd : wrappingAdd p.bits rc 1 = rc + 1 := by
      unfold wrappingAdd
      exact Nat.mod_eq_of_lt (by omega)
    simp only [if_neg hle, hadd]
    rfl

/-- **`drop` of one of several handles** takes one from the count and touches nothing else. -/
theorem drop_onBlock (hpos : 1 < rc) (hrc : rc < 2 ^ p.bits) :
    (onBlock p blk b v alloc).drop p h = .ok (h.update b (blk.counted (rc - 1))) := by
  unfold drop
  rw [isAllocated_onBlock _ _ _ hv, if_neg (by simp), headerPtr_onBlock, fetchSub_counted hb ok, ok_bind,
    wrappingSub_of_le (by omega) hrc]
  dsimp only
  rw [if_pos (by omega)]
  rfl

/-- **`drop` of the only handle** deallocates the block. -/
theorem drop_sole (hone : rc = 1) : (onBlock p blk b v alloc).drop p h =
    .ok (h.update b { blk.counted 1 with status := .deallocated }) := by
  subst hone
  have hlt : b < h.blocks.length := (List.getElem?_eq_some_iff.mp hb).1
  have hget (rc : Nat) : (h.update b (blk.counted rc)).blocks[b]? = some (blk.counted rc) :=
    List.getElem?_set_self hlt
  have hdealloc : deallocateBuffer p (h.update b (blk.counted 1))
      ⟨blk.dataPtr p b, .pack p.toTarget blk.data.length true⟩ = .ok _ :=
    (deallocateBuffer_eq (hget 1) (ok.counted 1) rfl :)
  unfold drop
  rw [isAllocated_onBlock _ _ _ hv, if_neg (by simp), headerPtr_onBlock, fetchSub_counted hb ok, ok_bind]
  dsimp only
  rw [if_neg (by simp), loadRefCount_counted (hget _) ok, ok_bind, storeRefCount_counted (hget _) ok,
    ok_bind, Heap.update_update, dropRaw_onBlock (hget 1) ok, ok_bind, hdealloc, Heap.update_update]

/-- `reset_cap` reads the capacity back from the header. -/
theorem resetCap_onBlock : (onBlock p blk b v alloc).resetCap p h
    = .ok (onBlock p blk b blk.data.length alloc) := by
  unfold resetCap
  rw [isAllocated_onBlock _ _ _ hv, if_neg (by simp), headerPtr_onBlock, header_counted hb ok, ok_bind]
  dsimp only
  rw [TaggedCap.new_eq ok.data_lt]
  rfl

end

/-- `reset_len` with a length inside the capacity. -/
theorem resetLen_onBlock {len : Nat} (hv : v < p.half) (hlen : len ≤ v) :
    (onBlock p blk b v alloc).resetLen p len = .ok (onBlock p blk b len alloc) := by
  unfold resetLen
  rw [value_onBlock hv, Target.debugAssert_ok hlen, ok_bind]
  unfold onBlock
  dsimp only
  rw [TaggedCap.withValue_pack hv (by omega)]
  rfl

/-! ## A handle without a block -/

/-- **`ref_count` of a buffer without a block** fails its assertion: it asks for a value other than 0,
    and the value of such a buffer is 0. Without debug assertions it is 1. -/
theorem refCount_newIn : (newIn alloc).refCount p h =
    if p.debug = true then .error .debugAssert else .ok 1 := by
  unfold refCount
  rw [isAllocated_newIn, if_pos (by simp), value_newIn]
  cases hd : p.debug with
  | true => rw [Target.debugAssert_error hd (by simp)]; rfl
  | false =>
      unfold Target.debugAssert
      rw [if_neg (by simp [hd])]
      rfl

/-- A buffer without a block is not counted. -/
theorem refClone_newIn : (newIn alloc).refClone p h = .ok (h, newIn alloc) := by
  unfold refClone
  rw [isAllocated_newIn, if_pos (by simp)]
  rfl

/-- Nor is there anything to drop. -/
theorem drop_newIn : (newIn alloc).drop p h = .ok h := by
  unfold drop
  rw [isAllocated_newIn, if_pos (by simp)]
  rfl

theorem resetCap_newIn : (newIn alloc).resetCap p h = .ok (newIn alloc) := by
  unfold resetCap
  rw [isAllocated_newIn, if_pos (by simp), value_newIn, Target.debugAssert_ok rfl]
  rfl

theorem resetLen_newIn : (newIn alloc).resetLen p 0 = .ok (newIn alloc) := by
  unfold resetLen
  rw [value_newIn, Target.debugAssert_ok (Nat.le_refl 0), ok_bind]
  show ((TaggedCap.pack p.toTarget 0 false).withValue p.toTarget 0 >>= _) = _
  rw [TaggedCap.withValue_pack p.half_pos p.half_pos]
  rfl

end RawAlignedBuffer

/-! ## Conversions -/

open RawAlignedBuffer

section

variable {α : Type} {p : Params} {h : Heap} {b : BlockId} {blk : Block} {v len rc : Nat} {alloc : α}

/-- **`into_shared`** puts the length where the capacity was. -/
theorem UniqueAlignedBuffer.intoShared_onBlock (b : BlockId) (alloc : α) (hv : v < p.half) (hlen : len ≤ v) :
    UniqueAlignedBuffer.intoShared p ⟨onBlock p blk b v alloc, len⟩
      = .ok ⟨onBlock p blk b len alloc⟩ := by
  unfold UniqueAlignedBuffer.intoShared
  rw [resetLen_onBlock hv hlen, ok_bind, value_onBlock (by omega), Target.debugAssert_ok rfl]
  rfl

/-- **`into_shared`** of a buffer without a block. -/
theorem UniqueAlignedBuffer.intoShared_newIn :
    UniqueAlignedBuffer.intoShared p ⟨RawAlignedBuffer.newIn alloc, 0⟩
      = .ok ⟨RawAlignedBuffer.newIn alloc⟩ := by
  unfold UniqueAlignedBuffer.intoShared
  rw [resetLen_newIn, ok_bind, value_newIn, Target.debugAssert_ok rfl]
  rfl

namespace SharedAlignedBuffer

/-- **`try_unique`** goes by the count in the header, and gets the capacity from there. -/
theorem tryUnique_onBlock (hb : h.blocks[b]? = some (blk.counted rc)) (ok : blk.Ok p)
    (hv : v < p.half) : tryUnique p h ⟨onBlock p blk b v alloc⟩ =
      if rc = 1 then .ok (.ok ⟨onBlock p blk b blk.data.length alloc, v⟩)
      else .ok (.error ⟨onBlock p blk b v alloc⟩) := by
  unfold tryUnique isUnique RawAlignedBuffer.isUnique
  rw [refCount_onBlock hb ok hv, ok_bind]
  by_cases h1 : rc = 1
  · simp only [h1, decide_true, if_true, pure_bind]
    rw [resetCap_onBlock hb ok hv, ok_bind, SharedAlignedBuffer.len, value_onBlock hv]
    rfl
  · simp only [h1, decide_false, if_false, pure_bind]
    rfl

/-- Without a block the answer is yes, unless the assertion of `ref_count` is compiled in. -/
theorem tryUnique_newIn : tryUnique p h (⟨newIn alloc⟩ : SharedAlignedBuffer α) =
    if p.debug = true then .error .debugAssert else .ok (.ok ⟨newIn alloc, 0⟩) := by
  unfold tryUnique isUnique RawAlignedBuffer.isUnique
  dsimp only
  rw [refCount_newIn]
  cases hd : p.debug with
  | true => rfl
  | false =>
      rw [if_neg (by simp), if_neg (by simp), ok_bind]
      simp only [pure_bind, decide_true, if_true]
      rw [resetCap_newIn, ok_bind, SharedAlignedBuffer.len, value_newIn]
      rfl

/-- **`clone`** is `ref_clone` of the handle. -/
theorem clone_onBlock (hb : h.blocks[b]? = some (blk.counted rc)) (ok : blk.Ok p) (hv : v < p.half) :
    clone p h ⟨onBlock p blk b v alloc⟩ =
      if p.maxRefcount < rc then .error .refcountAbort
      else .ok (h.update b (blk.counted (rc + 1)), ⟨onBlock p blk b v alloc⟩) := by
  unfold clone
  rw [refClone_onBlock hb ok hv]
  split <;> rfl

theorem clone_newIn : clone p h (⟨newIn alloc⟩ : SharedAlignedBuffer α) = .ok (h, ⟨newIn alloc⟩) := by
  unfold clone
  rw [refClone_newIn]
  rfl

end SharedAlignedBuffer

end

end RkyvUtils
