import RkyvUtils.AlignedBufferPool.SerializerRuns

/-!
# `AlignedBufferPool.ScratchAlignment` — where `push_alloc` puts a block

The padding in front of a block completes the end of the stored bytes, *as it is before* `reserve`, to a
multiple of the alignment. The block is handed out at the same offset from the address *after* it. Both
addresses of an allocated buffer are multiples of `ALIGNMENT`, so the block is aligned; the address of a
buffer without a block is 1, so the first block of a scratch buffer is not (`pushAlloc_aligned_iff`).
-/

namespace RkyvUtils

open Word Run

/-- A power of two up to `ALIGNMENT` divides it, and the number of addresses. -/
theorem Params.dvd_of_le_alignment {p : Params} {a : Nat} (ha : a.isPowerOfTwo) (hle : a ≤ p.alignment) :
    a ∣ p.alignment ∧ a ∣ 2 ^ p.bits := by
  have hdvd : a ∣ p.alignment := by
    have := (Params.dvd_max_of_isPowerOfTwo ha p.alignment_isPowerOfTwo).1
    rwa [Nat.max_eq_right hle] at this
  have hhalf : p.blockAlign ∣ 2 ^ p.bits := by
    obtain ⟨k, hk⟩ := p.blockAlign_isPowerOfTwo
    have hbound := p.bufferOffset_add_blockAlign_le
    rw [hk] at hbound ⊢
    have hpow : 2 ^ k ≤ 2 ^ (p.bits - 1) := by
      calc 2 ^ k ≤ p.bufferOffset + 2 ^ k := Nat.le_add_left _ _
        _ ≤ p.half := hbound
    have := (Nat.pow_le_pow_iff_right (by norm_num : 1 < 2)).mp hpow
    exact Nat.pow_dvd_pow 2 (by omega)
  exact ⟨hdvd, hdvd.trans (p.alignment_dvd_blockAlign.trans hhalf)⟩

namespace UniqueAlignedBuffer

open RawAlignedBuffer (Holds)

variable {α : Type} {p : Params} {h : Heap} {this : UniqueAlignedBuffer α} {o : Option BlockId}
  {xs : List UInt8} {data : List (Option UInt8)}

/-- **The address of a buffer** is a multiple of `ALIGNMENT` once there is a block, and 1 before. -/
theorem Stores.dvd_addr_iff {a : Nat} (hs : Stores p h this o xs data) (ha : a ∣ p.alignment) :
    a ∣ this.asMutPtr.addr ↔ this.buf.isAllocated p = true ∨ a = 1 := by
  obtain ⟨holds, -, -⟩ := hs
  have hall := holds.isAllocated_eq
  rw [hall]
  unfold asMutPtr
  generalize this.buf = buf at holds
  cases holds with
  | empty alloc =>
      show a ∣ 1 ↔ _
      simp
  | @block b blk alloc hb ok header =>
      have hbase : a ∣ blk.base := (ha.trans p.alignment_dvd_blockAlign).trans ok.base_aligned
      have hoffset : a ∣ p.bufferOffset := ha.trans p.alignment_dvd_bufferOffset
      show a ∣ blk.base + p.bufferOffset ↔ _
      simp [Nat.dvd_add hbase hoffset]

theorem Stores.addr_pos (hs : Stores p h this o xs data) : 0 < this.asMutPtr.addr := by
  obtain ⟨holds, -, -⟩ := hs
  unfold asMutPtr
  generalize this.buf = buf at holds
  cases holds with
  | empty alloc => exact Nat.one_pos
  | @block b blk alloc hb ok header =>
      have := ok.base_pos
      show 0 < blk.base + p.bufferOffset
      omega

/-- The stored bytes end inside the address space. -/
theorem Stores.end_le (hs : Stores p h this o xs data) : this.asMutPtr.addr + this.len ≤ 2 ^ p.bits := by
  have hle := hs.length_le
  obtain ⟨holds, hlen, -⟩ := hs
  rw [hlen]
  unfold asMutPtr
  generalize this.buf = buf at holds
  cases holds with
  | empty alloc =>
      have := Nat.one_le_two_pow (n := p.bits)
      show 1 + xs.length ≤ _
      simp only [List.length_nil] at hle
      omega
  | @block b blk alloc hb ok header =>
      have := ok.base_le
      have := ok.size_eq
      show blk.base + p.bufferOffset + xs.length ≤ _
      omega

end UniqueAlignedBuffer

namespace Scratch

open UniqueAlignedBuffer

variable {α : Type} {p : Params} (A : Allocator p.toTarget) {h : Heap} {this : UniqueAlignedBuffer α}
  {o : Option BlockId} {xs : List UInt8} {data : List (Option UInt8)} {layout : Layout}

/-- The padding completes the end of the stored bytes to a multiple of the alignment. -/
theorem dvd_allocPad (hs : Stores p h this o xs data) (ha : layout.align ∣ 2 ^ p.bits) :
    layout.align ∣ this.asMutPtr.addr + (xs.length + allocPad p this layout) := by
  have hpos : 0 < layout.align := Nat.pos_of_dvd_of_pos ha (Nat.two_pow_pos _)
  have hpad : allocPad p this layout = padding (this.asMutPtr.addr + this.len) layout.align :=
    neg_mod_padding ha hs.end_le
  rw [hpad, ← hs.length_eq, ← Nat.add_assoc]
  exact dvd_roundUp _ hpos

/-- **A block is aligned exactly when** the address was a multiple of its alignment before the call. -/
theorem dvd_addr_iff (hs : Stores p h this o xs data) (hsize : 0 < layout.size)
    (ha : layout.align ∣ p.alignment) (ha' : layout.align ∣ 2 ^ p.bits) {h' : Heap}
    {this' : UniqueAlignedBuffer α} {o' : Option BlockId} {data' : List (Option UInt8)}
    (hl : Leads p h this o (xs ++ List.replicate (allocLen p this layout) 0) h' this' o' data') :
    layout.align ∣ this'.asMutPtr.addr + (xs.length + allocPad p this layout) ↔
      this.buf.isAllocated p = true ∨ layout.align = 1 := by
  -- after the call there is a block, since it has room for at least one byte
  have hall : this'.buf.isAllocated p = true := by
    have hle := hl.stores.length_le
    rw [hl.stores.holds.isAllocated_iff]
    simp only [List.length_append, List.length_replicate, allocLen] at hle
    omega
  have haddr' : layout.align ∣ this'.asMutPtr.addr := (hl.stores.dvd_addr_iff ha).mpr (Or.inl hall)
  have hpad := dvd_allocPad hs ha'
  rw [Nat.dvd_add_right haddr', ← hs.dvd_addr_iff ha]
  constructor
  · intro hdvd
    exact (Nat.dvd_add_left hdvd).mp hpad
  · intro hdvd
    exact (Nat.dvd_add_right hdvd).mp hpad

end Scratch

namespace SerializerPool

variable {p : Params} (A : Allocator p.toTarget) (capacity : Nat) (policy : Nat → Bool)

/-- The scratch buffer of a serializer in use stores some list. -/
theorem scratch_stores {actions : List Action} {s : State} {i : Nat} {this : Serializer}
    (hrun : runFrom A capacity policy actions = .ok s) (hi : s.serializers[i]? = some (.live this)) :
    ∃ scratch o xs data, s.buffers.slots[this.scratch]? = some (.unique scratch) ∧
      UniqueAlignedBuffer.Stores p s.buffers.heap scratch o xs data := by
  obtain ⟨inv, owned⟩ := owned_of_run A capacity policy hrun
  obtain ⟨-, scratch, hscratch⟩ := owned.unique i this hi
  obtain ⟨⟨o, xs, data, hs⟩, -⟩ := inv.slots _ _ hscratch
  exact ⟨scratch, o, xs, data, hscratch, hs⟩

/-- **When the block of `push_alloc` is aligned**, for every serializer in every state a pool can reach
    and every layout `rkyv` may ask for: it is, and has the size asked for, exactly if the scratch buffer
    was allocated before or the alignment is 1. -/
theorem pushAlloc_aligned_iff (actions : List Action) {s : State} {i : Nat} {this : Serializer}
    {layout : Layout} (hrun : runFrom A capacity policy actions = .ok s)
    (hi : s.serializers[i]? = some (.live this)) (hsize : 0 < layout.size)
    (halign : layout.align.isPowerOfTwo) (hle : layout.align ≤ p.alignment) :
    ∃ scratch, s.buffers.slots[this.scratch]? = some (.unique scratch) ∧
      match Scratch.pushAlloc A s.buffers.heap scratch layout with
      | .ok (_, _, block) => (layout.align ∣ block.ptr.addr ∧ block.len = layout.size) ↔
          scratch.buf.isAllocated p = true ∨ layout.align = 1
      | .error f => f = .capacityOverflow ∨ f = .allocError := by
  obtain ⟨scratch, o, xs, data, hscratch, hs⟩ := scratch_stores A capacity policy hrun hi
  obtain ⟨ha, ha'⟩ := Params.dvd_of_le_alignment halign hle
  refine ⟨scratch, hscratch, ?_⟩
  rcases Scratch.pushAlloc_spec A hs layout with ⟨h', this', o', data', hp, hl⟩ | hp | hp
  · rw [hp]
    have hiff := Scratch.dvd_addr_iff hs hsize ha ha' hl
    exact (and_iff_left rfl).trans hiff
  · rw [hp]
    exact Or.inl rfl
  · rw [hp]
    exact Or.inr rfl

/-- A second block of 8 bytes, at alignment 8. -/
theorem pushAlloc_aligned_iff_second :
    ∃ s this, runFrom (.bump (Params.x86_64 true).toTarget) 1 (fun _ => true)
        [.get, .pushAlloc 0 ⟨8, 8⟩] = .ok s ∧ s.serializers[0]? = some (.live this) ∧
      ∃ scratch, s.buffers.slots[this.scratch]? = some (.unique scratch) ∧
        match Scratch.pushAlloc (.bump (Params.x86_64 true).toTarget) s.buffers.heap scratch ⟨8, 8⟩ with
        | .ok (_, _, block) => (8 ∣ block.ptr.addr ∧ block.len = 8) ↔
            scratch.buf.isAllocated (Params.x86_64 true) = true ∨ 8 = 1
        | .error f => f = .capacityOverflow ∨ f = .allocError := by
  refine ⟨_, ⟨0, 1, ∅⟩, rfl, rfl, ?_⟩
  exact pushAlloc_aligned_iff _ 1 (fun _ => true) [.get, .pushAlloc 0 ⟨8, 8⟩] rfl
    (show _[0]? = _ from rfl) (by decide) ⟨3, rfl⟩ (by decide)

/-- **The first block of a scratch buffer is not aligned**: 8 bytes at alignment 8 are handed out 7 bytes
    behind a multiple of 8. -/
theorem not_aligned_first :
    ∃ s this scratch heap scratch' block,
      runFrom (.bump (Params.x86_64 true).toTarget) 1 (fun _ => true) [.get] = .ok s ∧
      s.serializers[0]? = some (.live this) ∧
      s.buffers.slots[this.scratch]? = some (.unique scratch) ∧
      Scratch.pushAlloc (.bump (Params.x86_64 true).toTarget) s.buffers.heap scratch ⟨8, 8⟩
        = .ok (heap, scratch', block) ∧
      block.ptr.addr % 8 = 7 ∧ ¬8 ∣ block.ptr.addr :=
  ⟨_, _, _, _, _, _, rfl, rfl, rfl, rfl, by decide, by decide⟩

end SerializerPool

end RkyvUtils
