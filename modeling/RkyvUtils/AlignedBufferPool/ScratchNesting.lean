import RkyvUtils.Lib.Nest
import RkyvUtils.AlignedBuffer.InPlace
import RkyvUtils.AlignedBufferPool.ScratchAlignment

/-!
# `AlignedBufferPool.ScratchNesting` — well-bracketed calls of `push_alloc` and `pop_alloc`

A serializer's scratch buffer is used as a stack: each `pop_alloc` is given the pointer and the layout of
the latest `push_alloc` that is still open. The system is the pool with the open blocks of one of its
serializers; between two calls anything else may happen to the pool, to other buffers and to the rest of
the serializer. The blocks stay where they are as long as no `push_alloc` moves the buffer while a block
is open (`blocks_stay`); one that does leaves the open blocks behind, and their `pop_alloc` fails
(`not_safe_movedBlock`).
-/

namespace RkyvUtils

open Word Run Nest

namespace Scratch

open UniqueAlignedBuffer

variable {α : Type} {p : Params} (A : Allocator p.toTarget) {h h' : Heap}
  {this this' : UniqueAlignedBuffer α} {o : Option BlockId} {xs : List UInt8}
  {data : List (Option UInt8)}

/-- `push_alloc` finds room, or the reservation does not move the block. -/
def KeepsAddress (h : Heap) (scratch : UniqueAlignedBuffer α) (layout : Layout) : Prop :=
  scratch.len + allocLen p scratch layout ≤ scratch.capacity p ∨
    scratch.buf.growsInPlace A h
      (scratch.buf.amortizedCap p scratch.len (allocLen p scratch layout)) = true

instance (scratch : UniqueAlignedBuffer α) (layout : Layout) :
    Decidable (KeepsAddress A h scratch layout) := inferInstanceAs (Decidable (_ ∨ _))

/-- **`push_alloc`** of an allocated buffer keeps the address in exactly this case. -/
theorem pushAlloc_addr_iff (hs : Stores p h this o xs data) (hall : this.buf.isAllocated p = true)
    {layout : Layout} {block : Slice}
    (hpush : pushAlloc A h this layout = .ok (h', this', block)) :
    this'.asMutPtr.addr = this.asMutPtr.addr ↔ KeepsAddress A h this layout := by
  unfold pushAlloc at hpush
  obtain ⟨⟨h₁, this₁⟩, hreserve, hpush⟩ := bind_eq_ok hpush
  obtain ⟨_, -, hpush⟩ := bind_eq_ok hpush
  obtain ⟨this₂, hset, hpush⟩ := bind_eq_ok hpush
  obtain ⟨_, -, hpush⟩ := bind_eq_ok hpush
  cases hpush
  obtain ⟨_, -, hset⟩ := bind_eq_ok hset
  cases hset
  obtain ⟨⟨h₂, buf⟩, hraw, hreserve⟩ := bind_eq_ok hreserve
  cases hreserve
  unfold KeepsAddress
  rw [hs.capacity_eq]
  exact RawAlignedBuffer.reserve_addr_iff A hs.holds hall (hs.length_eq ▸ hs.length_le) hraw

end Scratch

namespace SerializerPool

variable {p : Params} (A : Allocator p.toTarget) (capacity : Nat) (policy : Nat → Bool) (i : Nat)

/-! ## One serializer's open blocks -/

/-- The scratch buffer of serializer `i`. -/
def scratchOf (s : State) (i : Nat) : Option (UniqueAlignedBuffer Home) :=
  match s.serializers[i]? with
  | some (.live this) =>
      match s.buffers.slots[this.scratch]? with
      | some (.unique scratch) => some scratch
      | _ => none
  | _ => none

/-- The pool, the open blocks of the serializer with the layouts they were asked for, the latest first,
    and what `pop_alloc` answered so far. -/
structure Nesting where
  pool : State
  live : List (Slice × Layout)
  popped : List (Except BufferAllocError Unit)

inductive Call where
  | push (layout : Layout) (size_pos : 0 < layout.size)
  /-- `pop_alloc` of the latest open block -/
  | pop
  | other (action : Action)

/-- The action uses the scratch buffer of serializer `i`, or gives the serializer up. -/
def Action.endsNesting (i : Nat) : Action → Bool
  | .pushAlloc j _ | .popAlloc j _ _ | .intoBuffer j | .drop j => j = i
  | _ => false

def call (s : Nesting) : Call → Except Fault Nesting
  | .push layout _ =>
      match scratchOf s.pool i with
      | none => return s
      | some scratch => do
          let pool ← step A capacity policy s.pool (.pushAlloc i layout)
          match Scratch.pushAlloc A s.pool.buffers.heap scratch layout with
          | .ok (_, _, block) => return { s with pool, live := (block, layout) :: s.live }
          -- a panic of the reservation
          | .error _ => return { s with pool }
  | .pop =>
      match scratchOf s.pool i, s.live with
      | some scratch, (block, layout) :: live => do
          let pool ← step A capacity policy s.pool (.popAlloc i block.ptr layout)
          let (_, answer) ← Scratch.popAlloc p s.pool.buffers.heap scratch block.ptr layout
          return ⟨pool, live, s.popped ++ [answer]⟩
      | _, _ => return s
  | .other action =>
      if action.endsNesting i = true then return s
      else do
        let pool ← step A capacity policy s.pool action
        return { s with pool }

/-- **What well-bracketed use can rely on.** -/
structure Nesting.Safe (s : Nesting) : Prop where
  /-- every open block has the size asked for and lies in the storage the buffer has now -/
  inside : ∃ scratch, scratchOf s.pool i = some scratch ∧ ∀ block ∈ s.live,
    block.1.len = block.2.size ∧ scratch.asMutPtr.addr ≤ block.1.ptr.addr ∧
      block.1.ptr.addr + block.1.len ≤ scratch.asMutPtr.addr + scratch.len
  /-- no two open blocks overlap -/
  apart : s.live.Pairwise fun later earlier => earlier.1.ptr.addr + earlier.1.len ≤ later.1.ptr.addr
  /-- every `pop_alloc` returned `Ok` -/
  popped : ∀ answer ∈ s.popped, answer = .ok ()

/-- No `push_alloc` moves the scratch buffer while a block is open. -/
def Stays (s : Nesting) : Call → Prop
  | .push layout _ => s.live = [] ∨ ∀ scratch, scratchOf s.pool i = some scratch →
      Scratch.KeepsAddress A s.pool.buffers.heap scratch layout
  | _ => True

instance (s : Nesting) : ∀ c, Decidable (Stays A i s c)
  | .push layout _ =>
      match h : scratchOf s.pool i with
      | none => isTrue (Or.inr (by simp [h]))
      | some scratch =>
          decidable_of_iff
            (s.live = [] ∨ Scratch.KeepsAddress A s.pool.buffers.heap scratch layout)
            (by simp only [Stays, h, Option.some.injEq, forall_eq'])
  | .pop | .other _ => isTrue trivial

/-! ## What happens to the scratch buffer -/

section

variable {A capacity policy i} {s s' : State} {scratch : UniqueAlignedBuffer Home}

theorem scratchOf_eq_some : scratchOf s i = some scratch ↔
    ∃ this, s.serializers[i]? = some (.live this) ∧
      s.buffers.slots[this.scratch]? = some (.unique scratch) := by
  unfold scratchOf
  constructor
  · intro h
    split at h
    case h_1 this hi =>
      split at h
      case h_1 scratch' hslot =>
        cases h
        exact ⟨this, hi, hslot⟩
      case h_2 => cases h
    case h_2 => cases h
  · rintro ⟨this, hi, hslot⟩
    simp only [hi, hslot]

/-- An operation on the scratch buffer leaves what it leaves, be it that it returned or panicked. -/
theorem mutate_scratchOf {op : BufferOp} (h : scratchOf s i = some scratch)
    (hkeep : op.frees p scratch = false)
    (hstep : mutate A capacity policy s i Serializer.scratch op = .ok s') :
    scratchOf s' i = some (op.apply A s.buffers.heap scratch).2.1 := by
  obtain ⟨this, hi, hslot⟩ := scratchOf_eq_some.mp h
  have hlt := (List.getElem?_eq_some_iff.mp hslot).1
  unfold mutate at hstep
  rw [hi] at hstep
  obtain ⟨buffers, hbuffers, hstep⟩ := bind_eq_ok hstep
  cases hstep
  simp only [BufferPool.step, hslot] at hbuffers
  unfold BufferPool.mutate at hbuffers
  rw [hkeep, if_neg (by simp)] at hbuffers
  refine scratchOf_eq_some.mpr ⟨this, hi, ?_⟩
  show buffers.slots[this.scratch]? = _
  split at hbuffers
  case h_1 heap scratch' he =>
    cases hbuffers
    rw [he]
    exact List.getElem?_set_self hlt
  case h_2 heap scratch' f he =>
    split at hbuffers
    · cases hbuffers
      rw [he]
      exact List.getElem?_set_self hlt
    · cases hbuffers

/-- What is done to another handle. -/
theorem settle_scratchOf {buffers : BufferPool.State} {handle : Option Nat} {passed : List BlockId}
    {this : Serializer} (hi : s.serializers[i]? = some (.live this))
    (hslot : s.buffers.slots[this.scratch]? = some (.unique scratch))
    (hchanges : BufferPool.Changes s.buffers buffers handle passed) (hne : handle ≠ some this.scratch) :
    scratchOf (settle s buffers) i = some scratch :=
  scratchOf_eq_some.mpr ⟨this, hi,
    (hchanges.others _ (List.getElem?_eq_some_iff.mp hslot).1 hne).trans hslot⟩

/-- An operation on another buffer of a serializer. -/
theorem mutate_other {j : Nat} {buffer : Serializer → Nat} {op : BufferOp} {this : Serializer}
    (hi : s.serializers[i]? = some (.live this))
    (hslot : s.buffers.slots[this.scratch]? = some (.unique scratch))
    (hne : ∀ other, s.serializers[j]? = some (.live other) → buffer other ≠ this.scratch)
    (hstep : mutate A capacity policy s j buffer op = .ok s') : scratchOf s' i = some scratch := by
  unfold mutate at hstep
  split at hstep
  case h_1 other hj =>
    obtain ⟨buffers, hbuffers, hstep⟩ := bind_eq_ok hstep
    cases hstep
    refine settle_scratchOf hi hslot (BufferPool.step_changes A hbuffers) ?_
    intro he
    exact hne other hj (Option.some.inj he)
  case h_2 =>
    cases hstep
    exact scratchOf_eq_some.mpr ⟨this, hi, hslot⟩

/-- The end of another serializer. -/
theorem giveUp_other {j : Nat} {writer : Nat → BufferPool.Action} {this : Serializer}
    (hi : s.serializers[i]? = some (.live this))
    (hslot : s.buffers.slots[this.scratch]? = some (.unique scratch)) (hij : j ≠ i)
    (hwriter : ∀ k, (writer k).handle = some k)
    (hne : ∀ other, s.serializers[j]? = some (.live other) →
      other.writer ≠ this.scratch ∧ other.scratch ≠ this.scratch)
    (hstep : giveUp A capacity policy s j writer = .ok s') : scratchOf s' i = some scratch := by
  unfold giveUp at hstep
  split at hstep
  case h_1 other hj =>
    obtain ⟨buffers₁, hstep₁, hstep⟩ := bind_eq_ok hstep
    obtain ⟨buffers₂, hstep₂, hstep⟩ := bind_eq_ok hstep
    cases hstep
    obtain ⟨hne₁, hne₂⟩ := hne other hj
    have hchanges₁ := BufferPool.step_changes A hstep₁
    have hchanges₂ := BufferPool.step_changes A hstep₂
    have hlt := (List.getElem?_eq_some_iff.mp hslot).1
    refine scratchOf_eq_some.mpr ⟨this, ?_, ?_⟩
    · show (s.serializers.set j _)[i]? = _
      rw [List.getElem?_set_ne hij, hi]
    · show buffers₂.slots[this.scratch]? = _
      rw [hchanges₂.others _ (Nat.lt_of_lt_of_le hlt hchanges₁.grows)
          (fun he => hne₂ (Option.some.inj he)),
        hchanges₁.others _ hlt (by rw [hwriter]; exact fun he => hne₁ (Option.some.inj he)), hslot]
  case h_2 =>
    cases hstep
    exact scratchOf_eq_some.mpr ⟨this, hi, hslot⟩

/-- **Everything else** leaves the scratch buffer as it is. -/
theorem scratchOf_other (owned : Owned s) (inv : BuffersInv capacity policy p s) {action : Action}
    (hends : action.endsNesting i = false) (h : scratchOf s i = some scratch)
    (hstep : step A capacity policy s action = .ok s') : scratchOf s' i = some scratch := by
  obtain ⟨this, hi, hslot⟩ := scratchOf_eq_some.mp h
  have hlt := (List.getElem?_eq_some_iff.mp hslot).1
  -- the buffers of the other serializers are other buffers
  have hapart : ∀ j other, j ≠ i → s.serializers[j]? = some (.live other) →
      other.writer ≠ this.scratch ∧ other.scratch ≠ this.scratch := by
    intro j other hij hj
    constructor
    · intro he
      exact hij (owned.apart j i _ _ this.scratch hj hi (he ▸ owns_writer other) (owns_scratch this))
    · intro he
      exact hij (owned.apart j i _ _ this.scratch hj hi (he ▸ owns_scratch other) (owns_scratch this))
  cases action with
  | get =>
      by_cases hhandle : s.buffers.handle = false
      · simp only [step] at hstep
        rw [if_pos hhandle] at hstep
        cases hstep
        exact h
      · obtain ⟨t, new, writer, scratch', ht, -, -, hserializers, -, hslots, -⟩ :=
          get_spec A capacity policy inv (Bool.eq_true_of_not_eq_false hhandle)
        rw [ht] at hstep
        cases hstep
        refine scratchOf_eq_some.mpr ⟨this, ?_, ?_⟩
        · rw [hserializers, List.getElem?_append_left (List.getElem?_eq_some_iff.mp hi).1, hi]
        · rw [hslots, List.getElem?_append_left hlt, hslot]
  | write j bytes =>
      refine mutate_other hi hslot ?_ hstep
      intro other hj
      by_cases hij : j = i
      · rw [hij, hi] at hj
        cases hj
        exact owned.ne i this hi
      · exact (hapart j other hij hj).1
  | pushAlloc j layout =>
      exact mutate_other hi hslot (fun other hj => (hapart j other (of_decide_eq_false hends) hj).2) hstep
  | popAlloc j ptr layout =>
      exact mutate_other hi hslot (fun other hj => (hapart j other (of_decide_eq_false hends) hj).2) hstep
  | sharing j call =>
      simp only [step] at hstep
      split at hstep
      case h_1 other hj =>
        cases hstep
        by_cases hij : j = i
        · subst hij
          rw [hi] at hj
          cases hj
          refine scratchOf_eq_some.mpr ⟨_, List.getElem?_set_self (List.getElem?_eq_some_iff.mp hi).1, ?_⟩
          exact hslot
        · exact scratchOf_eq_some.mpr ⟨this, (List.getElem?_set_ne hij).trans hi, hslot⟩
      case h_2 =>
        cases hstep
        exact h
  | intoBuffer j =>
      have hij : j ≠ i := of_decide_eq_false hends
      exact giveUp_other hi hslot hij (fun _ => rfl) (fun other hj => hapart j other hij hj) hstep
  | drop j =>
      have hij : j ≠ i := of_decide_eq_false hends
      exact giveUp_other hi hslot hij (fun _ => rfl) (fun other hj => hapart j other hij hj) hstep
  | dropUnify j =>
      simp only [step] at hstep
      split at hstep
      case h_1 map hj =>
        cases hstep
        have hij : j ≠ i := by
          rintro rfl
          rw [hi] at hj
          cases hj
        exact scratchOf_eq_some.mpr ⟨this, (List.getElem?_set_ne hij).trans hi, hslot⟩
      case h_2 =>
        cases hstep
        exact h
  | buffers action =>
      simp only [step] at hstep
      split at hstep
      case isTrue hallowed =>
        obtain ⟨buffers, hbuffers, hstep⟩ := bind_eq_ok hstep
        cases hstep
        exact settle_scratchOf hi hslot (BufferPool.step_changes A hbuffers)
          (not_owned_of_allowed hallowed hi (owns_scratch this))
      case isFalse =>
        cases hstep
        exact h

end

/-! ## The open blocks are a stack -/

/-- The open blocks as intervals of addresses. -/
def Nesting.intervals (s : Nesting) : List (Nat × Nat) :=
  s.live.map fun block => (block.1.ptr.addr, block.1.len)

/-- **The invariant**: the open blocks are stacked in the stored bytes of the scratch buffer. -/
structure Nesting.Inv (p : Params) (s : Nesting) : Prop where
  buffers : BuffersInv capacity policy p s.pool
  owned : Owned s.pool
  stack : ∃ scratch, scratchOf s.pool i = some scratch ∧
    Nested scratch.asMutPtr.addr (scratch.asMutPtr.addr + scratch.len) s.intervals
  sizes : ∀ block ∈ s.live, block.1.len = block.2.size
  popped : ∀ answer ∈ s.popped, answer = .ok ()

section

variable {capacity policy i} {s : Nesting}

theorem Nesting.Inv.safe (inv : s.Inv capacity policy i p) : s.Safe i where
  inside := by
    obtain ⟨scratch, hscratch, hnest⟩ := inv.stack
    refine ⟨scratch, hscratch, fun block hmem => ⟨inv.sizes block hmem, ?_⟩⟩
    exact hnest.inside _ (List.mem_map_of_mem hmem)
  apart := by
    obtain ⟨scratch, -, hnest⟩ := inv.stack
    exact List.pairwise_map.mp hnest.apart
  popped := inv.popped

theorem Nesting.Inv.stores (inv : s.Inv capacity policy i p) {scratch : UniqueAlignedBuffer Home}
    (hscratch : scratchOf s.pool i = some scratch) :
    ∃ o xs data, UniqueAlignedBuffer.Stores p s.pool.buffers.heap scratch o xs data := by
  obtain ⟨this, -, hslot⟩ := scratchOf_eq_some.mp hscratch
  exact (inv.buffers.slots _ _ hslot).1

/-- An open block is stored in the buffer, which is then allocated. -/
theorem isAllocated_of_live {h : Heap} {scratch : UniqueAlignedBuffer Home} {o : Option BlockId}
    {xs : List UInt8} {data : List (Option UInt8)}
    (hs : UniqueAlignedBuffer.Stores p h scratch o xs data)
    (hnest : Nested scratch.asMutPtr.addr (scratch.asMutPtr.addr + scratch.len) s.intervals)
    (hlive : s.live ≠ []) : scratch.buf.isAllocated p = true := by
  obtain ⟨block, rest, hblocks⟩ := List.exists_cons_of_ne_nil hlive
  unfold Nesting.intervals at hnest
  rw [hblocks] at hnest
  obtain ⟨hpos, hlo, hhi, -⟩ := hnest
  have hle := hs.length_le
  have hlen := hs.length_eq
  rw [hs.holds.isAllocated_iff]
  omega

/-- **A call of the scratch allocator** either leaves the pool in order, with the buffer as the call left it,
    or aborts. -/
theorem scratch_proceeds {scratch : UniqueAlignedBuffer Home} {op : BufferOp} {s : State} (action : Action)
    (hbuffers : BuffersInv capacity policy p s) (howned : Owned s) (hscratch : scratchOf s i = some scratch)
    (haction : step A capacity policy s action = mutate A capacity policy s i Serializer.scratch op)
    (hkeep : op.frees p scratch = false) :
    (∃ s', step A capacity policy s action = .ok s' ∧ BuffersInv capacity policy p s' ∧ Owned s' ∧
      scratchOf s' i = some (op.apply A s.buffers.heap scratch).2.1) ∨
      ∃ f, step A capacity policy s action = .error f ∧ f.Aborts := by
  rcases step_proceeds A capacity policy hbuffers action with ⟨s', hstep, hbuffers', -⟩ | hf
  · have hnext := mutate_scratchOf hscratch hkeep (haction.symm.trans hstep)
    exact Or.inl ⟨s', hstep, hbuffers', howned.step A capacity policy hbuffers hstep, hnext⟩
  · exact Or.inr hf

/-- **`push_alloc`** puts a block on the stack, if it does not move the blocks that are there. -/
theorem push_keeps (inv : s.Inv capacity policy i p) {layout : Layout} (hsize : 0 < layout.size)
    (hstays : Stays A i s (.push layout hsize)) :
    (∃ s', call A capacity policy i s (.push layout hsize) = .ok s' ∧ s'.Inv capacity policy i p) ∨
    ∃ f, call A capacity policy i s (.push layout hsize) = .error f ∧ f.Aborts := by
  obtain ⟨scratch, hscratch, hnest⟩ := inv.stack
  obtain ⟨o, xs, data, hs⟩ := inv.stores hscratch
  simp only [call, hscratch]
  rcases scratch_proceeds A (.pushAlloc i layout) inv.buffers inv.owned hscratch rfl rfl with
    ⟨pool, hstep, hbuffers, howned, hnext⟩ | ⟨f, hf, habort⟩
  case inr =>
    rw [hf]
    exact Or.inr ⟨f, rfl, habort⟩
  simp only [BufferOp.apply] at hnext
  rw [hstep, ok_bind]
  left
  rcases Scratch.pushAlloc_spec A hs layout with ⟨h', this', o', data', hp, hl⟩ | hp | hp
  · rw [hp] at hnext ⊢
    have hlen := hs.length_eq
    have hlen' := hl.stores.length_eq
    rw [List.length_append, List.length_replicate, Scratch.allocLen] at hlen'
    -- the open blocks are where they were, and the buffer as well
    have hbelow : Nested this'.asMutPtr.addr (this'.asMutPtr.addr + scratch.len) s.intervals := by
      by_cases hlive : s.live = []
      · unfold Nesting.intervals
        rw [hlive]
        trivial
      · have hkeep := hstays.resolve_left hlive scratch hscratch
        rw [(Scratch.pushAlloc_addr_iff A hs (isAllocated_of_live hs hnest hlive) hp).mpr hkeep]
        exact hnest
    refine ⟨_, rfl, hbuffers, howned, ⟨this', hnext, ?_⟩, ?_, inv.popped⟩
    · have htop := hbelow.push (Nat.le_add_right _ _) hsize
        (show _ ≤ this'.asMutPtr.addr + (xs.length + Scratch.allocPad p scratch layout) by omega)
      rw [show this'.asMutPtr.addr + (xs.length + Scratch.allocPad p scratch layout) + layout.size
        = this'.asMutPtr.addr + this'.len by omega] at htop
      exact htop
    · intro block hmem
      rcases List.mem_cons.mp hmem with rfl | hmem
      · rfl
      · exact inv.sizes block hmem
  · rw [hp] at hnext ⊢
    exact ⟨_, rfl, hbuffers, howned, ⟨scratch, hnext, hnest⟩, inv.sizes, inv.popped⟩
  · rw [hp] at hnext ⊢
    exact ⟨_, rfl, hbuffers, howned, ⟨scratch, hnext, hnest⟩, inv.sizes, inv.popped⟩

/-- **`pop_alloc`** of the latest open block takes it off the stack and returns `Ok`. -/
theorem pop_keeps (inv : s.Inv capacity policy i p) :
    (∃ s', call A capacity policy i s .pop = .ok s' ∧ s'.Inv capacity policy i p) ∨
    ∃ f, call A capacity policy i s .pop = .error f ∧ f.Aborts := by
  obtain ⟨scratch, hscratch, hnest⟩ := inv.stack
  obtain ⟨o, xs, data, hs⟩ := inv.stores hscratch
  simp only [call, hscratch]
  cases hblocks : s.live with
  | nil => exact Or.inl ⟨s, rfl, inv⟩
  | cons top live =>
      obtain ⟨block, layout⟩ := top
      dsimp only
      rcases scratch_proceeds A (.popAlloc i block.ptr layout) inv.buffers inv.owned hscratch rfl rfl with
        ⟨pool, hstep, hbuffers, howned, hnext⟩ | ⟨f, hf, habort⟩
      case inr =>
        rw [hf]
        exact Or.inr ⟨f, rfl, habort⟩
      have hsize : block.len = layout.size := inv.sizes (block, layout) (by rw [hblocks]; exact .head _)
      have hlen := hs.length_eq
      unfold Nesting.intervals at hnest
      rw [hblocks] at hnest
      obtain ⟨hpos, hlo, hhi, hrest⟩ := hnest
      dsimp only at hpos hlo hhi hrest
      -- the block is inside, and nothing was stored behind it
      have hpop : Scratch.popAlloc p s.pool.buffers.heap scratch block.ptr layout
          = .ok ({ scratch with len := block.ptr.addr - scratch.asMutPtr.addr }, .ok ()) := by
        rw [Scratch.popAlloc_spec hs, if_pos (by omega), if_pos (by omega)]
      simp only [BufferOp.apply, hpop] at hnext
      rw [hstep, ok_bind, hpop, ok_bind]
      refine Or.inl ⟨_, rfl, hbuffers, howned, ⟨_, hnext, ?_⟩, ?_, ?_⟩
      · show Nested scratch.asMutPtr.addr
          (scratch.asMutPtr.addr + (block.ptr.addr - scratch.asMutPtr.addr)) _
        rw [Nat.add_sub_cancel' hlo]
        exact hrest
      · intro other hmem
        exact inv.sizes other (by rw [hblocks]; exact .tail _ hmem)
      · intro answer hmem
        rcases List.mem_append.mp hmem with hmem | hmem
        · exact inv.popped answer hmem
        · exact List.mem_singleton.mp hmem

/-- **Anything else** leaves the stack alone. -/
theorem other_keeps (inv : s.Inv capacity policy i p) (action : Action) :
    (∃ s', call A capacity policy i s (.other action) = .ok s' ∧ s'.Inv capacity policy i p) ∨
    ∃ f, call A capacity policy i s (.other action) = .error f ∧ f.Aborts := by
  simp only [call]
  by_cases hends : action.endsNesting i = true
  · rw [if_pos hends]
    exact Or.inl ⟨s, rfl, inv⟩
  · rw [if_neg hends]
    rcases step_proceeds A capacity policy inv.buffers action with
      ⟨pool, hstep, hbuffers, -⟩ | ⟨f, hf, habort⟩
    · obtain ⟨scratch, hscratch, hnest⟩ := inv.stack
      have hnext := scratchOf_other inv.owned inv.buffers (Bool.eq_false_of_not_eq_true hends) hscratch
        hstep
      rw [hstep, ok_bind]
      exact Or.inl ⟨_, rfl, hbuffers, inv.owned.step A capacity policy inv.buffers hstep,
        ⟨scratch, hnext, hnest⟩, inv.sizes, inv.popped⟩
    · rw [hf]
      exact Or.inr ⟨f, rfl, habort⟩

/-- **One call** of well-bracketed use. -/
theorem call_keeps (inv : s.Inv capacity policy i p) (c : Call) (hstays : Stays A i s c) :
    (∃ s', call A capacity policy i s c = .ok s' ∧ s'.Inv capacity policy i p) ∨
    ∃ f, call A capacity policy i s c = .error f ∧ f.Aborts := by
  cases c with
  | push layout hsize => exact push_keeps A inv hsize hstays
  | pop => exact pop_keeps A inv
  | other action => exact other_keeps A inv action

end

/-- Well-bracketed use starts without open blocks, at any serializer in use. -/
theorem Nesting.Inv.start {actions : List Action} {s : State} {this : Serializer}
    (hrun : runFrom A capacity policy actions = .ok s) (hi : s.serializers[i]? = some (.live this)) :
    Nesting.Inv capacity policy i p ⟨s, [], []⟩ := by
  obtain ⟨inv, owned⟩ := owned_of_run A capacity policy hrun
  obtain ⟨-, scratch, hscratch⟩ := owned.unique i this hi
  exact ⟨inv, owned, ⟨scratch, scratchOf_eq_some.mpr ⟨this, hi, hscratch⟩, trivial⟩, nofun, nofun⟩

/-- **Blocks stay**, for every serializer in every state a pool can reach, in every well-bracketed use in
    which no `push_alloc` moves the buffer while a block is open: every open block lies in the storage the
    buffer has, no two overlap, and every `pop_alloc` returns `Ok`. -/
theorem blocks_stay (actions : List Action) {s : State} {this : Serializer}
    (hrun : runFrom A capacity policy actions = .ok s) (hi : s.serializers[i]? = some (.live this))
    (calls : List Call) (hstays : Along (Stays A i) (call A capacity policy i) ⟨s, [], []⟩ calls) :
    match run (call A capacity policy i) ⟨s, [], []⟩ calls with
    | .ok t => t.Safe i
    | .error f => f = .allocError ∨ f = .refcountAbort := by
  rcases run_rule_along _ (fun t => t.Inv capacity policy i p) Fault.Aborts
    (fun t c inv hstays => call_keeps A inv c hstays) calls _
    (Nesting.Inv.start A capacity policy i hrun hi) hstays with ⟨t, hr, inv⟩ | ⟨f, hr, hf⟩
  · rw [hr]
    exact inv.safe
  · rw [hr]
    exact hf

/-- Two blocks of 4 bytes, which fit the first capacity, with a write between them and their ends. -/
def twoSmall : List Call :=
  [.push ⟨4, 1⟩ (by decide), .push ⟨4, 1⟩ (by decide), .other (.write 0 [1, 2, 3]), .pop, .pop]

theorem blocks_stay_twoSmall :
    ∃ s this, runFrom (.bump (Params.x86_64 true).toTarget) 1 (fun _ => true) [.get] = .ok s ∧
      s.serializers[0]? = some (.live this) ∧
      match run (call (.bump (Params.x86_64 true).toTarget) 1 (fun _ => true) 0) ⟨s, [], []⟩ twoSmall with
      | .ok t => t.Safe 0
      | .error f => f = .allocError ∨ f = .refcountAbort := by
  refine ⟨_, ⟨0, 1, ∅⟩, rfl, rfl, ?_⟩
  exact blocks_stay (.bump (Params.x86_64 true).toTarget) 1 (fun _ => true) 0 [.get] rfl
    (show _[0]? = _ from rfl) twoSmall (by decide)

/-- Two blocks of 8 bytes: the second does not fit behind the first. -/
def movedBlock : List Call :=
  [.push ⟨8, 1⟩ (by decide), .push ⟨8, 1⟩ (by decide), .pop, .pop]

/-- **The second `push_alloc` moves the buffer away from the first block**, which is outside the storage
    from then on; its `pop_alloc` fails. -/
theorem not_safe_movedBlock :
    ∃ s this t, runFrom (.bump (Params.x86_64 true).toTarget) 1 (fun _ => true) [.get] = .ok s ∧
      s.serializers[0]? = some (.live this) ∧
      run (call (.bump (Params.x86_64 true).toTarget) 1 (fun _ => true) 0) ⟨s, [], []⟩ movedBlock = .ok t ∧
      t.popped = [.ok (), .error .doesNotContainAllocation] ∧ ¬t.Safe 0 := by
  refine ⟨_, ⟨0, 1, ∅⟩, _, rfl, rfl, rfl, rfl, ?_⟩
  intro hsafe
  have hok := hsafe.popped (.error .doesNotContainAllocation) (by decide)
  cases hok

end SerializerPool

end RkyvUtils
