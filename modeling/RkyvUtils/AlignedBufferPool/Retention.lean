import RkyvUtils.AlignedBufferPool.Steps

/-!
# `AlignedBufferPool.Retention` — how much memory a pool holds on to

The retention policies, and a bound on what is allocated in any state of any interleaving: the blocks that
handles have, and what the queues can keep. The second does not depend on what the handles did before, so a
pool that is not in use has a fixed size (`memory_bounded`).
-/

namespace RkyvUtils

open Word Ownership SlotTable

/-- `RetainAllRetentionPolicy::should_retain`. -/
def RetainAllRetentionPolicy.shouldRetain (_ : Nat) : Bool := true

/-- `ConstMaxSizeRetentionPolicy::<SIZE>::should_retain`. -/
def ConstMaxSizeRetentionPolicy.shouldRetain (SIZE capacity : Nat) : Bool := capacity ≤ SIZE

namespace Heap

/-- A weight of the block at place `b`. -/
def weight (w : Block → Nat) (h : Heap) (b : BlockId) : Nat := h.blocks[b]?.elim 0 w

/-- The weight of all blocks that are allocated. -/
def liveWeight (w : Block → Nat) (h : Heap) : Nat := total (fun blk => if blk.Live then w blk else 0) h.blocks

theorem liveWeight_eq (w : Block → Nat) (h : Heap) :
    h.liveWeight w = ∑ b ∈ Finset.range h.blocks.length, h.alive b * h.weight w b := by
  rw [liveWeight, total_eq_sum]
  refine Finset.sum_congr rfl fun b _ => ?_
  unfold Heap.alive Heap.weight mark
  cases h.blocks[b]? with
  | none => rfl
  | some blk =>
      simp only [Option.elim_some, ite_mul, Nat.one_mul, Nat.zero_mul]

end Heap

namespace BufferPool

variable {p : Params} {cfg : Config} {s : State}

/-- The block that a handle has, alone or with others. -/
def Slot.block (slot : Slot) : Option BlockId := slot.sole.or slot.ref

/-- The weight of the block that a handle has. -/
def Slot.weight (w : Block → Nat) (h : Heap) (slot : Slot) : Nat := slot.block.elim 0 (h.weight w)

/-- A handle never has a block in both ways. -/
theorem Slot.hit_block (slot : Slot) (b : BlockId) :
    hit slot.block b = hit slot.sole b + hit slot.ref b := by
  unfold Slot.block
  cases slot with
  | releasing this pc after => cases pc <;> simp [Slot.sole, Slot.ref]
  | _ => simp [Slot.sole, Slot.ref]

/-- **What is allocated** is with the handles or in the queues. -/
theorem Inv.liveWeight_le (inv : Inv p cfg s) (w : Block → Nat) :
    s.heap.liveWeight w ≤ total (Slot.weight w s.heap) s.slots
      + total (fun this => this.buf.buf.prov.elim 0 (s.heap.weight w)) s.queues.flatten := by
  -- block by block: whatever is allocated has an owner
  have howned : ∀ b, s.heap.alive b ≤ total (fun slot => hit slot.block b) s.slots
      + total (fun this => hit this.buf.buf.prov b) s.queues.flatten := by
    intro b
    have hslots : total (fun slot => hit slot.block b) s.slots
        = total (fun slot => hit slot.sole b) s.slots + s.refs b := by
      rw [State.refs, ← total_add]
      exact congrArg (total · s.slots) (funext fun slot => slot.hit_block b)
    have hqueued : total (fun this => hit this.buf.buf.prov b) s.queues.flatten = s.queued b := total_flatten
    have hown := inv.own b
    unfold State.soles at hown
    omega
  rw [Heap.liveWeight_eq]
  calc ∑ b ∈ Finset.range s.heap.blocks.length, s.heap.alive b * s.heap.weight w b
      ≤ ∑ b ∈ Finset.range s.heap.blocks.length,
          (total (fun slot => hit slot.block b) s.slots * s.heap.weight w b
            + total (fun this => hit this.buf.buf.prov b) s.queues.flatten * s.heap.weight w b) :=
        Finset.sum_le_sum fun b _ => by
          rw [← Nat.add_mul]
          exact Nat.mul_le_mul_right _ (howned b)
    _ ≤ _ := by
        rw [Finset.sum_add_distrib]
        exact Nat.add_le_add sum_total_hit_le sum_total_hit_le

/-- The queues are never longer than they may be. -/
theorem Inv.length_queues_le (inv : Inv p cfg s) : s.queues.flatten.length ≤ cfg.queues * cfg.capacity := by
  have hle : total List.length s.queues ≤ cfg.capacity * s.queues.length := by
    refine total_le_mul fun entries hmem => ?_
    obtain ⟨q, hq⟩ := List.mem_iff_getElem?.mp hmem
    exact inv.queue_le q entries hq
  rw [inv.queues_length, Nat.mul_comm] at hle
  rwa [List.length_flatten]

/-- A queued buffer has a block, of a capacity that the policy retains. -/
theorem Inv.queued_block (inv : Inv p cfg s) {this : UniqueAlignedBuffer Home}
    (hmem : this ∈ s.queues.flatten) : ∃ b blk, this.buf.buf.prov = some b ∧ s.heap.blocks[b]? = some blk ∧
      blk.size = p.bufferOffset + blk.data.length ∧ cfg.policy blk.data.length = true := by
  obtain ⟨entries, hentries, hmem⟩ := List.mem_flatten.mp hmem
  obtain ⟨q, hq⟩ := List.mem_iff_getElem?.mp hentries
  have hqueued := inv.queues q entries hq this hmem
  obtain ⟨b, blk, hraw, hb, ok⟩ := hqueued.given
  have hpolicy := hqueued.policy
  have hbuf : this.buf.buf = blk.dataPtr p b := congrArg RawBuffer.buf hraw
  have hcap : this.buf.capOrLen = .pack p.toTarget blk.data.length true := congrArg RawBuffer.cap hraw
  have hvalue : this.capacity p = blk.data.length := by
    show this.buf.capOrLen.value p.toTarget = _
    rw [hcap, TaggedCap.value_pack ok.data_lt]
  rw [hvalue] at hpolicy
  exact ⟨b, blk.counted 1, by rw [hbuf]; rfl, hb, ok.size_eq, hpolicy⟩

/-- **What is allocated at most**: what the handles have, and a fixed amount for the queues. -/
structure MemoryBounded (p : Params) (cfg : Config) (s : State) : Prop where
  /-- the blocks, under any policy -/
  blocks : s.heap.blocks.countP (fun blk => blk.Live)
    ≤ s.slots.countP (fun slot => slot.block.isSome) + cfg.queues * cfg.capacity
  /-- the bytes, under a policy that retains at most `SIZE` bytes of capacity -/
  bytes : ∀ SIZE, (∀ capacity, cfg.policy capacity = true →
      ConstMaxSizeRetentionPolicy.shouldRetain SIZE capacity = true) →
    s.heap.liveWeight Block.size ≤ total (Slot.weight Block.size s.heap) s.slots
      + cfg.queues * cfg.capacity * (p.bufferOffset + SIZE)

theorem Inv.memoryBounded (inv : Inv p cfg s) : MemoryBounded p cfg s where
  blocks := by
    have hle := inv.liveWeight_le fun _ => 1
    have hone : ∀ o : Option BlockId, o.elim 0 (s.heap.weight fun _ => 1) ≤ if o.isSome then 1 else 0 := by
      rintro (_ | b)
      · exact Nat.le_refl _
      · show s.heap.blocks[b]?.elim 0 (fun _ => 1) ≤ 1
        cases s.heap.blocks[b]? <;> simp
    have hslots : total (Slot.weight (fun _ => 1) s.heap) s.slots
        ≤ 1 * s.slots.countP fun slot => slot.block.isSome :=
      (total_mono fun slot : Slot => hone slot.block).trans_eq total_ite
    have hqueues : total (fun this : UniqueAlignedBuffer Home =>
        this.buf.buf.prov.elim 0 (s.heap.weight fun _ => 1)) s.queues.flatten
        ≤ 1 * s.queues.flatten.length := by
      refine total_le_mul fun this _ => (hone _).trans ?_
      split <;> omega
    have hlive : s.heap.liveWeight (fun _ => 1) = 1 * s.heap.blocks.countP fun blk => blk.Live := by
      rw [← total_ite]
      simp [Heap.liveWeight]
    have hlength := inv.length_queues_le
    omega
  bytes SIZE hpolicy := by
    have hle := inv.liveWeight_le Block.size
    have hqueues : total (fun this : UniqueAlignedBuffer Home =>
        this.buf.buf.prov.elim 0 (s.heap.weight Block.size)) s.queues.flatten
        ≤ (p.bufferOffset + SIZE) * s.queues.flatten.length := by
      refine total_le_mul fun this hmem => ?_
      -- a buffer is in a queue because the policy retained it
      obtain ⟨b, blk, hprov, hb, hsize, hretained⟩ := inv.queued_block hmem
      have hcap : blk.data.length ≤ SIZE := of_decide_eq_true (hpolicy _ hretained)
      rw [hprov]
      show s.heap.blocks[b]?.elim 0 Block.size ≤ _
      rw [hb, Option.elim_some, hsize]
      omega
    have hlength := Nat.mul_le_mul_left (p.bufferOffset + SIZE) inv.length_queues_le
    rw [Nat.mul_comm (cfg.queues * cfg.capacity)]
    omega

/-- **A pool holds on to a bounded amount of memory.** In every state of every interleaving the allocated
    blocks are those the handles have and at most `capacity` for each queue; under
    `ConstMaxSizeRetentionPolicy<SIZE>`, or a stricter policy, each of the latter has at most `SIZE` bytes
    behind its header. -/
theorem memory_bounded (A : Allocator p.toTarget) (actions : List Action) :
    match runFrom A cfg actions with
    | .ok s => MemoryBounded p cfg s
    | .error f => f.Aborts := by
  rcases run_proceeds cfg A actions with ⟨s, hr, inv⟩ | ⟨f, hr, hf⟩
  · rw [hr]
    exact inv.memoryBounded
  · rw [hr]
    exact hf

end BufferPool

end RkyvUtils
