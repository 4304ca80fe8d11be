import RkyvUtils.AlignedBufferPool.Accepted

/-!
# `AlignedBufferPool.MaxCapacity` — reachable capacities against `MAX_CAPACITY`

`MAX_CAPACITY` leaves 64 bytes of slack below `isize::MAX`. What limits a capacity in fact is the rounding
bound of `Layout`, which leaves the larger alignment of header and data, and `alloc_guard` on words of less
than 64 bits. So on 64 bits the constant is a limit where one of the alignments is above its slack, and
missed by at most that slack otherwise.
-/

namespace RkyvUtils

open Word

/-! ## The two limits against the constant -/

/-- `Layout::new::<Header>()` for a `CachePadded` that aligns to `cacheLine`: the padded count, a `usize`, and
    the padding of `repr(C)` at the end. -/
def headerLayout (t : Target) (cacheLine : Nat) : Layout :=
  let word := t.bits / 8
  let refCount := roundUp word cacheLine
  let allocBufferSize := roundUp refCount word
  ⟨roundUp (allocBufferSize + word) cacheLine, cacheLine⟩

example (debug : Bool) : headerLayout (Params.x86_64 debug).toTarget 128 = (Params.x86_64 debug).header := by
  cases debug <;> decide

namespace Params

variable (p : Params)

/-- One of the limits lies below `MAX_CAPACITY`: `alloc_guard` is compiled in, or an alignment is above the
    slack. -/
def Guarded : Prop := p.bits < 64 ∨ 64 < p.blockAlign

/-- A capacity fits the tagged word, and is past `MAX_CAPACITY` by the slack at most; not at all where a
    limit lies below. -/
structure Limits (cap : Nat) : Prop where
  fits : cap ≤ TaggedCap.maxValue p.toTarget
  slack : cap + p.blockAlign ≤ p.maxCapacity + 65
  within : p.Guarded → cap ≤ p.maxCapacity

variable {p}

theorem maxCapacity_eq (p : Params) : p.maxCapacity = p.half - 1 - p.bufferOffset - 64 := by
  unfold maxCapacity TaggedCap.maxValue
  rw [TaggedCap.valueMask_eq]

/-- The alignments are those of the cache line and of the data. -/
theorem guarded_iff {cacheLine : Nat} (hheader : p.header = headerLayout p.toTarget cacheLine) :
    p.Guarded ↔ p.bits < 64 ∨ 64 < cacheLine ∨ 64 < p.alignment := by
  unfold Guarded blockAlign
  rw [hheader, lt_max_iff]
  rfl

theorem Accepts.limits {cap : Nat} (h : p.Accepts cap) : p.Limits cap := by
  obtain ⟨hle, hguard⟩ := h
  have hmax := p.maxCapacity_eq
  have hpos := p.blockAlign_pos
  have hheader := p.header_size_le_bufferOffset
  constructor
  · unfold TaggedCap.maxValue
    rw [TaggedCap.valueMask_eq]
    omega
  · omega
  · rintro (hbits | halign)
    · have hsize := hguard hbits
      omega
    · omega

/-- The buffer without a block. -/
theorem limits_zero : p.Limits 0 := by
  have hle := p.bufferOffset_add_blockAlign_le
  have hmax := p.maxCapacity_eq
  exact ⟨Nat.zero_le _, by omega, fun _ => Nat.zero_le _⟩

/-- The crate on a 64-bit target with cache lines of 64 bytes. -/
def riscv64 : Params where
  toTarget := (x86_64 true).toTarget
  header := headerLayout (x86_64 true).toTarget 64
  alignment := 64
  header_valid := ⟨⟨6, rfl⟩, Nat.le_of_ble_eq_true rfl⟩
  offset_defined := by decide

end Params

/-! ## Accepted blocks in every reachable state -/

namespace UniqueAlignedBuffer

variable {α : Type} {p : Params} {h : Heap} {this : UniqueAlignedBuffer α} {o : Option BlockId}
  {xs : List UInt8} {data : List (Option UInt8)}

/-- The capacity of a buffer is that of its block. -/
theorem Stores.limits (hs : Stores p h this o xs data) (hh : h.Accepted p) :
    p.Limits (this.capacity p) := by
  rw [hs.capacity_eq]
  have hholds := hs.holds
  generalize this.buf = buf at hholds
  cases hholds with
  | empty alloc => exact Params.limits_zero
  | @block b blk alloc hb ok header => exact (hh blk (List.mem_of_getElem? hb)).limits

end UniqueAlignedBuffer

namespace BufferPool

open UniqueAlignedBuffer

variable {p : Params} {A : ExactAllocator p.toTarget} {cfg : Config} {s : State}

/-- The heap of a state has accepted blocks only. -/
def Accepted (p : Params) (s : State) : Prop := s.heap.Accepted p

@[simp] theorem releaseStrong_heap : (releaseStrong cfg s).heap = s.heap := by
  unfold releaseStrong
  dsimp only
  split
  · rfl
  · rfl

theorem advance_accepted (hs : Accepted p s) (i : Nat) (this : RawAlignedBuffer Home) (after : After)
    (pc : Pc) : Returns (Accepted p) (advance p cfg s i this after pc) := by
  have hh : s.heap.Accepted p := hs
  cases pc with
  | fetchSub => exact .ite (.ok hs) ((hh.fetchSub _).bind fun _ hr => .ite (.ok hr) (.ok hr))
  | load => exact .step fun _ => .ok hs
  | store => exact (hh.storeRefCount _ _).bind fun _ hh' => .step fun _ => .ok hh'
  | call raw =>
      unfold advance
      dsimp only
      cases this.alloc with
      | global => exact (hh.deallocateBuffer raw).bind fun _ hh' => .ok hh'
      | pool queue => exact .ite (.ok hs) (.ite (.ok hs) (.ok hs))
  | dealloc raw => exact (hh.deallocateBuffer raw).bind fun _ hh' => .ok hh'
  | push queue raw => exact .ite (.ok hs) (.ok hs)
  | reject raw => exact (hh.deallocateBuffer raw).bind fun _ hh' => .ok hh'
  | unref =>
      refine .ok ?_
      show (releaseStrong cfg s).heap.Accepted p
      rw [releaseStrong_heap]
      exact hh

theorem mutate_accepted (hs : Accepted p s) (i : Nat) (this : UniqueAlignedBuffer Home) (op : BufferOp) :
    Returns (Accepted p) (mutate A.toAllocator s i this op) := by
  have happly : (op.apply A.toAllocator s.heap this).1.Accepted p := BufferOp.apply_accepted hs op
  unfold mutate
  refine .ite (.step fun _ => .ok hs) ?_
  generalize op.apply A.toAllocator s.heap this = e at happly
  obtain ⟨heap, this', f⟩ := e
  cases f with
  | none => exact .ok happly
  | some f => exact .ite (.ok happly) .error

theorem tryUnique_accepted (hs : Accepted p s) (i : Nat) (this : SharedAlignedBuffer Home) :
    Returns (Accepted p) (tryUnique p s i this) := by
  unfold tryUnique
  cases this.tryUnique p s.heap with
  | error f => exact .ite (.ok hs) .error
  | ok r =>
      cases r with
      | ok unique => exact .ok hs
      | error shared => exact .ok hs

/-- **Every step keeps the blocks accepted.** -/
theorem step_accepted (hs : Accepted p s) (a : Action) :
    Returns (Accepted p) (step A.toAllocator cfg s a) := by
  have hh : s.heap.Accepted p := hs
  cases a with
  | new => exact .ok hs
  | withCapacity capacity =>
      have hnew := UniqueAlignedBuffer.withCapacityIn_keeps (A := A) hh capacity Home.global
      simp only [step]
      cases hr : UniqueAlignedBuffer.withCapacityIn A.toAllocator s.heap capacity Home.global with
      | ok r => exact .ok (hnew.of_eq hr)
      | error f => exact .ite (.ok hs) .error
  | get queue =>
      refine .ite (.ok hs) ?_
      cases s.queues[queue]? with
      | none => exact .ok hs
      | some entries =>
          cases entries with
          | nil => exact .ok hs
          | cons this rest => exact .ok hs
  | mutate i op =>
      simp only [step]
      split
      · exact mutate_accepted hs i _ op
      · exact .ok hs
  | intoShared i =>
      simp only [step]
      split
      · exact .step fun _ => .ok hs
      · exact .ok hs
  | clone i =>
      simp only [step]
      split
      · exact (SharedAlignedBuffer.clone_keeps hh).bind fun _ hr => .ok hr
      · exact .ok hs
  | tryUnique i =>
      simp only [step]
      split
      · exact tryUnique_accepted hs i _
      · exact .ok hs
  | read i =>
      simp only [step]
      split
      · exact .step fun _ => .ok hs
      · exact .step fun _ => .ok hs
      · exact .ok hs
  | drop i =>
      simp only [step]
      split
      · exact .ok hs
      · exact .ok hs
      · exact .ok hs
  | advance i =>
      simp only [step]
      split
      · exact advance_accepted hs i _ _ _
      · exact .ok hs
  | dropPool =>
      refine .ite (.ok hs) (.ok ?_)
      show (releaseStrong cfg { s with handle := false }).heap.Accepted p
      rw [releaseStrong_heap]
      exact hh

theorem runFrom_accepted (cfg : Config) (actions : List Action) :
    Returns (Accepted p) (runFrom A.toAllocator cfg actions) := by
  have hinit : Accepted p (State.init cfg) := Heap.Accepted.empty
  exact .run (fun _ a hs => step_accepted hs a) hinit actions

/-! ## `MAX_CAPACITY` -/

/-- `remaining_mut` does not underflow. -/
def RemainingExact (p : Params) (this : UniqueAlignedBuffer Home) : Prop :=
  this.len ≤ p.maxCapacity ∧ this.remainingMut p = .ok (p.maxCapacity - this.len)

/-- `chunk_mut` keeps the capacity inside the limits; where that is `MAX_CAPACITY` at most, the window is not
    longer than `remaining_mut`. -/
def WindowRemains (A : ExactAllocator p.toTarget) (h : Heap) (this : UniqueAlignedBuffer Home) : Prop :=
  match this.chunkMut A.toAllocator h with
  | .ok (_, this', dst) =>
      p.Limits (this'.capacity p) ∧
        (this'.capacity p ≤ p.maxCapacity → RemainingExact p this' ∧
          ∃ remaining, this'.remainingMut p = .ok remaining ∧ dst.len ≤ remaining)
  | .error f => OutOfRoom (some f)

end BufferPool

namespace UniqueAlignedBuffer

open BufferPool

variable {p : Params} {A : ExactAllocator p.toTarget} {h : Heap} {this : UniqueAlignedBuffer Home}
  {o : Option BlockId} {xs : List UInt8} {data : List (Option UInt8)}

theorem Stores.remainingExact (hs : Stores p h this o xs data) (hcap : this.capacity p ≤ p.maxCapacity) :
    RemainingExact p this := by
  have hle := hs.length_le
  have hlen := hs.length_eq
  rw [hs.capacity_eq] at hcap
  exact ⟨by omega, Target.usizeSub_of_le (by omega)⟩

theorem Stores.windowRemains (hs : Stores p h this o xs data) (hh : h.Accepted p) :
    WindowRemains A h this := by
  have hkeeps : Keeps p (this.chunkMut A.toAllocator h) := chunkMut_keeps hh
  unfold WindowRemains
  rcases chunkMut_spec A.toAllocator hs with ⟨h', this', o', data', dst, hr, hl, hw, -⟩ |
    ⟨f, hr, -, hf, -⟩
  · rw [hr]
    refine ⟨hl.stores.limits (hkeeps.of_eq hr), fun hcap => ?_⟩
    have hexact := hl.stores.remainingExact hcap
    have hends := hw.ends
    exact ⟨hexact, _, hexact.2, by omega⟩
  · rw [hr]
    exact hf

end UniqueAlignedBuffer

namespace BufferPool

open UniqueAlignedBuffer

variable {p : Params} (A : ExactAllocator p.toTarget) (cfg : Config)

/-- **How far a capacity goes** with an allocator that returns what it is asked for: for every block and every
    unique buffer of every reachable state, and once more behind `chunk_mut`. A buffer whose capacity is
    `MAX_CAPACITY` at most has an exact `remaining_mut`, which the window never exceeds. -/
theorem capacity_limited (actions : List Action) :
    match runFrom A.toAllocator cfg actions with
    | .ok s =>
        (∀ blk ∈ s.heap.blocks, p.Limits blk.data.length) ∧
        ∀ (i : Nat) (this : UniqueAlignedBuffer Home), s.slots[i]? = some (.unique this) →
          p.Limits (this.capacity p) ∧
            (this.capacity p ≤ p.maxCapacity → RemainingExact p this) ∧ WindowRemains A s.heap this
    | .error f => f.Aborts := by
  rcases run_proceeds cfg A.toAllocator actions with ⟨s, hr, inv⟩ | ⟨f, hr, hf⟩
  case inr => rw [hr]; exact hf
  have hh : s.heap.Accepted p := (runFrom_accepted cfg actions).of_eq hr
  rw [hr]
  refine ⟨fun blk hmem => (hh blk hmem).limits, ?_⟩
  intro i this hi
  obtain ⟨⟨o, xs, data, hs⟩, -⟩ := inv.slots i _ hi
  exact ⟨hs.limits hh, hs.remainingExact, hs.windowRemains hh⟩

/-- Room for a capacity of `2^63 - 192` bytes behind a header of 128. -/
theorem riscv64_allocate :
    (ExactAllocator.global Params.riscv64.toTarget .bump).allocate Heap.empty
        ⟨Params.riscv64.bufferOffset + (2 ^ 63 - 192), Params.riscv64.blockAlign⟩
      = some ⟨64, Params.riscv64.bufferOffset + (2 ^ 63 - 192)⟩ :=
  ExactAllocator.global_allocate (by decide) rfl (by decide)

/-- Cache lines and data of 64 bytes on a 64-bit target: a capacity past `MAX_CAPACITY`, and a window longer
    than `remaining_mut`. -/
theorem not_within_maxCapacity :
    ∃ s this, runFrom (ExactAllocator.global Params.riscv64.toTarget .bump).toAllocator
        ⟨0, 0, fun _ => true⟩ [.withCapacity (2 ^ 63 - 192)] = .ok s ∧
      s.slots[0]? = some (.unique this) ∧ ¬this.capacity Params.riscv64 ≤ Params.riscv64.maxCapacity ∧
      ∃ h' dst, this.chunkMut (ExactAllocator.global Params.riscv64.toTarget .bump).toAllocator s.heap
          = .ok (h', this, dst) ∧
        ∃ remaining, this.remainingMut Params.riscv64 = .ok remaining ∧ ¬dst.len ≤ remaining := by
  obtain ⟨h', buf, hnew, hvalue⟩ := RawAlignedBuffer.withCapacityIn_eq _ Home.global riscv64_allocate
    (show 0 < 2 ^ 63 - 192 by decide) (by decide)
  have hcall : UniqueAlignedBuffer.withCapacityIn
      (ExactAllocator.global Params.riscv64.toTarget .bump).toAllocator Heap.empty (2 ^ 63 - 192) Home.global
        = .ok (h', ⟨buf, 0⟩) := by
    unfold UniqueAlignedBuffer.withCapacityIn
    rw [hnew]
    rfl
  have hcap : UniqueAlignedBuffer.capacity Params.riscv64 ⟨buf, 0⟩ = 2 ^ 63 - 192 := hvalue
  refine ⟨_, ⟨buf, 0⟩, Run.run_cons_ok (step_withCapacity _ _ hcall), rfl, ?_, ?_⟩
  · rw [hcap]
    decide
  · unfold chunkMut
    rw [hcap, if_neg (show 2 ^ 63 - 192 ≠ 0 by decide)]
    refine ⟨_, _, rfl, _, Target.usizeSub_of_le (Nat.zero_le _), ?_⟩
    show ¬wrappingSub 64 (UniqueAlignedBuffer.capacity Params.riscv64 ⟨buf, 0⟩) 0 ≤
      Params.riscv64.maxCapacity - 0
    rw [hcap]
    decide

end BufferPool

end RkyvUtils
