import RkyvUtils.Lib.Run
import RkyvUtils.AlignedBuffer.Room

/-!
# `AlignedBuffer.UniqueRuns` — whole lives of a `UniqueAlignedBuffer`

A `Session` is a buffer, the heap it lives in, and the panics its caller has seen so far. The caller may
go on after a panic of its own making (an index out of range, an iterator that panics); a reservation
that panics or aborts ends the session. `mutators_refine_list` says that a session and the same
operations on a plain list of bytes agree.
-/

namespace RkyvUtils

open Word Ownership Run

/-- A buffer in its heap, and the panics seen so far. -/
structure Session (α : Type) where
  heap : Heap
  buffer : UniqueAlignedBuffer α
  panics : List Fault

namespace Session

variable {α : Type} {p : Params} (A : Allocator p.toTarget)

/-- `UniqueAlignedBuffer::with_capacity_in(capacity, alloc)` in a heap with any other blocks in it. -/
def start (h : Heap) (alloc : α) (capacity : Nat) : Except Fault (Session α) := do
  let (heap, buffer) ← UniqueAlignedBuffer.withCapacityIn A h capacity alloc
  return ⟨heap, buffer, []⟩

/-- One mutator. -/
def step (s : Session α) (op : UniqueOp) : Except Fault (Session α) :=
  match op.apply A s.heap s.buffer with
  | (heap, buffer, none) => .ok ⟨heap, buffer, s.panics⟩
  | (heap, buffer, some f) =>
      if f.isCallers then .ok ⟨heap, buffer, s.panics ++ [f]⟩ else .error f

/-- A session from `with_capacity` on. -/
def runFrom (h : Heap) (alloc : α) (capacity : Nat) (ops : List UniqueOp) :
    Except Fault (Session α) := do
  let s ← start A h alloc capacity
  run (step A) s ops

end Session

/-- A plain list of bytes, and the panics seen so far. -/
abbrev ListSession := List UInt8 × List Fault

/-- The mutator on the list. -/
def ListSession.step (t : ListSession) (op : UniqueOp) : ListSession :=
  ((op.onList t.1).1, t.2 ++ (op.onList t.1).2.toList)

/-- What a unique buffer promises between any two calls. -/
structure UniqueAlignedBuffer.WellFormed {α : Type} (p : Params) (h : Heap)
    (this : UniqueAlignedBuffer α) : Prop where
  /-- `len <= capacity` -/
  len_le : this.len ≤ this.capacity p
  /-- the bytes at `0..len` are initialised -/
  initialised : ∃ xs, this.asSlice p h = .ok xs ∧ xs.length = this.len
  /-- the allocated tag is set exactly when the capacity is not zero -/
  tag : this.buf.isAllocated p = true ↔ this.capacity p ≠ 0
  /-- the header's `alloc_buffer_size` equals the capacity -/
  header : this.buf.isAllocated p = true →
    ∃ hd, h.header (this.buf.headerPtr p) = .ok hd ∧ hd.allocBufferSize = this.capacity p

namespace Session

open UniqueAlignedBuffer

variable {α : Type} {p : Params} {h : Heap}

/-- A buffer that stores a list is well formed. -/
theorem wellFormed_of_stores {this : UniqueAlignedBuffer α}
    {o : Option BlockId} {xs : List UInt8} {data : List (Option UInt8)}
    (hs : Stores p h this o xs data) : this.WellFormed p h where
  len_le := by rw [hs.capacity_eq, hs.length_eq]; exact hs.length_le
  initialised := ⟨xs, hs.asSlice_eq, hs.length_eq.symm⟩
  tag := by rw [hs.capacity_eq]; exact hs.holds.isAllocated_iff
  header hall := ⟨_, hs.holds.header_eq hall, hs.capacity_eq.symm⟩

/-- The session is at the list `t.1` and its caller has seen the panics `t.2`. -/
def Tracks (p : Params) (s : Session α) (t : ListSession) : Prop :=
  (∃ o data, Stores p s.heap s.buffer o t.1 data) ∧ s.panics = t.2

/-- The two ways a reservation can end a session. -/
def Stop (f : Fault) : Prop := f = .capacityOverflow ∨ f = .allocError

variable (A : Allocator p.toTarget)

/-- **One mutator** keeps the session at the list. -/
theorem step_spec (s : Session α) (t : ListSession) (op : UniqueOp) (hT : Tracks p s t) :
    (∃ s', step A s op = .ok s' ∧ Tracks p s' (t.step op)) ∨ ∃ f, step A s op = .error f ∧ Stop f := by
  obtain ⟨⟨o, data, hs⟩, hpanics⟩ := hT
  unfold step
  cases hfrees : op.frees p s.buffer with
  | true =>
      obtain ⟨b, blk, -, -, happ, hlist, -⟩ := apply_of_frees A hs op hfrees
      rw [happ]
      refine Or.inl ⟨_, rfl, ⟨none, [], ?_⟩, ?_⟩
      · simp only [ListSession.step, hlist]
        exact ⟨.empty _, rfl, rfl⟩
      · simp [ListSession.step, hlist, hpanics]
  | false =>
  have hend := apply_spec A hs op hfrees
  generalize op.apply A s.heap s.buffer = e at hend
  cases hend with
  | @returned h' this' o' data' hl =>
      have hstores : ∃ o data, Stores p h' this' o (op.onList t.1).1 data := ⟨o', data', hl.stores⟩
      cases hf : (op.onList t.1).2 with
      | none => exact Or.inl ⟨_, rfl, hstores, by simp [ListSession.step, hf, hpanics]⟩
      | some f =>
          dsimp only
          rw [if_pos (UniqueOp.onList_isCallers hf)]
          exact Or.inl ⟨_, rfl, hstores, by simp [ListSession.step, hf, hpanics]⟩
  | reservation hl hf =>
      rcases hf with rfl | rfl
      · exact Or.inr ⟨_, rfl, Or.inl rfl⟩
      · exact Or.inr ⟨_, rfl, Or.inr rfl⟩

/-- **A session** tracks the list, or ends at a reservation. -/
theorem runFrom_spec (h : Heap) (alloc : α) (capacity : Nat) (ops : List UniqueOp) :
    (∃ s, runFrom A h alloc capacity ops = .ok s ∧
      Tracks p s (ops.foldl ListSession.step ([], []))) ∨
    ∃ f, runFrom A h alloc capacity ops = .error f ∧ Stop f := by
  unfold runFrom start
  rcases withCapacityIn_spec A alloc h capacity with ⟨h', this', o', data', hr, hl, -⟩ | hr | hr
  · have hT : Tracks p ⟨h', this', []⟩ ([], []) := ⟨⟨o', data', hl.stores⟩, rfl⟩
    rw [hr]
    exact run_simulation ListSession.step (Tracks p) Stop (step_spec A) ops _ _ hT
  · rw [hr]; exact Or.inr ⟨_, rfl, Or.inl rfl⟩
  · rw [hr]; exact Or.inr ⟨_, rfl, Or.inr rfl⟩

/-- The buffer of a session stores some list. -/
theorem stores_of_runFrom {alloc : α} {capacity : Nat} {ops : List UniqueOp} {s : Session α}
    (hs : runFrom A h alloc capacity ops = .ok s) :
    ∃ o xs data, Stores p s.heap s.buffer o xs data := by
  rcases runFrom_spec A h alloc capacity ops with ⟨s', hr, ⟨o, data, hst⟩, -⟩ | ⟨f, hr, -⟩
  · rw [hs] at hr
    cases hr
    exact ⟨o, _, data, hst⟩
  · rw [hs] at hr; cases hr

/-- Where a reservation ended the session: in `with_capacity`, or in a mutator that had to go to the
    allocator. -/
def StoppedAt (h : Heap) (alloc : α) (capacity : Nat) (ops : List UniqueOp) (f : Fault) : Prop :=
  0 < capacity ∧ start A h alloc capacity = .error f ∨
    ∃ done op rest s, ops = done ++ op :: rest ∧ runFrom A h alloc capacity done = .ok s ∧
      op.MayStop p s.buffer ∧ step A s op = .error f

/-- A mutator that ends the session had to go to the allocator. -/
theorem mayStop_of_step {s : Session α} {o : Option BlockId} {xs : List UInt8}
    {data : List (Option UInt8)} (hs : Stores p s.heap s.buffer o xs data) {op : UniqueOp} {f : Fault}
    (hstep : step A s op = .error f) : op.MayStop p s.buffer := by
  unfold step at hstep
  generalize he : op.apply A s.heap s.buffer = e at hstep
  obtain ⟨h', this', _ | f'⟩ := e
  · cases hstep
  · dsimp only at hstep
    by_cases hcallers : f'.isCallers = true
    · rw [if_pos hcallers] at hstep
      cases hstep
    · exact apply_stops hs A op (by rw [he]) (Bool.eq_false_iff.mpr hcallers)

/-- **Only such a mutator** ends a session. -/
theorem stoppedAt_of_error {h : Heap} {alloc : α} {capacity : Nat} {ops : List UniqueOp} {f : Fault}
    (hr : runFrom A h alloc capacity ops = .error f) : StoppedAt A h alloc capacity ops f := by
  unfold runFrom at hr
  cases hstart : start A h alloc capacity with
  | error f' =>
      rw [hstart] at hr
      cases hr
      refine Or.inl ⟨Nat.pos_of_ne_zero ?_, hstart⟩
      rintro rfl
      cases hstart
  | ok s₀ =>
      rw [hstart] at hr
      obtain ⟨done, op, rest, s, hops, hdone, hstep⟩ := run_error hr
      have hs : runFrom A h alloc capacity done = .ok s := by
        unfold runFrom
        rw [hstart]
        exact hdone
      obtain ⟨o, xs, data, hst⟩ := stores_of_runFrom A hs
      exact Or.inr ⟨done, op, rest, s, hops, hs, mayStop_of_step A hst hstep, hstep⟩

/-- **A buffer is a list of bytes.** After any sequence of mutators, on any allocator that obeys the
    contract and in a heap with anything else in it, the visible bytes and the panics the caller saw are
    those of the same operations on a plain list, and the buffer is well formed; the only other end is a
    reservation that panics or aborts, which only a mutator makes that asks for more than the capacity or is
    to give some of it back. In particular no assertion, contract or memory fault is reached. -/
theorem mutators_refine_list (h : Heap) (alloc : α) (capacity : Nat) (ops : List UniqueOp) :
    match runFrom A h alloc capacity ops with
    | .ok s =>
        s.buffer.asSlice p s.heap = .ok (ops.foldl ListSession.step ([], [])).1 ∧
          s.panics = (ops.foldl ListSession.step ([], [])).2 ∧ s.buffer.WellFormed p s.heap
    | .error f =>
        (f = .capacityOverflow ∨ f = .allocError) ∧ StoppedAt A h alloc capacity ops f := by
  rcases runFrom_spec A h alloc capacity ops with ⟨s, hr, ⟨o, data, hst⟩, hpanics⟩ | ⟨f, hr, hf⟩
  · rw [hr]
    exact ⟨hst.asSlice_eq, hpanics, wellFormed_of_stores hst⟩
  · have hstopped := stoppedAt_of_error A hr
    rw [hr]
    exact ⟨hf, hstopped⟩

end Session

end RkyvUtils
