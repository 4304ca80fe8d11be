import RkyvUtils.AlignedBuffer.Extend
import RkyvUtils.AlignedBufferPool.Steps

/-!
# `AlignedBufferPool.Values` — the system without its memory

What the buffers are for: a table of values. A handle is a list of bytes, its owner's alone (`unique`) or
frozen (`shared`); a step changes the value it names, or adds one. There is no heap, no count, no queue and
no allocator, so nothing one handle does can be seen through another. `refines_values` says that the system
of `BufferPool` refines this one: the table answers each action as the system does (it is told which calls
panicked), and every handle shows its value.
-/

namespace RkyvUtils

open Word Ownership SlotTable Run

/-! ## What a call makes of the bytes -/

/-- The mutators whose reservation can panic: those that add bytes, and those that change the capacity and
    return no `Result`. -/
def UniqueOp.Reserves (xs : List UInt8) : UniqueOp → Prop
  | .resize newLen _ => xs.length < newLen
  | .truncate _ | .clear | .tryReserve _ | .tryReserveExact _ | .indexMut _ _ => False
  | _ => True

/-- A call on a buffer with the bytes `xs` ends with `answer`, a panic or none, and leaves `ys`. -/
inductive BufferOp.Makes (xs : List UInt8) : BufferOp → Option Fault → List UInt8 → Prop
  | returned (op : UniqueOp) : Makes xs (.unique op) (op.onList xs).2 (op.onList xs).1
  /-- the reservation panics -/
  | refused {op : UniqueOp} (hop : op.Reserves xs) : Makes xs (.unique op) (some .capacityOverflow) xs
  /-- a reservation panics in the middle of `extend`: the items so far stay -/
  | extended {iter : ByteIter} {ys : List UInt8} (hys : ys <+: Next.bytes iter.nexts) :
      Makes xs (.unique (.extend iter)) (some .capacityOverflow) (xs ++ ys)
  | pushed {layout : Layout} {n : Nat} (hn : layout.size ≤ n) :
      Makes xs (.pushAlloc layout) none (xs ++ List.replicate n 0)
  | notPushed (layout : Layout) : Makes xs (.pushAlloc layout) (some .capacityOverflow) xs
  | popped (ptr : Ptr) {layout : Layout} {n : Nat} (hn : n + layout.size ≤ xs.length) :
      Makes xs (.popAlloc ptr layout) none (xs.take n)
  /-- `pop_alloc` returns an error -/
  | notPopped (ptr : Ptr) (layout : Layout) : Makes xs (.popAlloc ptr layout) none xs

/-- A call that gives up the block of an empty buffer. -/
def BufferOp.Empties (op : BufferOp) : Prop := (∃ n, op = .unique (.shrinkTo n)) ∨ op = .unique .shrinkToFit

namespace UniqueAlignedBuffer

variable {α : Type} {p : Params} (A : Allocator p.toTarget) {h : Heap} {this : UniqueAlignedBuffer α}
  {o : Option BlockId} {xs : List UInt8} {data : List (Option UInt8)}

/-- A call that ends with `e`, having led to a buffer with bytes that `op` makes; or it aborted. -/
def Results (p : Params) (h : Heap) (this : UniqueAlignedBuffer α) (o : Option BlockId) (xs : List UInt8)
    (op : BufferOp) (e : Ended α) : Prop :=
  e.2.2 = some .allocError ∨
    ∃ o' ys data', Leads p h this o ys e.1 e.2.1 o' data' ∧ op.Makes xs e.2.2 ys

/-- **The loop of pushes** stops at a reservation with a first part of the items in the buffer. -/
theorem pushAll_results (hs : Stores p h this o xs data) (nexts : List Next) :
    (pushAll A h this nexts).2.2 = some .allocError ∨
      ∃ o' ys data', Leads p h this o (xs ++ ys) (pushAll A h this nexts).1 (pushAll A h this nexts).2.1
          o' data' ∧
        (ys = Next.bytes nexts ∧ (pushAll A h this nexts).2.2 =
            (if Next.panics nexts then some .iteratorPanic else none) ∨
          ys <+: Next.bytes nexts ∧ (pushAll A h this nexts).2.2 = some .capacityOverflow) := by
  have hnone : Leads p h this o (xs ++ []) h this o data := by
    rw [List.append_nil]
    exact .refl hs
  induction nexts generalizing h this o xs data with
  | nil => exact .inr ⟨o, [], data, hnone, .inl ⟨rfl, rfl⟩⟩
  | cons next nexts ih =>
      cases next with
      | none | panic => exact .inr ⟨o, [], data, hnone, .inl ⟨rfl, rfl⟩⟩
      | some byte =>
          unfold pushAll
          rcases push_spec A hs byte with ⟨h', this', o', data', hp, hl, -⟩ | hp | hp
          · rw [hp]
            have hnone' : Leads p h' this' o' ((xs ++ [byte]) ++ []) h' this' o' data' := by
              rw [List.append_nil]
              exact .refl hl.stores
            rcases ih hl.stores hnone' with habort | ⟨o₂, ys, data₂, hl₂, hends⟩
            · exact .inl habort
            · refine .inr ⟨o₂, byte :: ys, data₂, ?_, ?_⟩
              · have := hl.trans hl₂
                rwa [List.append_assoc] at this
              · rcases hends with ⟨rfl, he⟩ | ⟨hpre, he⟩
                · exact .inl ⟨rfl, he⟩
                · exact .inr ⟨List.cons_prefix_cons.mpr ⟨rfl, hpre⟩, he⟩
          · -- the push asked for too much: nothing of the rest is in the buffer
            rw [hp]
            exact .inr ⟨o, [], data, hnone, .inr ⟨List.nil_prefix, rfl⟩⟩
          · rw [hp]
            exact .inl rfl

/-- **`extend`** stops at a reservation with a first part of the items in the buffer. -/
theorem extend_results (hs : Stores p h this o xs data) (iter : ByteIter) :
    Results p h this o xs (.unique (.extend iter)) (this.extend A h iter) := by
  unfold extend
  rcases reserve_spec A hs iter.lower with ⟨h₁, this₁, o₁, data₁, hr, hl, hcap⟩ | hr | hr
  · rw [hr]
    have hs₁ := hl.stores
    have hle := hs₁.length_le
    dsimp only
    rw [hs₁.free_eq]
    obtain ⟨h₂, len, data₂, ys, done, hf, hl₂, hbytes, hpanics⟩ :=
      fill_spec hs₁ (data₁.length - xs.length) iter.nexts (by omega)
    rw [hf]
    have hreturned : BufferOp.Makes xs (.unique (.extend iter)) _ _ := .returned (.extend iter)
    simp only [UniqueOp.onList] at hreturned
    rw [hbytes, hpanics] at hreturned
    cases done with
    | full nexts =>
        -- the free capacity is used up, and each further item is a push that may fail
        dsimp only
        rcases pushAll_results A hl₂.stores nexts with habort | ⟨o₃, zs, data₃, hl₃, hends⟩
        · exact .inl habort
        · have hleads := (hl.trans hl₂).trans hl₃
          rw [List.append_assoc] at hleads
          refine .inr ⟨o₃, xs ++ (ys ++ zs), data₃, hleads, ?_⟩
          rcases hends with ⟨rfl, he⟩ | ⟨hpre, he⟩
          · rw [he]
            exact hreturned
          · rw [he]
            refine .extended ?_
            rw [hbytes]
            exact (List.prefix_append_right_inj ys).mpr hpre
    | ended | panicked =>
        dsimp only
        refine .inr ⟨o₁, xs ++ ys, data₂, hl.trans hl₂, ?_⟩
        simpa [FillEnd.bytes, FillEnd.panics] using hreturned
  · rw [hr]
    exact .inr ⟨o, xs, data, .refl hs, .refused trivial⟩
  · rw [hr]
    exact .inl rfl

/-- **A call that settles** returns what is expected, or its reservation panics and nothing happened. -/
theorem Settles.results {op : UniqueOp} {cap : Nat} {ys : List UInt8}
    {r : Except Fault (Heap × UniqueAlignedBuffer α)} (hs : Stores p h this o xs data)
    (hr : Settles p h this o ys cap r) (hop : op.onList xs = (ys, none))
    (hreserves : op.Reserves xs ∨ ∃ x, r = .ok x) :
    Results p h this o xs (.unique op) (UniqueOp.settle h this r) := by
  have hreturned : BufferOp.Makes xs (.unique op) _ _ := .returned op
  rw [hop] at hreturned
  rcases hr with ⟨h', this', o', data', rfl, hl, -⟩ | rfl | rfl
  · exact .inr ⟨o', ys, data', hl, hreturned⟩
  · rcases hreserves with hreserves | ⟨x, hx⟩
    · exact .inr ⟨o, xs, data, .refl hs, .refused hreserves⟩
    · cases hx
  · exact .inl rfl

/-- The fallible reservations never panic. -/
theorem settleTry_results {op : UniqueOp} {cap : Nat} {x : Except Fault (RawAlignedBuffer.Reserved α)}
    (hs : Stores p h this o xs data)
    (hx : ∃ r, x = .ok r ∧ RawAlignedBuffer.Outcome p h this.buf o data cap r) (hle : xs.length ≤ cap)
    (hop : op.onList xs = (xs, none)) :
    Results p h this o xs (.unique op) (UniqueOp.settleTry h this (do
      let (h, buf, result) ← x
      return (h, { this with buf }, result))) := by
  obtain ⟨h', this', o', data', hr, hl⟩ := settleTry_spec hs hx hle
  have hreturned : BufferOp.Makes xs (.unique op) _ _ := .returned op
  rw [hop] at hreturned
  rw [hr]
  exact .inr ⟨o', xs, data', hl, hreturned⟩

/-- **Every mutator** that keeps its block. -/
theorem apply_results (hs : Stores p h this o xs data) (op : UniqueOp) (hkeep : op.frees p this = false) :
    Results p h this o xs (.unique op) (op.apply A h this) := by
  have hle := hs.length_le
  have hlen := hs.length_eq
  have hreturned : BufferOp.Makes xs (.unique op) _ _ := .returned op
  cases op with
  | push value => exact (push_spec A hs value).results hs rfl (.inl trivial)
  | append other | extendFromSlice other =>
      exact (appendElements_spec A hs other).results hs rfl (.inl trivial)
  | extend iter => exact extend_results A hs iter
  | resize newLen value =>
      refine (resize_spec A hs newLen value).results hs rfl ?_
      -- only a larger length makes a reservation
      by_cases hlt : xs.length < newLen
      · exact .inl hlt
      · refine .inr ⟨(h, this.truncate newLen), ?_⟩
        unfold resize
        rw [if_neg (by omega)]
        rfl
  | truncate len => exact .inr ⟨o, _, data, ⟨hs.take len, rfl, .refl⟩, hreturned⟩
  | clear => exact .inr ⟨o, [], data, ⟨⟨hs.holds, rfl, rfl⟩, rfl, .refl⟩, hreturned⟩
  | reserve n => exact (reserve_spec A hs n).results hs rfl (.inl trivial)
  | reserveExact n => exact (reserveExact_spec A hs n).results hs rfl (.inl trivial)
  | tryReserve n =>
      exact settleTry_results hs (RawAlignedBuffer.tryReserve_spec A n hs.holds (by omega)) (by omega) rfl
  | tryReserveExact n =>
      exact settleTry_results hs (RawAlignedBuffer.tryReserveExact_spec A n hs.holds (by omega)) (by omega)
        rfl
  | shrinkTo n => exact (shrinkTo_spec A hs n hkeep).results hs rfl (.inl trivial)
  | shrinkToFit => exact (shrinkToFit_spec A hs hkeep).results hs rfl (.inl trivial)
  | indexMut start bytes =>
      by_cases hlt : xs.length < start + bytes.length
      · simp only [UniqueOp.onList, if_pos hlt] at hreturned
        simp only [UniqueOp.apply, indexMut_error hs hlt]
        exact .inr ⟨o, xs, data, .refl hs, hreturned⟩
      · obtain ⟨h', hw, -, -⟩ := hs.holds.write (show start + bytes.length ≤ data.length by omega)
        refine (indexMut_spec hs (by omega)).results hs ?_ (.inr ⟨(h', this), ?_⟩)
        · simp only [UniqueOp.onList, if_neg hlt]
        · unfold indexMut
          rw [hs.asSlice_eq, ok_bind, if_neg hlt, show h.write p (this.asMutPtr.add start) bytes = _ from hw]
          rfl

end UniqueAlignedBuffer

/-- **Whatever is done to a unique buffer** that keeps its block, with the bytes it makes. -/
theorem BufferOp.apply_results {α : Type} {p : Params} (A : Allocator p.toTarget) {h : Heap}
    {this : UniqueAlignedBuffer α} {o : Option BlockId} {xs : List UInt8} {data : List (Option UInt8)}
    (hs : UniqueAlignedBuffer.Stores p h this o xs data) (op : BufferOp) (hkeep : op.frees p this = false) :
    UniqueAlignedBuffer.Results p h this o xs op (op.apply A h this) := by
  cases op with
  | unique op => exact UniqueAlignedBuffer.apply_results A hs op hkeep
  | pushAlloc layout =>
      rcases Scratch.pushAlloc_spec A hs layout with ⟨h', this', o', data', hp, hl⟩ | hp | hp
      · simp only [apply, hp]
        exact .inr ⟨o', _, data', hl, .pushed (Nat.le_add_left _ _)⟩
      · simp only [apply, hp]
        exact .inr ⟨o, xs, data, .refl hs, .notPushed layout⟩
      · simp only [apply, hp]
        exact .inl rfl
  | popAlloc ptr layout =>
      have hlen := hs.length_eq
      simp only [apply, Scratch.popAlloc_spec hs]
      by_cases hin : this.asMutPtr.addr ≤ ptr.addr ∧ ptr.addr < this.asMutPtr.addr + xs.length
      · by_cases hfit : ptr.addr - this.asMutPtr.addr + layout.size ≤ xs.length
        · have ht := hs.take (ptr.addr - this.asMutPtr.addr)
          rw [Nat.min_eq_left (by omega)] at ht
          simp only [if_pos hin, if_pos hfit]
          exact .inr ⟨o, _, data, ⟨ht, rfl, .refl⟩, .popped ptr hfit⟩
        · simp only [if_pos hin, if_neg hfit]
          exact .inr ⟨o, xs, data, .refl hs, .notPopped ptr layout⟩
      · simp only [if_neg hin]
        exact .inr ⟨o, xs, data, .refl hs, .notPopped ptr layout⟩

namespace BufferPool

open UniqueAlignedBuffer RawAlignedBuffer

/-! ## The table of values -/

/-- What a handle is to its owner. -/
inductive Value where
  | unique (xs : List UInt8)
  | shared (xs : List UInt8)
  /-- a call that shrinks the buffer to nothing has not returned yet -/
  | busy
  | gone
deriving DecidableEq, Repr

/-- The handles, and whether the owner of the pool still has it. -/
structure Values where
  handles : List Value
  pool : Bool
deriving DecidableEq, Repr

namespace Values

def set (vs : Values) (i : Nat) (v : Value) : Values := { vs with handles := vs.handles.set i v }

def add (vs : Values) (v : Value) : Values := { vs with handles := vs.handles ++ [v] }

/-- Places in the table for `n` buffers that nobody has. -/
def pad (vs : Values) (n : Nat) : Values := { vs with handles := vs.handles ++ List.replicate n .gone }

end Values

/-- The handle that an action is done to. -/
def Action.handle? : Action → Option Nat
  | .mutate i _ | .intoShared i | .clone i | .tryUnique i | .drop i => some i
  | .new | .withCapacity _ | .get _ | .read _ | .advance _ | .dropPool => none

/-- The actions of the owner of a unique buffer, and of a shared one. -/
def Value.takes : Value → Action → Bool
  | .unique _, .mutate _ _ | .unique _, .intoShared _ | .unique _, .drop _ => true
  | .shared _, .clone _ | .shared _, .tryUnique _ | .shared _, .drop _ => true
  | _, _ => false

/-- **One action on values**, which ends with `answer`. -/
inductive Does (queues : Nat) (vs : Values) : Action → Option Fault → Values → Prop
  | new : Does queues vs .new none (vs.add (.unique []))
  | withCapacity (n : Nat) : Does queues vs (.withCapacity n) none (vs.add (.unique []))
  | withCapacityPanics (n : Nat) : Does queues vs (.withCapacity n) (some .capacityOverflow) vs
  | get {q : Nat} (hpool : vs.pool = true) (hq : q < queues) :
      Does queues vs (.get q) none (vs.add (.unique []))
  | noPool {q : Nat} (hno : vs.pool = false ∨ queues ≤ q) : Does queues vs (.get q) none vs
  | mutate {i : Nat} {xs ys : List UInt8} {op : BufferOp} {answer : Option Fault}
      (hi : vs.handles[i]? = some (.unique xs)) (hop : op.Makes xs answer ys) :
      Does queues vs (.mutate i op) answer (vs.set i (.unique ys))
  | empty {i : Nat} {op : BufferOp} (hi : vs.handles[i]? = some (.unique [])) (hop : op.Empties) :
      Does queues vs (.mutate i op) none (vs.set i .busy)
  | intoShared {i : Nat} {xs : List UInt8} (hi : vs.handles[i]? = some (.unique xs)) :
      Does queues vs (.intoShared i) none ((vs.set i .gone).add (.shared xs))
  | clone {i : Nat} {xs : List UInt8} (hi : vs.handles[i]? = some (.shared xs)) :
      Does queues vs (.clone i) none (vs.add (.shared xs))
  | tryUnique {i : Nat} {xs : List UInt8} (hi : vs.handles[i]? = some (.shared xs)) :
      Does queues vs (.tryUnique i) none ((vs.set i .gone).add (.unique xs))
  /-- there are clones -/
  | notUnique {i : Nat} {xs : List UInt8} (hi : vs.handles[i]? = some (.shared xs)) :
      Does queues vs (.tryUnique i) none vs
  /-- the assertion of `ref_count` on a buffer that has no block -/
  | tryUniquePanics {i : Nat} (hi : vs.handles[i]? = some (.shared [])) :
      Does queues vs (.tryUnique i) (some .debugAssert) (vs.set i .gone)
  | read (i : Nat) : Does queues vs (.read i) none vs
  | drop {i : Nat} {v : Value} (hi : vs.handles[i]? = some v) (htakes : v.takes (.drop i) = true) :
      Does queues vs (.drop i) none (vs.set i .gone)
  /-- a step inside a call nobody sees the effect of -/
  | advance (i n : Nat) : Does queues vs (.advance i) none (vs.pad n)
  /-- the call that shrinks the buffer returns -/
  | returns {i : Nat} (n : Nat) (hi : vs.handles[i]? = some .busy) :
      Does queues vs (.advance i) none ((vs.set i (.unique [])).pad n)
  | dropPool (n : Nat) (hpool : vs.pool = true) :
      Does queues vs .dropPool none ({ vs with pool := false }.pad n)
  | dropped (hpool : vs.pool = false) : Does queues vs .dropPool none vs
  /-- the handle is not of the kind that the action is for -/
  | idle {a : Action} {i : Nat} (ha : a.handle? = some i)
      (hnot : ∀ v, vs.handles[i]? = some v → v.takes a = false) : Does queues vs a none vs

/-- A sequence of actions with their answers. -/
inductive Traces (queues : Nat) : Values → List (Action × Option Fault) → Values → Prop
  | nil (vs : Values) : Traces queues vs [] vs
  | cons {vs vs₁ vs₂ : Values} {a : Action} {answer : Option Fault} {rest : List (Action × Option Fault)}
      (head : Does queues vs a answer vs₁) (tail : Traces queues vs₁ rest vs₂) :
      Traces queues vs ((a, answer) :: rest) vs₂

/-! ## What the system answers -/

section

variable {p : Params} (A : Allocator p.toTarget)

/-- The panic that an action ends with, if any. -/
def answer (s : State) : Action → Option Fault
  | .withCapacity capacity =>
      match UniqueAlignedBuffer.withCapacityIn A s.heap capacity Home.global with
      | .ok _ => none
      | .error f => some f
  | .mutate i op =>
      match s.slots[i]? with
      | some (.unique this) => if op.frees p this = true then none else (op.apply A s.heap this).2.2
      | _ => none
  | .tryUnique i =>
      match s.slots[i]? with
      | some (.shared this) =>
          match this.tryUnique p s.heap with
          | .ok _ => none
          | .error f => some f
      | _ => none
  | _ => none

/-- The actions of a run with their answers. -/
def trace (cfg : Config) (s : State) : List Action → List (Action × Option Fault)
  | [] => []
  | a :: as => (a, answer A s a) ::
      match step A cfg s a with
      | .ok s' => trace cfg s' as
      | .error _ => []

end

/-! ## What a handle shows -/

variable {p : Params} {cfg : Config} {s s' : State}

/-- Slot `slot` shows value `v`. -/
def Slot.Looks (p : Params) (h : Heap) : Slot → Value → Prop
  | .unique this, .unique xs => this.asSlice p h = .ok xs ∧ this.len = xs.length
  | .shared this, .shared xs => this.asSlice p h = .ok xs ∧ this.len p = xs.length
  | .releasing _ _ (.emptied _), .busy => True
  | .releasing _ _ .dropped, .gone => True
  | .gone, .gone => True
  | _, _ => False

/-- The same, with what the owner of the slot knows of its block. -/
inductive Slot.Is (p : Params) (h : Heap) : Slot → Value → Prop
  | unique {this : UniqueAlignedBuffer Home} {o : Option BlockId} {xs : List UInt8}
      {data : List (Option UInt8)} (hs : Stores p h this o xs data) : Is p h (.unique this) (.unique xs)
  | shared {this : SharedAlignedBuffer Home} {xs : List UInt8} {data : List (Option UInt8)}
      (hs : Shows p h this xs data) : Is p h (.shared this) (.shared xs)
  | shrinking (this : RawAlignedBuffer Home) (pc : Pc) (len : Nat) :
      Is p h (.releasing this pc (.emptied len)) .busy
  | leaving (this : RawAlignedBuffer Home) (pc : Pc) : Is p h (.releasing this pc .dropped) .gone
  | gone : Is p h .gone .gone

theorem Slot.Is.looks {h : Heap} {slot : Slot} {v : Value} (hv : slot.Is p h v) : slot.Looks p h v := by
  cases hv with
  | unique hs => exact ⟨hs.asSlice_eq, hs.length_eq⟩
  | shared hs => exact hs.asSlice_eq
  | shrinking this pc len => trivial
  | leaving this pc => trivial
  | gone => trivial

/-- **The steps of others do not change what a handle shows.** -/
theorem Slot.Is.kept {h h' : Heap} {slot : Slot} {v : Value} (hv : slot.Is p h v) (hk : Kept h h' slot) :
    slot.Is p h' v := by
  cases hv with
  | unique hs =>
      refine .unique (hs.congr fun b hb => hk.sole b ?_)
      rw [← hb]
      exact hs.holds.prov_eq
  | shared hs => exact .shared ⟨hs.grips.kept hk.ref, hs.bytes⟩
  | shrinking this pc len => exact .shrinking this pc len
  | leaving this pc => exact .leaving this pc
  | gone => exact .gone

/-- Every handle shows its value. -/
structure Reads (p : Params) (s : State) (vs : Values) : Prop where
  length : vs.handles.length = s.slots.length
  each : ∀ (i : Nat) (slot : Slot), s.slots[i]? = some slot →
    ∃ v, vs.handles[i]? = some v ∧ slot.Is p s.heap v
  pool : vs.pool = s.handle

/-- A handle shows one value. -/
theorem Slot.Is.det {h : Heap} {slot : Slot} {v v' : Value} (hv : slot.Is p h v) (hv' : slot.Is p h v') :
    v = v' := by
  cases hv with
  | unique hs =>
      cases hv' with
      | unique hs' => rw [Except.ok.inj (hs.asSlice_eq.symm.trans hs'.asSlice_eq)]
  | shared hs =>
      cases hv' with
      | shared hs' => rw [Except.ok.inj (hs.asSlice_eq.1.symm.trans hs'.asSlice_eq.1)]
  | shrinking => cases hv'; rfl
  | leaving => cases hv'; rfl
  | gone => cases hv'; rfl

/-- The table of values is determined by the state. -/
theorem Reads.det {vs vs' : Values} (hr : Reads p s vs) (hr' : Reads p s vs') : vs = vs' := by
  have hhandles : vs.handles = vs'.handles := by
    refine List.ext_getElem? fun i => ?_
    cases hi : s.slots[i]? with
    | none =>
        rw [List.getElem?_eq_none_iff] at hi
        rw [List.getElem?_eq_none (by rw [hr.length]; exact hi), List.getElem?_eq_none (by rw [hr'.length]; exact hi)]
    | some slot =>
        obtain ⟨v, hv, his⟩ := hr.each i slot hi
        obtain ⟨v', hv', his'⟩ := hr'.each i slot hi
        rw [hv, hv', his.det his']
  have hpool : vs.pool = vs'.pool := hr.pool.trans hr'.pool.symm
  obtain ⟨handles, pool⟩ := vs
  cases hhandles
  cases hpool
  rfl

/-! ## Changes of the table -/

/-- The drops of queued buffers, about to start. -/
def startDrops (bufs : List (UniqueAlignedBuffer Home)) : List Slot :=
  bufs.map fun this => .releasing this.buf .fetchSub .dropped

section

variable {vs : Values} {i : Nat} {slot slot' : Slot} {v' : Value}

theorem Reads.lt (hr : Reads p s vs) (hi : s.slots[i]? = some slot) : i < vs.handles.length := by
  rw [hr.length]
  exact (List.getElem?_eq_some_iff.mp hi).1

/-- Slot `i` changes, and nothing that the others know. -/
theorem Reads.set (hr : Reads p s vs) (hi : s.slots[i]? = some slot)
    (hslots : s'.slots = s.slots.set i slot') (hhandle : s'.handle = s.handle)
    (hkept : ∀ (j : Nat) (other : Slot), j ≠ i → s.slots[j]? = some other → Kept s.heap s'.heap other)
    (hv : slot'.Is p s'.heap v') : Reads p s' (vs.set i v') where
  length := by rw [hslots]; simpa [Values.set] using hr.length
  each j other hj := by
    rw [hslots] at hj
    rcases getElem?_set_cases hi hj with ⟨rfl, rfl⟩ | ⟨hji, hj⟩
    · exact ⟨v', List.getElem?_set_self (hr.lt hi), hv⟩
    · obtain ⟨v, hget, his⟩ := hr.each j other hj
      exact ⟨v, (List.getElem?_set_ne (Ne.symm hji)).trans hget, his.kept (hkept j other hji hj)⟩
  pool := hr.pool.trans hhandle.symm

/-- New slots, and nothing that the others know changes. -/
theorem Reads.append {slots : List Slot} {values : List Value} (hr : Reads p s vs)
    (hslots : s'.slots = s.slots ++ slots) (hhandle : s'.handle = s.handle)
    (hkept : ∀ (j : Nat) (other : Slot), s.slots[j]? = some other → Kept s.heap s'.heap other)
    (hlength : values.length = slots.length)
    (heach : ∀ (k : Nat) (other : Slot), slots[k]? = some other →
      ∃ v, values[k]? = some v ∧ other.Is p s'.heap v) :
    Reads p s' { vs with handles := vs.handles ++ values } where
  length := by rw [hslots]; simp [hr.length, hlength]
  each j other hj := by
    rw [hslots] at hj
    by_cases hlt : j < s.slots.length
    · rw [List.getElem?_append_left hlt] at hj
      obtain ⟨v, hget, his⟩ := hr.each j other hj
      refine ⟨v, ?_, his.kept (hkept j other hj)⟩
      rw [List.getElem?_append_left (by rw [hr.length]; exact hlt)]
      exact hget
    · -- the values of the new slots have the same numbers among themselves
      rw [List.getElem?_append_right (by omega)] at hj
      obtain ⟨v, hget, his⟩ := heach _ other hj
      refine ⟨v, ?_, his⟩
      rw [List.getElem?_append_right (by rw [hr.length]; omega), hr.length]
      exact hget
  pool := hr.pool.trans hhandle.symm

/-- A new handle. -/
theorem Reads.add (hr : Reads p s vs) (hslots : s'.slots = s.slots ++ [slot'])
    (hhandle : s'.handle = s.handle)
    (hkept : ∀ (j : Nat) (other : Slot), s.slots[j]? = some other → Kept s.heap s'.heap other)
    (hv : slot'.Is p s'.heap v') : Reads p s' (vs.add v') := by
  refine hr.append hslots hhandle hkept rfl fun k other hk => ?_
  cases k with
  | zero =>
      cases hk
      exact ⟨v', rfl, hv⟩
  | succ k => cases hk

/-- Handles of buffers that nobody has. -/
theorem Reads.pad (hr : Reads p s vs) (bufs : List (UniqueAlignedBuffer Home))
    (hslots : s'.slots = s.slots ++ startDrops bufs)
    (hhandle : s'.handle = s.handle) (hheap : s'.heap = s.heap) : Reads p s' (vs.pad bufs.length) := by
  refine hr.append hslots hhandle (fun j other _ => ?_) (by simp [startDrops]) fun k other hk => ?_
  · rw [hheap]
    exact .refl _ _
  · rw [startDrops, List.getElem?_map, Option.map_eq_some_iff] at hk
    obtain ⟨this, hk, rfl⟩ := hk
    have hlt : k < bufs.length := (List.getElem?_eq_some_iff.mp hk).1
    exact ⟨.gone, by simp [hlt], .leaving _ _⟩

/-- A handle moves to a new place. -/
theorem Reads.move (hr : Reads p s vs) (hi : s.slots[i]? = some slot)
    (hslots : s'.slots = s.slots.set i .gone ++ [slot']) (hhandle : s'.handle = s.handle)
    (hheap : s'.heap = s.heap) (hv : slot'.Is p s.heap v') : Reads p s' ((vs.set i .gone).add v') := by
  have hset : Reads p (s.setSlot i .gone) (vs.set i .gone) :=
    hr.set hi rfl rfl (fun _ _ _ _ => .refl _ _) .gone
  refine hset.add hslots hhandle (fun _ _ _ => ?_) ?_
  · rw [show s'.heap = (s.setSlot i .gone).heap from hheap]
    exact .refl _ _
  · rw [hheap]
    exact hv

/-- The values of the two kinds of buffers. -/
theorem Reads.unique (hr : Reads p s vs) {this : UniqueAlignedBuffer Home}
    (hi : s.slots[i]? = some (.unique this)) :
    ∃ o xs data, vs.handles[i]? = some (.unique xs) ∧ Stores p s.heap this o xs data := by
  obtain ⟨v, hget, his⟩ := hr.each i _ hi
  cases his with
  | unique hs => exact ⟨_, _, _, hget, hs⟩

/-- A unique value is that of a unique buffer. -/
theorem Reads.unique_of_value (hr : Reads p s vs) {xs : List UInt8}
    (hv : vs.handles[i]? = some (.unique xs)) :
    ∃ this o data, s.slots[i]? = some (.unique this) ∧ Stores p s.heap this o xs data := by
  have hlt : i < s.slots.length := by
    rw [← hr.length]
    exact (List.getElem?_eq_some_iff.mp hv).1
  obtain ⟨v, hget, his⟩ := hr.each i _ (List.getElem?_eq_getElem hlt)
  rw [hv] at hget
  cases hget
  generalize hslot : s.slots[i] = slot at his
  cases his with
  | unique hs => exact ⟨_, _, _, by rw [List.getElem?_eq_getElem hlt, hslot], hs⟩

theorem Reads.shared (hr : Reads p s vs) {this : SharedAlignedBuffer Home}
    (hi : s.slots[i]? = some (.shared this)) :
    ∃ xs data, vs.handles[i]? = some (.shared xs) ∧ Shows p s.heap this xs data := by
  obtain ⟨v, hget, his⟩ := hr.each i _ hi
  cases his with
  | shared hs => exact ⟨_, _, hget, hs⟩

/-- An action on a handle that is not there. -/
theorem Reads.idle_none (hr : Reads p s vs) {a : Action} (ha : a.handle? = some i)
    (hi : s.slots[i]? = none) : Does cfg.queues vs a none vs := by
  refine .idle ha fun v hv => ?_
  rw [List.getElem?_eq_none_iff, ← hr.length, ← List.getElem?_eq_none_iff, hv] at hi
  cases hi

/-- An action on a handle of another kind. -/
theorem Reads.idle_some (hr : Reads p s vs) {a : Action} (ha : a.handle? = some i)
    (hi : s.slots[i]? = some slot) (hnot : ∀ v, slot.Is p s.heap v → v.takes a = false) :
    Does cfg.queues vs a none vs := by
  refine .idle ha fun v hv => ?_
  obtain ⟨v', hv', his⟩ := hr.each i slot hi
  rw [hv] at hv'
  cases hv'
  exact hnot v his

end

/-! ## Giving a block up -/

section

variable {i : Nat} {this : RawAlignedBuffer Home} {pc : Pc} {after : After} {t : State}

/-- Slot `i` goes on giving its block up, and the drops of some queued buffers may start. -/
def MovesOn (s t : State) (i : Nat) (this : RawAlignedBuffer Home) (after : After) : Prop :=
  t.handle = s.handle ∧ ∃ slot' bufs, t.slots = s.slots.set i slot' ++ startDrops bufs ∧
    (slot' = finishSlot this after ∨ ∃ pc', slot' = .releasing this pc' after)

theorem MovesOn.finish {u : State} (hslots : u.slots = s.slots) (hhandle : u.handle = s.handle) :
    MovesOn s (finish u i this after) i this after := by
  refine ⟨hhandle, finishSlot this after, [], ?_, .inl rfl⟩
  rw [startDrops, List.map_nil, List.append_nil, ← hslots]
  rfl

theorem MovesOn.set {u : State} {pc' : Pc} (hslots : u.slots = s.slots) (hhandle : u.handle = s.handle) :
    MovesOn s (u.setSlot i (.releasing this pc' after)) i this after := by
  refine ⟨hhandle, .releasing this pc' after, [], ?_, .inr ⟨pc', rfl⟩⟩
  rw [startDrops, List.map_nil, List.append_nil, ← hslots]
  rfl

/-- A step of giving a block up changes its own slot. -/
theorem advance_movesOn (hi : s.slots[i]? = some (.releasing this pc after))
    (h : advance p cfg s i this after pc = .ok t) : MovesOn s t i this after := by
  have hlt : i < s.slots.length := (List.getElem?_eq_some_iff.mp hi).1
  cases pc with
  | fetchSub =>
      simp only [advance] at h
      split at h
      · cases h; exact .finish rfl rfl
      · obtain ⟨⟨heap, old⟩, -, h⟩ := bind_eq_ok h
        dsimp only at h
        split at h
        · cases h; exact .finish rfl rfl
        · cases h; exact .set rfl rfl
  | load =>
      obtain ⟨_, -, h⟩ := bind_eq_ok h
      cases h; exact .set rfl rfl
  | store =>
      obtain ⟨heap, -, h⟩ := bind_eq_ok h
      obtain ⟨raw, -, h⟩ := bind_eq_ok h
      cases h; exact .set rfl rfl
  | call raw =>
      simp only [advance] at h
      split at h
      · obtain ⟨heap, -, h⟩ := bind_eq_ok h
        cases h; exact .finish rfl rfl
      · split at h
        · cases h; exact .set rfl rfl
        · split at h <;> cases h <;> exact .set rfl rfl
  | dealloc raw =>
      obtain ⟨heap, -, h⟩ := bind_eq_ok h
      cases h; exact .finish rfl rfl
  | push queue raw =>
      simp only [advance] at h
      split at h
      · cases h; exact .set rfl rfl
      · cases h; exact .set rfl rfl
  | reject raw =>
      obtain ⟨heap, -, h⟩ := bind_eq_ok h
      cases h; exact .set rfl rfl
  | unref =>
      cases h
      by_cases hlast : s.strong - 1 = 0
      · -- the last reference: the queued buffers start their drops behind all others
        have heq : releaseStrong cfg s = dropInner cfg { s with strong := s.strong - 1 } := if_pos hlast
        rw [heq]
        refine ⟨rfl, finishSlot this after, s.queues.flatten, ?_, .inl rfl⟩
        exact List.set_append_left i _ hlt
      · have heq : releaseStrong cfg s = { s with strong := s.strong - 1 } := if_neg hlast
        rw [heq]
        exact .finish rfl rfl

/-- **A step of giving a block up is not seen by others**: it changes the count of a block they refer to, or
    the block of a sole owner. -/
theorem advance_kept (inv : Inv p cfg s) (hi : s.slots[i]? = some (.releasing this pc after))
    (h : advance p cfg s i this after pc = .ok t) (j : Nat) (other : Slot) (hji : j ≠ i)
    (hj : s.slots[j]? = some other) : Kept s.heap t.heap other := by
  obtain ⟨hpc, -⟩ := inv.slots i _ hi
  -- a block that is deallocated has slot `i` for its sole owner
  have hdealloc : ∀ {raw : RawBuffer} {heap : Heap}, Given p s.heap raw →
      (Slot.releasing this pc after).sole = raw.buf.prov → deallocateBuffer p s.heap raw = .ok heap →
      Kept s.heap heap other := by
    rintro raw heap ⟨b, blk, rfl, hb, ok⟩ hsole hd
    have heq : deallocateBuffer p s.heap ⟨(blk.counted 1).dataPtr p b,
        .pack p.toTarget (blk.counted 1).data.length true⟩
        = .ok (s.heap.update b { blk.counted 1 with status := .deallocated }) :=
      deallocateBuffer_eq hb (ok.counted 1) rfl
    rw [show deallocateBuffer p s.heap ⟨blk.dataPtr p b, .pack p.toTarget blk.data.length true⟩ = _
      from heq] at hd
    cases hd
    have hconf : Confined Block.Live s.heap.blocks
        (s.heap.update b { blk.counted 1 with status := .deallocated }).blocks
        (Slot.releasing this pc after).sole none := by
      rw [hsole]
      exact deallocate_confined
    exact inv.kept_of_confined hi hconf hji hj
  cases pc with
  | fetchSub =>
      obtain ⟨v, data, hg⟩ := hpc
      simp only [advance] at h
      cases hg with
      | empty alloc =>
          rw [isAllocated_newIn, if_pos (by simp)] at h
          cases h; exact .refl _ _
      | @block b blk rc v alloc hb ok hle =>
          have hlt := ok.data_lt
          obtain ⟨rfl, hpos⟩ := inv.count_eq hi rfl hb
          rw [isAllocated_onBlock _ _ _ (by omega), if_neg (by simp), headerPtr_onBlock,
            fetchSub_counted hb ok, ok_bind] at h
          dsimp only at h
          -- the block may be shared, but only its count is written
          have hkept : ∀ rc, Kept s.heap (s.heap.update b ((blk.counted (s.refs b)).counted rc)) other :=
            fun rc => inv.kept_of_count hb hpos hj
          split at h
          · cases h; exact hkept _
          · cases h; exact hkept _
  | load =>
      obtain ⟨_, -, h⟩ := bind_eq_ok h
      cases h; exact .refl _ _
  | store =>
      obtain ⟨b, blk, v, alloc, rfl, hb, ok, hle⟩ := hpc
      simp only [advance] at h
      rw [headerPtr_onBlock, storeRefCount_counted hb ok, ok_bind] at h
      obtain ⟨raw, -, h⟩ := bind_eq_ok h
      cases h
      exact inv.kept_of_confined hi (show Confined Block.Live s.heap.blocks _ (some b) (some b) from
        .set_self (blk.counted 1)) hji hj
  | call raw =>
      simp only [advance] at h
      split at h
      · obtain ⟨heap, hd, h⟩ := bind_eq_ok h
        cases h; exact hdealloc hpc rfl hd
      · split at h
        · cases h; exact .refl _ _
        · split at h <;> cases h <;> exact .refl _ _
  | dealloc raw =>
      obtain ⟨heap, hd, h⟩ := bind_eq_ok h
      cases h; exact hdealloc hpc.1 rfl hd
  | push queue raw =>
      simp only [advance] at h
      split at h <;> cases h <;> exact .refl _ _
  | reject raw =>
      obtain ⟨heap, hd, h⟩ := bind_eq_ok h
      cases h; exact hdealloc hpc.1 rfl hd
  | unref =>
      cases h
      show Kept s.heap (releaseStrong cfg s).heap other
      unfold releaseStrong
      dsimp only
      split <;> exact .refl _ _

end

/-! ## One step -/

section

variable {vs : Values} {i : Nat} {t : State} (A : Allocator p.toTarget)

/-- A new handle to a block of its own, with whatever was allocated for it. -/
theorem Inv.kept_of_new {h' : Heap} {o' : Option BlockId} {live : Block → Prop} (inv : Inv p cfg s)
    (hconf : Confined live s.heap.blocks h'.blocks none o') (j : Nat) (other : Slot)
    (hj : s.slots[j]? = some other) : Kept s.heap h' other := by
  have hlt : j < s.slots.length := (List.getElem?_eq_some_iff.mp hj).1
  -- the handle to be is an empty place first, which owns nothing
  have hgone := inv.addGone (n := s.slots.length)
  exact hgone.inv.kept_of_confined (slots_addGone s) hconf (Nat.ne_of_lt hlt)
    ((List.getElem?_append_left hlt).trans hj)

theorem withCapacity_does (inv : Inv p cfg s) (hr : Reads p s vs) {n : Nat}
    (h : step A cfg s (.withCapacity n) = .ok t) :
    ∃ vs', Does cfg.queues vs (.withCapacity n) (answer A s (.withCapacity n)) vs' ∧ Reads p t vs' := by
  simp only [step] at h
  simp only [answer]
  rcases withCapacityIn_spec A Home.global s.heap n with ⟨h', this, o', data', hcall, hl, -⟩ | hcall | hcall
  · rw [hcall] at h ⊢
    cases h
    exact ⟨_, .withCapacity n, hr.add rfl rfl (inv.kept_of_new hl.confined) (.unique hl.stores)⟩
  · rw [hcall] at h ⊢
    cases h
    exact ⟨vs, .withCapacityPanics n, hr⟩
  · rw [hcall] at h
    cases h

theorem get_does (inv : Inv p cfg s) (hr : Reads p s vs) {q : Nat} (h : step A cfg s (.get q) = .ok t) :
    ∃ vs', Does cfg.queues vs (.get q) none vs' ∧ Reads p t vs' := by
  simp only [step] at h
  by_cases hhandle : s.handle = false
  · rw [if_pos hhandle] at h
    cases h
    exact ⟨vs, .noPool (.inl (hr.pool.trans hhandle)), hr⟩
  · rw [if_neg hhandle] at h
    have hpool : vs.pool = true := hr.pool.trans (Bool.eq_true_of_not_eq_false hhandle)
    cases hq : s.queues[q]? with
    | none =>
        rw [hq] at h
        cases h
        rw [List.getElem?_eq_none_iff, inv.queues_length] at hq
        exact ⟨vs, .noPool (.inr hq), hr⟩
    | some entries =>
        have hlt : q < cfg.queues := by
          rw [← inv.queues_length]
          exact (List.getElem?_eq_some_iff.mp hq).1
        rw [hq] at h
        cases entries with
        | nil =>
            cases h
            have hs : Stores p s.heap (UniqueAlignedBuffer.newIn (Home.pool q)) none [] [] :=
              ⟨.empty _, rfl, rfl⟩
            exact ⟨_, .get hpool hlt, hr.add rfl rfl (fun _ _ _ => .refl _ _) (.unique hs)⟩
        | cons this rest =>
            cases h
            -- a queued buffer is empty
            have hqueued := inv.queues q _ hq this (List.mem_cons_self ..)
            obtain ⟨⟨o, xs, data, hs⟩, -⟩ := hqueued.slotOk hlt
            have hlen := hs.length_eq
            rw [hqueued.len] at hlen
            obtain rfl : xs = [] := List.length_eq_zero_iff.mp hlen.symm
            exact ⟨_, .get hpool hlt, hr.add rfl rfl (fun _ _ _ => .refl _ _) (.unique hs)⟩

/-- A unique buffer after a call on it. -/
theorem Reads.mutated {heap : Heap} {this this' : UniqueAlignedBuffer Home} {o o' : Option BlockId}
    {xs ys : List UInt8} {data data' : List (Option UInt8)} (hr : Reads p s vs) (inv : Inv p cfg s)
    (hi : s.slots[i]? = some (.unique this)) (hs : Stores p s.heap this o xs data)
    (hl : Leads p s.heap this o ys heap this' o' data') :
    Reads p ({ s with heap }.setSlot i (.unique this')) (vs.set i (.unique ys)) := by
  refine hr.set hi rfl rfl (fun j other hji hj => ?_) (.unique hl.stores)
  have hconf : Confined Block.Unreplaced s.heap.blocks heap.blocks (Slot.unique this).sole o' := by
    rw [show (Slot.unique this).sole = o from hs.holds.prov_eq]
    exact hl.confined
  exact inv.kept_of_confined hi hconf hji hj

theorem mutate_does (inv : Inv p cfg s) (hr : Reads p s vs) {op : BufferOp}
    (h : step A cfg s (.mutate i op) = .ok t) :
    ∃ vs', Does cfg.queues vs (.mutate i op) (answer A s (.mutate i op)) vs' ∧ Reads p t vs' := by
  simp only [step] at h
  simp only [answer]
  cases hi : s.slots[i]? with
  | none =>
      rw [hi] at h
      cases h
      exact ⟨vs, hr.idle_none rfl hi, hr⟩
  | some slot =>
      rw [hi] at h
      cases slot with
      | unique this =>
          obtain ⟨o, xs, data, hv, hs⟩ := hr.unique hi
          dsimp only at h ⊢
          rcases mutate_done A h with ⟨hfrees, rfl⟩ | ⟨hkeep, heap, this', e, happ, rfl⟩
          · rw [if_pos hfrees]
            -- only a shrink gives the block up, and only of an empty buffer
            obtain ⟨hop, hxs⟩ : op.Empties ∧ xs = [] := by
              cases op with
              | unique op =>
                  obtain ⟨-, -, -, -, -, -, hxs⟩ := apply_of_frees A hs op hfrees
                  refine ⟨?_, hxs⟩
                  cases op with
                  | shrinkTo n => exact .inl ⟨n, rfl⟩
                  | shrinkToFit => exact .inr rfl
                  | _ => cases hfrees
              | pushAlloc layout => cases hfrees
              | popAlloc ptr layout => cases hfrees
            rw [hxs] at hv
            exact ⟨_, .empty hv hop, hr.set hi rfl rfl (fun _ _ _ _ => .refl _ _) (.shrinking _ _ _)⟩
          · rw [if_neg (by simp [hkeep]), happ]
            have hres := BufferOp.apply_results A hs op hkeep
            rw [happ] at hres
            rcases hres with habort | ⟨o', ys, data', hl, hmakes⟩
            · -- an abort does not return
              dsimp only at habort
              subst habort
              unfold mutate at h
              rw [if_neg (by simp [hkeep]), happ] at h
              cases h
            · exact ⟨_, .mutate hv hmakes, hr.mutated inv hi hs hl⟩
      | _ =>
          cases h
          refine ⟨vs, hr.idle_some rfl hi ?_, hr⟩
          rintro v (_ | _) <;> rfl

theorem intoShared_does (hr : Reads p s vs) (h : step A cfg s (.intoShared i) = .ok t) :
    ∃ vs', Does cfg.queues vs (.intoShared i) none vs' ∧ Reads p t vs' := by
  simp only [step] at h
  cases hi : s.slots[i]? with
  | none =>
      rw [hi] at h
      cases h
      exact ⟨vs, hr.idle_none rfl hi, hr⟩
  | some slot =>
      rw [hi] at h
      cases slot with
      | unique this =>
          obtain ⟨o, xs, data, hv, hs⟩ := hr.unique hi
          obtain ⟨shared, hshared, hshows, -⟩ := Stores.intoShared hs
          dsimp only at h
          rw [hshared, ok_bind] at h
          cases h
          exact ⟨_, .intoShared hv, hr.move hi rfl rfl rfl (.shared hshows)⟩
      | _ =>
          cases h
          refine ⟨vs, hr.idle_some rfl hi ?_, hr⟩
          rintro v (_ | _) <;> rfl

theorem clone_does (inv : Inv p cfg s) (hr : Reads p s vs) (h : step A cfg s (.clone i) = .ok t) :
    ∃ vs', Does cfg.queues vs (.clone i) none vs' ∧ Reads p t vs' := by
  simp only [step] at h
  cases hi : s.slots[i]? with
  | none =>
      rw [hi] at h
      cases h
      exact ⟨vs, hr.idle_none rfl hi, hr⟩
  | some slot =>
      rw [hi] at h
      cases slot with
      | shared this =>
          obtain ⟨xs, data, hv, hg, hbytes⟩ := hr.shared hi
          obtain ⟨buf⟩ := this
          dsimp only at hg h
          generalize hlen : xs.length = v at hg
          cases hg with
          | empty alloc =>
              rw [SharedAlignedBuffer.clone_newIn, ok_bind] at h
              cases h
              have hshows : Shows p s.heap ⟨newIn alloc⟩ xs [] := ⟨hlen ▸ .empty alloc, hbytes⟩
              exact ⟨_, .clone hv, hr.add rfl rfl (fun _ _ _ => .refl _ _) (.shared hshows)⟩
          | @block b blk rc v alloc hb ok hle =>
              have hlt := ok.data_lt
              obtain ⟨-, hpos⟩ := inv.count_eq hi rfl hb
              rw [SharedAlignedBuffer.clone_onBlock hb ok (by omega)] at h
              -- above the limit `clone` aborts, and there is no next state
              by_cases hmax : p.maxRefcount < rc
              · rw [if_pos hmax] at h
                cases h
              · rw [if_neg hmax, ok_bind] at h
                cases h
                have hkept : ∀ (j : Nat) (other : Slot), s.slots[j]? = some other →
                    Kept s.heap (s.heap.update b ((blk.counted rc).counted (rc + 1))) other :=
                  fun j other hj => inv.kept_of_count hb hpos hj
                have hget : (s.heap.update b (blk.counted (rc + 1))).blocks[b]? = some (blk.counted (rc + 1)) :=
                  List.getElem?_set_self (List.getElem?_eq_some_iff.mp hb).1
                have hshows : Shows p (s.heap.update b (blk.counted (rc + 1))) ⟨onBlock p blk b v alloc⟩ xs
                    blk.data :=
                  ⟨by rw [hlen]; exact .block alloc hget ok hle, hbytes⟩
                exact ⟨_, .clone hv, hr.add rfl rfl hkept (.shared hshows)⟩
      | _ =>
          cases h
          refine ⟨vs, hr.idle_some rfl hi ?_, hr⟩
          rintro v (_ | _) <;> rfl

/-- A shared buffer with a block is unique when its count is 1; without one the answer is the assertion's. -/
theorem Shows.tryUnique {h : Heap} {this : SharedAlignedBuffer Home} {xs : List UInt8}
    {data : List (Option UInt8)} (hs : Shows p h this xs data) :
    (∃ unique o, this.tryUnique p h = .ok (.ok unique) ∧ Stores p h unique o xs data) ∨
      this.tryUnique p h = .ok (.error this) ∨
      this.tryUnique p h = .error .debugAssert ∧ this.buf.isAllocated p = false ∧ xs = [] := by
  obtain ⟨hg, hbytes⟩ := hs
  obtain ⟨buf⟩ := this
  dsimp only at hg
  generalize hlen : xs.length = v at hg
  cases hg with
  | empty alloc =>
      obtain rfl : xs = [] := List.length_eq_zero_iff.mp hlen
      rw [SharedAlignedBuffer.tryUnique_newIn]
      cases hd : p.debug with
      | true => exact .inr (.inr ⟨if_pos rfl, isAllocated_newIn alloc, rfl⟩)
      | false => exact .inl ⟨_, none, if_neg Bool.false_ne_true, .empty alloc, rfl, rfl⟩
  | @block b blk rc v alloc hb ok hle =>
      have hlt := ok.data_lt
      rw [SharedAlignedBuffer.tryUnique_onBlock hb ok (by omega)]
      by_cases h1 : rc = 1
      · rw [if_pos h1]
        rw [h1] at hb
        have hh : RawAlignedBuffer.Holds p h ⟨(blk.counted 1).dataPtr p b,
            .pack p.toTarget (blk.counted 1).data.length true, alloc⟩ (some b) (blk.counted 1).data :=
          .block alloc hb (ok.counted 1) rfl
        exact .inl ⟨_, some b, rfl, hh, hlen.symm, hbytes⟩
      · rw [if_neg h1]
        exact .inr (.inl rfl)

theorem tryUnique_does (hr : Reads p s vs) (h : step A cfg s (.tryUnique i) = .ok t) :
    ∃ vs', Does cfg.queues vs (.tryUnique i) (answer A s (.tryUnique i)) vs' ∧ Reads p t vs' := by
  simp only [step] at h
  simp only [answer]
  cases hi : s.slots[i]? with
  | none =>
      rw [hi] at h
      cases h
      exact ⟨vs, hr.idle_none rfl hi, hr⟩
  | some slot =>
      rw [hi] at h
      cases slot with
      | shared this =>
          obtain ⟨xs, data, hv, hs⟩ := hr.shared hi
          dsimp only at h ⊢
          unfold BufferPool.tryUnique at h
          rcases Shows.tryUnique hs with ⟨unique, o, hcall, hs'⟩ | hcall | ⟨hcall, hall, rfl⟩
          · rw [hcall] at h ⊢
            cases h
            exact ⟨_, .tryUnique hv, hr.move hi rfl rfl rfl (.unique hs')⟩
          · rw [hcall] at h ⊢
            cases h
            exact ⟨vs, .notUnique hv, hr⟩
          · -- the assertion of `ref_count` panics for a buffer without a block, which is dropped
            rw [hcall] at h ⊢
            dsimp only at h
            rw [if_pos ⟨rfl, hall⟩] at h
            cases h
            exact ⟨_, .tryUniquePanics hv, hr.set hi rfl rfl (fun _ _ _ _ => .refl _ _) (.leaving _ _)⟩
      | _ =>
          cases h
          refine ⟨vs, hr.idle_some rfl hi ?_, hr⟩
          rintro v (_ | _) <;> rfl

theorem drop_does (hr : Reads p s vs) (h : step A cfg s (.drop i) = .ok t) :
    ∃ vs', Does cfg.queues vs (.drop i) none vs' ∧ Reads p t vs' := by
  simp only [step] at h
  cases hi : s.slots[i]? with
  | none =>
      rw [hi] at h
      cases h
      exact ⟨vs, hr.idle_none rfl hi, hr⟩
  | some slot =>
      rw [hi] at h
      cases slot with
      | unique this =>
          obtain ⟨o, xs, data, hv, hs⟩ := hr.unique hi
          cases h
          exact ⟨_, .drop hv rfl, hr.set hi rfl rfl (fun _ _ _ _ => .refl _ _) (.leaving _ _)⟩
      | shared this =>
          obtain ⟨xs, data, hv, hs⟩ := hr.shared hi
          cases h
          exact ⟨_, .drop hv rfl, hr.set hi rfl rfl (fun _ _ _ _ => .refl _ _) (.leaving _ _)⟩
      | _ =>
          cases h
          refine ⟨vs, hr.idle_some rfl hi ?_, hr⟩
          rintro v (_ | _) <;> rfl

/-- The value of a handle does not change while its block is given up, but that a shrink returns in the end. -/
theorem advance_does (inv : Inv p cfg s) (hr : Reads p s vs) (h : step A cfg s (.advance i) = .ok t) :
    ∃ vs', Does cfg.queues vs (.advance i) none vs' ∧ Reads p t vs' := by
  rcases step_advance A h with ⟨rfl, -⟩ | ⟨this, pc, after, hi, h⟩
  · refine ⟨_, .advance i 0, ?_⟩
    have hpad : vs.pad 0 = vs := by simp [Values.pad]
    rw [hpad]
    exact hr
  · obtain ⟨hhandle, slot', bufs, hslots, hslot'⟩ := advance_movesOn hi h
    have hkept := advance_kept inv hi h
    -- first the slot, then the drops behind the table
    have hput : ∀ v', slot'.Is p t.heap v' → Reads p t ((vs.set i v').pad bufs.length) := by
      intro v' hv'
      have hset : Reads p { t with slots := s.slots.set i slot' } (vs.set i v') :=
        hr.set hi rfl hhandle hkept hv'
      exact hset.pad bufs hslots rfl rfl
    obtain ⟨v, hv, his⟩ := hr.each i _ hi
    have hsame : vs.set i v = vs := by
      obtain ⟨hlt, hget⟩ := List.getElem?_eq_some_iff.mp hv
      unfold Values.set
      rw [← hget, List.set_getElem_self]
    have hquiet : slot'.Is p t.heap v → ∃ vs', Does cfg.queues vs (.advance i) none vs' ∧ Reads p t vs' := by
      intro hv'
      refine ⟨_, .advance i bufs.length, ?_⟩
      have hquiet := hput v hv'
      rwa [hsame] at hquiet
    -- only the end of a shrink is seen: the buffer is there again, and empty
    obtain ⟨-, hafter⟩ := (inv.slots i _ hi).2
    rcases hslot' with rfl | ⟨pc', rfl⟩
    · cases his with
      | leaving => exact hquiet .gone
      | shrinking this pc len =>
          obtain rfl := hafter len rfl
          have hs : Stores p t.heap ⟨newIn this.alloc, 0⟩ none [] [] := ⟨.empty _, rfl, rfl⟩
          exact ⟨_, .returns bufs.length hv, hput _ (.unique hs)⟩
    · cases his with
      | leaving => exact hquiet (.leaving this pc')
      | shrinking this pc len => exact hquiet (.shrinking this pc' len)

theorem dropPool_does (hr : Reads p s vs) (h : step A cfg s .dropPool = .ok t) :
    ∃ vs', Does cfg.queues vs .dropPool none vs' ∧ Reads p t vs' := by
  simp only [step] at h
  by_cases hhandle : s.handle = false
  · rw [if_pos hhandle] at h
    cases h
    exact ⟨vs, .dropped (hr.pool.trans hhandle), hr⟩
  · rw [if_neg hhandle] at h
    cases h
    have hpool : vs.pool = true := hr.pool.trans (Bool.eq_true_of_not_eq_false hhandle)
    have hr' : Reads p { s with handle := false } { vs with pool := false } := ⟨hr.length, hr.each, rfl⟩
    unfold releaseStrong
    dsimp only
    -- handles for the queued buffers appear, which nobody has
    by_cases hlast : s.strong - 1 = 0
    · rw [if_pos hlast]
      exact ⟨_, .dropPool s.queues.flatten.length hpool, hr'.pad s.queues.flatten rfl rfl rfl⟩
    · rw [if_neg hlast]
      refine ⟨_, .dropPool 0 hpool, ?_⟩
      exact hr'.pad [] (List.append_nil _).symm rfl rfl

/-- **One action** of the system is one on the values. -/
theorem step_does (inv : Inv p cfg s) (hr : Reads p s vs) (a : Action) (h : step A cfg s a = .ok t) :
    ∃ vs', Does cfg.queues vs a (answer A s a) vs' ∧ Reads p t vs' := by
  cases a with
  | new =>
      cases h
      have hs : Stores p s.heap (UniqueAlignedBuffer.newIn Home.global) none [] [] := ⟨.empty _, rfl, rfl⟩
      exact ⟨_, .new, hr.add rfl rfl (fun _ _ _ => .refl _ _) (.unique hs)⟩
  | withCapacity n => exact withCapacity_does A inv hr h
  | get q => exact get_does A inv hr h
  | mutate i op => exact mutate_does A inv hr h
  | intoShared i => exact intoShared_does A hr h
  | clone i => exact clone_does A inv hr h
  | tryUnique i => exact tryUnique_does A hr h
  | read i =>
      obtain rfl := step_read A h
      exact ⟨vs, .read i, hr⟩
  | drop i => exact drop_does A hr h
  | advance i => exact advance_does A inv hr h
  | dropPool => exact dropPool_does A hr h

/-! ## Runs -/

/-- **A run from a state that shows `vs`** is one on values. -/
theorem Reads.run_does (as : List Action) (inv : Inv p cfg s) (hr : Reads p s vs)
    (h : run (step A cfg) s as = .ok t) :
    ∃ vs', Traces cfg.queues vs (trace A cfg s as) vs' ∧ Reads p t vs' := by
  induction as generalizing s vs with
  | nil =>
      cases h
      exact ⟨vs, .nil vs, hr⟩
  | cons a as ih =>
      rcases step_proceeds A inv a with ⟨s₁, hs₁, hev⟩ | ⟨f, hf, -⟩
      · rw [run_cons_ok hs₁] at h
        obtain ⟨vs₁, hdoes, hr₁⟩ := step_does A inv hr a hs₁
        obtain ⟨vs₂, htraces, hr₂⟩ := ih hev.inv hr₁ h
        simp only [trace, hs₁]
        exact ⟨vs₂, .cons hdoes htraces, hr₂⟩
      · rw [run_cons_error hf] at h
        cases h

/-- A new pool shows no values. -/
theorem Reads.init : Reads p (State.init cfg) ⟨[], true⟩ where
  length := rfl
  each i slot hi := by cases hi
  pool := rfl

variable (cfg) in
/-- **Buffers have value semantics.** Every run of the system, in any interleaving and with any allocator,
    is a run on a table of byte lists in which each action touches the value it names and no other; the two
    agree on which calls panic, and at the end each handle reads as its value. -/
theorem refines_values (actions : List Action) :
    match runFrom A cfg actions with
    | .ok s => ∃ vs, Traces cfg.queues ⟨[], true⟩ (trace A cfg (State.init cfg) actions) vs ∧
        vs.handles.length = s.slots.length ∧ vs.pool = s.handle ∧
        ∀ (i : Nat) (slot : Slot), s.slots[i]? = some slot →
          ∃ v, vs.handles[i]? = some v ∧ slot.Looks p s.heap v
    | .error f => f.Aborts := by
  rcases run_proceeds cfg A actions with ⟨s, hr, -⟩ | ⟨f, hr, hf⟩
  · obtain ⟨vs, htraces, hreads⟩ := Reads.init.run_does A actions Inv.init hr
    rw [hr]
    refine ⟨vs, htraces, hreads.length, hreads.pool, fun i slot hi => ?_⟩
    obtain ⟨v, hv, his⟩ := hreads.each i slot hi
    exact ⟨v, hv, his.looks⟩
  · rw [hr]
    exact hf

end

end BufferPool

end RkyvUtils
