import RkyvUtils.Lib.Returns
import RkyvUtils.AlignedBuffer.UniqueSpec

/-!
# `AlignedBuffer.Room` — mutators that fit the capacity

A mutator asks for room up to some length (`UniqueOp.asks`). Where that is within the capacity it does not
call the allocator, so it makes no difference which allocator there is, and the bytes stay at their address
(`apply_room`). So the calls that a reservation can end are those that ask for more, or that are to give
capacity back (`apply_stops`).
-/

namespace RkyvUtils

open Word Ownership

/-! ## What a mutator asks for -/

/-- The length a mutator asks room for, from `len` bytes. The lower bound of an iterator need not be true, and
    is asked for as well. -/
def UniqueOp.asks (len : Nat) : UniqueOp → Nat
  | push _ => len + 1
  | append other | extendFromSlice other => len + other.length
  | extend iter => len + max iter.lower (Next.bytes iter.nexts).length
  | resize newLen _ => newLen
  | reserve additional | reserveExact additional => len + additional
  | tryReserve additional | tryReserveExact additional => len + additional
  | truncate _ | clear | shrinkTo _ | shrinkToFit | indexMut _ _ => len

/-- The mutators that may give capacity back. -/
def UniqueOp.shrinks : UniqueOp → Bool
  | shrinkTo _ | shrinkToFit => true
  | _ => false

/-- The mutators that a reservation can end: those that return no `Result`, and ask for more than the
    capacity or are to give some of it back. -/
def UniqueOp.MayStop {α : Type} (p : Params) (this : UniqueAlignedBuffer α) : UniqueOp → Prop
  | tryReserve _ | tryReserveExact _ => False
  | shrinkTo minCapacity => max this.len minCapacity < this.capacity p
  | shrinkToFit => this.len < this.capacity p
  | op => this.capacity p < op.asks this.len

/-! ## What a pointer leads to -/

namespace Heap

variable {p : Params} {h : Heap}

/-- A block of the heap. -/
theorem deref_returns (q : Ptr) : Returns (fun r => h.blocks[r.1]? = some r.2) (h.deref q) := by
  unfold deref
  cases q.prov with
  | none => exact .error
  | some b =>
      dsimp only
      cases hb : h.blocks[b]? with
      | none => exact .error
      | some blk => exact .ite (.ok hb) .error

/-- **A write** keeps what other bytes in a block keep. -/
theorem write_returns {P : Heap → Prop} (hh : P h)
    (hupdate : ∀ {b : BlockId} {blk : Block}, h.blocks[b]? = some blk → ∀ data : List (Option UInt8),
      data.length = blk.data.length → P (h.update b { blk with data })) (q : Ptr) (bs : List UInt8) :
    Returns P (h.write p q bs) := by
  unfold write
  refine .ite (.ok hh) ((deref_returns q).bind ?_)
  rintro ⟨b, blk⟩ hb
  dsimp only
  by_cases hin : q.addr < blk.base + p.bufferOffset ∨
      blk.data.length < q.addr - (blk.base + p.bufferOffset) + bs.length
  · rw [if_pos hin]
    exact .error
  · rw [if_neg hin]
    exact .ok (hupdate hb _ (length_splice (by omega)))

end Heap

/-! ## Memory up to the bytes in it -/

/-- A block without its bytes. -/
def Block.blank (blk : Block) : Block := { blk with data := blk.data.map fun _ => none }

/-- Two heaps that differ in the bytes of their blocks only: the allocator was called as often, and no block
    was handed out, moved or given back in between. -/
def Heap.Like (h h₀ : Heap) : Prop :=
  h.blocks.map Block.blank = h₀.blocks.map Block.blank ∧ h.calls = h₀.calls

namespace Heap.Like

variable {p : Params} {h h₀ : Heap} {b : BlockId} {blk : Block}

theorem refl : h.Like h := ⟨rfl, rfl⟩

/-- Other bytes in a block. -/
theorem update (hl : h.Like h₀) (hb : h.blocks[b]? = some blk) {data : List (Option UInt8)}
    (hlen : data.length = blk.data.length) : (h.update b { blk with data }).Like h₀ := by
  refine ⟨?_, hl.2⟩
  have hblank : Block.blank { blk with data } = blk.blank := by
    unfold Block.blank
    rw [List.map_const', List.map_const', hlen]
  have hget : (h.blocks.map Block.blank)[b]? = some (Block.blank { blk with data }) := by
    rw [List.getElem?_map, hb, hblank]
    rfl
  -- the update sets a place to what it is, bytes aside
  obtain ⟨_, hget⟩ := List.getElem?_eq_some_iff.mp hget
  rw [Heap.blocks_update, List.map_set, ← hget, List.set_getElem_self, hl.1]

theorem write (hl : h.Like h₀) (q : Ptr) (bs : List UInt8) :
    Returns (fun h' => h'.Like h₀) (h.write p q bs) :=
  write_returns (P := fun h' => h'.Like h₀) hl (fun hb _ hlen => hl.update hb hlen) q bs

end Heap.Like

namespace UniqueAlignedBuffer

open RawAlignedBuffer (Outcome)

variable {α : Type} {p : Params} {h h₀ : Heap} {this : UniqueAlignedBuffer α}

theorem writeAll_like (hl : h.Like h₀) (ptr : Ptr) (value : UInt8) (n : Nat) :
    Returns (fun h' => h'.Like h₀) (writeAll p h ptr value n) := by
  induction n generalizing h ptr with
  | zero => exact .ok hl
  | succ n ih => exact (hl.write ptr [value]).bind fun _ hl' => ih hl' _

theorem fill_like (hl : h.Like h₀) (ptr : Ptr) (localLen free : Nat) (nexts : List Next) :
    Returns (fun r => r.1.Like h₀) (fill p h ptr localLen free nexts) := by
  induction free generalizing h ptr localLen nexts with
  | zero => exact .ok hl
  | succ free ih =>
      cases nexts with
      | nil => exact .ok hl
      | cons next nexts =>
          cases next with
          | none | panic => exact .ok hl
          | some byte => exact (hl.write ptr [byte]).bind fun _ hl' => ih hl' _ _ _

/-! ## Work inside the capacity -/

/-- Where work inside the capacity leads: to the list `ys`, with the buffer at its block and its capacity, and
    memory as it was up to bytes. -/
structure InRoom (p : Params) (h : Heap) (this : UniqueAlignedBuffer α) (o : Option BlockId)
    (ys : List UInt8) (h' : Heap) (this' : UniqueAlignedBuffer α) (data' : List (Option UInt8)) : Prop where
  leads : Leads p h this o ys h' this' o data'
  buf_eq : this'.buf = this.buf
  like : h'.Like h

variable {h' h₂ : Heap} {this' this₂ : UniqueAlignedBuffer α} {o : Option BlockId}
  {xs ys zs : List UInt8} {data data' data₂ : List (Option UInt8)}

theorem InRoom.refl (hs : Stores p h this o xs data) : InRoom p h this o xs h this data :=
  ⟨.refl hs, rfl, .refl⟩

theorem InRoom.trans (hr : InRoom p h this o ys h' this' data')
    (hr' : InRoom p h' this' o zs h₂ this₂ data₂) : InRoom p h this o zs h₂ this₂ data₂ :=
  ⟨hr.leads.trans hr'.leads, hr'.buf_eq.trans hr.buf_eq,
    hr'.like.1.trans hr.like.1, hr'.like.2.trans hr.like.2⟩

/-- The capacity is where the block is. -/
theorem InRoom.room (hr : InRoom p h this o ys h' this' data') (hs : Stores p h this o xs data) :
    data'.length = data.length := by
  rw [← hr.leads.stores.capacity_eq, ← hs.capacity_eq]
  exact congrArg (RawAlignedBuffer.value p) hr.buf_eq

/-- A write behind the stored bytes. -/
theorem Stores.write_room (hs : Stores p h this o xs data) (bs : List UInt8)
    (hroom : xs.length + bs.length ≤ data.length) :
    ∃ h' data', h.write p (this.asMutPtr.add this.len) bs = .ok h' ∧
      InRoom p h this o (xs ++ bs) h' { this with len := this.len + bs.length } data' := by
  obtain ⟨h', data', hw, hl, -⟩ := hs.write_end bs hroom
  exact ⟨h', data', hw, hl, rfl, (Heap.Like.refl.write _ _).of_eq hw⟩

/-- A call that ends in the same way whichever allocator there is, inside the capacity. -/
def WorksInRoom (p : Params) (h : Heap) (this : UniqueAlignedBuffer α) (o : Option BlockId)
    (expected : List UInt8 × Option Fault) (e : Allocator p.toTarget → Ended α) : Prop :=
  ∃ h' this' data', (∀ A, e A = (h', this', expected.2)) ∧ InRoom p h this o expected.1 h' this' data'

section

variable (hs : Stores p h this o xs data)
include hs

/-- **`push`** with room for one byte. -/
theorem push_room (value : UInt8) (hroom : xs.length + 1 ≤ data.length) :
    ∃ h' data', (∀ A : Allocator p.toTarget,
        this.push A h value = .ok (h', { this with len := this.len + 1 })) ∧
      InRoom p h this o (xs ++ [value]) h' { this with len := this.len + 1 } data' := by
  obtain ⟨h', data', hw, hr⟩ := hs.write_room [value] hroom
  have hcap := hs.capacity_eq
  have hlen := hs.length_eq
  refine ⟨h', data', ?_, hr⟩
  intro A
  unfold push
  rw [if_neg (by omega), ok_bind]
  dsimp only
  rw [hw]
  rfl

/-- **The loop of pushes** with room for all bytes. -/
theorem pushAll_room (nexts : List Next) (hroom : xs.length + (Next.bytes nexts).length ≤ data.length) :
    WorksInRoom p h this o (xs ++ Next.bytes nexts, if Next.panics nexts then some .iteratorPanic else none)
      fun A => pushAll A h this nexts := by
  induction nexts generalizing h this xs data with
  | nil => exact ⟨h, this, data, fun _ => rfl, by simpa [Next.bytes] using InRoom.refl hs⟩
  | cons next nexts ih =>
      cases next with
      | none | panic => exact ⟨h, this, data, fun _ => rfl, by simpa [Next.bytes] using InRoom.refl hs⟩
      | some byte =>
          simp only [Next.bytes, List.length_cons] at hroom
          -- the push takes one byte of the room, and the capacity is the same after it
          obtain ⟨h₁, data₁, hp, hr⟩ := push_room hs byte (by omega)
          have hroom₁ := hr.room hs
          obtain ⟨h₂, this₂, data₂, he, hr₂⟩ := ih hr.leads.stores (by simp; omega)
          refine ⟨h₂, this₂, data₂, ?_, ?_⟩
          · intro A
            dsimp only
            unfold pushAll
            rw [hp A]
            exact he A
          · have hr' := hr.trans hr₂
            simp only [List.append_assoc, List.singleton_append] at hr'
            exact hr'

/-- **`extend`** with room for the lower bound and for all bytes. -/
theorem extend_room (iter : ByteIter) (hlower : xs.length + iter.lower ≤ data.length)
    (hroom : xs.length + (Next.bytes iter.nexts).length ≤ data.length) :
    WorksInRoom p h this o (UniqueOp.onList xs (.extend iter)) fun A => this.extend A h iter := by
  have hle := hs.length_le
  obtain ⟨h₁, len, data₁, ys, done, hf, hl, hbytes, hpanics⟩ :=
    fill_spec hs (data.length - xs.length) iter.nexts (by omega)
  have hr : InRoom p h this o (xs ++ ys) h₁ { this with len } data₁ :=
    ⟨hl, rfl, (fill_like Heap.Like.refl _ _ _ _).of_eq hf⟩
  have hroom₁ := hr.room hs
  simp only [UniqueOp.onList, hbytes, hpanics, ← List.append_assoc]
  cases done with
  | full nexts =>
      have hlast : (Next.bytes iter.nexts).length = ys.length + (Next.bytes nexts).length := by
        rw [hbytes, List.length_append]
        rfl
      obtain ⟨h₂, this₂, data₂, he, hr₂⟩ := pushAll_room hr.leads.stores nexts (by simp; omega)
      refine ⟨h₂, this₂, data₂, ?_, hr.trans hr₂⟩
      intro A
      simp only [extend, reserve_room A hs hlower, hs.free_eq, hf]
      exact he A
  | ended | panicked =>
      refine ⟨h₁, { this with len }, data₁, ?_, by simpa [FillEnd.bytes] using hr⟩
      intro A
      simp only [extend, reserve_room A hs hlower, hs.free_eq, hf]
      rfl

/-- **`resize`** with room for the new length. -/
theorem resize_room (newLen : Nat) (value : UInt8) (hroom : newLen ≤ data.length) :
    WorksInRoom p h this o (UniqueOp.onList xs (.resize newLen value))
      fun A => UniqueOp.settle h this (this.resize A h newLen value) := by
  unfold resize
  simp only [UniqueOp.onList, hs.length_eq]
  by_cases hlt : xs.length < newLen
  · obtain ⟨h', data', hw, hl⟩ := writeAll_spec hs value (newLen - xs.length) (by omega)
    refine ⟨h', { this with len := this.len + (newLen - xs.length) }, data', ?_, ?_⟩
    · intro A
      dsimp only
      rw [if_pos hlt]
      unfold extendWith
      rw [reserve_room A hs (by omega), ok_bind]
      dsimp only
      rw [hw]
      rfl
    · rw [if_pos hlt]
      exact ⟨hl, rfl, (writeAll_like Heap.Like.refl _ _ _).of_eq hw⟩
  · simp only [if_neg hlt]
    exact ⟨h, this.truncate newLen, data, fun _ => rfl, ⟨hs.take newLen, rfl, .refl⟩, rfl, .refl⟩

/-- **`append`** with room for the slice. -/
theorem append_room (other : List UInt8) (hroom : xs.length + other.length ≤ data.length) :
    WorksInRoom p h this o (xs ++ other, none)
      fun A => UniqueOp.settle h this (this.append A h other) := by
  obtain ⟨h', data', hw, hr⟩ := hs.write_room other hroom
  refine ⟨h', _, data', ?_, hr⟩
  intro A
  dsimp only
  unfold append appendElements
  dsimp only
  rw [reserve_room A hs hroom, ok_bind]
  dsimp only
  rw [hw]
  rfl

/-- **A write through `index_mut`** never needs room. -/
theorem indexMut_room (start : Nat) (bytes : List UInt8) :
    WorksInRoom p h this o (UniqueOp.onList xs (.indexMut start bytes))
      fun _ => UniqueOp.settle h this (this.indexMut p h start bytes) := by
  simp only [UniqueOp.onList]
  by_cases hlt : xs.length < start + bytes.length
  · rw [if_pos hlt, indexMut_error hs hlt]
    exact ⟨h, this, data, fun _ => rfl, .refl hs⟩
  · rw [if_neg hlt]
    have hle := hs.length_le
    obtain ⟨h₁, hw, -, -⟩ := hs.holds.write (show start + bytes.length ≤ data.length by omega)
    have hcall : this.indexMut p h start bytes = .ok (h₁, this) := by
      unfold indexMut
      rw [hs.asSlice_eq, ok_bind, if_neg hlt, show h.write p (this.asMutPtr.add start) bytes = _ from hw]
      rfl
    have hsettles := indexMut_spec hs (show start + bytes.length ≤ xs.length by omega)
    rw [hcall] at hsettles ⊢
    rcases hsettles with ⟨h', this', o', data', hr, hl, -⟩ | hr | hr
    · cases hr
      -- the block is the one the pointer was derived from
      obtain rfl : o = o' := hs.holds.prov_eq.symm.trans hl.stores.holds.prov_eq
      exact ⟨h₁, this, data', fun _ => rfl, hl, rfl, (Heap.Like.refl.write _ _).of_eq hw⟩
    · cases hr
    · cases hr

/-- A call that changes nothing. -/
theorem WorksInRoom.nothing {e : Allocator p.toTarget → Ended α} (he : ∀ A, e A = (h, this, none)) :
    WorksInRoom p h this o (xs, none) e :=
  ⟨h, this, data, he, .refl hs⟩

/-- **A mutator** that finds the room there ends as on the list, whichever allocator there is. -/
theorem apply_room (op : UniqueOp) (hkeep : op.shrinks = false) (hroom : op.asks xs.length ≤ data.length) :
    WorksInRoom p h this o (op.onList xs) fun A => op.apply A h this := by
  have hlen := hs.length_eq
  -- a reservation inside the capacity is decided without the allocator
  have hnot : ∀ n, xs.length + n ≤ data.length → ¬this.buf.needsToGrow p this.len n = true :=
    fun n hn => hs.holds.not_needsToGrow (by omega)
  cases op with
  | push value =>
      obtain ⟨h', data', hp, hr⟩ := push_room hs value hroom
      refine ⟨h', _, data', ?_, hr⟩
      intro A
      simp only [UniqueOp.apply, hp A]
      rfl
  | append other | extendFromSlice other => exact append_room hs other hroom
  | extend iter =>
      simp only [UniqueOp.asks] at hroom
      exact extend_room hs iter (by omega) (by omega)
  | resize newLen value => exact resize_room hs newLen value hroom
  | truncate len => exact ⟨h, _, data, fun _ => rfl, ⟨hs.take len, rfl, .refl⟩, rfl, .refl⟩
  | clear => exact ⟨h, _, data, fun _ => rfl, ⟨⟨hs.holds, rfl, rfl⟩, rfl, .refl⟩, rfl, .refl⟩
  | reserve n =>
      refine .nothing hs fun A => ?_
      simp only [UniqueOp.apply, reserve_room A hs hroom]
      rfl
  | reserveExact n =>
      refine .nothing hs fun A => ?_
      simp only [UniqueOp.apply, reserveExact, RawAlignedBuffer.reserveExact,
        RawAlignedBuffer.tryReserveExact, if_neg (hnot n hroom)]
      rfl
  | tryReserve n =>
      refine .nothing hs fun A => ?_
      simp only [UniqueOp.apply, tryReserve, RawAlignedBuffer.tryReserve, if_neg (hnot n hroom)]
      rfl
  | tryReserveExact n =>
      refine .nothing hs fun A => ?_
      simp only [UniqueOp.apply, tryReserveExact, RawAlignedBuffer.tryReserveExact, if_neg (hnot n hroom)]
      rfl
  | shrinkTo n | shrinkToFit => cases hkeep
  | indexMut start bytes => exact indexMut_room hs start bytes

/-! ## Mutators that do not -/

/-- A shrink to the capacity that is there does nothing. -/
theorem shrinkToFit_same (A : Allocator p.toTarget) {cap : Nat} (hcap : cap = data.length) :
    this.buf.shrinkToFit A h cap = .ok (h, this.buf) := by
  unfold RawAlignedBuffer.shrinkToFit RawAlignedBuffer.shrink
  rw [hs.holds.value_eq, if_neg (by omega), if_pos hcap]
  rfl

/-- **A mutator that a reservation ends** had to go to the allocator. -/
theorem apply_stops (A : Allocator p.toTarget) (op : UniqueOp) {f : Fault}
    (hf : (op.apply A h this).2.2 = some f) (hcallers : f.isCallers = false) : op.MayStop p this := by
  have hlen := hs.length_eq
  have hcap := hs.capacity_eq
  have hle := hs.length_le
  by_contra hmay
  cases op with
  | tryReserve n =>
      obtain ⟨h', this', o', data', hr, -⟩ :=
        settleTry_spec hs (RawAlignedBuffer.tryReserve_spec A n hs.holds (hlen ▸ hle)) (by omega)
      rw [show UniqueOp.apply A h this (.tryReserve n) = _ from hr] at hf
      cases hf
  | tryReserveExact n =>
      obtain ⟨h', this', o', data', hr, -⟩ :=
        settleTry_spec hs (RawAlignedBuffer.tryReserveExact_spec A n hs.holds (hlen ▸ hle)) (by omega)
      rw [show UniqueOp.apply A h this (.tryReserveExact n) = _ from hr] at hf
      cases hf
  | shrinkTo n =>
      simp only [UniqueOp.MayStop] at hmay
      simp only [UniqueOp.apply, shrinkTo] at hf
      by_cases hlt : n < this.capacity p
      · rw [if_pos hlt, shrinkToFit_same hs A (by omega)] at hf
        cases hf
      · rw [if_neg hlt] at hf
        cases hf
  | shrinkToFit =>
      simp only [UniqueOp.MayStop] at hmay
      simp only [UniqueOp.apply, shrinkToFit, if_neg hmay] at hf
      cases hf
  | _ =>
      -- with the room there, the only panics are those of the list
      simp only [UniqueOp.MayStop, hcap, hlen, Nat.not_lt] at hmay
      obtain ⟨h', this', data', he, -⟩ := apply_room hs _ rfl hmay
      have hlist := congrArg (·.2.2) (he A)
      have hpanic := UniqueOp.onList_isCallers (hlist.symm.trans hf)
      rw [hpanic] at hcallers
      cases hcallers

end

end UniqueAlignedBuffer

end RkyvUtils
