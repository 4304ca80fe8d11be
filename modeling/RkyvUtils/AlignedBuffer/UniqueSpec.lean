import RkyvUtils.AlignedBuffer.RawSpec
import RkyvUtils.AlignedBuffer.Unique

/-!
# `AlignedBuffer.UniqueSpec` — a `UniqueAlignedBuffer` is a list of bytes

The abstract side is `UniqueOp.onList`: what a mutator does to a plain list of bytes. `Stores` ties the
buffer to the list: the buffer `Holds` its memory, and the first `len` of the data bytes are the list,
all of them initialised. One lemma for each method says that the method keeps `Stores` and does to the
list what its name says; `apply_spec` collects them for all the mutators.
-/

namespace RkyvUtils

open Word Ownership

/-! ## The list side -/

/-- The bytes an iterator gives, up to its first `None` or panic. -/
def Next.bytes : List Next → List UInt8
  | .some byte :: nexts => byte :: bytes nexts
  | _ => []

/-- Whether the iterator panics before its first `None`. -/
def Next.panics : List Next → Bool
  | .some _ :: nexts => panics nexts
  | .panic :: _ => true
  | _ => false

/-- The bytes that are still to come after the loop over the free capacity. -/
def UniqueAlignedBuffer.FillEnd.bytes : UniqueAlignedBuffer.FillEnd → List UInt8
  | .full nexts => Next.bytes nexts
  | .ended | .panicked => []

/-- Whether the iterator panics, or will. -/
def UniqueAlignedBuffer.FillEnd.panics : UniqueAlignedBuffer.FillEnd → Bool
  | .full nexts => Next.panics nexts
  | .ended => false
  | .panicked => true

/-- **What the mutators do to a plain list of bytes**, with the panic of the operation, if any. -/
def UniqueOp.onList (xs : List UInt8) : UniqueOp → List UInt8 × Option Fault
  | push value => (xs ++ [value], none)
  | append other => (xs ++ other, none)
  | extendFromSlice other => (xs ++ other, none)
  | extend iter =>
      (xs ++ Next.bytes iter.nexts, if Next.panics iter.nexts then some .iteratorPanic else none)
  | resize newLen value =>
      (if xs.length < newLen then xs ++ List.replicate (newLen - xs.length) value else xs.take newLen,
        none)
  | truncate len => (xs.take len, none)
  | clear => ([], none)
  | reserve _ | reserveExact _ | tryReserve _ | tryReserveExact _ => (xs, none)
  | shrinkTo _ | shrinkToFit => (xs, none)
  | indexMut start bytes =>
      if xs.length < start + bytes.length then (xs, some .indexOutOfBounds)
      else (xs.take start ++ bytes ++ xs.drop (start + bytes.length), none)

/-- The panics of the list side are the caller's. -/
theorem UniqueOp.onList_isCallers {xs : List UInt8} {op : UniqueOp} {f : Fault}
    (h : (op.onList xs).2 = some f) : f.isCallers = true := by
  cases op with
  | extend iter =>
      simp only [UniqueOp.onList] at h
      split at h
      · cases h; rfl
      · cases h
  | indexMut start bytes =>
      simp only [UniqueOp.onList] at h
      split at h
      · cases h; rfl
      · cases h
  | _ => cases h

namespace RawAlignedBuffer

variable {α : Type} {p : Params} {h : Heap} {this : RawAlignedBuffer α} {o : Option BlockId}
  {data : List (Option UInt8)}

/-- **A write inside the capacity** of a unique buffer succeeds and changes only those bytes. -/
theorem Holds.write {i : Nat} {bs : List UInt8} (hh : Holds p h this o data)
    (hi : i + bs.length ≤ data.length) :
    ∃ h', h.write p (this.buf.add i) bs = .ok h' ∧
      Holds p h' this o (Heap.splice data i bs) ∧ Confined Block.Unreplaced h.blocks h'.blocks o o := by
  cases hh with
  | empty alloc =>
      simp only [List.length_nil] at hi
      obtain rfl : bs = [] := List.length_eq_zero_iff.mp (by omega)
      exact ⟨h, rfl, by rw [Heap.splice_nil]; exact .empty alloc, .refl⟩
  | @block b blk alloc hb ok header =>
      have hlen := Heap.length_splice hi
      refine ⟨_, Heap.write_eq hb ok.status hi, ?_, Confined.set_self _⟩
      have hnew := Holds.block (h := h.update b { blk with data := Heap.splice blk.data i bs }) alloc
        (List.getElem?_set_self (List.getElem?_eq_some_iff.mp hb).1) (ok.setData hlen)
        (by rw [hlen]; exact header)
      rw [hlen] at hnew
      exact hnew

/-- **A read of initialised bytes** of a unique buffer succeeds. -/
theorem Holds.read (i : Nat) (bs : List UInt8) (hh : Holds p h this o data)
    (hi : (data.drop i).take bs.length = bs.map some) :
    h.read p (this.buf.add i) bs.length = .ok bs := by
  cases hh with
  | empty alloc =>
      have hbs : bs = [] := by simpa using hi.symm
      subst hbs; rfl
  | block alloc hb ok header => exact Heap.read_eq hb ok.status hi

end RawAlignedBuffer

namespace UniqueAlignedBuffer

open RawAlignedBuffer (Holds Outcome Reserves)

variable {α : Type} {p : Params} {h h' : Heap} {this : UniqueAlignedBuffer α} {o : Option BlockId}
  {xs : List UInt8} {data : List (Option UInt8)}

/-- The buffer stores the bytes `xs` in front of its data bytes. -/
structure Stores (p : Params) (h : Heap) (this : UniqueAlignedBuffer α) (o : Option BlockId)
    (xs : List UInt8) (data : List (Option UInt8)) : Prop where
  holds : Holds p h this.buf o data
  length_eq : this.len = xs.length
  bytes : data.take xs.length = xs.map some

theorem Stores.length_le (hs : Stores p h this o xs data) : xs.length ≤ data.length := by
  have := congrArg List.length hs.bytes
  simp only [List.length_take, List.length_map] at this; omega

theorem Stores.capacity_eq (hs : Stores p h this o xs data) : this.capacity p = data.length :=
  hs.holds.value_eq

/-- The length never exceeds the capacity, so the difference does not wrap. -/
theorem Stores.free_eq (hs : Stores p h this o xs data) :
    wrappingSub p.bits (this.capacity p) this.len = data.length - xs.length := by
  have := hs.length_le
  have := hs.holds.length_lt
  have := p.half_add_half
  rw [hs.capacity_eq, hs.length_eq, wrappingSub_of_le (by omega) (by omega)]

/-- The buffer depends on its own block only. -/
theorem Stores.congr (hs : Stores p h this o xs data)
    (heq : ∀ b, o = some b → h'.blocks[b]? = h.blocks[b]?) : Stores p h' this o xs data :=
  ⟨hs.holds.congr heq, hs.length_eq, hs.bytes⟩

/-- A buffer that stores a list stores each initial part of it, with the length set back. -/
theorem Stores.take (hs : Stores p h this o xs data) (n : Nat) :
    Stores p h { this with len := min n this.len } o (xs.take n) data where
  holds := hs.holds
  length_eq := by simp only [List.length_take, hs.length_eq]
  bytes := by
    have hle : min n xs.length ≤ xs.length := Nat.min_le_right _ _
    rw [List.length_take, ← Nat.min_eq_left hle, ← List.take_take, hs.bytes, List.map_take,
      List.take_eq_take_iff]
    simp

/-- **The visible bytes** can be read, and they are the list. -/
theorem Stores.asSlice_eq (hs : Stores p h this o xs data) : this.asSlice p h = .ok xs := by
  unfold asSlice
  rw [hs.length_eq]
  exact hs.holds.read 0 xs hs.bytes

/-- Where a call of a mutator may lead: a buffer that stores `ys`, on the same allocator, with no memory
    touched but the buffer's own. -/
structure Leads (p : Params) (h : Heap) (this : UniqueAlignedBuffer α) (o : Option BlockId)
    (ys : List UInt8) (h' : Heap) (this' : UniqueAlignedBuffer α) (o' : Option BlockId)
    (data' : List (Option UInt8)) : Prop where
  stores : Stores p h' this' o' ys data'
  alloc : this'.buf.alloc = this.buf.alloc
  confined : Confined Block.Unreplaced h.blocks h'.blocks o o'

variable {h₂ : Heap} {this₂ : UniqueAlignedBuffer α} {this' : UniqueAlignedBuffer α}
  {o' o₂ : Option BlockId} {ys zs : List UInt8} {data' data₂ : List (Option UInt8)}

theorem Leads.refl (hs : Stores p h this o xs data) : Leads p h this o xs h this o data :=
  ⟨hs, rfl, .refl⟩

/-- Calls one after the other. -/
theorem Leads.trans (hl : Leads p h this o ys h' this' o' data')
    (hl' : Leads p h' this' o' zs h₂ this₂ o₂ data₂) : Leads p h this o zs h₂ this₂ o₂ data₂ :=
  ⟨hl'.stores, hl'.alloc.trans hl.alloc, hl.confined.trans hl'.confined⟩

/-- A reservation or a shrink that leaves room for the stored bytes keeps them. -/
theorem Stores.of_outcome {cap : Nat} {buf' : RawAlignedBuffer α} (hs : Stores p h this o xs data)
    (hout : Outcome p h this.buf o data cap (h', buf', .ok ())) (hle : xs.length ≤ cap) :
    ∃ o' data', Leads p h this o xs h' { this with buf := buf' } o' data' ∧ cap ≤ data'.length := by
  cases hout with
  | @done _ _ o' data' holds alloc confined room kept =>
      refine ⟨o', data', ⟨⟨holds, hs.length_eq, ?_⟩, alloc, confined⟩, room⟩
      rw [kept xs.length hle hs.length_le, hs.bytes]

/-- **Writing behind the stored bytes** appends to the list once the length is set. -/
theorem Stores.write_end (hs : Stores p h this o xs data) (bs : List UInt8)
    (hroom : xs.length + bs.length ≤ data.length) :
    ∃ h' data', h.write p (this.asMutPtr.add this.len) bs = .ok h' ∧
      Leads p h this o (xs ++ bs) h' { this with len := this.len + bs.length } o data' ∧
      data'.length = data.length := by
  obtain ⟨hh, hlen, hbytes⟩ := hs
  rw [hlen]
  obtain ⟨h', hw, hh', hconf⟩ := hh.write hroom
  refine ⟨h', _, hw, ⟨⟨hh', by simp, ?_⟩, rfl, hconf⟩, Heap.length_splice hroom⟩
  rw [List.length_append, Heap.take_splice hroom, hbytes, List.map_append]

/-! ## How a mutator ends -/

/-- A call that returns leads to a buffer that stores what is expected and has capacity `cap`; otherwise
    the reservation in it panicked or aborted. -/
def Settles (p : Params) (h : Heap) (this : UniqueAlignedBuffer α) (o : Option BlockId)
    (expected : List UInt8) (cap : Nat) (r : Except Fault (Heap × UniqueAlignedBuffer α)) : Prop :=
  (∃ h' this' o' data', r = .ok (h', this') ∧ Leads p h this o expected h' this' o' data' ∧
    cap ≤ data'.length) ∨ r = .error .capacityOverflow ∨ r = .error .allocError

/-- How a mutator ends: as on the list, or at a reservation, with a buffer that stores some list (the one
    before the call, or for `extend` the bytes pushed so far). -/
inductive Ends (p : Params) (h : Heap) (this : UniqueAlignedBuffer α) (o : Option BlockId)
    (expected : List UInt8 × Option Fault) : Ended α → Prop
  | returned {h' : Heap} {this' : UniqueAlignedBuffer α} {o' : Option BlockId}
      {data' : List (Option UInt8)} (leads : Leads p h this o expected.1 h' this' o' data') :
      Ends p h this o expected (h', this', expected.2)
  | reservation {h' : Heap} {this' : UniqueAlignedBuffer α} {o' : Option BlockId}
      {data' : List (Option UInt8)} {ys : List UInt8} {f : Fault}
      (leads : Leads p h this o ys h' this' o' data')
      (fault : f = .capacityOverflow ∨ f = .allocError) : Ends p h this o expected (h', this', some f)

variable {cap : Nat} {r : Except Fault (Heap × UniqueAlignedBuffer α)}

theorem Settles.of_leads (hl : Leads p h this o ys h' this' o' data') (hcap : cap ≤ data'.length) :
    Settles p h this o ys cap (.ok (h', this')) :=
  Or.inl ⟨h', this', o', data', rfl, hl, hcap⟩

theorem Settles.mono {cap' : Nat} (hr : Settles p h this o ys cap r) (hle : cap' ≤ cap) :
    Settles p h this o ys cap' r := by
  rcases hr with ⟨h', this', o', data', hr, hl, hcap⟩ | hr
  · exact Or.inl ⟨h', this', o', data', hr, hl, by omega⟩
  · exact Or.inr hr

/-- A call followed by the rest of the method. -/
theorem Settles.bind {cap' : Nat}
    {k : Heap × UniqueAlignedBuffer α → Except Fault (Heap × UniqueAlignedBuffer α)}
    (hr : Settles p h this o ys cap r)
    (hk : ∀ h' this' o' data', Leads p h this o ys h' this' o' data' → cap ≤ data'.length →
      Settles p h' this' o' zs cap' (k (h', this'))) :
    Settles p h this o zs cap' (r >>= k) := by
  rcases hr with ⟨h', this', o', data', rfl, hl, hcap⟩ | rfl | rfl
  · rcases hk h' this' o' data' hl hcap with ⟨h₂, this₂, o₂, data₂, hr, hl', hcap'⟩ | hr
    · exact Or.inl ⟨h₂, this₂, o₂, data₂, hr, hl.trans hl', hcap'⟩
    · exact Or.inr hr
  · exact Or.inr (Or.inl rfl)
  · exact Or.inr (Or.inr rfl)

theorem Ends.of_leads {e : Option Fault} (hl : Leads p h this o ys h' this' o' data') :
    Ends p h this o (ys, e) (h', this', e) := .returned hl

theorem Ends.of_settles (hs : Stores p h this o xs data) (hr : Settles p h this o ys cap r) :
    Ends p h this o (ys, none) (UniqueOp.settle h this r) := by
  rcases hr with ⟨h', this', o', data', rfl, hl, -⟩ | rfl | rfl
  · exact .returned hl
  · exact .reservation (.refl hs) (Or.inl rfl)
  · exact .reservation (.refl hs) (Or.inr rfl)

/-- A call that leads somewhere, followed by one that ends as expected. -/
theorem Ends.trans {expected : List UInt8 × Option Fault} {e : Ended α}
    (hl : Leads p h this o ys h' this' o' data') (he : Ends p h' this' o' expected e) :
    Ends p h this o expected e := by
  cases he with
  | returned hl' => exact .returned (hl.trans hl')
  | reservation hl' hf => exact .reservation (hl.trans hl') hf

/-- An infallible reservation of the raw buffer keeps the list. -/
theorem Settles.of_reserves {x : Except Fault (Heap × RawAlignedBuffer α)}
    (hs : Stores p h this o xs data) (hx : Reserves p h this.buf o data cap x)
    (hle : xs.length ≤ cap) :
    Settles p h this o xs cap (do
      let (h, buf) ← x
      return (h, { this with buf })) := by
  rcases hx with ⟨h', buf', rfl, hout⟩ | rfl | rfl
  · obtain ⟨o', data', hl, hroom⟩ := hs.of_outcome hout hle
    exact Or.inl ⟨h', _, o', data', rfl, hl, hroom⟩
  · exact Or.inr (Or.inl rfl)
  · exact Or.inr (Or.inr rfl)

/-! ## The methods, one by one -/

variable (A : Allocator p.toTarget)

/-- **`with_capacity`** gives the empty list. -/
theorem withCapacityIn_spec (alloc : α) (h : Heap) (cap : Nat) :
    Settles p h (newIn alloc) none [] cap (withCapacityIn A h cap alloc) :=
  .of_reserves ⟨.empty alloc, rfl, rfl⟩ (RawAlignedBuffer.withCapacityIn_spec A alloc) (Nat.zero_le _)

variable (hs : Stores p h this o xs data)
include hs

theorem reserve_spec (n : Nat) : Settles p h this o xs (xs.length + n) (this.reserve A h n) := by
  unfold reserve
  refine .of_reserves hs ?_ (Nat.le_add_right _ _)
  rw [← hs.length_eq]
  exact RawAlignedBuffer.reserve_spec A hs.holds (hs.length_eq ▸ hs.length_le)

theorem reserveExact_spec (n : Nat) :
    Settles p h this o xs (xs.length + n) (this.reserveExact A h n) := by
  unfold reserveExact
  refine .of_reserves hs ?_ (Nat.le_add_right _ _)
  rw [← hs.length_eq]
  exact RawAlignedBuffer.reserveExact_spec A hs.holds (hs.length_eq ▸ hs.length_le)

theorem shrinkToFit_spec (hkeep : UniqueOp.frees p this .shrinkToFit = false) :
    Settles p h this o xs 0 (this.shrinkToFit A h) := by
  have hlen := hs.length_eq
  simp only [UniqueOp.frees, hs.capacity_eq, decide_eq_false_iff_not] at hkeep
  unfold shrinkToFit
  rw [hs.capacity_eq]
  by_cases hlt : this.len < data.length
  · rw [if_pos hlt]
    have hraw := RawAlignedBuffer.shrinkToFit_spec A hs.holds (Nat.le_of_lt hlt)
      (fun hz => absurd ⟨hlt, hz⟩ hkeep)
    exact (Settles.of_reserves hs hraw (by omega)).mono (Nat.zero_le _)
  · rw [if_neg hlt]
    exact .of_leads (.refl hs) (Nat.zero_le _)

theorem shrinkTo_spec (n : Nat) (hkeep : UniqueOp.frees p this (.shrinkTo n) = false) :
    Settles p h this o xs 0 (this.shrinkTo A h n) := by
  have hle := hs.length_le
  have hlen := hs.length_eq
  simp only [UniqueOp.frees, hs.capacity_eq, decide_eq_false_iff_not] at hkeep
  unfold shrinkTo
  rw [hs.capacity_eq]
  by_cases hlt : n < data.length
  · rw [if_pos hlt]
    have hraw := RawAlignedBuffer.shrinkToFit_spec A hs.holds
      (show max this.len n ≤ data.length by omega) (fun hz => absurd ⟨hlt, hz⟩ hkeep)
    exact (Settles.of_reserves hs hraw (by omega)).mono (Nat.zero_le _)
  · rw [if_neg hlt]
    exact .of_leads (.refl hs) (Nat.zero_le _)

/-- **A shrink to nothing** gives the block up and leaves the empty buffer. -/
theorem apply_of_frees (op : UniqueOp) (hfrees : op.frees p this = true) :
    ∃ b blk, o = some b ∧ h.blocks[b]? = some blk ∧
      op.apply A h this = (h.update b { blk with status := .deallocated }, newIn this.buf.alloc, none) ∧
      op.onList xs = ([], none) ∧ xs = [] := by
  have hlen := hs.length_eq
  have hcap := hs.capacity_eq
  -- both calls come down to a shrink of the raw buffer to capacity 0
  have hshrink : ∀ cap, cap = 0 → this.len = 0 → 0 < data.length →
      ∃ b blk, o = some b ∧ h.blocks[b]? = some blk ∧
        (do
          let (h, buf) ← this.buf.shrinkToFit A h cap
          return (h, { this with buf })) =
          Except.ok (h.update b { blk with status := .deallocated }, newIn this.buf.alloc) := by
    intro cap hz hzlen hpos
    obtain ⟨b, blk, ho, hb, hr⟩ := RawAlignedBuffer.shrinkToFit_zero A hs.holds hpos
    refine ⟨b, blk, ho, hb, ?_⟩
    rw [hz, hr, hzlen]
    rfl
  cases op with
  | shrinkTo n =>
      simp only [UniqueOp.frees, decide_eq_true_eq, hcap] at hfrees
      obtain ⟨b, blk, ho, hb, hr⟩ := hshrink _ hfrees.2 (by omega) (by omega)
      obtain rfl : xs = [] := List.length_eq_zero_iff.mp (by omega)
      refine ⟨b, blk, ho, hb, ?_, rfl, rfl⟩
      simp only [UniqueOp.apply, shrinkTo]
      rw [hcap, if_pos hfrees.1, hr]
      rfl
  | shrinkToFit =>
      simp only [UniqueOp.frees, decide_eq_true_eq, hcap] at hfrees
      obtain ⟨b, blk, ho, hb, hr⟩ := hshrink _ hfrees.2 hfrees.2 (by omega)
      obtain rfl : xs = [] := List.length_eq_zero_iff.mp (by omega)
      refine ⟨b, blk, ho, hb, ?_, rfl, rfl⟩
      simp only [UniqueOp.apply, shrinkToFit]
      rw [hcap, if_pos hfrees.1, hr]
      rfl
  | _ => simp [UniqueOp.frees] at hfrees

/-- The fallible reservations: `Err` changes nothing. -/
theorem settleTry_spec {x : Except Fault (RawAlignedBuffer.Reserved α)}
    (hx : ∃ r, x = .ok r ∧ Outcome p h this.buf o data cap r) (hle : xs.length ≤ cap) :
    ∃ h' this' o' data', UniqueOp.settleTry h this (do
        let (h, buf, result) ← x
        return (h, { this with buf }, result)) = (h', this', none) ∧
      Leads p h this o xs h' this' o' data' := by
  obtain ⟨⟨h', buf', result⟩, rfl, hr⟩ := hx
  cases result with
  | error e =>
      cases hr with
      | failed =>
          exact ⟨_, _, o, data, rfl, hs.congr (fun _ _ => rfl), rfl, Confined.refl⟩
  | ok u =>
      obtain ⟨o', data', hl, -⟩ := hs.of_outcome hr hle
      exact ⟨_, _, o', data', rfl, hl⟩

/-- **`push`** appends one byte. -/
theorem push_spec (value : UInt8) :
    Settles p h this o (xs ++ [value]) 0 (this.push A h value) := by
  unfold push
  have hroom : Settles p h this o xs (xs.length + 1)
      (if this.len = this.capacity p then this.reserve A h 1 else .ok (h, this)) := by
    have hle := hs.length_le
    have hlen := hs.length_eq
    rw [hs.capacity_eq]
    by_cases heq : this.len = data.length
    · rw [if_pos heq]
      exact reserve_spec A hs 1
    · rw [if_neg heq]
      exact .of_leads (.refl hs) (by omega)
  refine hroom.bind ?_
  intro h₁ this₁ o₁ data₁ hl hcap
  obtain ⟨h₂, data₂, hw, hl₂, -⟩ := hl.stores.write_end [value] (by simpa using hcap)
  dsimp only
  rw [hw]
  exact .of_leads hl₂ (Nat.zero_le _)

/-- **`append`** appends the bytes of the slice. -/
theorem appendElements_spec (other : List UInt8) :
    Settles p h this o (xs ++ other) 0 (this.appendElements A h other) := by
  unfold appendElements
  refine (reserve_spec A hs other.length).bind ?_
  intro h₁ this₁ o₁ data₁ hl hcap
  obtain ⟨h₂, data₂, hw, hl₂, -⟩ := hl.stores.write_end other hcap
  dsimp only
  rw [hw]
  exact .of_leads hl₂ (Nat.zero_le _)

/-- A reservation that finds the room there does nothing. -/
theorem reserve_room {n : Nat} (hroom : xs.length + n ≤ data.length) :
    this.reserve A h n = .ok (h, this) := by
  rw [← hs.length_eq] at hroom
  unfold reserve
  rw [RawAlignedBuffer.reserve_room A hs.holds hroom]
  rfl

/-- **`extend_from_slice`** with the room there cannot fail. -/
theorem extendFromSlice_room (other : List UInt8) (hroom : xs.length + other.length ≤ data.length) :
    ∃ h' this' data', this.extendFromSlice A h other = .ok (h', this') ∧
      Leads p h this o (xs ++ other) h' this' o data' := by
  obtain ⟨h', data', hw, hl, -⟩ := hs.write_end other hroom
  refine ⟨h', _, data', ?_, hl⟩
  unfold extendFromSlice append appendElements
  dsimp only
  rw [reserve_room A hs hroom, ok_bind, hw]
  rfl

/-- **The write loop of `resize`**, with the length set after it. -/
theorem writeAll_spec (value : UInt8) (n : Nat) (hroom : xs.length + n ≤ data.length) :
    ∃ h' data', writeAll p h (this.asMutPtr.add this.len) value n = .ok h' ∧
      Leads p h this o (xs ++ List.replicate n value) h' { this with len := this.len + n } o data' := by
  -- each turn of the loop writes one byte behind the list, so the list grows along
  induction n generalizing h this xs data with
  | zero => exact ⟨h, data, rfl, by simpa using Leads.refl hs⟩
  | succ n ih =>
      obtain ⟨h₁, data₁, hw, hl, hlen⟩ := hs.write_end [value] (by simp; omega)
      obtain ⟨h₂, data₂, hw₂, hl₂⟩ := ih hl.stores (by simp; omega)
      refine ⟨h₂, data₂, ?_, ?_⟩
      · unfold writeAll
        rw [hw]; exact hw₂
      · have hl' := hl.trans hl₂
        simp only [List.append_assoc, List.singleton_append, ← List.replicate_succ,
          List.length_singleton, Nat.add_assoc, Nat.add_comm 1] at hl'
        exact hl'

/-- **`resize`** cuts the list or fills it up. -/
theorem resize_spec (newLen : Nat) (value : UInt8) :
    Settles p h this o (if xs.length < newLen then xs ++ List.replicate (newLen - xs.length) value
      else xs.take newLen) 0 (this.resize A h newLen value) := by
  unfold resize
  rw [hs.length_eq]
  by_cases hlt : xs.length < newLen
  · rw [if_pos hlt, if_pos hlt]
    unfold extendWith
    refine (reserve_spec A hs (newLen - xs.length)).bind ?_
    intro h₁ this₁ o₁ data₁ hl hcap
    obtain ⟨h₂, data₂, hw, hl₂⟩ := writeAll_spec hl.stores value (newLen - xs.length) hcap
    dsimp only
    rw [hw]
    exact .of_leads hl₂ (Nat.zero_le _)
  · rw [if_neg hlt, if_neg hlt]
    exact .of_leads ⟨hs.take newLen, rfl, .refl⟩ (Nat.zero_le _)

/-- **A write through `index_mut`** inside the visible bytes replaces them there. -/
theorem indexMut_spec {start : Nat} {bytes : List UInt8} (hle : start + bytes.length ≤ xs.length) :
    Settles p h this o (xs.take start ++ bytes ++ xs.drop (start + bytes.length)) 0
      (this.indexMut p h start bytes) := by
  obtain ⟨h', hw, hh, hconf⟩ := hs.holds.write (Nat.le_trans hle hs.length_le)
  unfold indexMut
  rw [hs.asSlice_eq, ok_bind, if_neg (by omega), show h.write p (this.asMutPtr.add start) bytes = _
    from hw, ok_bind]
  have hlen : (xs.take start ++ bytes ++ xs.drop (start + bytes.length)).length = xs.length := by
    simp; omega
  refine .of_leads ⟨⟨hh, ?_, ?_⟩, rfl, hconf⟩ (Nat.zero_le _)
  · rw [hlen]; exact hs.length_eq
  · rw [hlen, Heap.take_splice_of_le hle hs.length_le, hs.bytes]
    simp [Heap.splice]

theorem indexMut_error {start : Nat} {bytes : List UInt8} (hlt : xs.length < start + bytes.length) :
    this.indexMut p h start bytes = .error .indexOutOfBounds := by
  unfold indexMut
  rw [hs.asSlice_eq, ok_bind, if_pos hlt]

/-! ### `extend` -/

/-- **The loop over the free capacity** writes a first part `ys` of the iterator's bytes and leaves the
    rest to the loop of pushes. -/
theorem fill_spec (free : Nat) (nexts : List Next) (hroom : xs.length + free ≤ data.length) :
    ∃ h' len data' ys done, fill p h (this.asMutPtr.add this.len) this.len free nexts
        = .ok (h', len, done) ∧
      Leads p h this o (xs ++ ys) h' { this with len := len } o data' ∧
      Next.bytes nexts = ys ++ done.bytes ∧ Next.panics nexts = done.panics := by
  -- the loop counts the free capacity down; the iterator may end before it does
  induction free generalizing h this xs data nexts with
  | zero =>
      exact ⟨h, _, data, [], .full nexts, rfl, by simpa using Leads.refl hs, rfl, rfl⟩
  | succ free ih =>
      match nexts with
      | [] | .none :: _ =>
          exact ⟨h, _, data, [], .ended, rfl, by simpa using Leads.refl hs, rfl, rfl⟩
      | .panic :: _ =>
          exact ⟨h, _, data, [], .panicked, rfl, by simpa using Leads.refl hs, rfl, rfl⟩
      | .some byte :: nexts =>
          obtain ⟨h₁, data₁, hw, hl, hlen⟩ := hs.write_end [byte] (by simp; omega)
          obtain ⟨h₂, len, data₂, ys, done, hf, hl₂, hbytes, hpanics⟩ :=
            ih hl.stores nexts (by simp; omega)
          refine ⟨h₂, len, data₂, byte :: ys, done, ?_, ?_, ?_, hpanics⟩
          · unfold fill
            rw [hw]; exact hf
          · have hl' := hl.trans hl₂
            rw [List.append_assoc] at hl'
            exact hl'
          · rw [Next.bytes, hbytes]; rfl

/-- **The loop of pushes** appends the bytes that are left. -/
theorem pushAll_spec (nexts : List Next) :
    Ends p h this o (xs ++ Next.bytes nexts,
      if Next.panics nexts then some .iteratorPanic else none) (pushAll A h this nexts) := by
  induction nexts generalizing h this o xs data with
  | nil => exact .of_leads (by simpa [Next.bytes] using Leads.refl hs)
  | cons next nexts ih =>
      cases next with
      | none | panic => exact .of_leads (by simpa [Next.bytes] using Leads.refl hs)
      | some byte =>
          unfold pushAll
          rcases push_spec A hs byte with ⟨h', this', o', data', hp, hl, -⟩ | hp | hp
          · rw [hp]
            have he := ih hl.stores
            rw [List.append_assoc, List.singleton_append] at he
            exact .trans hl he
          · rw [hp]; exact .reservation (.refl hs) (Or.inl rfl)
          · rw [hp]; exact .reservation (.refl hs) (Or.inr rfl)

/-- **`extend`** appends the bytes of the iterator, whatever its `size_hint` says, and keeps what it has
    when the iterator panics. -/
theorem extend_spec (iter : ByteIter) :
    Ends p h this o (UniqueOp.onList xs (.extend iter)) (this.extend A h iter) := by
  unfold extend
  rcases reserve_spec A hs iter.lower with ⟨h₁, this₁, o₁, data₁, hr, hl, hcap⟩ | hr | hr
  · rw [hr]
    refine .trans hl ?_
    have hs₁ := hl.stores
    have hle := hs₁.length_le
    dsimp only
    rw [hs₁.free_eq]
    obtain ⟨h₂, len, data₂, ys, done, hf, hl₂, hbytes, hpanics⟩ :=
      fill_spec hs₁ (data₁.length - xs.length) iter.nexts (by omega)
    rw [hf]
    simp only [UniqueOp.onList]
    rw [hbytes, hpanics, ← List.append_assoc]
    cases done with
    | full nexts => exact .trans hl₂ (pushAll_spec A hl₂.stores nexts)
    | ended | panicked => exact .of_leads (by simpa [FillEnd.bytes] using hl₂)
  · rw [hr]; exact .reservation (.refl hs) (Or.inl rfl)
  · rw [hr]; exact .reservation (.refl hs) (Or.inr rfl)

/-- **Every mutator** that keeps its block does to the list what it does to a plain list of bytes. -/
theorem apply_spec (op : UniqueOp) (hkeep : op.frees p this = false) :
    Ends p h this o (op.onList xs) (op.apply A h this) := by
  have hlen := hs.length_eq
  cases op with
  | push value => exact .of_settles hs (push_spec A hs value)
  | append other | extendFromSlice other => exact .of_settles hs (appendElements_spec A hs other)
  | extend iter => exact extend_spec A hs iter
  | resize newLen value => exact .of_settles hs (resize_spec A hs newLen value)
  | truncate len => exact .of_leads ⟨hs.take len, rfl, .refl⟩
  | clear => exact .of_leads ⟨⟨hs.holds, rfl, rfl⟩, rfl, .refl⟩
  | reserve n => exact .of_settles hs (reserve_spec A hs n)
  | reserveExact n => exact .of_settles hs (reserveExact_spec A hs n)
  | tryReserve n =>
      obtain ⟨h', this', o', data', hr, hl⟩ := settleTry_spec hs
        (RawAlignedBuffer.tryReserve_spec A n hs.holds (hlen ▸ hs.length_le))
        (by omega)
      rw [show UniqueOp.apply A h this (.tryReserve n) = _ from hr]
      exact .of_leads hl
  | tryReserveExact n =>
      obtain ⟨h', this', o', data', hr, hl⟩ := settleTry_spec hs
        (RawAlignedBuffer.tryReserveExact_spec A n hs.holds (hlen ▸ hs.length_le))
        (by omega)
      rw [show UniqueOp.apply A h this (.tryReserveExact n) = _ from hr]
      exact .of_leads hl
  | shrinkTo n => exact .of_settles hs (shrinkTo_spec A hs n hkeep)
  | shrinkToFit => exact .of_settles hs (shrinkToFit_spec A hs hkeep)
  | indexMut start bytes =>
      simp only [UniqueOp.apply, UniqueOp.onList]
      by_cases hlt : xs.length < start + bytes.length
      · rw [if_pos hlt, indexMut_error hs hlt]
        exact .of_leads (.refl hs)
      · rw [if_neg hlt]
        exact .of_settles hs (indexMut_spec hs (by omega))

end UniqueAlignedBuffer

end RkyvUtils
