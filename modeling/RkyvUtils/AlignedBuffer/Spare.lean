import RkyvUtils.Lib.Returns
import RkyvUtils.AlignedBuffer.BufMut

/-!
# `AlignedBuffer.Spare` — memory behind the length

The unsafe methods let a caller write memory that the buffer does not show yet, through `as_mut_ptr` or the
window of `chunk_mut`, and show it afterwards with `set_len` or `advance_mut`, whose safety section asks that
the bytes be initialised. A `Draft` is what such a caller can know: the length, and the bytes it may count on,
written by itself or once shown by the buffer. `drafts_are_the_buffer` says that in any mix of unsafe calls
that the draft permits with the safe mutators, the buffer shows the draft. So bytes cut off can be shown
again, and bytes written ahead survive a reallocation.
-/

namespace RkyvUtils

open Word Ownership Run

/-- A write past the end of the memory. -/
theorem Heap.write_error {p : Params} {h : Heap} {b : BlockId} {blk : Block} {i : Nat} {bs : List UInt8}
    (hb : h.blocks[b]? = some blk) (hs : blk.status = .allocated) (hpos : bs.length ≠ 0)
    (hi : blk.data.length < i + bs.length) :
    h.write p ⟨blk.base + p.bufferOffset + i, some b⟩ bs = .error .memory := by
  unfold write
  rw [if_neg hpos, deref_eq hb hs, ok_bind]
  dsimp only
  rw [if_pos (by omega)]

/-- The memory after a write, byte by byte. -/
theorem Heap.getElem?_splice {l : List (Option UInt8)} {i : Nat} {bs : List UInt8}
    (hi : i + bs.length ≤ l.length) (j : Nat) :
    (splice l i bs)[j]? = if i ≤ j ∧ j < i + bs.length then bs[j - i]?.map some else l[j]? := by
  have hfront : (l.take i).length = i := by simp; omega
  unfold splice
  rw [List.append_assoc]
  by_cases hlt : j < i
  · rw [List.getElem?_append_left (by omega), List.getElem?_take_of_lt hlt, if_neg (by omega)]
  · -- behind the front: inside the bytes written, or past them
    rw [List.getElem?_append_right (by omega), hfront]
    by_cases hin : j < i + bs.length
    · rw [List.getElem?_append_left (by simp; omega), List.getElem?_map, if_pos ⟨by omega, hin⟩]
    · rw [List.getElem?_append_right (by simp; omega), List.getElem?_drop, List.length_map,
        if_neg (by omega)]
      congr 1
      omega

namespace RawAlignedBuffer

variable {α : Type} {p : Params} {h h' : Heap} {this : RawAlignedBuffer α} {o o' : Option BlockId}
  {data data' : List (Option UInt8)}

/-- The memory is the data of the block that the pointer was derived from. -/
theorem Holds.data_eq (hh : Holds p h this o data) :
    data = (o.bind fun b => h.blocks[b]?).elim [] Block.data := by
  cases hh with
  | empty alloc => rfl
  | block alloc hb ok header =>
      rw [Option.bind_some, hb]
      rfl

/-- A buffer has one memory. -/
theorem Holds.unique (hh : Holds p h this o data) (hh' : Holds p h this o' data') : data = data' := by
  rw [hh.data_eq, hh'.data_eq, ← hh.prov_eq, ← hh'.prov_eq]

/-- **A write that succeeds** was inside the memory, if it began there, and changed only those bytes. -/
theorem Holds.written {i : Nat} {bs : List UInt8} (hh : Holds p h this o data) (hi : i ≤ data.length)
    (hw : h.write p (this.buf.add i) bs = .ok h') :
    i + bs.length ≤ data.length ∧ Holds p h' this o (Heap.splice data i bs) := by
  by_cases hin : i + bs.length ≤ data.length
  · obtain ⟨h₁, hw₁, hh₁, -⟩ := hh.write hin
    rw [hw] at hw₁
    cases hw₁
    exact ⟨hin, hh₁⟩
  · have hpos : bs.length ≠ 0 := by omega
    cases hh with
    | empty alloc =>
        unfold Heap.write at hw
        rw [if_neg hpos] at hw
        cases hw
    | @block b blk alloc hb ok header =>
        cases hw.symm.trans (Heap.write_error hb ok.status hpos (Nat.lt_of_not_le hin))

/-! ## Reservations take the memory along -/

/-- The memory up to the capacity asked for is what it was, initialised or not. -/
theorem Outcome.takes {cap : Nat} {r : Reserved α} (hout : Outcome p h this o data cap r)
    (hh : Holds p h this o data) :
    ∃ o' data', Holds p r.1 r.2.1 o' data' ∧ min cap data.length ≤ data'.length ∧
      ∀ (i : Nat) (b : Option UInt8), i < cap → data[i]? = some b → data'[i]? = some b := by
  cases hout with
  | failed => exact ⟨o, data, hh.congr fun _ _ => rfl, Nat.min_le_right _ _, fun _ _ _ hb => hb⟩
  | @done _ _ o' data' holds alloc confined room kept =>
      refine ⟨o', data', holds, by omega, ?_⟩
      intro i b hi hb
      obtain ⟨hlt, -⟩ := List.getElem?_eq_some_iff.mp hb
      -- `kept` is about prefixes; the byte is the last of one
      have hkept : (data'.take (i + 1))[i]? = (data.take (i + 1))[i]? := by rw [kept (i + 1) hi hlt]
      rw [List.getElem?_take_of_lt (Nat.lt_succ_self i), List.getElem?_take_of_lt (Nat.lt_succ_self i)]
        at hkept
      rw [hkept, hb]

/-- A reservation for at least the memory that is there takes all of it along. -/
theorem Outcome.takes_all {n : Nat} {r : Reserved α}
    (hout : Outcome p h this o data (max data.length n) r) (hh : Holds p h this o data) :
    ∃ o' data', Holds p r.1 r.2.1 o' data' ∧ data.length ≤ data'.length ∧
      ∀ (i : Nat) (b : Option UInt8), data[i]? = some b → data'[i]? = some b := by
  obtain ⟨o', data', hh', hle, hkept⟩ := hout.takes hh
  refine ⟨o', data', hh', by omega, ?_⟩
  intro i b hb
  obtain ⟨hlt, -⟩ := List.getElem?_eq_some_iff.mp hb
  exact hkept i b (by omega) hb

variable (A : Allocator p.toTarget) {len additional : Nat}

theorem tryReserve_whole (hh : Holds p h this o data) (hlen : len ≤ data.length) :
    ∃ r, tryReserve A h this len additional = .ok r ∧
      Outcome p h this o data (max data.length (len + additional)) r := by
  unfold tryReserve
  by_cases hgrow : this.needsToGrow p len additional = true
  · have hlt := (hh.needsToGrow_iff hlen).mp hgrow
    rw [if_pos hgrow, Nat.max_eq_right (Nat.le_of_lt hlt)]
    exact growAmortized_spec A hh hlen hlt
  · rw [hh.needsToGrow_iff hlen] at hgrow
    rw [if_neg (hh.not_needsToGrow (Nat.le_of_not_lt hgrow))]
    exact ⟨_, rfl, .refl hh (by omega)⟩

theorem tryReserveExact_whole (hh : Holds p h this o data) (hlen : len ≤ data.length) :
    ∃ r, tryReserveExact A h this len additional = .ok r ∧
      Outcome p h this o data (max data.length (len + additional)) r := by
  unfold tryReserveExact
  by_cases hgrow : this.needsToGrow p len additional = true
  · have hlt := (hh.needsToGrow_iff hlen).mp hgrow
    rw [if_pos hgrow, Nat.max_eq_right (Nat.le_of_lt hlt)]
    exact growExact_spec A hh hlt
  · rw [hh.needsToGrow_iff hlen] at hgrow
    rw [if_neg (hh.not_needsToGrow (Nat.le_of_not_lt hgrow))]
    exact ⟨_, rfl, .refl hh (by omega)⟩

theorem reserve_whole (hh : Holds p h this o data) (hlen : len ≤ data.length) :
    Reserves p h this o data (max data.length (len + additional)) (reserve A h this len additional) := by
  by_cases hroom : len + additional ≤ data.length
  · rw [reserve_room A hh hroom]
    exact Or.inl ⟨_, _, rfl, .refl hh (by omega)⟩
  · rw [Nat.max_eq_right (by omega)]
    exact reserve_spec A hh hlen

end RawAlignedBuffer

/-- The capacity that a shrink leaves at least, besides the length. -/
def UniqueOp.minCapacity? : UniqueOp → Option Nat
  | shrinkTo minCapacity => some minCapacity
  | shrinkToFit => some 0
  | _ => none

namespace UniqueAlignedBuffer

open RawAlignedBuffer (Holds Outcome Reserves)

variable {α : Type} {p : Params} {h h' h₂ : Heap} {this this' this₂ : UniqueAlignedBuffer α}
  {o : Option BlockId} {xs : List UInt8} {data : List (Option UInt8)}

/-! ## The memory that a call leaves alone -/

/-- Behind the length that the call leaves, the memory is what it was. -/
def KeepsBehind (p : Params) (h : Heap) (this : UniqueAlignedBuffer α) (h' : Heap)
    (this' : UniqueAlignedBuffer α) : Prop :=
  ∀ o data, Holds p h this.buf o data → this.len ≤ data.length →
    ∃ o' data', Holds p h' this'.buf o' data' ∧ this'.len ≤ data'.length ∧
      ∀ i b, this'.len ≤ i → data[i]? = some b → data'[i]? = some b

/-- A call that adds bytes, if any, and writes nothing behind them. -/
structure Adds (p : Params) (h : Heap) (this : UniqueAlignedBuffer α) (h' : Heap)
    (this' : UniqueAlignedBuffer α) : Prop where
  len_le : this.len ≤ this'.len
  behind : KeepsBehind p h this h' this'

theorem KeepsBehind.refl : KeepsBehind p h this h this :=
  fun o data hh hlen => ⟨o, data, hh, hlen, fun _ _ _ hb => hb⟩

/-- Bytes cut off stay in memory. -/
theorem KeepsBehind.cut {len : Nat} (hle : len ≤ this.len) : KeepsBehind p h this h { this with len } :=
  fun o data hh hlen => ⟨o, data, hh, Nat.le_trans hle hlen, fun _ _ _ hb => hb⟩

theorem Adds.refl : Adds p h this h this := ⟨Nat.le_refl _, .refl⟩

theorem Adds.trans (ha : Adds p h this h' this') (ha' : Adds p h' this' h₂ this₂) :
    Adds p h this h₂ this₂ := by
  refine ⟨Nat.le_trans ha.len_le ha'.len_le, ?_⟩
  intro o data hh hlen
  obtain ⟨o₁, data₁, hh₁, hlen₁, hkept₁⟩ := ha.behind o data hh hlen
  obtain ⟨o₂, data₂, hh₂, hlen₂, hkept₂⟩ := ha'.behind o₁ data₁ hh₁ hlen₁
  refine ⟨o₂, data₂, hh₂, hlen₂, ?_⟩
  intro i b hi hb
  exact hkept₂ i b hi (hkept₁ i b (Nat.le_trans ha'.len_le hi) hb)

/-- A write at the end, with the length set after it. -/
theorem write_adds (bs : List UInt8) :
    Returns (fun h' => Adds p h this h' { this with len := this.len + bs.length })
      (h.write p (this.asMutPtr.add this.len) bs) := by
  intro h' hw
  refine ⟨Nat.le_add_right _ _, ?_⟩
  intro o data hh hlen
  obtain ⟨hin, hh'⟩ := hh.written hlen hw
  refine ⟨o, _, hh', by rw [Heap.length_splice hin]; exact hin, ?_⟩
  intro i b hi hb
  dsimp only at hi
  rw [Heap.getElem?_splice hin, if_neg (by omega), hb]

variable (A : Allocator p.toTarget)

/-- A reservation of the raw buffer. -/
theorem adds_of_reserves {x : Except Fault (Heap × RawAlignedBuffer α)} {n : Nat}
    (hx : ∀ o data, Holds p h this.buf o data → this.len ≤ data.length →
      Reserves p h this.buf o data (max data.length n) x) :
    Returns (fun r => Adds p h this r.1 { this with buf := r.2 }) x := by
  rintro ⟨h', buf'⟩ hr
  refine ⟨Nat.le_refl _, ?_⟩
  intro o data hh hlen
  rcases hx o data hh hlen with ⟨_, _, hok, hout⟩ | hf | hf
  · cases hr.symm.trans hok
    obtain ⟨o', data', hh', hle, hkept⟩ := hout.takes_all hh
    exact ⟨o', data', hh', Nat.le_trans hlen hle, fun i b _ hb => hkept i b hb⟩
  · cases hr.symm.trans hf
  · cases hr.symm.trans hf

/-- A call that returns a `Result` as well. -/
theorem settleTry_behind {x : Except Fault (RawAlignedBuffer.Reserved α)} {n : Nat}
    (hx : ∀ o data, Holds p h this.buf o data → this.len ≤ data.length →
      ∃ r, x = .ok r ∧ Outcome p h this.buf o data (max data.length n) r) :
    let e := UniqueOp.settleTry h this (do
      let (h, buf, result) ← x
      return (h, { this with buf }, result))
    KeepsBehind p h this e.1 e.2.1 := by
  cases x with
  | error f => exact .refl
  | ok r =>
      intro e o data hh hlen
      obtain ⟨_, hok, hout⟩ := hx o data hh hlen
      cases hok
      obtain ⟨o', data', hh', hle, hkept⟩ := hout.takes_all hh
      exact ⟨o', data', hh', Nat.le_trans hlen hle, fun i b _ hb => hkept i b hb⟩

theorem reserve_adds (additional : Nat) :
    Returns (fun r => Adds p h this r.1 r.2) (this.reserve A h additional) :=
  (adds_of_reserves fun _ _ hh hlen => RawAlignedBuffer.reserve_whole A hh hlen).bind fun _ ha => .ok ha

theorem reserveExact_adds (additional : Nat) :
    Returns (fun r => Adds p h this r.1 r.2) (this.reserveExact A h additional) := by
  have hraw : Returns (fun r => Adds p h this r.1 { this with buf := r.2 })
      (this.buf.reserveExact A h this.len additional) :=
    adds_of_reserves fun _ _ hh hlen => .of_outcome (RawAlignedBuffer.tryReserveExact_whole A hh hlen)
  exact hraw.bind fun _ ha => .ok ha

theorem push_adds (value : UInt8) : Returns (fun r => Adds p h this r.1 r.2) (this.push A h value) := by
  have hroom : Returns (fun r => Adds p h this r.1 r.2)
      (if this.len = this.capacity p then this.reserve A h 1 else .ok (h, this)) :=
    .ite (reserve_adds A 1) (.ok .refl)
  exact hroom.bind fun _ ha => (write_adds [value]).bind fun _ ha' => .ok (ha.trans ha')

theorem append_adds (other : List UInt8) :
    Returns (fun r => Adds p h this r.1 r.2) (this.append A h other) :=
  (reserve_adds A other.length).bind fun _ ha => (write_adds other).bind fun _ ha' => .ok (ha.trans ha')

/-- **The write loop of `resize`**, with the length set after it. -/
theorem writeAll_adds (value : UInt8) (n : Nat) :
    Returns (fun h' => Adds p h this h' { this with len := this.len + n })
      (writeAll p h (this.asMutPtr.add this.len) value n) := by
  induction n generalizing h this with
  | zero => exact .ok .refl
  | succ n ih =>
      -- the induction is on the buffer with the byte counted already, although the length is set at the end
      refine (write_adds [value]).bind ?_
      intro h₁ ha h' hw
      have hrest : Adds p h₁ { this with len := this.len + 1 } h' { this with len := this.len + 1 + n } :=
        ih.of_eq hw
      rw [Nat.add_assoc, Nat.add_comm 1] at hrest
      exact ha.trans hrest

theorem resize_behind (newLen : Nat) (value : UInt8) :
    Returns (fun r => KeepsBehind p h this r.1 r.2) (this.resize A h newLen value) := by
  unfold resize extendWith
  by_cases hlt : this.len < newLen
  · rw [if_pos hlt]
    exact (reserve_adds A (newLen - this.len)).bind fun _ ha =>
      (writeAll_adds value _).bind fun _ ha' => .ok (ha.trans ha').behind
  · rw [if_neg hlt]
    exact .ok (.cut (Nat.min_le_right _ _))

/-- **A write through `index_mut`** stays in front of the length. -/
theorem indexMut_behind (hs : Stores p h this o xs data) (start : Nat) (bytes : List UInt8) :
    Returns (fun r => KeepsBehind p h this r.1 r.2) (this.indexMut p h start bytes) := by
  unfold indexMut
  rw [hs.asSlice_eq, ok_bind]
  by_cases hout : xs.length < start + bytes.length
  · rw [if_pos hout]
    exact .error
  · rw [if_neg hout]
    intro r hr
    obtain ⟨h', hw, hr⟩ := bind_eq_ok hr
    cases hr
    intro o data hh hlen
    have hlist := hs.length_eq
    obtain ⟨hin, hh'⟩ := hh.written (by omega) hw
    refine ⟨o, _, hh', by rw [Heap.length_splice hin]; exact hlen, ?_⟩
    intro i b hi hb
    dsimp only at hi
    rw [Heap.getElem?_splice hin, if_neg (by omega), hb]

/-! ### `extend` -/

/-- **The loop over the free capacity**, with the length that its guard sets. -/
theorem fill_adds (free : Nat) (nexts : List Next) :
    Returns (fun r => Adds p h this r.1 { this with len := r.2.1 })
      (fill p h (this.asMutPtr.add this.len) this.len free nexts) := by
  induction free generalizing h this nexts with
  | zero => exact .ok .refl
  | succ free ih =>
      cases nexts with
      | nil => exact .ok .refl
      | cons next nexts =>
          cases next with
          | none | panic => exact .ok .refl
          | some byte =>
              -- as in `writeAll_adds`, the byte counts for the turns to come
              refine (write_adds [byte]).bind ?_
              intro h₁ ha r hr
              have hrest : Adds p h₁ { this with len := this.len + 1 } r.1 { this with len := r.2.1 } :=
                (ih nexts).of_eq hr
              exact ha.trans hrest

/-- **The loop of pushes**. -/
theorem pushAll_adds (nexts : List Next) :
    Adds p h this (pushAll A h this nexts).1 (pushAll A h this nexts).2.1 := by
  induction nexts generalizing h this with
  | nil => exact .refl
  | cons next nexts ih =>
      cases next with
      | none | panic => exact .refl
      | some byte =>
          unfold pushAll
          cases hr : this.push A h byte with
          | error f => exact .refl
          | ok r => exact ((push_adds A byte).of_eq hr).trans ih

theorem extend_adds (iter : ByteIter) :
    Adds p h this (this.extend A h iter).1 (this.extend A h iter).2.1 := by
  unfold extend
  cases hr : this.reserve A h iter.lower with
  | error f => exact .refl
  | ok r =>
      obtain ⟨h₁, this₁⟩ := r
      have hreserved : Adds p h this h₁ this₁ := (reserve_adds A iter.lower).of_eq hr
      dsimp only
      cases hf : fill p h₁ (this₁.asMutPtr.add this₁.len) this₁.len
          (wrappingSub p.bits (this₁.capacity p) this₁.len) iter.nexts with
      | error f => exact hreserved
      | ok r =>
          obtain ⟨h₂, len, done⟩ := r
          have hfilled : Adds p h₁ this₁ h₂ { this₁ with len } := (fill_adds _ _).of_eq hf
          cases done with
          | ended | panicked => exact hreserved.trans hfilled
          | full nexts => exact (hreserved.trans hfilled).trans (pushAll_adds A nexts)

/-! ### The mutators -/

/-- A call that changes nothing when it fails. -/
theorem settle_behind {x : Except Fault (Heap × UniqueAlignedBuffer α)}
    (hx : Returns (fun r => KeepsBehind p h this r.1 r.2) x) :
    KeepsBehind p h this (UniqueOp.settle h this x).1 (UniqueOp.settle h this x).2.1 := by
  cases x with
  | error f => exact .refl
  | ok r => exact hx.of_eq rfl

/-- **A mutator** that does not shrink the buffer leaves the memory behind the bytes as it is. -/
theorem apply_behind (hs : Stores p h this o xs data) (op : UniqueOp) (hop : op.minCapacity? = none) :
    KeepsBehind p h this (op.apply A h this).1 (op.apply A h this).2.1 := by
  cases op with
  | push value => exact settle_behind fun r hr => (push_adds A value r hr).behind
  | append other | extendFromSlice other => exact settle_behind fun r hr => (append_adds A other r hr).behind
  | extend iter => exact (extend_adds A iter).behind
  | resize newLen value => exact settle_behind (resize_behind A newLen value)
  | truncate len => exact .cut (Nat.min_le_right _ _)
  | clear => exact .cut (Nat.zero_le _)
  | reserve n => exact settle_behind fun r hr => (reserve_adds A n r hr).behind
  | reserveExact n =>
      exact settle_behind fun r hr => (reserveExact_adds A n r hr).behind
  | tryReserve n =>
      exact settleTry_behind fun _ _ hh hlen => RawAlignedBuffer.tryReserve_whole A hh hlen
  | tryReserveExact n =>
      exact settleTry_behind fun _ _ hh hlen => RawAlignedBuffer.tryReserveExact_whole A hh hlen
  | shrinkTo n | shrinkToFit => cases hop
  | indexMut start bytes => exact settle_behind (indexMut_behind hs start bytes)

/-- A shrink of the raw buffer to capacity `cap`. -/
theorem keeps_of_reserves {x : Except Fault (Heap × RawAlignedBuffer α)} {cap : Nat}
    (hh : Holds p h this.buf o data) (hx : Reserves p h this.buf o data cap x) :
    let e := UniqueOp.settle h this (do
      let (h, buf) ← x
      return (h, { this with buf }))
    ∃ o' data', Holds p e.1 e.2.1.buf o' data' ∧
      ∀ (i : Nat) (b : Option UInt8), i < cap → data[i]? = some b → data'[i]? = some b := by
  rcases hx with ⟨h', buf', rfl, hout⟩ | rfl | rfl
  · obtain ⟨o', data', hh', -, hkept⟩ := hout.takes hh
    exact ⟨o', data', hh', hkept⟩
  · exact ⟨o, data, hh, fun _ _ _ hb => hb⟩
  · exact ⟨o, data, hh, fun _ _ _ hb => hb⟩

/-- **A shrink** leaves the memory up to its capacity. -/
theorem shrink_keeps (hs : Stores p h this o xs data) {op : UniqueOp} {n : Nat}
    (hop : op.minCapacity? = some n) :
    ∃ o' data', Holds p (op.apply A h this).1 (op.apply A h this).2.1.buf o' data' ∧
      ∀ (i : Nat) (b : Option UInt8), i < max this.len n → data[i]? = some b → data'[i]? = some b := by
  have hle := hs.length_le
  have hlen := hs.length_eq
  have hcap := hs.capacity_eq
  cases hfrees : op.frees p this with
  | true =>
      -- the block is given up, so the capacity asked for was 0 and there is nothing to keep
      obtain ⟨b, blk, -, -, happ, -, rfl⟩ := apply_of_frees A hs op hfrees
      rw [happ]
      refine ⟨none, [], .empty _, ?_⟩
      intro i c hi
      cases op with
      | shrinkTo m =>
          cases hop
          simp only [UniqueOp.frees, decide_eq_true_eq] at hfrees
          omega
      | shrinkToFit =>
          cases hop
          simp only [List.length_nil] at hlen
          omega
      | _ => cases hop
  | false =>
      cases op with
      | shrinkTo m =>
          cases hop
          simp only [UniqueOp.frees, hcap, decide_eq_false_iff_not] at hfrees
          simp only [UniqueOp.apply, shrinkTo, hcap]
          by_cases hlt : n < data.length
          · rw [if_pos hlt]
            exact keeps_of_reserves hs.holds (RawAlignedBuffer.shrinkToFit_spec A hs.holds
              (show max this.len n ≤ data.length by omega) fun hz => absurd ⟨hlt, hz⟩ hfrees)
          · rw [if_neg hlt]
            exact ⟨o, data, hs.holds, fun _ _ _ hb => hb⟩
      | shrinkToFit =>
          cases hop
          simp only [UniqueOp.frees, hcap, decide_eq_false_iff_not] at hfrees
          simp only [UniqueOp.apply, shrinkToFit, hcap, Nat.max_zero]
          by_cases hlt : this.len < data.length
          · rw [if_pos hlt]
            exact keeps_of_reserves hs.holds (RawAlignedBuffer.shrinkToFit_spec A hs.holds
              (Nat.le_of_lt hlt) fun hz => absurd ⟨hlt, hz⟩ hfrees)
          · rw [if_neg hlt]
            exact ⟨o, data, hs.holds, fun _ _ _ hb => hb⟩
      | _ => cases hop

end UniqueAlignedBuffer

/-! ## The draft -/

/-- What a caller of the unsafe methods can know of a buffer: its length, the bytes of its memory that may be
    counted on, and the panics so far. -/
structure Draft where
  len : Nat
  known : Nat → Option UInt8
  panics : List Fault

namespace Draft

/-- A new buffer. -/
def new : Draft := ⟨0, fun _ => none, []⟩

/-- The bytes in front of the length. -/
def bytes (d : Draft) : List UInt8 := (List.range d.len).filterMap d.known

/-- The first `n` bytes may be counted on: what the safety section of `set_len` asks. -/
def Initialised (d : Draft) (n : Nat) : Prop := ∀ i < n, (d.known i).isSome

instance (d : Draft) (n : Nat) : Decidable (d.Initialised n) :=
  inferInstanceAs (Decidable (∀ i < n, (d.known i).isSome))

def write (d : Draft) (offset : Nat) (bs : List UInt8) : Draft :=
  { d with known := fun i => if offset ≤ i ∧ i < offset + bs.length then bs[i - offset]? else d.known i }

def setLen (d : Draft) (newLen : Nat) : Draft := { d with len := newLen }

/-- Memory given back from byte `n` on. -/
def upTo (d : Draft) (n : Nat) : Draft := { d with known := fun i => if i < n then d.known i else none }

/-- A safe mutator makes of the bytes what it makes of a list, and of the memory behind them nothing. -/
def call (d : Draft) (op : UniqueOp) : Draft :=
  let kept := (op.minCapacity?).elim d fun n => d.upTo (max d.len n)
  let new := (kept.write 0 (op.onList d.bytes).1).setLen (op.onList d.bytes).1.length
  { new with panics := d.panics ++ (op.onList d.bytes).2.toList }

/-- The memory holds every byte that may be counted on. -/
def Knows (d : Draft) (data : List (Option UInt8)) : Prop :=
  ∀ i b, d.known i = some b → data[i]? = some (some b)

variable {d : Draft} {data : List (Option UInt8)} {n : Nat}

theorem Initialised.map_bytes (hi : d.Initialised d.len) :
    d.bytes.map some = (List.range d.len).map d.known := by
  have hall : ∀ i ∈ List.range d.len, (d.known i).isSome := fun i hmem => hi i (List.mem_range.mp hmem)
  unfold bytes
  generalize List.range d.len = l at hall
  induction l with
  | nil => rfl
  | cons i l ih =>
      obtain ⟨hfirst, hrest⟩ := List.forall_mem_cons.mp hall
      obtain ⟨b, hb⟩ := Option.isSome_iff_exists.mp hfirst
      rw [List.filterMap_cons_some hb, List.map_cons, List.map_cons, hb, ih hrest]

theorem Initialised.length_bytes (hi : d.Initialised d.len) : d.bytes.length = d.len := by
  have hlen := congrArg List.length hi.map_bytes
  rw [List.length_map, List.length_map, List.length_range] at hlen
  exact hlen

theorem Initialised.getElem?_bytes (hi : d.Initialised d.len) {i : Nat} (hlt : i < d.len) :
    d.bytes[i]? = d.known i := by
  have hget : (d.bytes.map some)[i]? = ((List.range d.len).map d.known)[i]? := by rw [hi.map_bytes]
  rw [List.getElem?_map, List.getElem?_map, List.getElem?_range hlt] at hget
  cases hb : d.bytes[i]? with
  | none =>
      rw [hb] at hget
      cases hget
  | some b =>
      rw [hb] at hget
      exact Option.some.inj hget

/-- The bytes are in front of the memory. -/
theorem Knows.take_eq (hk : d.Knows data) (hi : d.Initialised d.len) :
    data.take d.bytes.length = d.bytes.map some := by
  refine List.ext_getElem? fun i => ?_
  rw [hi.length_bytes]
  by_cases hlt : i < d.len
  · obtain ⟨b, hb⟩ := Option.isSome_iff_exists.mp (hi i hlt)
    rw [List.getElem?_take_of_lt hlt, hk i b hb, List.getElem?_map, hi.getElem?_bytes hlt, hb]
    rfl
  · have hlen := hi.length_bytes
    rw [List.getElem?_eq_none (by simp; omega), List.getElem?_eq_none (by simp; omega)]

theorem Knows.le_length (hk : d.Knows data) (hi : d.Initialised n) : n ≤ data.length := by
  cases n with
  | zero => exact Nat.zero_le _
  | succ n =>
      obtain ⟨b, hb⟩ := Option.isSome_iff_exists.mp (hi n (Nat.lt_succ_self n))
      exact (List.getElem?_eq_some_iff.mp (hk n b hb)).1

/-- Bytes written stay initialised, and so do the others. -/
theorem Initialised.write (hi : d.Initialised n) (offset : Nat) (bs : List UInt8) :
    (d.write offset bs).Initialised n := by
  intro i hlt
  unfold Draft.write
  dsimp only
  split
  · next hin =>
      rw [List.getElem?_eq_getElem (show i - offset < bs.length by omega)]
      rfl
  · exact hi i hlt

theorem initialised_write (d : Draft) (bs : List UInt8) : (d.write 0 bs).Initialised bs.length := by
  intro i hlt
  unfold Draft.write
  dsimp only
  rw [if_pos (by omega), List.getElem?_eq_getElem (show i - 0 < bs.length by omega)]
  rfl

/-- A write into the memory and into the draft. -/
theorem Knows.write (hk : d.Knows data) {offset : Nat} {bs : List UInt8}
    (hroom : offset + bs.length ≤ data.length) : (d.write offset bs).Knows (Heap.splice data offset bs) := by
  intro i b hb
  rw [Heap.getElem?_splice hroom]
  unfold Draft.write at hb
  dsimp only at hb
  split at hb
  · next hin => rw [if_pos hin, hb, Option.map_some]
  · next hout => rw [if_neg hout, hk i b hb]

/-- Writing the bytes over themselves. -/
theorem Initialised.write_bytes (hi : d.Initialised d.len) : d.write 0 d.bytes = d := by
  have hknown : (d.write 0 d.bytes).known = d.known := by
    funext i
    unfold Draft.write
    dsimp only
    split
    · next hin =>
        rw [hi.length_bytes] at hin
        rw [Nat.sub_zero, hi.getElem?_bytes (by omega)]
    · rfl
  show { d with known := (d.write 0 d.bytes).known } = d
  rw [hknown]

end Draft

namespace UniqueAlignedBuffer

open RawAlignedBuffer (Holds)

variable {α : Type} {p : Params} {h h' : Heap} {this this' : UniqueAlignedBuffer α} {d : Draft}
  {o o' : Option BlockId} {ys : List UInt8} {data data' : List (Option UInt8)}

/-- The buffer is as the draft has it, with the memory `data`. -/
structure DrawnIn (p : Params) (h : Heap) (this : UniqueAlignedBuffer α) (o : Option BlockId)
    (data : List (Option UInt8)) (d : Draft) : Prop where
  holds : Holds p h this.buf o data
  len_eq : this.len = d.len
  initialised : d.Initialised d.len
  knows : d.Knows data

theorem DrawnIn.stores (hd : DrawnIn p h this o data d) : Stores p h this o d.bytes data :=
  ⟨hd.holds, hd.len_eq.trans hd.initialised.length_bytes.symm, hd.knows.take_eq hd.initialised⟩

/-- **A byte that may be counted on** can be read. -/
theorem DrawnIn.read (hd : DrawnIn p h this o data d) {i : Nat} {b : UInt8} (hb : d.known i = some b) :
    h.read p (this.asMutPtr.add i) 1 = .ok [b] := by
  have hdata := hd.knows i b hb
  refine hd.holds.read i [b] ?_
  obtain ⟨hlt, hget⟩ := List.getElem?_eq_some_iff.mp hdata
  rw [List.drop_eq_getElem_cons hlt, hget]
  rfl

/-- Bytes in front that the call made, and memory behind them that it left alone. -/
theorem DrawnIn.of_kept (hs : Stores p h' this' o' ys data')
    (hkept : ∀ i b, ys.length ≤ i → d.known i = some b → data'[i]? = some (some b)) (panics : List Fault) :
    DrawnIn p h' this' o' data' { (d.write 0 ys).setLen ys.length with panics } := by
  refine ⟨hs.holds, hs.length_eq, d.initialised_write ys, ?_⟩
  intro i b hb
  unfold Draft.setLen Draft.write at hb
  dsimp only at hb
  split at hb
  · next hin =>
      have htake : (data'.take ys.length)[i]? = (ys.map some)[i]? := by rw [hs.bytes]
      rw [List.getElem?_take_of_lt (by omega), List.getElem?_map, show ys[i]? = some b from hb] at htake
      exact htake
  · next hout => exact hkept i b (by omega) hb

variable (A : Allocator p.toTarget)

/-- How a mutator ends, a shrink to nothing included. -/
theorem apply_stores (hs : Stores p h this o ys data) (op : UniqueOp) :
    (∃ o' data', Stores p (op.apply A h this).1 (op.apply A h this).2.1 o' (op.onList ys).1 data' ∧
      (op.apply A h this).2.2 = (op.onList ys).2) ∨ OutOfRoom (op.apply A h this).2.2 := by
  cases hfrees : op.frees p this with
  | true =>
      obtain ⟨b, blk, -, -, happ, hlist, -⟩ := apply_of_frees A hs op hfrees
      rw [happ, hlist]
      exact Or.inl ⟨none, [], ⟨.empty _, rfl, rfl⟩, rfl⟩
  | false =>
      have hend := apply_spec A hs op hfrees
      generalize op.apply A h this = e at hend
      cases hend with
      | returned hl => exact Or.inl ⟨_, _, hl.stores, rfl⟩
      | reservation hl hf => exact Or.inr (hf.imp (congrArg some) (congrArg some))

/-- **A safe mutator** keeps the buffer as the draft has it. -/
theorem DrawnIn.call (hd : DrawnIn p h this o data d) (op : UniqueOp) :
    (∃ o' data', DrawnIn p (op.apply A h this).1 (op.apply A h this).2.1 o' data' (d.call op) ∧
      (op.apply A h this).2.2 = (op.onList d.bytes).2) ∨ OutOfRoom (op.apply A h this).2.2 := by
  rcases apply_stores A hd.stores op with ⟨o', data', hs', hanswer⟩ | hout
  · refine Or.inl ⟨o', data', ?_, hanswer⟩
    unfold Draft.call
    cases hop : op.minCapacity? with
    | none =>
        -- the memory of `apply_behind` and that of the result are one
        refine .of_kept hs' ?_ _
        intro i b hi hb
        obtain ⟨o₂, data₂, hh₂, -, hkept⟩ := apply_behind A hd.stores op hop o data hd.holds
          (hd.len_eq ▸ hd.knows.le_length hd.initialised)
        obtain rfl := hh₂.unique hs'.holds
        exact hkept i _ (by rw [hs'.length_eq]; exact hi) (hd.knows i b hb)
    | some n =>
        -- the draft forgets what the shrink may have given back
        refine .of_kept hs' ?_ _
        intro i b _ hb
        obtain ⟨o₂, data₂, hh₂, hkept⟩ := shrink_keeps A hd.stores hop
        obtain rfl := hh₂.unique hs'.holds
        unfold Draft.upTo at hb
        dsimp only [Option.elim] at hb
        split at hb
        · next hlt => exact hkept i _ (hd.len_eq ▸ hlt) (hd.knows i b hb)
        · cases hb
  · exact Or.inr hout

theorem chunkMut_adds : Returns (fun r => Adds p h this r.1 r.2.1) (this.chunkMut A h) := by
  have hroom : Returns (fun r => Adds p h this r.1 r.2)
      (if this.capacity p = this.len then this.reserve A h 64 else .ok (h, this)) :=
    .ite (reserve_adds A 64) (.ok .refl)
  exact hroom.bind fun _ ha => .ok ha

/-- **`chunk_mut`** opens its window and keeps the memory, also when it reallocates. -/
theorem DrawnIn.chunkMut (hd : DrawnIn p h this o data d) :
    (∃ h' this' o' data' dst, this.chunkMut A h = .ok (h', this', dst) ∧ Window p this' dst ∧
      DrawnIn p h' this' o' data' d) ∨
      ∃ f, this.chunkMut A h = .error f ∧ OutOfRoom (some f) := by
  rcases chunkMut_spec A hd.stores with ⟨h', this', o', data', dst, hr, hl, hwindow, -⟩ |
    ⟨f, hr, -, hf, -⟩
  · -- the call writes nothing, so the draft is the same one: its bytes written over themselves
    have hkept : KeepsBehind p h this h' this' := ((chunkMut_adds A).of_eq hr).behind
    have hlen := hd.initialised.length_bytes
    have hdrawn : DrawnIn p h' this' o' data'
        { (d.write 0 d.bytes).setLen d.bytes.length with panics := d.panics } := by
      refine .of_kept hl.stores ?_ _
      intro i b hi hb
      obtain ⟨o₂, data₂, hh₂, -, hkept⟩ := hkept o data hd.holds
        (hd.len_eq ▸ hd.knows.le_length hd.initialised)
      obtain rfl := hh₂.unique hl.stores.holds
      exact hkept i _ (by rw [hl.stores.length_eq]; exact hi) (hd.knows i b hb)
    rw [hd.initialised.write_bytes, hlen] at hdrawn
    exact Or.inl ⟨h', this', o', data', dst, hr, hwindow, hdrawn⟩
  · exact Or.inr ⟨f, hr, hf⟩

/-- **A write** inside the capacity, into the buffer and into the draft. -/
theorem DrawnIn.write (hd : DrawnIn p h this o data d) {offset : Nat} {bs : List UInt8}
    (hroom : offset + bs.length ≤ this.capacity p) :
    ∃ h', h.write p (this.asMutPtr.add offset) bs = .ok h' ∧
      DrawnIn p h' this o (Heap.splice data offset bs) (d.write offset bs) := by
  rw [hd.stores.capacity_eq] at hroom
  obtain ⟨h', hw, hh', -⟩ := hd.holds.write hroom
  exact ⟨h', hw, hh', hd.len_eq, hd.initialised.write offset bs, hd.knows.write hroom⟩

/-- Bytes that may be counted on are inside the capacity. -/
theorem DrawnIn.le_capacity (hd : DrawnIn p h this o data d) {n : Nat} (hi : d.Initialised n) :
    n ≤ this.capacity p := by
  rw [hd.stores.capacity_eq]
  exact hd.knows.le_length hi

/-- **The length set** to bytes that may be counted on. -/
theorem DrawnIn.setLen (hd : DrawnIn p h this o data d) {n : Nat} (hi : d.Initialised n) :
    this.setLen p n = .ok { this with len := n } ∧
      DrawnIn p h { this with len := n } o data (d.setLen n) := by
  refine ⟨?_, hd.holds, rfl, hi, hd.knows⟩
  unfold UniqueAlignedBuffer.setLen
  rw [Target.debugAssert_ok (hd.le_capacity hi)]
  rfl

theorem DrawnIn.advanceMut (hd : DrawnIn p h this o data d) {cnt : Nat} (hi : d.Initialised (d.len + cnt)) :
    this.advanceMut p cnt = .ok { this with len := d.len + cnt } := by
  have hle := hd.le_capacity hi
  rw [← hd.len_eq] at hle ⊢
  exact hd.stores.advanceMut_eq hle

end UniqueAlignedBuffer

/-! ## Sessions with unsafe calls -/

/-- The calls of a session that knows what it does, with what it does in between. -/
inductive RawOp where
  | safe (op : UniqueOp)
  /-- bytes written through `as_mut_ptr()`, `offset` behind the start -/
  | write (offset : Nat) (bytes : List UInt8)
  | setLen (newLen : Nat)
  /-- `chunk_mut`, and bytes written from the start of its window on -/
  | chunkMut (bytes : List UInt8)
  | advanceMut (cnt : Nat)
deriving DecidableEq, Repr

/-- A session, and the draft of its caller. -/
structure Drafting (α : Type) where
  session : Session α
  draft : Draft

namespace Drafting

open BufMutFault (lift OutOfRoom)

variable {α : Type} {p : Params} (A : Allocator p.toTarget)

def start (h : Heap) (alloc : α) (capacity : Nat) : Except BufMutFault (Drafting α) := do
  let session ← lift (Session.start A h alloc capacity)
  return ⟨session, .new⟩

/-- One call. A write outside the capacity or the window is not made, nor is a length set that shows bytes
    the draft does not know. -/
def step (s : Drafting α) : RawOp → Except BufMutFault (Drafting α)
  | .safe op => do
      let session ← lift (s.session.step A op)
      return ⟨session, s.draft.call op⟩
  | .write offset bytes =>
      if s.session.buffer.capacity p < offset + bytes.length then return s
      else do
        let heap ← lift (s.session.heap.write p (s.session.buffer.asMutPtr.add offset) bytes)
        return ⟨{ s.session with heap }, s.draft.write offset bytes⟩
  | .setLen newLen =>
      if s.draft.Initialised newLen then do
        let buffer ← lift (s.session.buffer.setLen p newLen)
        return ⟨{ s.session with buffer }, s.draft.setLen newLen⟩
      else return s
  | .chunkMut bytes => do
      let (heap, buffer, dst) ← lift (s.session.buffer.chunkMut A s.session.heap)
      if dst.len < bytes.length then return ⟨{ s.session with heap, buffer }, s.draft⟩
      else
        let heap ← lift (heap.write p dst.ptr bytes)
        return ⟨{ s.session with heap, buffer }, s.draft.write s.draft.len bytes⟩
  | .advanceMut cnt =>
      if s.draft.Initialised (s.draft.len + cnt) then do
        let buffer ← s.session.buffer.advanceMut p cnt
        return ⟨{ s.session with buffer }, s.draft.setLen (s.draft.len + cnt)⟩
      else return s

def runFrom (h : Heap) (alloc : α) (capacity : Nat) (ops : List RawOp) : Except BufMutFault (Drafting α) := do
  let s ← start A h alloc capacity
  run (step A) s ops

/-- The buffer is as the draft of its caller has it. -/
def Drawn (p : Params) (s : Drafting α) : Prop :=
  (∃ o data, UniqueAlignedBuffer.DrawnIn p s.session.heap s.session.buffer o data s.draft) ∧
    s.session.panics = s.draft.panics

/-- **One call** keeps the buffer as the draft has it. -/
theorem step_drawn (s : Drafting α) (op : RawOp) (hs : Drawn p s) :
    (∃ s', step A s op = .ok s' ∧ Drawn p s') ∨ ∃ f, step A s op = .error f ∧ OutOfRoom f := by
  obtain ⟨⟨o, data, hd⟩, hpanics⟩ := hs
  cases op with
  | safe op =>
      simp only [step, Session.step]
      have hcall := hd.call A op
      generalize op.apply A s.session.heap s.session.buffer = e at hcall
      obtain ⟨h', this', answer⟩ := e
      rcases hcall with ⟨o', data', hd', rfl⟩ | hout
      · cases hf : (op.onList s.draft.bytes).2 with
        | none => exact Or.inl ⟨_, rfl, ⟨o', data', hd'⟩, by simp [Draft.call, hf, hpanics]⟩
        | some f =>
            -- the panic is the caller's own and is caught; the session goes on
            dsimp only
            rw [if_pos (UniqueOp.onList_isCallers hf)]
            exact Or.inl ⟨_, rfl, ⟨o', data', hd'⟩, by simp [Draft.call, hf, hpanics]⟩
      · rcases hout with rfl | rfl
        · exact Or.inr ⟨_, rfl, Or.inl rfl⟩
        · exact Or.inr ⟨_, rfl, Or.inr rfl⟩
  | write offset bytes =>
      simp only [step]
      by_cases hout : s.session.buffer.capacity p < offset + bytes.length
      · rw [if_pos hout]
        exact Or.inl ⟨s, rfl, ⟨o, data, hd⟩, hpanics⟩
      · rw [if_neg hout]
        obtain ⟨h', hw, hd'⟩ := hd.write (Nat.le_of_not_lt hout)
        rw [hw]
        exact Or.inl ⟨_, rfl, ⟨o, _, hd'⟩, hpanics⟩
  | setLen newLen =>
      simp only [step]
      by_cases hi : s.draft.Initialised newLen
      · obtain ⟨hlen, hd'⟩ := hd.setLen hi
        rw [if_pos hi, hlen]
        exact Or.inl ⟨_, rfl, ⟨o, data, hd'⟩, hpanics⟩
      · rw [if_neg hi]
        exact Or.inl ⟨s, rfl, ⟨o, data, hd⟩, hpanics⟩
  | chunkMut bytes =>
      simp only [step]
      rcases hd.chunkMut A with ⟨h', this', o', data', dst, hr, hwindow, hd'⟩ | ⟨f, hr, hf⟩
      · rw [hr, BufMutFault.lift_ok, ok_bind]
        dsimp only
        by_cases hlt : dst.len < bytes.length
        · rw [if_pos hlt]
          exact Or.inl ⟨_, rfl, ⟨o', data', hd'⟩, hpanics⟩
        · -- the window is the spare capacity, from the length on
          have hends := hwindow.ends
          obtain ⟨h₂, hw, hd₂⟩ := hd'.write (show this'.len + bytes.length ≤ this'.capacity p by omega)
          rw [if_neg hlt, hwindow.starts, hw]
          rw [hd'.len_eq] at hd₂
          exact Or.inl ⟨_, rfl, ⟨o', _, hd₂⟩, hpanics⟩
      · rw [hr]
        exact Or.inr ⟨_, rfl, hf⟩
  | advanceMut cnt =>
      simp only [step]
      by_cases hi : s.draft.Initialised (s.draft.len + cnt)
      · rw [if_pos hi, hd.advanceMut hi]
        exact Or.inl ⟨_, rfl, ⟨o, data, (hd.setLen hi).2⟩, hpanics⟩
      · rw [if_neg hi]
        exact Or.inl ⟨s, rfl, ⟨o, data, hd⟩, hpanics⟩

theorem runFrom_drawn (h : Heap) (alloc : α) (capacity : Nat) (ops : List RawOp) :
    (∃ s, runFrom A h alloc capacity ops = .ok s ∧ Drawn p s) ∨
      ∃ f, runFrom A h alloc capacity ops = .error f ∧ OutOfRoom f := by
  unfold runFrom start Session.start
  rcases UniqueAlignedBuffer.withCapacityIn_spec A alloc h capacity with
    ⟨h', this', o', data', hr, hl, -⟩ | hr | hr
  · rw [hr]
    refine run_rule (Drawn p) OutOfRoom (step_drawn A) ops _ ⟨⟨o', data', ?_⟩, rfl⟩
    exact ⟨hl.stores.holds, hl.stores.length_eq, fun i hi => absurd hi (Nat.not_lt_zero i), nofun⟩
  · rw [hr]
    exact Or.inr ⟨_, rfl, Or.inl rfl⟩
  · rw [hr]
    exact Or.inr ⟨_, rfl, Or.inr rfl⟩

/-- **A draft is the buffer.** Let a caller mix the safe mutators with writes through `as_mut_ptr` and the
    windows of `chunk_mut`, and set the length only over bytes that it wrote there, or that the buffer once
    showed and was not shrunk below since. Whatever the allocator answers, no assertion of `set_len` or
    `advance_mut` fails and no memory is touched out of bounds or read uninitialised: a call either returns,
    or panics as it would on a list, or is a reservation that gives up. The buffer shows the bytes of the
    draft, and every byte that the draft knows behind them is inside the capacity and can be read there. -/
theorem drafts_are_the_buffer (h : Heap) (alloc : α) (capacity : Nat) (ops : List RawOp) :
    match runFrom A h alloc capacity ops with
    | .ok s =>
        s.session.buffer.asSlice p s.session.heap = .ok s.draft.bytes ∧
          s.session.panics = s.draft.panics ∧ s.session.buffer.WellFormed p s.session.heap ∧
          ∀ i b, s.draft.known i = some b → i < s.session.buffer.capacity p ∧
            s.session.heap.read p (s.session.buffer.asMutPtr.add i) 1 = .ok [b]
    | .error f => OutOfRoom f := by
  rcases runFrom_drawn A h alloc capacity ops with ⟨s, hr, ⟨o, data, hd⟩, hpanics⟩ | ⟨f, hr, hf⟩
  · rw [hr]
    refine ⟨hd.stores.asSlice_eq, hpanics, Session.wellFormed_of_stores hd.stores, ?_⟩
    intro i b hb
    refine ⟨?_, hd.read hb⟩
    rw [hd.stores.capacity_eq]
    exact (List.getElem?_eq_some_iff.mp (hd.knows i b hb)).1
  · rw [hr]
    exact hf

/-- Bytes written ahead, shown, cut off and shown again. -/
example : ((((Draft.new.write 0 [1, 2, 3]).setLen 3).call (.truncate 1)).setLen 3).bytes = [1, 2, 3] := by
  decide

end Drafting

end RkyvUtils
