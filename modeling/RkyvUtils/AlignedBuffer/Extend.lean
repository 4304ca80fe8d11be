import RkyvUtils.AlignedBuffer.Room
import RkyvUtils.AlignedBuffer.SharedSpec

/-!
# `AlignedBuffer.Extend` — `extend` and `from_iter`, call of `next()` by call

`extend` of `AlignedBuffer.Unique` once more, with the calls of `next()` counted, for an iterator that may
go on for ever; and `from_iter`. The loops see the answers of the iterator as a list; a list as long as
the address space is never used up, since every item but the last has been stored by then.
-/

namespace RkyvUtils

open Word Ownership

/-- An iterator of bytes: the lower bound of its `size_hint`, and what its `k`-th call of `next()` does,
    for every `k`. After a `None` or a panic it may do anything. -/
structure Source where
  lower : Nat
  answer : Nat → Next

/-- The first `n` answers. -/
def Source.upTo (it : Source) (n : Nat) : ByteIter := ⟨it.lower, (List.range n).map it.answer⟩

/-- The items among them, in front of the first `None` or panic. -/
def Source.items (it : Source) (n : Nat) : List UInt8 := Next.bytes (it.upTo n).nexts

/-- The calls of `next()` of a loop that stops at the first `None` or panic. -/
def Next.polls : List Next → Nat
  | .some _ :: nexts => polls nexts + 1
  | _ => 1

/-- The calls that are still to come after the loop over the free capacity. -/
def UniqueAlignedBuffer.FillEnd.polls : UniqueAlignedBuffer.FillEnd → Nat
  | .full nexts => Next.polls nexts
  | .ended | .panicked => 0

theorem Next.polls_eq (nexts : List Next) : Next.polls nexts = (Next.bytes nexts).length + 1 := by
  induction nexts with
  | nil => rfl
  | cons next nexts ih =>
      cases next with
      | some byte => simp [polls, bytes, ih]
      | none | panic => rfl

/-- The items are the answers in front of the first `None` or panic. -/
theorem Next.getElem?_bytes {nexts : List Next} {k : Nat} (hk : k < (Next.bytes nexts).length) :
    nexts[k]? = Option.some (.some (Next.bytes nexts)[k]) := by
  induction nexts generalizing k with
  | nil => exact absurd hk (Nat.not_lt_zero k)
  | cons next nexts ih =>
      cases next with
      | some byte =>
          cases k with
          | zero => rfl
          | succ k => exact ih (Nat.lt_of_succ_lt_succ hk)
      | none | panic => exact absurd hk (Nat.not_lt_zero k)

/-- The answer behind the items. -/
theorem Next.getElem?_stop {nexts : List Next} (hlt : (Next.bytes nexts).length < nexts.length) :
    nexts[(Next.bytes nexts).length]? =
      Option.some (if Next.panics nexts then .panic else .none) := by
  induction nexts with
  | nil => exact absurd hlt (Nat.lt_irrefl 0)
  | cons next nexts ih =>
      cases next with
      | some byte => exact ih (Nat.lt_of_succ_lt_succ hlt)
      | none | panic => rfl

theorem Source.answer_eq {it : Source} {n k : Nat} {next : Next}
    (hk : (it.upTo n).nexts[k]? = some next) : it.answer k = next := by
  simp only [upTo, List.getElem?_map, Option.map_eq_some_iff] at hk
  obtain ⟨j, hj, rfl⟩ := hk
  rw [(List.getElem?_eq_some_iff.mp hj).2.symm, List.getElem_range]

namespace UniqueAlignedBuffer

variable {α : Type} {p : Params} (A : Allocator p.toTarget)

/-! ## The loops, counting -/

variable (p) in
/-- `fill`, after `polls` calls of `next()`. -/
def fillPolled (h : Heap) (ptr : Ptr) (localLen polls : Nat) :
    Nat → List Next → Except Fault (Heap × Nat × FillEnd × Nat)
  | 0, nexts => return (h, localLen, .full nexts, polls)
  | _ + 1, [] => return (h, localLen, .ended, polls + 1)
  | _ + 1, .none :: _ => return (h, localLen, .ended, polls + 1)
  | _ + 1, .panic :: _ => return (h, localLen, .panicked, polls + 1)
  | free + 1, .some byte :: nexts => do
      let h ← h.write p ptr [byte]
      fillPolled h (ptr.add 1) (localLen + 1) (polls + 1) free nexts

/-- `pushAll`, after `polls` calls of `next()`. -/
def pushAllPolled (h : Heap) (this : UniqueAlignedBuffer α) (polls : Nat) : List Next → Ended α × Nat
  | [] => ((h, this, none), polls + 1)
  | .none :: _ => ((h, this, none), polls + 1)
  | .panic :: _ => ((h, this, some .iteratorPanic), polls + 1)
  | .some byte :: nexts =>
      match this.push A h byte with
      | .error f => ((h, this, some f), polls + 1)
      | .ok (h, this) => pushAllPolled h this (polls + 1) nexts

/-- `extend`, and the number of calls of `next()`. -/
def extendPolled (h : Heap) (this : UniqueAlignedBuffer α) (iter : ByteIter) : Ended α × Nat :=
  match this.reserve A h iter.lower with
  | .error f => ((h, this, some f), 0)
  | .ok (h, this) =>
      let free := wrappingSub p.bits (this.capacity p) this.len
      match fillPolled p h (this.asMutPtr.add this.len) this.len 0 free iter.nexts with
      | .error f => ((h, this, some f), 0)
      | .ok (h, len, .ended, polls) => ((h, { this with len }, none), polls)
      | .ok (h, len, .panicked, polls) => ((h, { this with len }, some .iteratorPanic), polls)
      | .ok (h, len, .full nexts, polls) => pushAllPolled A h { this with len } polls nexts

variable (p) in
/-- The end of a function that returns the buffer: a panic unwinds and drops it, an abort does not. -/
def dropOnUnwind : Ended α → Heap × Except Fault (UniqueAlignedBuffer α)
  | (h, buf, none) => (h, .ok buf)
  | (h, buf, some f) =>
      if f.unwinds then
        match buf.buf.drop p h with
        | .error f' => (h, .error f')
        | .ok h => (h, .error f)
      else (h, .error f)

/-- `from_iter`, and the number of calls of `next()`. -/
def fromIter (h : Heap) (alloc : α) (iter : ByteIter) :
    (Heap × Except Fault (UniqueAlignedBuffer α)) × Nat :=
  match withCapacityIn A h iter.lower alloc with
  | .error f => ((h, .error f), 0)
  | .ok (h, buf) =>
      let (ended, polls) := buf.extendPolled A h iter
      (dropOnUnwind p ended, polls)

/-! ## Counting changes nothing -/

variable {h : Heap} {this : UniqueAlignedBuffer α} {o : Option BlockId} {xs : List UInt8}
  {data : List (Option UInt8)}

/-- The counter of the loop over the free capacity, and the result without it. -/
theorem fillPolled_eq (ptr : Ptr) (localLen polls free : Nat) (nexts : List Next) :
    match fillPolled p h ptr localLen polls free nexts with
    | .error f => fill p h ptr localLen free nexts = .error f
    | .ok (h', len, done, n) =>
        fill p h ptr localLen free nexts = .ok (h', len, done) ∧
          n + done.polls = polls + Next.polls nexts := by
  induction free generalizing h ptr localLen polls nexts with
  | zero => exact ⟨rfl, rfl⟩
  | succ free ih =>
      match nexts with
      | [] | .none :: _ | .panic :: _ => exact ⟨rfl, rfl⟩
      | .some byte :: nexts =>
          unfold fillPolled fill
          cases hw : h.write p ptr [byte] with
          | error f => rfl
          | ok h₁ =>
              simp only [ok_bind]
              have hrest := ih (h := h₁) (ptr.add 1) (localLen + 1) (polls + 1) nexts
              cases hr : fillPolled p h₁ (ptr.add 1) (localLen + 1) (polls + 1) free nexts with
              | error f => rw [hr] at hrest; exact hrest
              | ok r =>
                  rw [hr] at hrest
                  refine ⟨hrest.1, ?_⟩
                  rw [hrest.2, Next.polls]
                  omega

/-- A reservation gave up. -/
def OutOfRoom (e : Option Fault) : Prop := e = some .capacityOverflow ∨ e = some .allocError

/-- A reservation of the buffer is refused: it asks for room that is not there, and gives up. -/
def Refuses (h : Heap) (this : UniqueAlignedBuffer α) (f : Fault) : Prop :=
  OutOfRoom (some f) ∧
    ∃ additional, this.capacity p < this.len + additional ∧ this.reserve A h additional = .error f

/-- A call ended at a reservation of the buffer it leaves. -/
def Refused (e : Ended α) : Prop := ∃ f, e.2.2 = some f ∧ Refuses A e.1 e.2.1 f

theorem not_outOfRoom_none : ¬OutOfRoom none := by
  rintro (h | h) <;> cases h

theorem not_outOfRoom_panic : ¬OutOfRoom (some .iteratorPanic) := by
  rintro (h | h) <;> cases h

/-- A call that settles leads to a buffer with the bytes and the room, or ran out of room. -/
theorem Settles.leads {ys : List UInt8} {cap : Nat} {r : Except Fault (Heap × UniqueAlignedBuffer α)}
    (hr : Settles p h this o ys cap r) :
    (∃ h' this' o' data', r = .ok (h', this') ∧ Leads p h this o ys h' this' o' data' ∧
      cap ≤ data'.length) ∨ ∃ f, r = .error f ∧ OutOfRoom (some f) := by
  rcases hr with hr | hr | hr
  · exact Or.inl hr
  · exact Or.inr ⟨_, hr, Or.inl rfl⟩
  · exact Or.inr ⟨_, hr, Or.inr rfl⟩

/-- A reservation that fails is refused. -/
theorem Stores.refuses (hs : Stores p h this o xs data) {additional : Nat} {f : Fault}
    (hr : this.reserve A h additional = .error f) : Refuses A h this f := by
  have hlen := hs.length_eq
  refine ⟨?_, additional, ?_, hr⟩
  · rcases (reserve_spec A hs additional).leads with ⟨_, _, _, _, hok, -⟩ | ⟨f', hf, hout⟩
    · rw [hr] at hok
      cases hok
    · rw [hr] at hf
      cases hf
      exact hout
  · by_contra hroom
    rw [hs.capacity_eq] at hroom
    rw [reserve_room A hs (by omega)] at hr
    cases hr

/-- A reservation leaves the room asked for, and none less than there was; or it is refused. -/
theorem Stores.reserve_cases (hs : Stores p h this o xs data) (additional : Nat) :
    (∃ h' this' o' data', this.reserve A h additional = .ok (h', this') ∧
      Leads p h this o xs h' this' o' data' ∧ xs.length + additional ≤ data'.length ∧
      data.length ≤ data'.length) ∨
    ∃ f, this.reserve A h additional = .error f ∧ this.capacity p < this.len + additional ∧
      Refuses A h this f := by
  have hlen := hs.length_eq
  by_cases hroom : xs.length + additional ≤ data.length
  · exact Or.inl ⟨h, this, o, data, reserve_room A hs hroom, .refl hs, hroom, Nat.le_refl _⟩
  · rcases (reserve_spec A hs additional).leads with ⟨h', this', o', data', hr, hl, hcap⟩ | ⟨f, hr, -⟩
    · exact Or.inl ⟨h', this', o', data', hr, hl, hcap, by omega⟩
    · refine Or.inr ⟨f, hr, ?_, hs.refuses A hr⟩
      rw [hs.capacity_eq]
      omega

/-- **`push`** fails where its reservation does. -/
theorem Stores.push_refuses (hs : Stores p h this o xs data) {value : UInt8} {f : Fault}
    (hp : this.push A h value = .error f) : Refuses A h this f := by
  have hlen := hs.length_eq
  have hle := hs.length_le
  by_cases hfull : this.len = this.capacity p
  · unfold push at hp
    rw [if_pos hfull] at hp
    rcases (reserve_spec A hs 1).leads with ⟨h₁, this₁, o₁, data₁, hr, hl, hcap⟩ | ⟨f', hr, -⟩
    · -- behind the reservation there is nothing left that can fail
      obtain ⟨h₂, data₂, hw, -, -⟩ := hl.stores.write_end [value] (by simpa using hcap)
      rw [hr, ok_bind] at hp
      dsimp only at hp
      rw [hw] at hp
      cases hp
    · rw [hr] at hp
      cases hp
      exact hs.refuses A hr
  · rw [hs.capacity_eq] at hfull
    obtain ⟨h', data', hok, -⟩ := push_room hs value (by omega)
    rw [hok A] at hp
    cases hp

/-- **The loop of pushes** ends out of room at a push whose reservation is refused. -/
theorem Stores.pushAll_refused (hs : Stores p h this o xs data) {nexts : List Next}
    (hout : OutOfRoom (pushAll A h this nexts).2.2) : Refused A (pushAll A h this nexts) := by
  induction nexts generalizing h this o xs data with
  | nil => exact absurd hout not_outOfRoom_none
  | cons next nexts ih =>
      cases next with
      | none => exact absurd hout not_outOfRoom_none
      | panic => exact absurd hout not_outOfRoom_panic
      | some byte =>
          unfold pushAll at hout ⊢
          rcases (push_spec A hs byte).leads with ⟨h', this', o', data', hp, hl, -⟩ | ⟨f, hp, -⟩
          · rw [hp] at hout ⊢
            exact ih hl.stores hout
          · rw [hp]
            exact ⟨f, rfl, hs.push_refuses A hp⟩

/-- What `extend` does behind the loop over the free capacity. -/
def FillEnd.resume (h : Heap) (this : UniqueAlignedBuffer α) (polls : Nat) : FillEnd → Ended α × Nat
  | .ended => ((h, this, none), polls)
  | .panicked => ((h, this, some .iteratorPanic), polls)
  | .full nexts => pushAllPolled A h this polls nexts

/-- **The loop over the free capacity and what follows** are one loop of pushes. -/
theorem fillPolled_pushes (hs : Stores p h this o xs data) (polls free : Nat) (nexts : List Next)
    (hroom : xs.length + free ≤ data.length) :
    ∃ h' len done n, fillPolled p h (this.asMutPtr.add this.len) this.len polls free nexts
        = .ok (h', len, done, n) ∧
      done.resume A h' { this with len } n = pushAllPolled A h this polls nexts := by
  -- the first loop counts the free capacity down; the iterator may end before it does
  induction free generalizing h this xs data polls nexts with
  | zero => exact ⟨h, _, .full nexts, polls, rfl, rfl⟩
  | succ free ih =>
      match nexts with
      | [] | .none :: _ => exact ⟨h, _, .ended, polls + 1, rfl, rfl⟩
      | .panic :: _ => exact ⟨h, _, .panicked, polls + 1, rfl, rfl⟩
      | .some byte :: nexts =>
          obtain ⟨h₁, data₁, hw, hl, hlen⟩ := hs.write_end [byte] (by simp; omega)
          have hfull : this.len ≠ this.capacity p := by
            rw [hs.length_eq, hs.capacity_eq]
            omega
          have hp : this.push A h byte = .ok (h₁, { this with len := this.len + 1 }) := by
            unfold push
            rw [if_neg hfull, ok_bind]
            dsimp only
            rw [hw]
            rfl
          obtain ⟨h₂, len, done, n, hf, hrest⟩ := ih hl.stores (polls + 1) nexts (by simp; omega)
          refine ⟨h₂, len, done, n, ?_, ?_⟩
          · unfold fillPolled
            rw [hw]
            exact hf
          · conv_rhs => unfold pushAllPolled
            rw [hp]
            exact hrest

/-- **`extend` is its reservation and then the pushes one by one**, calls of `next()` and all. -/
theorem extendPolled_pushes (hs : Stores p h this o xs data) (iter : ByteIter) :
    this.extendPolled A h iter =
      match this.reserve A h iter.lower with
      | .error f => ((h, this, some f), 0)
      | .ok (h, this) => pushAllPolled A h this 0 iter.nexts := by
  unfold extendPolled
  rcases (reserve_spec A hs iter.lower).leads with ⟨h₁, this₁, o₁, data₁, hr, hl, -⟩ | ⟨f, hr, -⟩
  · have hle := hl.stores.length_le
    obtain ⟨h₂, len, done, n, hf, hrest⟩ :=
      fillPolled_pushes A hl.stores 0 (data₁.length - xs.length) iter.nexts (by omega)
    rw [hr]
    dsimp only
    rw [hl.stores.free_eq, hf, ← hrest]
    cases done <;> rfl
  · rw [hr]

/-- The counter of the loop of pushes, where no reservation gives up. -/
theorem pushAllPolled_eq (hs : Stores p h this o xs data) (polls : Nat) (nexts : List Next) :
    (pushAllPolled A h this polls nexts).1 = pushAll A h this nexts ∧
      ((pushAllPolled A h this polls nexts).2 = polls + Next.polls nexts ∨
        OutOfRoom (pushAll A h this nexts).2.2) := by
  induction nexts generalizing h this o xs data polls with
  | nil => exact ⟨rfl, .inl rfl⟩
  | cons next nexts ih =>
      cases next with
      | none | panic => exact ⟨rfl, .inl rfl⟩
      | some byte =>
          unfold pushAllPolled pushAll
          rcases (push_spec A hs byte).leads with ⟨h', this', o', data', hp, hl, -⟩ | ⟨f, hp, hf⟩
          · rw [hp]
            obtain ⟨heq, hcount⟩ := ih hl.stores (polls + 1)
            refine ⟨heq, ?_⟩
            rcases hcount with hcount | hout
            · left
              rw [Next.polls]
              dsimp only
              omega
            · exact .inr hout
          · rw [hp]; exact ⟨rfl, .inr hf⟩

/-- **`extend` asks for one answer more than it stores**, unless a reservation gives up. -/
theorem extendPolled_eq (hs : Stores p h this o xs data) (iter : ByteIter) :
    (this.extendPolled A h iter).1 = this.extend A h iter ∧
      ((this.extendPolled A h iter).2 = Next.polls iter.nexts ∨ OutOfRoom (this.extend A h iter).2.2) := by
  unfold extendPolled extend
  rcases (reserve_spec A hs iter.lower).leads with ⟨h₁, this₁, o₁, data₁, hr, hl, hcap⟩ | ⟨f, hr, hf⟩
  · rw [hr]
    have hs₁ := hl.stores
    dsimp only
    rw [hs₁.free_eq]
    obtain ⟨h₂, len, data₂, ys, done, hf, hl₂, -⟩ :=
      fill_spec hs₁ (data₁.length - xs.length) iter.nexts (by have := hs₁.length_le; omega)
    have hpolled := fillPolled_eq (p := p) (h := h₁) (this₁.asMutPtr.add this₁.len) this₁.len 0
      (data₁.length - xs.length) iter.nexts
    cases hr' : fillPolled p h₁ (this₁.asMutPtr.add this₁.len) this₁.len 0 (data₁.length - xs.length)
        iter.nexts with
    | error f => rw [hr', hf] at hpolled; cases hpolled
    | ok r =>
        obtain ⟨h₃, len', done', n⟩ := r
        rw [hr'] at hpolled
        obtain ⟨hsame, hcount⟩ := hpolled
        rw [hf] at hsame
        cases hsame
        rw [hf]
        cases done with
        | full nexts =>
            obtain ⟨heq, hrest⟩ := pushAllPolled_eq A hl₂.stores n nexts
            refine ⟨heq, ?_⟩
            rcases hrest with hrest | hout
            · left
              simp only [FillEnd.polls] at hcount
              dsimp only
              omega
            · exact .inr hout
        | ended | panicked =>
            refine ⟨rfl, .inl ?_⟩
            simpa [FillEnd.polls] using hcount
  · rw [hr]; exact ⟨rfl, .inr hf⟩

/-! ## What an iterator leaves in the buffer -/

/-- A buffer with the bytes `xs` got the items of the iterator up to its first `None` or panic: in order,
    behind the old bytes, inside the capacity, with the length counting them and no call of `next()`
    after the one that stopped. -/
structure Appended (p : Params) (xs : List UInt8) (it : Source) (items : List UInt8) (e : Ended α)
    (polls : Nat) : Prop where
  yielded : ∀ (k : Nat) (hk : k < items.length), it.answer k = .some items[k]
  stopped : it.answer items.length = .none ∧ e.2.2 = none ∨
    it.answer items.length = .panic ∧ e.2.2 = some .iteratorPanic
  polls_eq : polls = items.length + 1
  bytes : e.2.1.asSlice p e.1 = .ok (xs ++ items)
  len_eq : e.2.1.len = xs.length + items.length
  inside : e.2.1.len ≤ e.2.1.capacity p

variable (it : Source) {n : Nat}

/-- A buffer that stores all that `n` answers give has met the end of the iterator among them. -/
theorem Stores.appended {h' : Heap} {this' : UniqueAlignedBuffer α} {o' : Option BlockId}
    {data' : List (Option UInt8)} (hn : p.half ≤ n)
    (hs' : Stores p h' this' o' (xs ++ Next.bytes (it.upTo n).nexts) data') :
    Appended p xs it (Next.bytes (it.upTo n).nexts)
      (h', this', if Next.panics (it.upTo n).nexts then some .iteratorPanic else none)
      (Next.polls (it.upTo n).nexts) := by
  have hle := hs'.length_le
  have hlt := hs'.holds.length_lt
  have hlen := hs'.length_eq
  rw [List.length_append] at hle hlen
  have hcalls : (it.upTo n).nexts.length = n := by simp [Source.upTo]
  have hmore : (Next.bytes (it.upTo n).nexts).length < (it.upTo n).nexts.length := by omega
  have hstop := Source.answer_eq (Next.getElem?_stop hmore)
  exact
    { yielded := fun k hk => Source.answer_eq (Next.getElem?_bytes hk)
      stopped := by
        rw [hstop]
        cases Next.panics (it.upTo n).nexts with
        | true => exact .inr ⟨rfl, rfl⟩
        | false => exact .inl ⟨rfl, rfl⟩
      polls_eq := Next.polls_eq _
      bytes := hs'.asSlice_eq
      len_eq := hlen
      inside := by rw [hs'.capacity_eq]; dsimp only; omega }

theorem Ends.appended {e : Ended α} (hn : p.half ≤ n)
    (he : Ends p h this o (UniqueOp.onList xs (.extend (it.upTo n))) e) :
    OutOfRoom e.2.2 ∨ Appended p xs it (it.items n) e (Next.polls (it.upTo n).nexts) := by
  cases he with
  | returned hl => exact .inr (hl.stores.appended it hn)
  | reservation hl hf =>
      left
      rcases hf with rfl | rfl
      · exact .inl rfl
      · exact .inr rfl

/-- `extend` ends out of room at a reservation that is refused: its own, or the one of a push. -/
theorem Stores.extend_refused (hs : Stores p h this o xs data) {iter : ByteIter}
    (hout : OutOfRoom (this.extend A h iter).2.2) : Refused A (this.extend A h iter) := by
  rw [← (extendPolled_eq A hs iter).1, extendPolled_pushes A hs iter] at hout ⊢
  rcases (reserve_spec A hs iter.lower).leads with ⟨h₁, this₁, o₁, data₁, hr, hl, -⟩ | ⟨f, hr, -⟩
  · rw [hr] at hout ⊢
    dsimp only at hout ⊢
    rw [(pushAllPolled_eq A hl.stores 0 iter.nexts).1] at hout ⊢
    exact hl.stores.pushAll_refused A hout
  · rw [hr]
    exact ⟨f, rfl, hs.refuses A hr⟩

theorem not_outOfRoom_extend (xs : List UInt8) (iter : ByteIter) :
    ¬OutOfRoom (UniqueOp.onList xs (.extend iter)).2 := by
  simp only [UniqueOp.onList]
  split
  · exact not_outOfRoom_panic
  · exact not_outOfRoom_none

/-- **`extend`** leaves what the iterator gives, unless a reservation is refused. -/
theorem Stores.extend_appends (hs : Stores p h this o xs data) (hn : p.half ≤ n) :
    Refused A (this.extend A h (it.upTo n)) ∨
      Appended p xs it (it.items n) (this.extend A h (it.upTo n))
        (this.extendPolled A h (it.upTo n)).2 := by
  obtain ⟨-, hcount | hout⟩ := extendPolled_eq A hs (it.upTo n)
  · rw [hcount]
    exact ((extend_spec A hs (it.upTo n)).appended it hn).imp_left (hs.extend_refused A)
  · exact .inl (hs.extend_refused A hout)

/-- A hint of one byte, two bytes yielded, a third one left behind the `None`. -/
example : (extendPolled (.bump (Params.x86_64 true).toTarget) Heap.empty (newIn ())
    ⟨1, [.some 7, .some 8, .none, .some 9]⟩).2 = 3 := by decide

/-- Pushing the items one by one leaves the same. -/
theorem Stores.pushAll_appends (hs : Stores p h this o xs data) (hn : p.half ≤ n) :
    Refused A (pushAll A h this (it.upTo n).nexts) ∨
      Appended p xs it (it.items n) (pushAll A h this (it.upTo n).nexts)
        (pushAllPolled A h this 0 (it.upTo n).nexts).2 := by
  obtain ⟨-, hcount | hout⟩ := pushAllPolled_eq A hs 0 (it.upTo n).nexts
  · rw [hcount, Nat.zero_add]
    exact ((pushAll_spec A hs (it.upTo n).nexts).appended it hn).imp_left (hs.pushAll_refused A)
  · exact .inl (hs.pushAll_refused A hout)

/-- With room for the lower bound and for the items, no reservation of `extend` can be refused. -/
theorem Stores.extend_fits (hs : Stores p h this o xs data)
    (hroom : xs.length + max it.lower (it.items n).length ≤ this.capacity p) :
    ¬OutOfRoom (this.extend A h (it.upTo n)).2.2 := by
  rw [hs.capacity_eq] at hroom
  obtain ⟨h', this', data', he, -⟩ := extend_room hs (it.upTo n)
    (show xs.length + it.lower ≤ data.length by omega)
    (show xs.length + (it.items n).length ≤ data.length by omega)
  rw [show this.extend A h (it.upTo n) = _ from he A]
  exact not_outOfRoom_extend xs (it.upTo n)

/-- Nor can one of pushing the items one by one. -/
theorem Stores.pushAll_fits (hs : Stores p h this o xs data)
    (hroom : xs.length + (it.items n).length ≤ this.capacity p) :
    ¬OutOfRoom (pushAll A h this (it.upTo n).nexts).2.2 := by
  rw [hs.capacity_eq] at hroom
  obtain ⟨h', this', data', he, -⟩ := pushAll_room hs (it.upTo n).nexts hroom
  rw [show pushAll A h this (it.upTo n).nexts = _ from he A]
  exact not_outOfRoom_extend xs (it.upTo n)

/-- **How `extend` ends**, from the bytes `xs`, with `n` answers of the iterator. -/
structure Extends (h : Heap) (this : UniqueAlignedBuffer α) (xs : List UInt8) (it : Source) (n : Nat) :
    Prop where
  /-- counting the calls of `next()` changes nothing -/
  counted : (this.extendPolled A h (it.upTo n)).1 = this.extend A h (it.upTo n)
  /-- it is the reservation for the lower bound and then a push for each item, also where they fail -/
  pushes : this.extendPolled A h (it.upTo n) =
    match this.reserve A h it.lower with
    | .error f => ((h, this, some f), 0)
    | .ok (h, this) => pushAllPolled A h this 0 (it.upTo n).nexts
  /-- the items are there, unless a reservation is refused -/
  appends : Refused A (this.extend A h (it.upTo n)) ∨
    Appended p xs it (it.items n) (this.extend A h (it.upTo n)) (this.extendPolled A h (it.upTo n)).2
  /-- the same for pushing them one by one -/
  pushed : Refused A (pushAll A h this (it.upTo n).nexts) ∨
    Appended p xs it (it.items n) (pushAll A h this (it.upTo n).nexts)
      (pushAllPolled A h this 0 (it.upTo n).nexts).2
  /-- and with room for the lower bound and the items none is -/
  fits : xs.length + max it.lower (it.items n).length ≤ this.capacity p →
    Appended p xs it (it.items n) (this.extend A h (it.upTo n)) (this.extendPolled A h (it.upTo n)).2 ∧
      Appended p xs it (it.items n) (pushAll A h this (it.upTo n).nexts)
        (pushAllPolled A h this 0 (it.upTo n).nexts).2

theorem Refused.outOfRoom {e : Ended α} (he : Refused A e) : OutOfRoom e.2.2 := by
  obtain ⟨f, hf, hout, -⟩ := he
  rw [hf]
  exact hout

theorem Stores.extends (hs : Stores p h this o xs data) (hn : p.half ≤ n) : Extends A h this xs it n where
  counted := (extendPolled_eq A hs (it.upTo n)).1
  pushes := extendPolled_pushes A hs (it.upTo n)
  appends := hs.extend_appends A it hn
  pushed := hs.pushAll_appends A it hn
  fits hroom :=
    ⟨(hs.extend_appends A it hn).resolve_left fun he => hs.extend_fits A it hroom he.outOfRoom,
      (hs.pushAll_appends A it hn).resolve_left fun he => hs.pushAll_fits A it (by omega) he.outOfRoom⟩

/-! ## `from_iter` -/

/-- A dropped buffer has given its block back. -/
theorem Stores.drop (hs : Stores p h this o xs data) :
    ∃ h', this.buf.drop p h = .ok h' ∧
      Confined (fun blk : Block => blk.status = .allocated) h.blocks h'.blocks o none := by
  obtain ⟨buf, len⟩ := this
  obtain ⟨hh, -, -⟩ := hs
  cases hh with
  | empty alloc => exact ⟨h, RawAlignedBuffer.drop_newIn, .refl⟩
  | @block b blk alloc hb ok header =>
      rw [← Block.counted_self header] at hb
      exact ⟨_, RawAlignedBuffer.drop_sole hb ok ok.data_lt rfl,
        .release (fun hlive : BlockStatus.deallocated = .allocated => by cases hlive)⟩

/-- What `from_iter` ends with: the items in a new buffer; or the panic of the iterator, and no memory kept;
    or a fault that `Stops` allows. -/
def Collected (p : Params) (h : Heap) (it : Source) (items : List UInt8) (Stops : Fault → Prop) :
    (Heap × Except Fault (UniqueAlignedBuffer α)) × Nat → Prop
  | ((h', .ok buf), polls) => Appended p [] it items (h', buf, none) polls
  | ((h', .error f), polls) =>
      Stops f ∨
        f = .iteratorPanic ∧ (∀ (k : Nat) (hk : k < items.length), it.answer k = .some items[k]) ∧
          it.answer items.length = .panic ∧ polls = items.length + 1 ∧
          ∀ (b : BlockId) (blk : Block), h'.blocks[b]? = some blk → blk.status = .allocated →
            h.blocks[b]? = some blk

/-- **How `from_iter` ends**: where `with_capacity` fails for the lower bound; otherwise with the items
    collected, unless `extend` is refused a reservation, which it is not if they fit the new buffer. -/
def Collects (h : Heap) (alloc : α) (it : Source) (n : Nat) : Prop :=
  match withCapacityIn A h it.lower alloc with
  | .error f => 0 < it.lower ∧ OutOfRoom (some f) ∧ fromIter A h alloc (it.upTo n) = ((h, .error f), 0)
  | .ok (h₁, buf) =>
      Collected p h it (it.items n) (fun f => (buf.extend A h₁ (it.upTo n)).2.2 = some f ∧
        Refused A (buf.extend A h₁ (it.upTo n))) (fromIter A h alloc (it.upTo n)) ∧
      ((it.items n).length ≤ buf.capacity p →
        Collected p h it (it.items n) (fun _ => False) (fromIter A h alloc (it.upTo n)))

/-- What was allocated on the way is gone. -/
theorem Stores.drop_unwound {h' : Heap} (hs : Stores p h' this o xs data)
    (hconf : Confined Block.Unreplaced h.blocks h'.blocks none o) :
    ∃ h₂, this.buf.drop p h' = .ok h₂ ∧ ∀ (b : BlockId) (blk : Block), h₂.blocks[b]? = some blk →
      blk.status = .allocated → h.blocks[b]? = some blk := by
  obtain ⟨h₂, hdrop, hgone⟩ := hs.drop
  refine ⟨h₂, hdrop, fun b blk hb hlive => ?_⟩
  have hall : Confined (fun blk : Block => blk.status = .allocated) h.blocks h₂.blocks none none :=
    .trans (hconf.mono fun blk hl he => by rw [hl] at he; cases he) hgone
  by_cases hlt : b < h.blocks.length
  · rw [← hall.frame b hlt (by simp)]
    exact hb
  · exact absurd (hall.handed b blk hb hlive (.inr (Nat.le_of_not_lt hlt))) (by simp)

theorem dropOnUnwind_ok {h' : Heap} {f : Fault} (hf : f.unwinds = true) (hd : this.buf.drop p h = .ok h') :
    dropOnUnwind p (h, this, some f) = (h', .error f) := by
  unfold dropOnUnwind
  simp only [if_pos hf, hd]

theorem Ends.collected {alloc : α} {e : Ended α} {polls : Nat} {Stops : Fault → Prop} (hn : p.half ≤ n)
    (he : Ends p h (newIn alloc) none (UniqueOp.onList [] (.extend (it.upTo n))) e)
    (hcount : polls = Next.polls (it.upTo n).nexts ∨ OutOfRoom e.2.2)
    (hstops : ∀ f, e.2.2 = some f → OutOfRoom (some f) → Stops f) :
    Collected p h it (it.items n) Stops (dropOnUnwind p e, polls) := by
  have happ := he.appended it hn
  cases he with
  | returned hl =>
      simp only [UniqueOp.onList] at happ hcount ⊢
      cases hp : Next.panics (it.upTo n).nexts with
      | false =>
          rw [hp, if_neg Bool.false_ne_true] at happ hcount
          rw [if_neg Bool.false_ne_true, hcount.resolve_right not_outOfRoom_none]
          exact happ.resolve_left not_outOfRoom_none
      | true =>
          rw [hp, if_pos rfl] at happ hcount
          obtain ⟨h₂, hdrop, hkept⟩ := hl.stores.drop_unwound hl.confined
          rw [if_pos rfl, hcount.resolve_right not_outOfRoom_panic, dropOnUnwind_ok rfl hdrop]
          have happ := happ.resolve_left not_outOfRoom_panic
          refine Or.inr ⟨rfl, happ.yielded, ?_, Next.polls_eq _, hkept⟩
          rcases happ.stopped with ⟨-, he⟩ | ⟨hpanic, -⟩
          · cases he
          · exact hpanic
  | reservation hl hf =>
      rcases hf with rfl | rfl
      · obtain ⟨h₂, hdrop, -⟩ := hl.stores.drop
        rw [dropOnUnwind_ok rfl hdrop]
        exact Or.inl (hstops _ rfl (Or.inl rfl))
      · exact Or.inl (hstops _ rfl (Or.inr rfl))

/-- **`from_iter`** collects what the iterator gives, on any heap. -/
theorem fromIter_collects (h : Heap) (alloc : α) (hn : p.half ≤ n) : Collects A h alloc it n := by
  unfold Collects
  rcases (withCapacityIn_spec A alloc h it.lower).leads with
    ⟨h₁, buf, o₁, data₁, hr, hl, hcap⟩ | ⟨f, hr, hf⟩
  · have hends := Ends.trans hl (extend_spec A hl.stores (it.upTo n))
    obtain ⟨hsame, hcount⟩ := extendPolled_eq A hl.stores (it.upTo n)
    have hiter : fromIter A h alloc (it.upTo n) =
        (dropOnUnwind p (buf.extend A h₁ (it.upTo n)), (buf.extendPolled A h₁ (it.upTo n)).2) := by
      unfold fromIter
      rw [show withCapacityIn A h (it.upTo n).lower alloc = _ from hr, ← hsame]
    rw [hr]
    dsimp only
    rw [hiter]
    refine ⟨hends.collected it hn hcount fun f hf hout => ⟨hf, ?_⟩, fun hroom => ?_⟩
    · exact hl.stores.extend_refused A (by rw [hf]; exact hout)
    · -- the new buffer has room for the lower bound, and now for the items
      refine hends.collected it hn hcount fun f hf hout => hl.stores.extend_fits A it ?_ (by rw [hf]; exact hout)
      rw [hl.stores.capacity_eq] at hroom ⊢
      rw [List.length_nil]
      omega
  · rw [hr]
    refine ⟨Nat.pos_of_ne_zero fun hz => ?_, hf, ?_⟩
    · rw [hz] at hr
      cases hr
    · unfold fromIter
      rw [show withCapacityIn A h (it.upTo n).lower alloc = _ from hr]

end UniqueAlignedBuffer

end RkyvUtils
