import RkyvUtils.AlignedBuffer.Extend
import RkyvUtils.Lib.Loop

/-!
# `AlignedBuffer.BufMut` — `BufMut for UniqueAlignedBuffer`

`bytes.rs`: a window on the free capacity (`chunk_mut`, `advance_mut`), and three methods that write without
it (`put`, `put_slice`, `put_bytes`). Those cut the bytes where the source does; the protocol of the trait,
`protocolTurn`, also cuts them where the capacity ends, and may reallocate at every cut. Both fill the buffer
with the bytes of the source, so neither the cuts nor the reallocations can be seen in the end.
-/

namespace RkyvUtils

open Word Loop

/-- What can end a call of `BufMut`: a fault of the buffer, the `assert!` of `advance_mut`, or a sum or
    difference of words that overflows where that is checked. -/
inductive BufMutFault where
  | buffer (f : Fault)
  | advanceMut
  | overflow
deriving DecidableEq, Repr

namespace BufMutFault

/-- A reservation gave up. -/
def OutOfRoom : BufMutFault → Prop
  | buffer f => UniqueAlignedBuffer.OutOfRoom (some f)
  | advanceMut | overflow => False

/-- A call of the buffer inside a method of `BufMut`. -/
def lift {β : Type} (x : Except Fault β) : Except BufMutFault β := x.mapError buffer

@[simp] theorem lift_ok {β : Type} (b : β) : lift (.ok b) = .ok b := rfl

@[simp] theorem lift_error {β : Type} (f : Fault) : lift (.error f : Except Fault β) = .error (buffer f) :=
  rfl

end BufMutFault

/-! ## The source -/

/-- A `Buf`: the chunks that are left, none of them empty. -/
structure Buf where
  chunks : List (List UInt8)
  nonempty : ∀ c ∈ chunks, c ≠ []

namespace Buf

/-- The chunks behind the first `cnt` bytes. -/
def dropBytes : Nat → List (List UInt8) → List (List UInt8)
  | _, [] => []
  | cnt, c :: cs => if cnt < c.length then c.drop cnt :: cs else dropBytes (cnt - c.length) cs

theorem dropBytes_nonempty {cnt : Nat} {cs : List (List UInt8)} (hcs : ∀ c ∈ cs, c ≠ []) :
    ∀ c ∈ dropBytes cnt cs, c ≠ [] := by
  induction cs generalizing cnt with
  | nil => exact hcs
  | cons d cs ih =>
      obtain ⟨hd, hcs⟩ := List.forall_mem_cons.mp hcs
      unfold dropBytes
      by_cases hlt : cnt < d.length
      · rw [if_pos hlt]
        refine List.forall_mem_cons.mpr ⟨?_, hcs⟩
        rw [Ne, List.drop_eq_nil_iff]
        omega
      · rw [if_neg hlt]
        exact ih hcs

theorem flatten_dropBytes (cnt : Nat) (cs : List (List UInt8)) :
    (dropBytes cnt cs).flatten = cs.flatten.drop cnt := by
  induction cs generalizing cnt with
  | nil => simp [dropBytes]
  | cons c cs ih =>
      unfold dropBytes
      rw [List.flatten_cons, List.drop_append]
      by_cases hlt : cnt < c.length
      · rw [if_pos hlt, List.flatten_cons, show cnt - c.length = 0 by omega, List.drop_zero]
      · rw [if_neg hlt, ih, List.drop_of_length_le (show c.length ≤ cnt by omega), List.nil_append]

variable (src : Buf)

/-- All the bytes that are left. -/
def bytes : List UInt8 := src.chunks.flatten

def remaining : Nat := src.bytes.length

def hasRemaining : Bool := 0 < src.remaining

def chunk : List UInt8 := src.chunks.headD []

def advance (cnt : Nat) : Buf := ⟨dropBytes cnt src.chunks, dropBytes_nonempty src.nonempty⟩

@[simp] theorem bytes_advance (cnt : Nat) : (src.advance cnt).bytes = src.bytes.drop cnt :=
  flatten_dropBytes cnt src.chunks

end Buf

/-- The `&mut UninitSlice` of `chunk_mut`. -/
structure UninitSlice where
  ptr : Ptr
  len : Nat
deriving DecidableEq, Repr

namespace UniqueAlignedBuffer

open BufMutFault (lift)

variable {α : Type} {p : Params} (A : Allocator p.toTarget)

/-! ## The trait's own methods -/

variable (p) in
/-- `remaining_mut`. A capacity past `MAX_CAPACITY` makes the difference overflow. -/
def remainingMut (this : UniqueAlignedBuffer α) : Except BufMutFault Nat :=
  p.usizeSub .overflow p.maxCapacity this.len

variable (p) in
def advanceMut (this : UniqueAlignedBuffer α) (cnt : Nat) :
    Except BufMutFault (UniqueAlignedBuffer α) := do
  let newLen ← p.usizeAdd .overflow this.len cnt
  if ¬newLen ≤ this.capacity p then .error .advanceMut
  else lift (this.setLen p newLen)

def chunkMut (h : Heap) (this : UniqueAlignedBuffer α) :
    Except Fault (Heap × UniqueAlignedBuffer α × UninitSlice) := do
  let (h, this) ←
    (if this.capacity p = this.len then this.reserve A h 64 else .ok (h, this))
  let offset := this.len
  let len := wrappingSub p.bits (this.capacity p) offset
  return (h, this, ⟨this.asMutPtr.add offset, len⟩)

/-! ## The methods that do without the window -/

/-- The state of a loop that writes a source into the buffer. -/
abbrev Putting (α : Type) := Heap × UniqueAlignedBuffer α × Buf

/-- The condition of the loops. -/
def hasRemaining (st : Putting α) : Bool := st.2.2.hasRemaining

/-- The source is dropped at the end. -/
def finish (r : Except BufMutFault (Putting α)) : Except BufMutFault (Heap × UniqueAlignedBuffer α) :=
  r.map fun st => (st.1, st.2.1)

/-- The body of the loop of `put`. -/
def putTurn : Putting α → Except BufMutFault (Putting α)
  | (h, this, src) => do
      let s := src.chunk
      let l := s.length
      let (h, this) ← lift (this.extendFromSlice A h s)
      return (h, this, src.advance l)

/-- `put`, with a bound on the turns of its loop. -/
def put (fuel : Nat) (h : Heap) (this : UniqueAlignedBuffer α) (src : Buf) :
    Option (Except BufMutFault (Heap × UniqueAlignedBuffer α)) :=
  (whileLoop hasRemaining (putTurn A) fuel (h, this, src)).map finish

variable {h h' : Heap} {this this' : UniqueAlignedBuffer α} {o : Option BlockId} {xs : List UInt8}
  {data : List (Option UInt8)}

/-- The window starts at the length, ends at the capacity, and is not empty. -/
structure Window (p : Params) (this : UniqueAlignedBuffer α) (dst : UninitSlice) : Prop where
  starts : dst.ptr = this.asMutPtr.add this.len
  ends : this.len + dst.len = this.capacity p
  len_pos : 0 < dst.len

/-- **`advance_mut`** inside the capacity passes its assertion. -/
theorem Stores.advanceMut_eq {cnt : Nat} (hs : Stores p h this o xs data)
    (hle : this.len + cnt ≤ this.capacity p) :
    this.advanceMut p cnt = .ok { this with len := this.len + cnt } := by
  have hlt := hs.holds.length_lt
  have hcap := hs.capacity_eq
  have hhalf := p.half_add_half
  unfold advanceMut setLen
  rw [Target.usizeAdd_of_lt (by omega), ok_bind, if_neg (not_not.mpr hle), Target.debugAssert_ok hle]
  rfl

/-- **`chunk_mut`** opens a window and keeps the bytes, also when it reallocates; it fails only where the
    buffer is full and its reservation is refused. -/
theorem chunkMut_spec (hs : Stores p h this o xs data) :
    (∃ h' this' o' data' dst, this.chunkMut A h = .ok (h', this', dst) ∧
      Leads p h this o xs h' this' o' data' ∧ Window p this' dst ∧ data.length ≤ data'.length) ∨
      ∃ f, this.chunkMut A h = .error f ∧ this.len = this.capacity p ∧ Refuses A h this f := by
  have hle := hs.length_le
  have hlen := hs.length_eq
  have hroom : (∃ h₁ this₁ o₁ data₁, (if this.capacity p = this.len then this.reserve A h 64
        else .ok (h, this)) = .ok (h₁, this₁) ∧ Leads p h this o xs h₁ this₁ o₁ data₁ ∧
        xs.length + 1 ≤ data₁.length ∧ data.length ≤ data₁.length) ∨
      ∃ f, (if this.capacity p = this.len then this.reserve A h 64 else .ok (h, this)) = .error f ∧
        this.len = this.capacity p ∧ Refuses A h this f := by
    by_cases heq : this.capacity p = this.len
    · rw [if_pos heq]
      rcases hs.reserve_cases A 64 with ⟨h₁, this₁, o₁, data₁, hr, hl, hcap, hmono⟩ | ⟨f, hr, -, hf⟩
      · exact Or.inl ⟨h₁, this₁, o₁, data₁, hr, hl, by omega, hmono⟩
      · exact Or.inr ⟨f, hr, heq.symm, hf⟩
    · rw [if_neg heq]
      rw [hs.capacity_eq] at heq
      exact Or.inl ⟨h, this, o, data, rfl, .refl hs, by omega, Nat.le_refl _⟩
  unfold chunkMut
  rcases hroom with ⟨h₁, this₁, o₁, data₁, hr, hl, hcap, hmono⟩ | ⟨f, hr, hf⟩
  · rw [hr]
    refine Or.inl ⟨h₁, this₁, o₁, data₁, _, rfl, hl, ⟨rfl, ?_, ?_⟩, hmono⟩
    all_goals
      dsimp only
      rw [hl.stores.free_eq]
      have hcap₁ := hl.stores.capacity_eq
      have hlen₁ := hl.stores.length_eq
      omega
  · rw [hr]
    exact Or.inr ⟨f, rfl, hf⟩

/-! ## The loops -/

/-- In the middle of writing `new` behind `xs`: the buffer has got what the source no longer has, and the
    capacity is no less than it was. -/
def Underway (p : Params) (xs new : List UInt8) (cap : Nat) (st : Putting α) : Prop :=
  ∃ o data done, Stores p st.1 st.2.1 o (xs ++ done) data ∧ new = done ++ st.2.2.bytes ∧
    cap ≤ data.length

/-- A turn stops at a reservation that is refused, in a buffer without room for the bytes that are left. -/
def Stops (A : Allocator p.toTarget) (st : Putting α) (e : BufMutFault) : Prop :=
  ∃ f, e = .buffer f ∧ st.2.1.capacity p < st.2.1.len + st.2.2.remaining ∧ Refuses A st.1 st.2.1 f

/-- The bytes that are left get fewer. -/
def left (st : Putting α) : Nat := st.2.2.remaining

theorem Underway.start (hs : Stores p h this o xs data) (src : Buf) :
    Underway p xs src.bytes (this.capacity p) (h, this, src) :=
  ⟨o, data, [], by rw [List.append_nil]; exact hs, rfl, Nat.le_of_eq hs.capacity_eq⟩

/-- The next `cnt` bytes went from the source to the buffer. -/
theorem Underway.next {src : Buf} {done new : List UInt8} {cnt cap : Nat}
    (hnew : new = done ++ src.bytes)
    (hs : Stores p h this o (xs ++ done ++ src.bytes.take cnt) data) (hcap : cap ≤ data.length) :
    Underway p xs new cap (h, this, src.advance cnt) := by
  refine ⟨o, data, done ++ src.bytes.take cnt, by rw [← List.append_assoc]; exact hs, ?_, hcap⟩
  rw [hnew, Buf.bytes_advance, List.append_assoc, List.take_append_drop]

/-- **How a call that is to put `new` behind the bytes `xs` of a buffer of capacity `cap` ends.** One that
    returns has put it there, with the length counting it, inside the capacity. One that does not stopped in
    a state `Came`, at a reservation that is refused there, and had no room for `new` to begin with. -/
def Puts (A : Allocator p.toTarget) (xs new : List UInt8) (cap : Nat) (Came : Putting α → Prop) :
    Except BufMutFault (Heap × UniqueAlignedBuffer α) → Prop
  | .ok (h, this) =>
      this.asSlice p h = .ok (xs ++ new) ∧ this.len = xs.length + new.length ∧ this.len ≤ this.capacity p
  | .error e => cap < xs.length + new.length ∧ ∃ st, Came st ∧ Stops A st e

variable {A} {Came : Putting α → Prop}

/-- **With room for the bytes**, the call returns. -/
theorem Puts.returns {new : List UInt8} {cap : Nat}
    {r : Except BufMutFault (Heap × UniqueAlignedBuffer α)} (hr : Puts A xs new cap Came r)
    (hroom : xs.length + new.length ≤ cap) : ∃ h' this', r = .ok (h', this') := by
  cases r with
  | ok r => exact ⟨r.1, r.2, rfl⟩
  | error e => exact absurd hroom (Nat.not_le.mpr hr.1)

variable (A)

end UniqueAlignedBuffer

end RkyvUtils
