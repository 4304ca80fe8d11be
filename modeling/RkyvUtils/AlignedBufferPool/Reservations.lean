import RkyvUtils.AlignedBuffer.Extend
import RkyvUtils.AlignedBufferPool.Geometry

/-!
# `AlignedBufferPool.Reservations` — what the unique buffers of a reachable state do with a request for room

`try_reserve` and `try_reserve_exact` of a unique buffer, for every request and every answer of the
allocator: either the room is there, and the word, the header and the block agree on the new capacity; or
nothing at all has changed. Next to that, what keeps each unchecked operation on words in their way exact.
Then `extend`, whose reservations may be asked for too little or too much.
-/

namespace RkyvUtils

open Word

namespace UniqueAlignedBuffer

open RawAlignedBuffer (Holds Outcome)

variable {α : Type} {p : Params} {h h' : Heap} {this this' : UniqueAlignedBuffer α}
  {o : Option BlockId} {xs : List UInt8} {data : List (Option UInt8)}

/-! ## What a reservation promises -/

/-- The tagged word is the capacity and whether there is a block; the block and its header have the same
    capacity. -/
structure Tagged (p : Params) (h : Heap) (this : UniqueAlignedBuffer α) : Prop where
  word : this.buf.capOrLen = .pack p.toTarget (this.capacity p) this.buf.buf.prov.isSome
  fits : this.capacity p < p.half
  tag : this.buf.isAllocated p = this.buf.buf.prov.isSome
  empty : this.buf.buf.prov = none → this.capacity p = 0
  block : ∀ b, this.buf.buf.prov = some b → ∃ blk, h.blocks[b]? = some blk ∧ blk.status = .allocated ∧
    blk.size = p.bufferOffset + this.capacity p ∧ blk.header = some ⟨1, this.capacity p⟩

/-- `Ok`: the room is there, not taken from anywhere, with the length and the bytes of before. -/
structure Reserved (p : Params) (h : Heap) (this : UniqueAlignedBuffer α) (additional : Nat) (h' : Heap)
    (this' : UniqueAlignedBuffer α) : Prop where
  room : this.len + additional ≤ this'.capacity p
  capacity_le : this.capacity p ≤ this'.capacity p
  len_eq : this'.len = this.len
  bytes : ∃ xs, xs.length = this.len ∧ this.asSlice p h = .ok xs ∧ this'.asSlice p h' = .ok xs
  tagged : this'.Tagged p h'

/-- `Err`: the buffer and all of memory are as before, and the block is still allocated. -/
structure Untouched (h : Heap) (this : UniqueAlignedBuffer α) (h' : Heap) (this' : UniqueAlignedBuffer α) :
    Prop where
  buffer : this' = this
  blocks : h'.blocks = h.blocks
  allocated : ∀ b, this.buf.buf.prov = some b → ∃ blk, h'.blocks[b]? = some blk ∧ blk.status = .allocated

/-- A call of `try_reserve` or `try_reserve_exact` returns, with one or the other. -/
def AllOrNothing (p : Params) (h : Heap) (this : UniqueAlignedBuffer α) (additional : Nat) :
    Except Fault (Heap × UniqueAlignedBuffer α × Except RawBufferError Unit) → Prop
  | .ok (h', this', .ok ()) => Reserved p h this additional h' this'
  | .ok (h', this', .error _) => Untouched h this h' this'
  | .error _ => False

/-- The unchecked operations on words that a reservation comes to: the free capacity of `needs_to_grow`,
    the doubled capacity of `grow_amortized`, and the capacities that `alloc` and `realloc` compute from
    an answer of the allocator and store in a tagged word. -/
structure Exact (p : Params) (this : UniqueAlignedBuffer α) : Prop where
  free : this.len ≤ this.capacity p ∧
    wrappingSub p.bits (this.capacity p) this.len = this.capacity p - this.len
  doubled : this.capacity p * 2 < 2 ^ p.bits
  stored : ∀ (capacity : Nat) (l : Layout) (g : Grant), p.layout capacity = .ok (.ok l) →
    g.Meets p.toTarget l → p.bufferOffset + capacity ≤ g.size ∧
      (g.size - p.bufferOffset) &&& TaggedCap.valueMask p.toTarget = g.size - p.bufferOffset

/-! ## Both reservations -/

theorem Stores.tagged (hs : Stores p h this o xs data) : this.Tagged p h := by
  have hcap := hs.capacity_eq
  have hlt := hs.holds.length_lt
  have htag := hs.holds.isAllocated_eq
  have hprov := hs.holds.prov_eq
  obtain ⟨buf, len⟩ := this
  obtain ⟨hh, -, -⟩ := hs
  dsimp only at hh htag hprov
  refine ⟨?_, by omega, by rw [htag, hprov], ?_, ?_⟩
  all_goals rw [hcap]
  · cases hh with
    | empty alloc => rfl
    | block => rfl
  · intro hnone
    cases hh with
    | empty alloc => rfl
    | block => cases hnone
  · intro b hb
    cases hh with
    | empty alloc => cases hb
    | @block b' blk alloc hget ok header =>
        cases hb
        exact ⟨blk, hget, ok.status, ok.size_eq, header⟩

theorem Stores.exact (hs : Stores p h this o xs data) : this.Exact p where
  free := by
    have hlt := hs.holds.length_lt
    have hle := hs.length_le
    have hlen := hs.length_eq
    have hhalf := p.half_add_half
    rw [hs.capacity_eq]
    exact ⟨by omega, wrappingSub_of_le (by omega) (by omega)⟩
  doubled := by
    have hlt := hs.holds.length_lt
    have hhalf := p.half_add_half
    rw [hs.capacity_eq]
    omega
  stored := by
    intro capacity l g hl hg
    obtain ⟨-, hsize, halign⟩ := p.layout_agrees hl
    obtain ⟨-, -, -, hle, -, hvalid⟩ := hg
    dsimp only at hvalid
    have hpos := p.blockAlign_pos
    unfold Params.blockAlign at hpos
    refine ⟨by omega, ?_⟩
    rw [TaggedCap.and_valueMask]
    exact Nat.mod_eq_of_lt (by omega)

/-- A buffer that still stores the list of before, with the room. -/
theorem Stores.reserved {additional : Nat} {o' : Option BlockId} {data' : List (Option UInt8)}
    (hs : Stores p h this o xs data) (hs' : Stores p h' this' o' xs data')
    (hroom : this.len + additional ≤ data'.length) (hle : data.length ≤ data'.length) :
    Reserved p h this additional h' this' where
  room := by rw [hs'.capacity_eq]; exact hroom
  capacity_le := by rw [hs.capacity_eq, hs'.capacity_eq]; exact hle
  len_eq := by rw [hs.length_eq, hs'.length_eq]
  bytes := ⟨xs, hs.length_eq.symm, hs.asSlice_eq, hs'.asSlice_eq⟩
  tagged := hs'.tagged

/-- **A reservation** that ends as `Outcome` says, and does nothing when the room is there. -/
theorem Stores.allOrNothing {additional : Nat} {x : Except Fault (RawAlignedBuffer.Reserved α)}
    (hs : Stores p h this o xs data)
    (hx : ∃ r, x = .ok r ∧ Outcome p h this.buf o data (this.len + additional) r)
    (hroom : this.len + additional ≤ data.length → x = .ok (h, this.buf, .ok ())) :
    AllOrNothing p h this additional (do
      let (h, buf, result) ← x
      return (h, { this with buf }, result)) := by
  by_cases hthere : this.len + additional ≤ data.length
  · rw [hroom hthere, ok_bind]
    exact hs.reserved hs hthere (Nat.le_refl _)
  · obtain ⟨r, rfl, hout⟩ := hx
    obtain ⟨h', buf', result⟩ := r
    rw [ok_bind]
    cases result with
    | error e =>
        cases hout
        refine ⟨rfl, rfl, fun b hb => ?_⟩
        obtain ⟨blk, hget, hstatus, -⟩ := hs.tagged.block b hb
        exact ⟨blk, hget, hstatus⟩
    | ok _ =>
        have hlen := hs.length_eq
        obtain ⟨o', data', leads, hle⟩ := hs.of_outcome hout (by omega)
        exact hs.reserved leads.stores hle (by omega)

variable (A : Allocator p.toTarget) (additional : Nat)

theorem Stores.tryReserve (hs : Stores p h this o xs data) :
    AllOrNothing p h this additional (this.tryReserve A h additional) := by
  have hle : this.len ≤ data.length := by rw [hs.length_eq]; exact hs.length_le
  refine hs.allOrNothing (RawAlignedBuffer.tryReserve_spec A additional hs.holds hle) fun hroom => ?_
  unfold RawAlignedBuffer.tryReserve
  rw [if_neg (hs.holds.not_needsToGrow hroom)]
  rfl

theorem Stores.tryReserveExact (hs : Stores p h this o xs data) :
    AllOrNothing p h this additional (this.tryReserveExact A h additional) := by
  have hle : this.len ≤ data.length := by rw [hs.length_eq]; exact hs.length_le
  refine hs.allOrNothing (RawAlignedBuffer.tryReserveExact_spec A additional hs.holds hle) fun hroom => ?_
  unfold RawAlignedBuffer.tryReserveExact
  rw [if_neg (hs.holds.not_needsToGrow hroom)]
  rfl

end UniqueAlignedBuffer

namespace BufferPool

open UniqueAlignedBuffer

variable {p : Params} (A : Allocator p.toTarget) (cfg : Config)

/-- **Fallible reservations are all or nothing**: for every unique buffer of every reachable state, every
    request and every answer of the allocator. No operation on words on the way wraps or loses a bit. -/
theorem try_reserve_all_or_nothing (actions : List Action) :
    match runFrom A cfg actions with
    | .ok s =>
        ∀ (i : Nat) (this : UniqueAlignedBuffer Home), s.slots[i]? = some (.unique this) →
          this.Exact p ∧ ∀ additional : Nat,
            AllOrNothing p s.heap this additional (this.tryReserve A s.heap additional) ∧
              AllOrNothing p s.heap this additional (this.tryReserveExact A s.heap additional)
    | .error f => f.Aborts := by
  rcases run_proceeds cfg A actions with ⟨s, hr, inv⟩ | ⟨f, hr, hf⟩
  case inr => rw [hr]; exact hf
  rw [hr]
  intro i this hi
  obtain ⟨⟨o, xs, data, hs⟩, -⟩ := inv.slots i _ hi
  exact ⟨hs.exact, fun additional => ⟨hs.tryReserve A additional, hs.tryReserveExact A additional⟩⟩

/-- **`extend` is pushing the items one by one**: for every unique buffer of every reachable state and
    every iterator, whatever its `size_hint` says, whether it ends, goes on for ever, yields again after a
    `None` or panics. As many answers as half the address space has bytes are enough for the loops to
    end. Only a reservation that is refused keeps it from taking the items, so nothing does where they and
    the lower bound fit. `from_iter` collects the same on any heap. -/
theorem extend_pushes_items (actions : List Action) :
    (match runFrom A cfg actions with
    | .ok s =>
        ∀ (i : Nat) (this : UniqueAlignedBuffer Home), s.slots[i]? = some (.unique this) →
          ∃ xs, this.asSlice p s.heap = .ok xs ∧
            ∀ (it : Source) (n : Nat), p.half ≤ n → Extends A s.heap this xs it n
    | .error f => f.Aborts) ∧
      ∀ (h : Heap) (alloc : Home) (it : Source) (n : Nat), p.half ≤ n → Collects A h alloc it n := by
  refine ⟨?_, fun h alloc it n hn => fromIter_collects A it h alloc hn⟩
  rcases run_proceeds cfg A actions with ⟨s, hr, inv⟩ | ⟨f, hr, hf⟩
  case inr => rw [hr]; exact hf
  rw [hr]
  intro i this hi
  obtain ⟨⟨o, xs, data, hs⟩, -⟩ := inv.slots i _ hi
  exact ⟨xs, hs.asSlice_eq, fun it n hn => hs.extends A it hn⟩

end BufferPool

end RkyvUtils
