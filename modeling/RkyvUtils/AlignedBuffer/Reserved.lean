import RkyvUtils.AlignedBuffer.UniqueRuns

/-!
# `AlignedBuffer.Reserved` — work in reserved room

`try_reserve` is documented as the call after which "we know this can't OOM in the middle of our complex
work". A piece of work asks for room up to its `peak`. As long as the peak is within the capacity no
operation of the work calls the allocator.
-/

namespace RkyvUtils

open Word Ownership Run

/-- The most that operations one after the other ask for, from the bytes `xs` on. -/
def peak : List UInt8 → List UniqueOp → Nat
  | xs, [] => xs.length
  | xs, op :: ops => max (op.asks xs.length) (peak (op.onList xs).1 ops)

/-! ## Reservations -/

namespace UniqueAlignedBuffer

open RawAlignedBuffer (Outcome)

variable {α : Type} {p : Params} {h h' : Heap} {this this' : UniqueAlignedBuffer α} {o : Option BlockId}
  {xs : List UInt8} {data : List (Option UInt8)}

/-- A reservation of room for `additional` more bytes, by any of the four methods, that succeeded. -/
inductive MadeRoom (A : Allocator p.toTarget) (h : Heap) (this : UniqueAlignedBuffer α) (additional : Nat)
    (h' : Heap) (this' : UniqueAlignedBuffer α) : Prop
  | reserve (call : this.reserve A h additional = .ok (h', this'))
  | reserveExact (call : this.reserveExact A h additional = .ok (h', this'))
  | tryReserve (call : this.tryReserve A h additional = .ok (h', this', .ok ()))
  | tryReserveExact (call : this.tryReserveExact A h additional = .ok (h', this', .ok ()))

/-- **A reservation that succeeded** made the room, and kept the bytes. -/
theorem MadeRoom.leads {A : Allocator p.toTarget} {additional : Nat} (hs : Stores p h this o xs data)
    (hm : MadeRoom A h this additional h' this') :
    ∃ o' data', Leads p h this o xs h' this' o' data' ∧ xs.length + additional ≤ data'.length := by
  have hlen := hs.length_eq
  have hle : this.len ≤ data.length := hlen ▸ hs.length_le
  have hsettled : ∀ {r}, Settles p h this o xs (xs.length + additional) r → r = .ok (h', this') →
      ∃ o' data', Leads p h this o xs h' this' o' data' ∧ xs.length + additional ≤ data'.length := by
    rintro r (⟨h₁, this₁, o₁, data₁, rfl, hl, hcap⟩ | rfl | rfl) hr
    · cases hr
      exact ⟨o₁, data₁, hl, hcap⟩
    · cases hr
    · cases hr
  have htried : ∀ {x : Except Fault (RawAlignedBuffer.Reserved α)} {buf' : RawAlignedBuffer α},
      (∃ r, x = .ok r ∧ Outcome p h this.buf o data (this.len + additional) r) →
      x = .ok (h', buf', .ok ()) → ∃ o' data', Leads p h this o xs h' { this with buf := buf' } o' data' ∧
        xs.length + additional ≤ data'.length := by
    rintro x buf' ⟨r, rfl, hout⟩ hr
    cases hr
    rw [hlen] at hout
    exact hs.of_outcome hout (Nat.le_add_right _ _)
  cases hm with
  | reserve call => exact hsettled (reserve_spec A hs additional) call
  | reserveExact call => exact hsettled (reserveExact_spec A hs additional) call
  | tryReserve call =>
      obtain ⟨⟨h₁, buf₁, result⟩, hr, hcall⟩ := bind_eq_ok call
      cases hcall
      exact htried (RawAlignedBuffer.tryReserve_spec A additional hs.holds hle) hr
  | tryReserveExact call =>
      obtain ⟨⟨h₁, buf₁, result⟩, hr, hcall⟩ := bind_eq_ok call
      cases hcall
      exact htried (RawAlignedBuffer.tryReserveExact_spec A additional hs.holds hle) hr

end UniqueAlignedBuffer

/-! ## Sessions -/

namespace Session

open UniqueAlignedBuffer

variable {α : Type} {p : Params} {o : Option BlockId} {xs : List UInt8} {data : List (Option UInt8)}

/-- **One mutator** in the room that is there. -/
theorem step_room (s : Session α) (hs : Stores p s.heap s.buffer o xs data) (op : UniqueOp)
    (hkeep : op.shrinks = false) (hroom : op.asks xs.length ≤ data.length) :
    ∃ s' data', (∀ A : Allocator p.toTarget, step A s op = .ok s') ∧
      InRoom p s.heap s.buffer o (op.onList xs).1 s'.heap s'.buffer data' ∧
      s'.panics = s.panics ++ (op.onList xs).2.toList := by
  obtain ⟨h', this', data', he, hr⟩ := apply_room hs op hkeep hroom
  refine ⟨⟨h', this', s.panics ++ (op.onList xs).2.toList⟩, data', ?_, hr, rfl⟩
  intro A
  unfold step
  rw [show op.apply A s.heap s.buffer = _ from he A]
  cases hf : (op.onList xs).2 with
  | none => simp
  | some f =>
      dsimp only
      rw [if_pos (UniqueOp.onList_isCallers hf)]
      rfl

/-- **Work** in the room that is there. -/
theorem run_room (work : List UniqueOp) (s : Session α) (hs : Stores p s.heap s.buffer o xs data)
    (hkeep : ∀ op ∈ work, op.shrinks = false) (hroom : peak xs work ≤ data.length) :
    ∃ s' data', (∀ A : Allocator p.toTarget, run (step A) s work = .ok s') ∧
      InRoom p s.heap s.buffer o (work.foldl ListSession.step (xs, s.panics)).1 s'.heap s'.buffer data' ∧
      s'.panics = (work.foldl ListSession.step (xs, s.panics)).2 := by
  induction work generalizing s xs data with
  | nil => exact ⟨s, data, fun _ => rfl, .refl hs, rfl⟩
  | cons op work ih =>
      -- the peak is the larger of what this call asks for and the peak of the rest
      simp only [peak] at hroom
      obtain ⟨hop, hwork⟩ := List.forall_mem_cons.mp hkeep
      obtain ⟨s₁, data₁, hstep, hr₁, hpanics₁⟩ := step_room s hs op hop (by omega)
      have hroom₁ := hr₁.room hs
      obtain ⟨s', data', hrun, hr, hpanics⟩ := ih s₁ hr₁.leads.stores hwork (by omega)
      rw [hpanics₁] at hr hpanics
      refine ⟨s', data', ?_, hr₁.trans hr, hpanics⟩
      intro A
      rw [run_cons_ok (hstep A)]
      exact hrun A

variable (A : Allocator p.toTarget)

/-- **Reserved room suffices.** At any point in the life of a buffer, a reservation that succeeds makes the
    capacity at least the length plus what was asked for; and from then on any work whose peak is within the
    capacity, by any of the mutators but the shrinking ones, goes through in the same way whichever allocator
    there is, also one that fails every request: it does what it does on a list of bytes, the buffer keeps its
    pointer and its capacity, the allocator is not called, and no block changes but for its bytes. -/
theorem reserved_room_suffices (h : Heap) (alloc : α) (capacity : Nat) (ops : List UniqueOp)
    (additional : Nat) {s : Session α} {heap : Heap} {buffer : UniqueAlignedBuffer α}
    (hs : runFrom A h alloc capacity ops = .ok s)
    (hreserve : MadeRoom A s.heap s.buffer additional heap buffer) :
    (ops.foldl ListSession.step ([], [])).1.length + additional ≤ buffer.capacity p ∧
    ∀ work : List UniqueOp, (∀ op ∈ work, op.shrinks = false) →
      peak (ops.foldl ListSession.step ([], [])).1 work ≤ buffer.capacity p →
      ∃ s' : Session α, (∀ A' : Allocator p.toTarget, run (step A') ⟨heap, buffer, s.panics⟩ work = .ok s') ∧
        s'.buffer.asSlice p s'.heap = .ok ((ops ++ work).foldl ListSession.step ([], [])).1 ∧
        s'.panics = ((ops ++ work).foldl ListSession.step ([], [])).2 ∧
        s'.buffer.buf = buffer.buf ∧ s'.heap.Like heap := by
  have hlist := runFrom_spec A h alloc capacity ops
  rw [hs] at hlist
  obtain ⟨_, hok, ⟨o, data, hst⟩, hpanics⟩ | ⟨_, hfault, -⟩ := hlist
  case inr => cases hfault
  cases hok
  obtain ⟨o', data', hl, hcap⟩ := hreserve.leads hst
  refine ⟨by rw [hl.stores.capacity_eq]; exact hcap, ?_⟩
  intro work hkeep hroom
  rw [hl.stores.capacity_eq] at hroom
  obtain ⟨s', data₂, hrun, hr, hp⟩ := run_room work ⟨heap, buffer, s.panics⟩ hl.stores hkeep hroom
  rw [List.foldl_append]
  dsimp only at hr hp
  rw [hpanics] at hr hp
  exact ⟨s', hrun, hr.leads.stores.asSlice_eq, hp, hr.buf_eq, hr.like⟩

/-- Four bytes reserved behind the first, and written. -/
theorem reserved_room_suffices_four :
    ∃ (s s' : Session Unit) (heap : Heap) (buffer : UniqueAlignedBuffer Unit),
      runFrom (.bump (Params.x86_64 true).toTarget) Heap.empty () 0 [.push 7] = .ok s ∧
      MadeRoom (.bump (Params.x86_64 true).toTarget) s.heap s.buffer 4 heap buffer ∧
      (∀ A' : Allocator (Params.x86_64 true).toTarget,
        run (step A') ⟨heap, buffer, s.panics⟩ [.append [1, 2, 3], .push 4] = .ok s') ∧
      s'.buffer.asSlice (.x86_64 true) s'.heap = .ok [7, 1, 2, 3, 4] := by
  obtain ⟨s, heap, buffer, hs, hreserve, hcap⟩ : ∃ (s : Session Unit) (heap : Heap)
      (buffer : UniqueAlignedBuffer Unit),
      runFrom (.bump (Params.x86_64 true).toTarget) Heap.empty () 0 [.push 7] = .ok s ∧
      s.buffer.tryReserve (.bump (Params.x86_64 true).toTarget) s.heap 4 = .ok (heap, buffer, .ok ()) ∧
      buffer.capacity (.x86_64 true) = 8 := ⟨_, _, _, rfl, rfl, rfl⟩
  obtain ⟨-, hwork⟩ := reserved_room_suffices (.bump (Params.x86_64 true).toTarget) Heap.empty () 0 [.push 7]
    4 hs (.tryReserve hreserve)
  obtain ⟨s', hrun, hbytes, -⟩ := hwork [.append [1, 2, 3], .push 4] (by decide) (by rw [hcap]; decide)
  exact ⟨s, s', heap, buffer, hs, .tryReserve hreserve, hrun, hbytes⟩

end Session

end RkyvUtils
