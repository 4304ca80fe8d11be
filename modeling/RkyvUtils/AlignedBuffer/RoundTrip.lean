import RkyvUtils.Lib.SlotTable
import RkyvUtils.AlignedBuffer.SharedSpec

/-!
# `AlignedBuffer.RoundTrip` — `into_shared`, clones, and `try_unique`

Between `into_shared` and `try_unique` clones of the shared buffer are made and dropped in any order. For
a buffer with a block the heap is, at every moment, the one before with the number of handles in the
block's reference count (`Counting`), so `try_unique` succeeds exactly when no clone is left and then
gives back the very buffer. A buffer without a block never gets there in a build with debug assertions:
the assertion of `ref_count` fails.
-/

namespace RkyvUtils

open Word Ownership Run RawAlignedBuffer

namespace SharedAlignedBuffer

variable {α : Type} (p : Params)

/-- What the round trip of `this` should do: with every clone dropped, the same buffer comes back and the
    memory is as it was; with a clone of an allocated buffer alive, `Err` with the buffer passed in. An
    excess of clones aborts the process; nothing else goes wrong. -/
def RoundTrips (h : Heap) (this : UniqueAlignedBuffer α) (ops : List CloneOp) : Prop :=
  match shareAndBack p h this ops with
  | .ok (shared, h', clones, result) =>
      (clones = [] → result = .ok this ∧ h' = h) ∧
        (clones ≠ [] → this.buf.isAllocated p = true → result = .error shared)
  | .error f => f = .refcountAbort

variable {p}

/-! ## A buffer with a block -/

/-- The heap and the clones in the middle of a round trip of a buffer on block `b`. -/
structure Counting (p : Params) (h : Heap) (b : BlockId) (blk : Block)
    (shared : SharedAlignedBuffer α) (s : Heap × List (SharedAlignedBuffer α)) : Prop where
  heap : s.1 = h.update b (blk.counted (1 + s.2.length))
  clones : ∀ (i : Nat) (c : SharedAlignedBuffer α), s.2[i]? = some c → c = shared
  bound : s.2.length < p.half

section

variable {h : Heap} {b : BlockId} {blk : Block} {len : Nat} {alloc : α}
  {s : Heap × List (SharedAlignedBuffer α)}
  (hb : h.blocks[b]? = some blk) (ok : blk.Ok p) (hlen : len < p.half)
include hb ok hlen

/-- Making one more clone. -/
theorem Counting.addClone (hc : Counting p h b blk ⟨onBlock p blk b len alloc⟩ s) :
    (∃ s', addClone p s ⟨onBlock p blk b len alloc⟩ = .ok s' ∧
      Counting p h b blk ⟨onBlock p blk b len alloc⟩ s') ∨
    ∃ f, addClone p s ⟨onBlock p blk b len alloc⟩ = .error f ∧ f = .refcountAbort := by
  have hget : s.1.blocks[b]? = some (blk.counted (1 + s.2.length)) := by
    rw [hc.heap]
    exact List.getElem?_set_self (List.getElem?_eq_some_iff.mp hb).1
  unfold SharedAlignedBuffer.addClone
  rw [clone_onBlock hget ok hlen]
  by_cases hmax : p.maxRefcount < 1 + s.2.length
  · rw [if_pos hmax]; exact Or.inr ⟨_, rfl, rfl⟩
  · rw [if_neg hmax]
    have hbound : p.maxRefcount = p.half - 1 := rfl
    have hpos := p.half_pos
    refine Or.inl ⟨_, rfl, ?_, ?_, ?_⟩
    · dsimp only
      rw [hc.heap, Heap.update_update, List.length_append, List.length_singleton, Nat.add_assoc]
    · intro i c hi
      rcases SlotTable.getElem?_push_cases hi with hi | ⟨-, rfl⟩
      · exact hc.clones i c hi
      · rfl
    · simp only [List.length_append, List.length_singleton]; omega

/-- **One step** keeps the count at the number of handles. -/
theorem Counting.step (op : CloneOp) (hc : Counting p h b blk ⟨onBlock p blk b len alloc⟩ s) :
    (∃ s', cloneStep p ⟨onBlock p blk b len alloc⟩ s op = .ok s' ∧
      Counting p h b blk ⟨onBlock p blk b len alloc⟩ s') ∨
    ∃ f, cloneStep p ⟨onBlock p blk b len alloc⟩ s op = .error f ∧ f = .refcountAbort := by
  cases op with
  | clone => exact hc.addClone hb ok hlen
  | cloneOf i =>
      simp only [cloneStep]
      cases hi : s.2[i]? with
      | none => exact Or.inl ⟨s, rfl, hc⟩
      | some c =>
          obtain rfl := hc.clones i c hi
          exact hc.addClone hb ok hlen
  | dropClone i =>
      simp only [cloneStep]
      cases hi : s.2[i]? with
      | none => exact Or.inl ⟨s, rfl, hc⟩
      | some c =>
          obtain rfl := hc.clones i c hi
          have hpos : i < s.2.length := (List.getElem?_eq_some_iff.mp hi).1
          have hbound := hc.bound
          have hhalf := p.half_add_half
          have hget : s.1.blocks[b]? = some (blk.counted (1 + s.2.length)) := by
            rw [hc.heap]
            exact List.getElem?_set_self (List.getElem?_eq_some_iff.mp hb).1
          have hrem : (s.2.eraseIdx i).length = s.2.length - 1 := List.length_eraseIdx_of_lt hpos
          left
          unfold SharedAlignedBuffer.drop
          dsimp only
          rw [drop_onBlock hget ok hlen (by omega) (by omega)]
          refine ⟨_, rfl, ?_, ?_, ?_⟩
          · dsimp only
            rw [hc.heap, Heap.update_update, hrem,
              show 1 + s.2.length - 1 = 1 + (s.2.length - 1) by omega]
          · intro j c hj
            have hmem := List.mem_of_mem_eraseIdx (List.mem_of_getElem? hj)
            obtain ⟨k, hk⟩ := List.mem_iff_getElem?.mp hmem
            exact hc.clones k c hk
          · dsimp only; omega

/-- **`try_unique`** answers by the number of clones. -/
theorem Counting.tryUnique (hc : Counting p h b blk ⟨onBlock p blk b len alloc⟩ s) :
    SharedAlignedBuffer.tryUnique p s.1 ⟨onBlock p blk b len alloc⟩ =
      if s.2 = [] then .ok (.ok ⟨onBlock p blk b blk.data.length alloc, len⟩)
      else .ok (.error ⟨onBlock p blk b len alloc⟩) := by
  have hget : s.1.blocks[b]? = some (blk.counted (1 + s.2.length)) := by
    rw [hc.heap]
    exact List.getElem?_set_self (List.getElem?_eq_some_iff.mp hb).1
  rw [tryUnique_onBlock hget ok hlen]
  cases s.2 with
  | nil => rfl
  | cons c cs => rw [if_neg (by simp), if_neg (by simp)]

end

/-! ## A buffer without a block -/

/-- Clones of a buffer without a block are made and dropped without touching memory. -/
theorem cloneStep_newIn {h : Heap} {alloc : α} {s : Heap × List (SharedAlignedBuffer α)} (op : CloneOp)
    (hs : s.1 = h ∧ ∀ (i : Nat) (c : SharedAlignedBuffer α), s.2[i]? = some c → c = ⟨newIn alloc⟩) :
    ∃ s', cloneStep p ⟨newIn alloc⟩ s op = .ok s' ∧
      (s'.1 = h ∧ ∀ (i : Nat) (c : SharedAlignedBuffer α), s'.2[i]? = some c → c = ⟨newIn alloc⟩) := by
  obtain ⟨hh, hclones⟩ := hs
  have hadd : ∃ s', addClone p s ⟨newIn alloc⟩ = .ok s' ∧
      (s'.1 = h ∧ ∀ (i : Nat) (c : SharedAlignedBuffer α), s'.2[i]? = some c → c = ⟨newIn alloc⟩) := by
    unfold addClone
    rw [clone_newIn]
    refine ⟨_, rfl, hh, ?_⟩
    intro i c hi
    rcases SlotTable.getElem?_push_cases hi with hi | ⟨-, rfl⟩
    · exact hclones i c hi
    · rfl
  cases op with
  | clone => exact hadd
  | cloneOf i =>
      simp only [cloneStep]
      cases hi : s.2[i]? with
      | none => exact ⟨s, rfl, hh, hclones⟩
      | some c =>
          obtain rfl := hclones i c hi
          exact hadd
  | dropClone i =>
      simp only [cloneStep]
      cases hi : s.2[i]? with
      | none => exact ⟨s, rfl, hh, hclones⟩
      | some c =>
          obtain rfl := hclones i c hi
          unfold SharedAlignedBuffer.drop
          dsimp only
          rw [drop_newIn]
          refine ⟨_, rfl, hh, ?_⟩
          intro j c hj
          have hmem := List.mem_of_mem_eraseIdx (List.mem_of_getElem? hj)
          obtain ⟨k, hk⟩ := List.mem_iff_getElem?.mp hmem
          exact hclones k c hk

/-! ## The round trip -/

open UniqueAlignedBuffer in
/-- A buffer with a block makes the round trip. -/
theorem roundTrips_onBlock {h : Heap} {b : BlockId} {blk : Block} {len : Nat} {alloc : α}
    (hb : h.blocks[b]? = some blk) (ok : blk.Ok p) (hheader : blk.header = some ⟨1, blk.data.length⟩)
    (hle : len ≤ blk.data.length) (ops : List CloneOp) :
    RoundTrips p h ⟨onBlock p blk b blk.data.length alloc, len⟩ ops := by
  have hlt := ok.data_lt
  have hlen : len < p.half := by omega
  have hstart : Counting p h b blk (⟨onBlock p blk b len alloc⟩ : SharedAlignedBuffer α) (h, []) := by
    refine ⟨?_, fun i c hi => by simp at hi, p.half_pos⟩
    show h = h.update b (blk.counted 1)
    rw [Block.counted_self hheader, Heap.update_self hb]
  unfold RoundTrips shareAndBack
  rw [intoShared_onBlock b alloc hlt hle, ok_bind]
  rcases run_rule _ _ (fun s op hc => hc.step hb ok hlen op) ops _ hstart with
    ⟨⟨h', clones⟩, hrun, hc⟩ | ⟨f, hrun, rfl⟩
  · rw [hrun, ok_bind]
    dsimp only
    rw [hc.tryUnique hb ok hlen]
    by_cases hclones : clones = []
    · subst hclones
      rw [if_pos rfl]
      refine ⟨fun _ => ⟨rfl, ?_⟩, fun hne => absurd rfl hne⟩
      have hheap := hc.heap
      simp only [List.length_nil, Nat.add_zero] at hheap
      rw [hheap, Block.counted_self hheader, Heap.update_self hb]
    · rw [if_neg hclones]
      exact ⟨fun he => absurd he hclones, fun _ _ => rfl⟩
  · rw [hrun]
    exact rfl

/-- A buffer without a block makes the round trip only in a build without debug assertions. -/
theorem roundTrips_newIn {h : Heap} {alloc : α} (ops : List CloneOp) :
    RoundTrips p h ⟨newIn alloc, 0⟩ ops ↔ p.debug = false := by
  have hstart : (h, ([] : List (SharedAlignedBuffer α))).1 = h ∧ ∀ (i : Nat)
      (c : SharedAlignedBuffer α), (h, ([] : List (SharedAlignedBuffer α))).2[i]? = some c →
        c = ⟨newIn alloc⟩ := ⟨rfl, fun i c hi => by simp at hi⟩
  unfold RoundTrips shareAndBack
  rw [UniqueAlignedBuffer.intoShared_newIn, ok_bind]
  rcases run_rule _ (fun _ => False) (fun s op hs => Or.inl (cloneStep_newIn op hs)) ops _ hstart with
    ⟨⟨h', clones⟩, hrun, hheap, -⟩ | ⟨f, -, hf⟩
  · dsimp only at hheap
    subst hheap
    rw [hrun, ok_bind]
    dsimp only
    rw [tryUnique_newIn]
    cases hd : p.debug with
    | true =>
        -- the assertion of `ref_count` fails before `try_unique` has an answer
        rw [if_pos rfl]
        refine ⟨fun hf => ?_, fun hf => by cases hf⟩
        cases (show Fault.debugAssert = .refcountAbort from hf)
    | false =>
        rw [if_neg (by simp)]
        refine ⟨fun _ => rfl, fun _ => ⟨fun _ => ⟨rfl, rfl⟩, fun _ hall => ?_⟩⟩
        rw [isAllocated_newIn] at hall
        cases hall
  · exact absurd hf id

/-- **When the round trip works.** For every unique buffer that its mutators can produce, and any clones
    made and dropped in between: the round trip does what it should if and only if the buffer is
    allocated or debug assertions are compiled out. -/
theorem roundTrips_iff (A : Allocator p.toTarget) (h : Heap) (alloc : α) (capacity : Nat)
    (ops : List UniqueOp) (s : Session α) (hs : Session.runFrom A h alloc capacity ops = .ok s)
    (cloneOps : List CloneOp) :
    RoundTrips p s.heap s.buffer cloneOps ↔ (s.buffer.buf.isAllocated p = true ∨ p.debug = false) := by
  obtain ⟨o, xs, data, hstores⟩ := Session.stores_of_runFrom A hs
  have hle := hstores.length_le
  obtain ⟨hh, hlen, -⟩ := hstores
  rw [← hlen] at hle
  generalize s.heap = h' at hh ⊢
  generalize s.buffer = buffer at hh hlen hle ⊢
  obtain ⟨buf, len⟩ := buffer
  cases hh with
  | empty alloc =>
      obtain rfl : len = 0 := Nat.le_zero.mp hle
      show RoundTrips p h' ⟨newIn alloc, 0⟩ cloneOps ↔ ((newIn alloc).isAllocated p = true ∨ _)
      rw [roundTrips_newIn, isAllocated_newIn]
      simp
  | @block b blk alloc hb ok header =>
      exact ⟨fun _ => Or.inl (isAllocated_onBlock blk b alloc ok.data_lt),
        fun _ => roundTrips_onBlock hb ok header hle cloneOps⟩

/-- A buffer that never allocated does not come back from `into_shared` in a debug build. -/
theorem not_roundTrips_new :
    Session.runFrom (.bump (Params.x86_64 true).toTarget) Heap.empty () 0 []
        = .ok ⟨Heap.empty, .newIn (), []⟩ ∧
      ¬RoundTrips (Params.x86_64 true) Heap.empty (UniqueAlignedBuffer.newIn ()) [] := by
  refine ⟨rfl, ?_⟩
  rw [show UniqueAlignedBuffer.newIn () = ⟨newIn (), 0⟩ from rfl, roundTrips_newIn]
  simp [Params.x86_64]

/-- A buffer of one byte comes back, with a clone made and dropped in between. -/
theorem roundTrips_one_byte :
    ∃ s, Session.runFrom (.bump (Params.x86_64 true).toTarget) Heap.empty () 0 [.push 7] = .ok s ∧
      RoundTrips (Params.x86_64 true) s.heap s.buffer [.clone, .dropClone 0] := by
  refine ⟨_, rfl, ?_⟩
  refine (roundTrips_iff (.bump (Params.x86_64 true).toTarget) Heap.empty () 0 [.push 7] _ rfl _).mpr
    (Or.inl ?_)
  decide

end SharedAlignedBuffer

end RkyvUtils
