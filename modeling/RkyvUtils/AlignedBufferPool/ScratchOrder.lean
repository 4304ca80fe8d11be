import RkyvUtils.AlignedBufferPool.ScratchNesting

/-!
# `AlignedBufferPool.ScratchOrder` — which blocks `pop_alloc` refuses

`pop_alloc` returns `NotPoppedInReverseOrder` for a block that runs past the end of the stored bytes. A
block below the latest one ends before that, so it is accepted, and the bytes are cut at its start along
with every later block. Here a serializer's scratch buffer is used without keeping to the order:
`pop_alloc` may be given any live block. A block that is accepted takes the later ones with it.
-/

namespace RkyvUtils

open Word Run

namespace Scratch

open UniqueAlignedBuffer

variable {α : Type} {p : Params} {h : Heap} {this : UniqueAlignedBuffer α} {o : Option BlockId}
  {xs : List UInt8} {data : List (Option UInt8)}

/-- The block starts inside the stored bytes and ends behind them. -/
def RunsPast (scratch : UniqueAlignedBuffer α) (ptr : Ptr) (layout : Layout) : Prop :=
  scratch.asMutPtr.addr ≤ ptr.addr ∧ ptr.addr < scratch.asMutPtr.addr + scratch.len ∧
    scratch.asMutPtr.addr + scratch.len < ptr.addr + layout.size

variable (p) in
/-- `pop_alloc` returns `NotPoppedInReverseOrder`, and the buffer is as before. -/
def Refused (h : Heap) (scratch : UniqueAlignedBuffer α) (ptr : Ptr) (layout : Layout) : Prop :=
  ∃ pos poppedPos poppedSize, popAlloc p h scratch ptr layout
    = .ok (scratch, .error (.notPoppedInReverseOrder pos poppedPos poppedSize))

/-- **What `pop_alloc` refuses.** -/
theorem refused_iff (hs : Stores p h this o xs data) (ptr : Ptr) (layout : Layout) :
    Refused p h this ptr layout ↔ RunsPast this ptr layout := by
  unfold Refused RunsPast
  rw [popAlloc_spec hs, hs.length_eq]
  constructor
  · rintro ⟨pos, poppedPos, poppedSize, hpop⟩
    split at hpop
    case isTrue hin =>
      split at hpop
      · simp only [Except.ok.injEq, Prod.mk.injEq, reduceCtorEq, and_false] at hpop
      · exact ⟨hin.1, hin.2, by omega⟩
    case isFalse => cases hpop
  · rintro ⟨hlo, hhi, hpast⟩
    rw [if_pos ⟨hlo, hhi⟩, if_neg (by omega)]
    exact ⟨_, _, _, rfl⟩

/-- Blocks inside the stored bytes, each behind the end of the earlier ones; the latest first. -/
structure Stacked (scratch : UniqueAlignedBuffer α) (live : List (Slice × Layout)) : Prop where
  inside : ∀ block ∈ live, scratch.asMutPtr.addr ≤ block.1.ptr.addr ∧
    block.1.ptr.addr + block.2.size ≤ scratch.asMutPtr.addr + scratch.len
  apart : live.Pairwise fun later earlier => earlier.1.ptr.addr + earlier.2.size ≤ later.1.ptr.addr

variable {live : List (Slice × Layout)}

theorem Stacked.nil : Stacked this [] := ⟨nofun, .nil⟩

/-- A block behind all stored bytes. -/
theorem Stacked.push (hs : Stacked this live) {this' : UniqueAlignedBuffer α} {block : Slice}
    {layout : Layout} (haddr : this'.asMutPtr.addr = this.asMutPtr.addr)
    (hstart : this.asMutPtr.addr + this.len ≤ block.ptr.addr)
    (hend : block.ptr.addr + layout.size = this'.asMutPtr.addr + this'.len) :
    Stacked this' ((block, layout) :: live) := by
  constructor
  · intro other hmem
    rcases List.mem_cons.mp hmem with rfl | hmem
    · dsimp only
      exact ⟨by omega, hend.le⟩
    · obtain ⟨hlo, hhi⟩ := hs.inside other hmem
      exact ⟨by omega, by omega⟩
  · refine .cons (fun other hmem => ?_) hs.apart
    obtain ⟨-, hhi⟩ := hs.inside other hmem
    exact hhi.trans hstart

/-- The bytes are cut at the start of a block: the earlier ones are left. -/
theorem Stacked.cut (hs : Stacked this live) {k : Nat} {block : Slice × Layout}
    (hk : live[k]? = some block) {this' : UniqueAlignedBuffer α}
    (haddr : this'.asMutPtr.addr = this.asMutPtr.addr)
    (hlen : this'.len = block.1.ptr.addr - this.asMutPtr.addr) : Stacked this' (live.drop (k + 1)) := by
  obtain ⟨hlt, hget⟩ := List.getElem?_eq_some_iff.mp hk
  have hlo := (hs.inside block (List.mem_of_getElem? hk)).1
  have hfrom : live.drop k = block :: live.drop (k + 1) := by
    rw [List.drop_eq_getElem_cons hlt, hget]
  have hbelow := hs.apart.drop (i := k)
  rw [hfrom, List.pairwise_cons] at hbelow
  constructor
  · intro other hmem
    have hend := hbelow.1 other hmem
    have hstart := (hs.inside other (List.mem_of_mem_drop hmem)).1
    exact ⟨by omega, by omega⟩
  · exact hbelow.2

/-- A stacked block does not run past the end. -/
theorem Stacked.not_runsPast (hs : Stacked this live) {block : Slice × Layout} (hmem : block ∈ live) :
    ¬RunsPast this block.1.ptr block.2 := by
  rintro ⟨-, -, hpast⟩
  have hend := (hs.inside block hmem).2
  omega

variable (p) in
/-- **The order is kept**: `pop_alloc` of every live block but the latest is refused. -/
def KeepsOrder (h : Heap) (scratch : UniqueAlignedBuffer α) (live : List (Slice × Layout)) : Prop :=
  ∀ block ∈ live.tail, Refused p h scratch block.1.ptr block.2

/-- Only a block that is not stacked is refused. -/
theorem keepsOrder_iff_of_stacked (hs : Stores p h this o xs data) (hstacked : Stacked this live) :
    KeepsOrder p h this live ↔ live.length ≤ 1 := by
  cases live with
  | nil => exact ⟨fun _ => Nat.zero_le 1, fun _ => nofun⟩
  | cons latest earlier =>
      cases earlier with
      | nil => exact ⟨fun _ => Nat.le_refl 1, fun _ => nofun⟩
      | cons block rest =>
          constructor
          · intro hkeeps
            have hrefused := hkeeps block (.head _)
            rw [refused_iff hs] at hrefused
            exact absurd hrefused (hstacked.not_runsPast (.tail _ (.head _)))
          · intro hlen
            simp at hlen

end Scratch

namespace SerializerPool

open Scratch UniqueAlignedBuffer

variable {p : Params} (A : Allocator p.toTarget) (capacity : Nat) (policy : Nat → Bool) (i : Nat)

/-- A use of one serializer's scratch buffer, in any order. -/
inductive Attempt where
  | push (layout : Layout)
  /-- `pop_alloc` of the `k`-th live block; the latest is the 0-th -/
  | pop (k : Nat)
  | other (action : Action)

/-- `live` are the blocks that were pushed and not given back, by their own `pop_alloc` or with an
    earlier block. -/
def attempt (s : Nesting) : Attempt → Except Fault Nesting
  | .push layout =>
      match scratchOf s.pool i with
      | none => return s
      | some scratch => do
          let pool ← step A capacity policy s.pool (.pushAlloc i layout)
          match Scratch.pushAlloc A s.pool.buffers.heap scratch layout with
          | .ok (_, _, block) => return { s with pool, live := (block, layout) :: s.live }
          -- a panic of the reservation
          | .error _ => return { s with pool }
  | .pop k =>
      match scratchOf s.pool i, s.live[k]? with
      | some scratch, some (block, layout) => do
          let pool ← step A capacity policy s.pool (.popAlloc i block.ptr layout)
          let (_, answer) ← Scratch.popAlloc p s.pool.buffers.heap scratch block.ptr layout
          let live := match answer with
            | .ok () => s.live.drop (k + 1)
            | .error _ => s.live
          return ⟨pool, live, s.popped ++ [answer]⟩
      | _, _ => return s
  | .other action =>
      if action.endsNesting i = true then return s
      else do
        let pool ← step A capacity policy s.pool action
        return { s with pool }

/-- No `push_alloc` moves the scratch buffer while a block is live. -/
def KeepsPlace (s : Nesting) : Attempt → Prop
  | .push layout => s.live = [] ∨ ∀ scratch, scratchOf s.pool i = some scratch →
      match Scratch.pushAlloc A s.pool.buffers.heap scratch layout with
      | .ok (_, scratch', _) => scratch'.asMutPtr.addr = scratch.asMutPtr.addr
      | .error _ => True
  | _ => True

/-- The serializer is in use. -/
structure Nesting.Usable (p : Params) (s : Nesting) : Prop where
  buffers : BuffersInv capacity policy p s.pool
  owned : Owned s.pool
  scratch : ∃ scratch, scratchOf s.pool i = some scratch

section

variable {capacity policy i} {s : Nesting}

theorem Nesting.Usable.stores (hs : s.Usable capacity policy i p) {scratch : UniqueAlignedBuffer Home}
    (hscratch : scratchOf s.pool i = some scratch) :
    ∃ o xs data, Stores p s.pool.buffers.heap scratch o xs data := by
  obtain ⟨this, -, hslot⟩ := scratchOf_eq_some.mp hscratch
  exact (hs.buffers.slots _ _ hslot).1

/-- The live blocks are stacked in the scratch buffer. -/
def Nesting.InOrder (i : Nat) (s : Nesting) : Prop :=
  ∀ scratch, scratchOf s.pool i = some scratch → Stacked scratch s.live

/-- A use that is not an abort leaves the serializer in use, and one that does not move the buffer leaves
    the live blocks stacked. -/
def Continues (capacity : Nat) (policy : Nat → Bool) (i : Nat) (A : Allocator p.toTarget) (s : Nesting)
    (a : Attempt) (r : Except Fault Nesting) : Prop :=
  (∃ s', r = .ok s' ∧ s'.Usable capacity policy i p ∧
    (s.InOrder i → KeepsPlace A i s a → s'.InOrder i)) ∨ ∃ f, r = .error f ∧ f.Aborts

theorem push_continues (hs : s.Usable capacity policy i p) (layout : Layout) :
    Continues capacity policy i A s (.push layout) (attempt A capacity policy i s (.push layout)) := by
  obtain ⟨scratch, hscratch⟩ := hs.scratch
  obtain ⟨o, xs, data, hstores⟩ := hs.stores hscratch
  have hlen := hstores.length_eq
  simp only [attempt, hscratch]
  rcases scratch_proceeds A (.pushAlloc i layout) hs.buffers hs.owned hscratch rfl rfl with
    ⟨pool, hstep, hbuffers, howned, hnext⟩ | ⟨f, hf, habort⟩
  case inr =>
    rw [hf]
    exact Or.inr ⟨f, rfl, habort⟩
  simp only [BufferOp.apply] at hnext
  rw [hstep, ok_bind]
  left
  -- nothing happens to the buffer when the reservation panics
  have hpanic : scratchOf pool i = some scratch → s.InOrder i →
      Nesting.InOrder i { s with pool } := by
    intro hpool horder scratch' hscratch'
    rw [hpool] at hscratch'
    cases hscratch'
    exact horder scratch hscratch
  rcases Scratch.pushAlloc_spec A hstores layout with ⟨h', this', o', data', hp, hl⟩ | hp | hp
  · rw [hp] at hnext ⊢
    dsimp only at hnext
    refine ⟨_, rfl, ⟨hbuffers, howned, this', hnext⟩, fun horder hkeep scratch' hscratch' => ?_⟩
    rw [hnext] at hscratch'
    cases hscratch'
    have hlen' := hl.stores.length_eq
    rw [List.length_append, List.length_replicate, allocLen] at hlen'
    rcases hkeep with hlive | hkeep
    · show Stacked this' (_ :: s.live)
      rw [hlive]
      refine ⟨fun block hmem => ?_, .cons (fun _ hmem => absurd hmem List.not_mem_nil) .nil⟩
      rw [List.mem_singleton.mp hmem]
      show _ ≤ this'.asMutPtr.addr + _ ∧ this'.asMutPtr.addr + _ + layout.size ≤ _
      exact ⟨by omega, by omega⟩
    · have haddr : this'.asMutPtr.addr = scratch.asMutPtr.addr := by
        have hplace := hkeep scratch hscratch
        rw [hp] at hplace
        exact hplace
      refine (horder scratch hscratch).push haddr ?_ ?_
      · show _ ≤ this'.asMutPtr.addr + _
        omega
      · show this'.asMutPtr.addr + _ + layout.size = _
        omega
  · rw [hp] at hnext ⊢
    exact ⟨_, rfl, ⟨hbuffers, howned, scratch, hnext⟩, fun horder _ => hpanic hnext horder⟩
  · rw [hp] at hnext ⊢
    exact ⟨_, rfl, ⟨hbuffers, howned, scratch, hnext⟩, fun horder _ => hpanic hnext horder⟩

theorem pop_continues (hs : s.Usable capacity policy i p) (k : Nat) :
    Continues capacity policy i A s (.pop k) (attempt A capacity policy i s (.pop k)) := by
  obtain ⟨scratch, hscratch⟩ := hs.scratch
  obtain ⟨o, xs, data, hstores⟩ := hs.stores hscratch
  simp only [attempt, hscratch]
  cases hk : s.live[k]? with
  | none => exact Or.inl ⟨s, rfl, hs, fun horder _ => horder⟩
  | some block =>
      obtain ⟨block, layout⟩ := block
      dsimp only
      rcases scratch_proceeds A (.popAlloc i block.ptr layout) hs.buffers hs.owned hscratch rfl rfl with
        ⟨pool, hstep, hbuffers, howned, hnext⟩ | ⟨f, hf, habort⟩
      case inr =>
        rw [hf]
        exact Or.inr ⟨f, rfl, habort⟩
      simp only [BufferOp.apply] at hnext
      rw [hstep, ok_bind]
      left
      -- the answer decides whether the bytes are cut
      have hpop := popAlloc_spec hstores block.ptr layout
      split at hpop
      case isTrue hin =>
        split at hpop
        · rw [hpop] at hnext ⊢
          refine ⟨_, rfl, ⟨hbuffers, howned, _, hnext⟩, fun horder _ scratch' hscratch' => ?_⟩
          rw [hnext] at hscratch'
          cases hscratch'
          exact (horder scratch hscratch).cut hk rfl rfl
        · rw [hpop] at hnext ⊢
          refine ⟨_, rfl, ⟨hbuffers, howned, _, hnext⟩, fun horder _ scratch' hscratch' => ?_⟩
          rw [hnext] at hscratch'
          cases hscratch'
          exact horder scratch hscratch
      case isFalse =>
        rw [hpop] at hnext ⊢
        refine ⟨_, rfl, ⟨hbuffers, howned, _, hnext⟩, fun horder _ scratch' hscratch' => ?_⟩
        rw [hnext] at hscratch'
        cases hscratch'
        exact horder scratch hscratch

theorem other_continues (hs : s.Usable capacity policy i p) (action : Action) :
    Continues capacity policy i A s (.other action) (attempt A capacity policy i s (.other action)) := by
  simp only [attempt]
  by_cases hends : action.endsNesting i = true
  · rw [if_pos hends]
    exact Or.inl ⟨s, rfl, hs, fun horder _ => horder⟩
  · rw [if_neg hends]
    rcases step_proceeds A capacity policy hs.buffers action with
      ⟨pool, hstep, hbuffers, -⟩ | ⟨f, hf, habort⟩
    · obtain ⟨scratch, hscratch⟩ := hs.scratch
      have hnext := scratchOf_other hs.owned hs.buffers (Bool.eq_false_of_not_eq_true hends) hscratch hstep
      have howned := hs.owned.step A capacity policy hs.buffers hstep
      rw [hstep, ok_bind]
      refine Or.inl ⟨_, rfl, ⟨hbuffers, howned, scratch, hnext⟩, fun horder _ scratch' hscratch' => ?_⟩
      rw [hnext] at hscratch'
      cases hscratch'
      exact horder scratch hscratch
    · rw [hf]
      exact Or.inr ⟨f, rfl, habort⟩

/-- **One use** of the scratch buffer. -/
theorem attempt_continues (hs : s.Usable capacity policy i p) (a : Attempt) :
    Continues capacity policy i A s a (attempt A capacity policy i s a) := by
  cases a with
  | push layout => exact push_continues A hs layout
  | pop k => exact pop_continues A hs k
  | other action => exact other_continues A hs action

end

/-- Use starts without live blocks, at any serializer in use. -/
theorem Nesting.Usable.start {actions : List Action} {s : State} {this : Serializer}
    (hrun : runFrom A capacity policy actions = .ok s) (hi : s.serializers[i]? = some (.live this)) :
    Nesting.Usable capacity policy i p ⟨s, [], []⟩ := by
  obtain ⟨inv, owned⟩ := owned_of_run A capacity policy hrun
  obtain ⟨-, scratch, hscratch⟩ := owned.unique i this hi
  exact ⟨inv, owned, scratch, scratchOf_eq_some.mpr ⟨this, hi, hscratch⟩⟩

/-- **When `pop_alloc` keeps the order**, in every state that any use of any serializer's scratch buffer
    leads to: it refuses the live blocks below the latest exactly if each of them starts inside the stored
    bytes and ends behind them. That takes a reallocation that left the block behind: as long as no
    `push_alloc` moves the buffer under live blocks, the order is kept exactly when there is at most one. -/
theorem order_kept_iff (actions : List Action) {s : State} {this : Serializer}
    (hrun : runFrom A capacity policy actions = .ok s) (hi : s.serializers[i]? = some (.live this))
    (attempts : List Attempt) {t : Nesting}
    (ht : run (attempt A capacity policy i) ⟨s, [], []⟩ attempts = .ok t) :
    ∃ scratch, scratchOf t.pool i = some scratch ∧
      (KeepsOrder p t.pool.buffers.heap scratch t.live ↔
        ∀ block ∈ t.live.tail, RunsPast scratch block.1.ptr block.2) ∧
      (Along (KeepsPlace A i) (attempt A capacity policy i) ⟨s, [], []⟩ attempts →
        (KeepsOrder p t.pool.buffers.heap scratch t.live ↔ t.live.length ≤ 1)) := by
  have hstart := Nesting.Usable.start A capacity policy i hrun hi
  have husable : t.Usable capacity policy i p := by
    rcases run_rule (fun t => t.Usable capacity policy i p) Fault.Aborts (fun t a husable =>
      (attempt_continues A husable a).imp (fun ⟨t', ht', husable', _⟩ => ⟨t', ht', husable'⟩) id)
      attempts _ hstart with ⟨t', ht', husable⟩ | ⟨f, hf, -⟩
    · rw [ht] at ht'
      cases ht'
      exact husable
    · rw [ht] at hf
      cases hf
  obtain ⟨scratch, hscratch⟩ := husable.scratch
  obtain ⟨o, xs, data, hstores⟩ := husable.stores hscratch
  refine ⟨scratch, hscratch, ?_, fun hplace => ?_⟩
  · exact forall₂_congr fun block _ => refused_iff hstores block.1.ptr block.2
  · rcases run_rule_along (KeepsPlace A i) (fun t => t.Usable capacity policy i p ∧ t.InOrder i)
      Fault.Aborts (fun t a ⟨husable, horder⟩ hkeep => (attempt_continues A husable a).imp
        (fun ⟨t', ht', husable', hnext⟩ => ⟨t', ht', husable', hnext horder hkeep⟩) id)
      attempts _ ⟨hstart, fun _ _ => .nil⟩ hplace with ⟨t', ht', -, horder⟩ | ⟨f, hf, -⟩
    · rw [ht] at ht'
      cases ht'
      exact keepsOrder_iff_of_stacked hstores (horder scratch hscratch)
    · rw [ht] at hf
      cases hf

/-- Two blocks of 4 bytes, which fit the first capacity. -/
def twoLive : List Attempt := [.push ⟨4, 1⟩, .push ⟨4, 1⟩]

theorem order_kept_iff_twoLive :
    ∃ s this t scratch, runFrom (.bump (Params.x86_64 true).toTarget) 1 (fun _ => true) [.get] = .ok s ∧
      s.serializers[0]? = some (.live this) ∧
      run (attempt (.bump (Params.x86_64 true).toTarget) 1 (fun _ => true) 0) ⟨s, [], []⟩ twoLive = .ok t ∧
      scratchOf t.pool 0 = some scratch ∧
      (KeepsOrder (Params.x86_64 true) t.pool.buffers.heap scratch t.live ↔
        ∀ block ∈ t.live.tail, RunsPast scratch block.1.ptr block.2) ∧
      (KeepsOrder (Params.x86_64 true) t.pool.buffers.heap scratch t.live ↔ t.live.length ≤ 1) := by
  refine ⟨_, ⟨0, 1, ∅⟩, _, _, rfl, rfl, rfl, rfl, ?_⟩
  obtain ⟨scratch, hscratch, hiff, hplace⟩ := order_kept_iff (.bump (Params.x86_64 true).toTarget) 1
    (fun _ => true) 0 [.get] rfl (show _[0]? = _ from rfl) twoLive rfl
  cases hscratch
  refine ⟨hiff, hplace ⟨Or.inl rfl, Or.inr fun scratch hscratch => ?_, trivial⟩⟩
  -- the second block finds room
  cases hscratch
  rfl

/-- **The first of two blocks is accepted** while the second is live, and the buffer is empty then. -/
theorem not_keepsOrder_twoLive :
    ∃ s this t scratch block, runFrom (.bump (Params.x86_64 true).toTarget) 1 (fun _ => true) [.get] = .ok s ∧
      s.serializers[0]? = some (.live this) ∧
      run (attempt (.bump (Params.x86_64 true).toTarget) 1 (fun _ => true) 0) ⟨s, [], []⟩ twoLive = .ok t ∧
      scratchOf t.pool 0 = some scratch ∧ t.live.tail = [block] ∧
      popAlloc (Params.x86_64 true) t.pool.buffers.heap scratch block.1.ptr block.2
        = .ok ({ scratch with len := 0 }, .ok ()) ∧
      ¬KeepsOrder (Params.x86_64 true) t.pool.buffers.heap scratch t.live := by
  refine ⟨_, ⟨0, 1, ∅⟩, _, _, _, rfl, rfl, rfl, rfl, rfl, rfl, ?_⟩
  intro hkeeps
  obtain ⟨pos, poppedPos, poppedSize, hpop⟩ := hkeeps _ (.head _)
  cases hpop

end SerializerPool

end RkyvUtils
