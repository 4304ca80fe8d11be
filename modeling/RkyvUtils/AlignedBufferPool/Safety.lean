import RkyvUtils.AlignedBufferPool.Steps

/-!
# `AlignedBufferPool.Safety` — what holds in every interleaving

The invariant of `Invariant`, read as promises to a user: counts and handles agree and a block is given
up once, by the last to have it (`counts_handles`); a pooled block has one owner at a time and is given
back in the end (`owned_once`); what a shared buffer shows never changes (`shared_never_changes`); the
allocator is called inside its contract only (`allocator_contract_kept`). Each is about every run, which is
to say about every interleaving of the steps of all handles.
-/

namespace RkyvUtils

open Word Ownership SlotTable Run

namespace BufferPool

open UniqueAlignedBuffer RawAlignedBuffer

variable {p : Params} {cfg : Config} {s : State}

/-! ## Handles -/

/-- The block of a handle that has not yet performed its `fetch_sub`. -/
def Slot.held : Slot → Option BlockId
  | .unique this => this.buf.buf.prov
  | .shared this => this.buf.buf.prov
  | .releasing this .fetchSub _ => this.buf.prov
  | _ => none

/-- How many handles block `b` has. -/
def State.handles (s : State) (b : BlockId) : Nat := total (fun slot => hit slot.held b) s.slots

/-- Whether a handle still has to do with block `b`, be it only to give it up. -/
def Slot.Has (slot : Slot) (b : BlockId) : Prop := slot.sole = some b ∨ slot.ref = some b

/-- **Who has a block to himself** has it alone. -/
theorem Inv.eq_of_has (inv : Inv p cfg s) {i j : Nat} {slot slot' : Slot} {b : BlockId}
    (hb : slot.sole = some b) (hi : s.slots[i]? = some slot) (hj : s.slots[j]? = some slot')
    (hhas : slot'.Has b) : j = i := by
  -- two stakes in one block would count 2
  by_contra hij
  rcases hhas with hsole | href
  · exact inv.sole_ne hij hi hj hsole hb
  · have := inv.refs_eq_zero (sole_pos hi hb)
    have := ref_pos hj href
    omega

theorem refs_le_handles (b : BlockId) : s.refs b ≤ s.handles b := by
  have h : s.refs b ≤ s.handles b + total (fun _ => 0) s.slots := total_le_add fun slot => by
    cases slot with
    | releasing this pc after => cases pc <;> simp [Slot.held, Slot.ref]
    | _ => simp [Slot.held, Slot.ref]
  rwa [total_eq_zero.mpr fun _ _ _ => rfl, Nat.add_zero] at h

theorem handles_le (b : BlockId) : s.handles b ≤ s.refs b + s.soles b := by
  have h : s.handles b ≤ s.refs b + total (fun slot => hit slot.sole b) s.slots :=
    total_le_add fun slot => by
      cases slot with
      | releasing this pc after => cases pc <;> simp [Slot.held, Slot.ref]
      | _ => simp [Slot.held, Slot.ref, Slot.sole]
  unfold State.soles
  omega

/-- Handles that share a block all refer to it. -/
theorem Inv.handles_eq (inv : Inv p cfg s) {b : BlockId} (hpos : 0 < s.refs b) :
    s.handles b = s.refs b := by
  have := refs_le_handles (s := s) b
  have := handles_le (s := s) b
  have := inv.soles_eq_zero hpos
  omega

/-- A unique handle is the only one. -/
theorem Inv.handles_eq_one (inv : Inv p cfg s) {i : Nat} {this : UniqueAlignedBuffer Home} {b : BlockId}
    (hi : s.slots[i]? = some (.unique this)) (hb : this.buf.buf.prov = some b) : s.handles b = 1 := by
  have hge : hit this.buf.buf.prov b ≤ s.handles b := le_total (f := fun slot => hit slot.held b) hi
  rw [hb, hit_self] at hge
  have := handles_le (s := s) b
  have := inv.refs_eq_zero (sole_pos hi hb)
  have := inv.own b
  have := alive_le_one s.heap b
  omega

/-! ## Counts and handles -/

/-- **What the reference count means**, in one state. -/
structure CountsHandles (p : Params) (s : State) : Prop where
  /-- the count in the header of a block with handles is their number -/
  counted : ∀ b, 0 < s.handles b → ∃ blk, s.heap.blocks[b]? = some blk ∧ blk.status = .allocated ∧
    blk.header = some ⟨s.handles b, blk.data.length⟩
  /-- a unique handle is the only handle of its block -/
  unique : ∀ (i : Nat) (this : UniqueAlignedBuffer Home) (b : BlockId),
    s.slots[i]? = some (.unique this) → this.buf.buf.prov = some b →
      s.handles b = 1 ∧ ∀ (j : Nat) (slot : Slot), s.slots[j]? = some slot → slot.Has b → j = i

/-- **When blocks are passed to `deallocate_buffer`**, for an allocator that frees them. -/
structure GivenOnce (A : Allocator p.toTarget) (cfg : Config) (s : State) : Prop where
  /-- no block is passed twice -/
  once : ∀ b, s.given.count b ≤ 1
  /-- a block all of whose handles are gone was passed, unless a reallocation replaced it -/
  done : ∀ (b : BlockId) (blk : Block), s.heap.blocks[b]? = some blk → blk.status ≠ .replaced →
    (∀ (j : Nat) (slot : Slot), s.slots[j]? = some slot → ¬slot.Has b) → s.given.count b = 1
  /-- the call is the last handle's, with the capacity of the header and a count of 1 -/
  last : ∀ (i : Nat) (this : RawAlignedBuffer Home) (raw : RawBuffer) (after : After),
    s.slots[i]? = some (.releasing this (.call raw) after) →
      ∃ b blk, raw.buf.prov = some b ∧ s.heap.blocks[b]? = some blk ∧ blk.status = .allocated ∧
        blk.header = some ⟨1, raw.cap.value p.toTarget⟩ ∧ s.given.count b = 0 ∧
        ∀ (j : Nat) (slot : Slot), s.slots[j]? = some slot → slot.Has b → j = i
  /-- no other step passes a block -/
  only : ∀ (action : Action) (s' : State), step A cfg s action = .ok s' → s'.given = s.given ∨
    ∃ i this raw after, action = .advance i ∧ s.slots[i]? = some (.releasing this (.call raw) after) ∧
      s'.given = s.given ++ raw.buf.prov.toList

theorem Inv.countsHandles (inv : Inv p cfg s) : CountsHandles p s where
  counted b hpos := by
    by_cases hrefs : 0 < s.refs b
    · have hown := inv.own b
      have halive := alive_le_one s.heap b
      obtain ⟨blk, hb, hlive⟩ := mark_eq_one.mp (show mark Block.Live s.heap.blocks b = 1 from by
        show s.heap.alive b = 1
        omega)
      rw [inv.handles_eq hrefs]
      exact ⟨blk, hb, hlive, inv.counted b blk hb hrefs⟩
    · -- the handle is a unique one
      obtain ⟨i, slot, hi, hhit⟩ := exists_of_total_pos hpos
      have hheld := hit_pos.mp hhit
      have hnot : slot.ref ≠ some b := fun href => hrefs (ref_pos hi href)
      cases slot with
      | unique this =>
          obtain ⟨⟨o, xs, data, hs⟩, -⟩ := inv.slots i _ hi
          rw [inv.handles_eq_one hi hheld]
          obtain ⟨hh, -, -⟩ := hs
          change this.buf.buf.prov = some b at hheld
          generalize this.buf = buf at hh hheld
          cases hh with
          | empty => cases hheld
          | @block b' blk alloc hb ok header =>
              cases hheld
              exact ⟨blk, hb, ok.status, header⟩
      | shared this => exact absurd hheld hnot
      | releasing this pc after =>
          cases pc with
          | fetchSub => exact absurd hheld hnot
          | _ => cases hheld
      | gone => cases hheld
  unique i this b hi hb :=
    ⟨inv.handles_eq_one hi hb, fun j slot hj hhas =>
      inv.eq_of_has (show (Slot.unique this).sole = some b from hb) hi hj hhas⟩

/-- The handle an action is about. -/
def Action.handle : Action → Option Nat
  | .mutate i _ | .intoShared i | .clone i | .tryUnique i | .read i | .drop i | .advance i => some i
  | .new | .withCapacity _ | .get _ | .dropPool => none

/-- The block that the next step of a handle passes to `deallocate_buffer`. -/
def Pc.passed : Pc → List BlockId
  | .call raw => raw.buf.prov.toList
  | _ => []

/-- The block that an action passes to `deallocate_buffer`. -/
def passedBy (s : State) : Action → List BlockId
  | .advance i =>
      match s.slots[i]? with
      | some (.releasing _ pc _) => pc.passed
      | _ => []
  | _ => []

theorem passedBy_of_not {i : Nat}
    (hnot : ∀ this pc after, s.slots[i]? ≠ some (.releasing this pc after)) : passedBy s (.advance i) = [] := by
  cases hi : s.slots[i]? with
  | none => simp only [passedBy, hi]
  | some slot =>
      cases slot with
      | releasing this pc after => exact absurd hi (hnot this pc after)
      | _ => simp only [passedBy, hi]

/-- What changes from `s` to `t` besides the heap: the blocks `passed` are passed to `deallocate_buffer`,
    and of the handles there were only `handle` may have changed. -/
structure Changes (s t : State) (handle : Option Nat) (passed : List BlockId) : Prop where
  given : t.given = s.given ++ passed
  grows : s.slots.length ≤ t.slots.length
  others : ∀ j, j < s.slots.length → handle ≠ some j → t.slots[j]? = s.slots[j]?

section

variable {t u : State} {handle : Option Nat} {passed : List BlockId} {i : Nat} {slot : Slot}

theorem Changes.refl : Changes s s handle [] :=
  ⟨(List.append_nil _).symm, Nat.le_refl _, fun _ _ _ => rfl⟩

/-- One handle changes. -/
theorem Changes.set (hslots : t.slots = s.slots.set i slot) (hgiven : t.given = s.given ++ passed) :
    Changes s t (some i) passed where
  given := hgiven
  grows := by rw [hslots, List.length_set]
  others j _ hne := by
    rw [hslots]
    exact List.getElem?_set_ne fun he => hne (by rw [he])

/-- One handle is given up. -/
theorem Changes.gone : Changes s (s.setSlot i .gone) (some i) [] := .set rfl (List.append_nil _).symm

/-- Handles are added, after what else has happened. -/
theorem Changes.append (h : Changes s t handle passed) {more : List Slot}
    (hslots : u.slots = t.slots ++ more) (hgiven : u.given = t.given) :
    Changes s u handle passed where
  given := hgiven.trans h.given
  grows := by
    have := h.grows
    rw [hslots, List.length_append]; omega
  others j hj hne := by
    have := h.grows
    rw [hslots, List.getElem?_append_left (by omega)]
    exact h.others j hj hne

theorem Changes.releaseStrong (t : State) : Changes t (releaseStrong cfg t) handle [] := by
  unfold BufferPool.releaseStrong
  dsimp only
  split
  · exact Changes.refl.append rfl rfl
  · exact Changes.refl.append (List.append_nil _).symm rfl

/-- The drop of a strong reference, and then the end of the handle. -/
theorem Changes.finish (h : Changes s t (some i) passed) (this : RawAlignedBuffer Home) (after : After) :
    Changes s (finish t i this after) (some i) passed where
  given := h.given
  grows := by
    show s.slots.length ≤ (t.slots.set i (finishSlot this after)).length
    rw [List.length_set]; exact h.grows
  others j hj hne := (List.getElem?_set_ne fun he => hne (by rw [he])).trans (h.others j hj hne)

end

/-- **One step of giving a block up.** -/
theorem advance_changes {t : State} {i : Nat} {this : RawAlignedBuffer Home} {after : After} {pc : Pc}
    (h : advance p cfg s i this after pc = .ok t) : Changes s t (some i) pc.passed := by
  cases pc with
  | fetchSub =>
      simp only [advance] at h
      split at h
      · cases h
        exact .set rfl (List.append_nil _).symm
      · obtain ⟨⟨heap, old⟩, -, h⟩ := bind_eq_ok h
        dsimp only at h
        split at h <;> cases h <;> exact .set rfl (List.append_nil _).symm
  | load =>
      obtain ⟨_, -, h⟩ := bind_eq_ok h
      cases h
      exact .set rfl (List.append_nil _).symm
  | store =>
      obtain ⟨_, -, h⟩ := bind_eq_ok h
      obtain ⟨_, -, h⟩ := bind_eq_ok h
      cases h
      exact .set rfl (List.append_nil _).symm
  | call raw =>
      simp only [advance] at h
      split at h
      · obtain ⟨_, -, h⟩ := bind_eq_ok h
        cases h
        exact .set rfl rfl
      · split at h
        · cases h
          exact .set rfl rfl
        · split at h <;> cases h <;> exact .set rfl rfl
  | dealloc raw =>
      obtain ⟨_, -, h⟩ := bind_eq_ok h
      cases h
      exact .set rfl (List.append_nil _).symm
  | push queue raw =>
      simp only [advance] at h
      split at h <;> cases h <;> exact .set rfl (List.append_nil _).symm
  | reject raw =>
      obtain ⟨_, -, h⟩ := bind_eq_ok h
      cases h
      exact .set rfl (List.append_nil _).symm
  | unref =>
      cases h
      exact (Changes.releaseStrong s).finish this after

variable (A : Allocator p.toTarget)

/-- **One action.** -/
theorem step_changes {t : State} {action : Action} (h : step A cfg s action = .ok t) :
    Changes s t action.handle (passedBy s action) := by
  cases action with
  | new =>
      cases h
      exact Changes.refl.append rfl rfl
  | withCapacity capacity =>
      simp only [step] at h
      split at h
      · cases h
        exact Changes.refl.append rfl rfl
      · split at h
        · cases h; exact .refl
        · cases h
  | get queue =>
      simp only [step] at h
      split at h
      · cases h; exact .refl
      · split at h <;> cases h
        · exact .refl
        · exact Changes.refl.append rfl rfl
        · exact Changes.refl.append rfl rfl
  | mutate i op =>
      rcases step_mutate A h with rfl | ⟨this, -, h⟩
      · exact .refl
      · rcases mutate_done A h with ⟨-, rfl⟩ | ⟨-, heap, this', e, -, rfl⟩
        · exact .set rfl (List.append_nil _).symm
        · exact .set rfl (List.append_nil _).symm
  | intoShared i =>
      rcases step_intoShared A h with rfl | ⟨this, shared, -, -, rfl⟩
      · exact .refl
      · exact Changes.gone.append rfl rfl
  | clone i =>
      rcases step_clone A h with rfl | ⟨this, heap, copy, -, -, rfl⟩
      · exact .refl
      · exact Changes.refl.append rfl rfl
  | tryUnique i =>
      rcases step_tryUnique A h with rfl | ⟨this, -, ⟨unique, -, rfl⟩ | rfl⟩
      · exact .refl
      · exact Changes.gone.append rfl rfl
      · exact .set rfl (List.append_nil _).symm
  | read i =>
      rw [step_read A h]
      exact .refl
  | drop i =>
      rcases step_drop A h with rfl | ⟨this, -, rfl⟩ | ⟨this, -, rfl⟩
      · exact .refl
      · exact .set rfl (List.append_nil _).symm
      · exact .set rfl (List.append_nil _).symm
  | advance i =>
      rcases step_advance A h with ⟨rfl, hnot⟩ | ⟨this, pc, after, hi, h⟩
      · rw [passedBy_of_not hnot]
        exact .refl
      · simp only [passedBy, hi]
        exact advance_changes h
  | dropPool =>
      simp only [step] at h
      split at h
      · cases h; exact .refl
      · cases h
        have hchanges : Changes { s with handle := false } (releaseStrong cfg { s with handle := false })
          none [] := .releaseStrong _
        exact ⟨hchanges.given, hchanges.grows, hchanges.others⟩

/-- Nobody has a block that has no stake in it. -/
theorem soles_eq_zero_of_not_has (b : BlockId)
    (hnone : ∀ (j : Nat) (slot : Slot), s.slots[j]? = some slot → ¬slot.Has b) :
    total (fun slot => hit slot.sole b) s.slots = 0 ∧ s.refs b = 0 :=
  ⟨total_eq_zero.mpr fun j slot hj => if_neg fun he => hnone j slot hj (Or.inl he),
    total_eq_zero.mpr fun j slot hj => if_neg fun he => hnone j slot hj (Or.inr he)⟩

theorem Inv.givenOnce (inv : Inv p cfg s) (hz : cfg.queues = 0) : GivenOnce A cfg s where
  once b := by
    rw [inv.given hz b]
    exact mark_le_one _ _
  done b blk hb hnot hnone := by
    rw [inv.given hz b]
    obtain ⟨hsoles, hrefs⟩ := soles_eq_zero_of_not_has b hnone
    have hqueued : s.queued b = 0 := by
      unfold State.queued
      rw [List.length_eq_zero_iff.mp (inv.queues_length.trans hz)]
      rfl
    have hown := inv.own b
    have hdead : blk.status = .deallocated := by
      cases hs : blk.status with
      | allocated =>
          have : s.heap.alive b = 1 := mark_eq_one.mpr ⟨blk, hb, hs⟩
          unfold State.soles at hown
          omega
      | replaced => exact absurd hs hnot
      | deallocated => rfl
    exact mark_eq_one.mpr ⟨blk, hb, hdead⟩
  last i this raw after hi := by
    obtain ⟨⟨b, blk, rfl, hb, ok⟩, -⟩ := inv.slots i _ hi
    refine ⟨b, _, rfl, hb, ok.status, ?_, ?_, fun j slot hj hhas => inv.eq_of_has rfl hi hj hhas⟩
    · dsimp only
      rw [TaggedCap.value_pack ok.data_lt]
      rfl
    · rw [inv.given hz b]
      exact dead_eq_zero (alive_of_block hb (ok.counted 1))
  only action s' h := by
    have hgiven := (step_changes A h).given
    cases action with
    | advance i =>
        simp only [passedBy] at hgiven
        split at hgiven
        case h_1 this pc after hi =>
          cases pc with
          | call raw => exact Or.inr ⟨i, this, raw, after, rfl, hi, hgiven⟩
          | _ => exact Or.inl (hgiven.trans (List.append_nil _))
        case h_2 => exact Or.inl (hgiven.trans (List.append_nil _))
    | _ => exact Or.inl (hgiven.trans (List.append_nil _))

/-- **Counts, handles and deallocation.** In every state of every interleaving, the count in a block's
    header is the number of its handles that have not done their `fetch_sub`, and a unique handle is
    alone; without a pool every block is passed to `deallocate_buffer` at most once, by its last handle,
    with the header's capacity and a count of 1, and exactly once when all its handles are gone unless a
    reallocation replaced it. No run ends with a fault (in particular nothing reads or writes a block that
    is not allocated); a run can only abort, for want of memory or for too many clones. -/
theorem counts_handles (actions : List Action) :
    match runFrom A cfg actions with
    | .ok s => CountsHandles p s ∧ (cfg.queues = 0 → GivenOnce A cfg s)
    | .error f => f = .allocError ∨ f = .refcountAbort := by
  rcases run_proceeds cfg A actions with ⟨s, hr, inv⟩ | ⟨f, hr, hf⟩
  · rw [hr]; exact ⟨inv.countsHandles, inv.givenOnce A⟩
  · rw [hr]; exact hf

/-! ## Owners of pooled blocks -/

/-- **Who owns the blocks of a pool**, in one state. -/
structure OwnedOnce (p : Params) (cfg : Config) (s : State) : Prop where
  /-- an allocated block is in exactly one queue slot, or with handles, and not both -/
  owner : ∀ (b : BlockId) (blk : Block), s.heap.blocks[b]? = some blk → blk.status = .allocated →
    (s.queued b = 1 ∧ ∀ (j : Nat) (slot : Slot), s.slots[j]? = some slot → ¬slot.Has b) ∨
    (s.queued b = 0 ∧ ∃ (j : Nat) (slot : Slot), s.slots[j]? = some slot ∧ slot.Has b)
  /-- handles and queue slots are on allocated blocks only -/
  live : ∀ b, 0 < s.queued b ∨ (∃ (j : Nat) (slot : Slot), s.slots[j]? = some slot ∧ slot.Has b) →
    ∃ blk, s.heap.blocks[b]? = some blk ∧ blk.status = .allocated
  /-- a queue holds no more than its capacity -/
  queue_le : ∀ (q : Nat) (entries : List (UniqueAlignedBuffer Home)),
    s.queues[q]? = some entries → entries.length ≤ cfg.capacity
  /-- a queued buffer is empty, has a count of 1 and the header's capacity, and the policy retains it -/
  queued : ∀ (q : Nat) (entries : List (UniqueAlignedBuffer Home)), s.queues[q]? = some entries →
    ∀ this ∈ entries, this.len = 0 ∧ cfg.policy (this.capacity p) = true ∧
      ∃ b blk, this.buf.buf.prov = some b ∧ s.heap.blocks[b]? = some blk ∧ blk.status = .allocated ∧
        blk.header = some ⟨1, this.capacity p⟩
  /-- once the pool and all handles are gone, so is every block -/
  released : s.handle = false → (∀ (j : Nat) (slot : Slot), s.slots[j]? = some slot → slot = .gone) →
    ∀ (b : BlockId) (blk : Block), s.heap.blocks[b]? = some blk → blk.status ≠ .allocated

/-- Somebody has a block with a stake in it. -/
theorem exists_has_of_pos {b : BlockId}
    (hpos : 0 < total (fun slot => hit slot.sole b) s.slots + s.refs b) :
    ∃ (j : Nat) (slot : Slot), s.slots[j]? = some slot ∧ slot.Has b := by
  by_cases hsole : 0 < total (fun slot => hit slot.sole b) s.slots
  · obtain ⟨j, slot, hj, hhit⟩ := exists_of_total_pos hsole
    exact ⟨j, slot, hj, Or.inl (hit_pos.mp hhit)⟩
  · obtain ⟨j, slot, hj, hhit⟩ := exists_of_total_pos (show 0 < s.refs b by omega)
    exact ⟨j, slot, hj, Or.inr (hit_pos.mp hhit)⟩

theorem Inv.ownedOnce (inv : Inv p cfg s) : OwnedOnce p cfg s where
  owner b blk hb hs := by
    have hown := inv.own b
    have halive : s.heap.alive b = 1 := mark_eq_one.mpr ⟨blk, hb, hs⟩
    unfold State.soles at hown
    -- the stakes in an allocated block add up to 1, and one of them is a queue slot or none is
    by_cases hq : s.queued b = 0
    · exact Or.inr ⟨hq, exists_has_of_pos (by omega)⟩
    · refine Or.inl ⟨by omega, fun j slot hj hhas => ?_⟩
      rcases hhas with hsole | href
      · have h := le_total (f := fun slot => hit slot.sole b) hj
        simp only [hsole, hit_self] at h
        omega
      · have := ref_pos hj href
        omega
  live b h := by
    have hown := inv.own b
    have halive := alive_le_one s.heap b
    have hpos : 0 < s.soles b + s.refs b := by
      rcases h with hq | ⟨j, slot, hj, hsole | href⟩
      · unfold State.soles; omega
      · have := sole_pos hj hsole; omega
      · have := ref_pos hj href; omega
    obtain ⟨blk, hb, hlive⟩ := mark_eq_one.mp (show mark Block.Live s.heap.blocks b = 1 from by
      show s.heap.alive b = 1
      omega)
    exact ⟨blk, hb, hlive⟩
  queue_le := inv.queue_le
  queued q entries hq this hmem := by
    have hqueued := inv.queues q entries hq this hmem
    obtain ⟨b, blk, hraw, hb, ok⟩ := hqueued.given
    have hbuf : this.buf.buf = blk.dataPtr p b := congrArg RawBuffer.buf hraw
    have hcap : this.buf.capOrLen = .pack p.toTarget blk.data.length true := congrArg RawBuffer.cap hraw
    refine ⟨hqueued.len, hqueued.policy, b, _, by rw [hbuf]; rfl, hb, ok.status, ?_⟩
    unfold UniqueAlignedBuffer.capacity RawAlignedBuffer.value
    rw [hcap, TaggedCap.value_pack ok.data_lt]
    rfl
  released hhandle hgone b blk hb hs := by
    have hnone : ∀ (j : Nat) (slot : Slot), s.slots[j]? = some slot → ¬slot.Has b := by
      intro j slot hj hhas
      rw [hgone j slot hj] at hhas
      rcases hhas with h | h <;> cases h
    -- nobody holds a reference to the pool, so the queues are empty
    have hups : s.upgrades = 0 := total_eq_zero.mpr fun j slot hj => by rw [hgone j slot hj]; rfl
    have hstrong := inv.strong
    rw [hhandle, hups] at hstrong
    have hqueued : s.queued b = 0 := total_eq_zero.mpr fun q entries hq => by
      rw [inv.drained hstrong q entries hq]
      rfl
    obtain ⟨hsoles, hrefs⟩ := soles_eq_zero_of_not_has b hnone
    have halive : s.heap.alive b = 1 := mark_eq_one.mpr ⟨blk, hb, hs⟩
    have hown := inv.own b
    unfold State.soles at hown
    omega

/-- **One owner at a time.** In every state of every interleaving with a pool, whatever its policy, an
    allocated block is either with handles or in exactly one queue slot; the queues hold at most their
    capacity, of empty buffers with a count of 1 and the capacity of the header that the policy accepts;
    and when the pool and all handles are gone every block has gone back to the allocator. No run ends
    with a fault: the allocator's contract, which forbids to give a block back that is not allocated, is
    never broken. -/
theorem owned_once (actions : List Action) :
    match runFrom A cfg actions with
    | .ok s => OwnedOnce p cfg s
    | .error f => f = .allocError ∨ f = .refcountAbort := by
  rcases run_proceeds cfg A actions with ⟨s, hr, inv⟩ | ⟨f, hr, hf⟩
  · rw [hr]; exact inv.ownedOnce
  · rw [hr]; exact hf

/-! ## What shared buffers show -/

/-- The handle at place `i`, if it is a shared buffer, shows the bytes `xs`. -/
def ShowsAt (p : Params) (i : Nat) (xs : List UInt8) (s : State) : Prop :=
  ∀ this, s.slots[i]? = some (.shared this) → this.asSlice p s.heap = .ok xs ∧ this.len p = xs.length

/-- **What a run does to shared buffers**, from one state on. -/
structure KeepsShared (A : Allocator p.toTarget) (cfg : Config) (s : State) : Prop where
  /-- a shared buffer shows some bytes, and the same ones after any further steps -/
  same : ∀ (i : Nat) (this : SharedAlignedBuffer Home), s.slots[i]? = some (.shared this) →
    ∃ xs, this.asSlice p s.heap = .ok xs ∧ this.len p = xs.length ∧ ∀ later,
      match run (step A cfg) s later with
      | .ok s' => ShowsAt p i xs s'
      | .error f => f = .allocError ∨ f = .refcountAbort
  /-- `into_shared` makes one with the bytes of the unique buffer -/
  intoShared : ∀ (i : Nat) (this : UniqueAlignedBuffer Home), s.slots[i]? = some (.unique this) →
    ∃ xs s' shared, this.asSlice p s.heap = .ok xs ∧ step A cfg s (.intoShared i) = .ok s' ∧
      s'.slots[s.slots.length]? = some (.shared shared) ∧ ShowsAt p s.slots.length xs s'
  /-- `clone` makes one with the bytes of the original, or aborts -/
  clone : ∀ (i : Nat) (this : SharedAlignedBuffer Home), s.slots[i]? = some (.shared this) →
    ∃ xs, this.asSlice p s.heap = .ok xs ∧
      match step A cfg s (.clone i) with
      | .ok s' => s'.slots[s.slots.length]? = some (.shared this) ∧ ShowsAt p s.slots.length xs s'
      | .error f => f = .refcountAbort

theorem Shows.showsAt {i : Nat} {this : SharedAlignedBuffer Home} {xs : List UInt8}
    {data : List (Option UInt8)} (hi : s.slots[i]? = some (.shared this))
    (hs : Shows p s.heap this xs data) : ShowsAt p i xs s := by
  intro other hother
  rw [hi] at hother
  cases hother
  exact hs.asSlice_eq

/-- **Further steps** keep what the shared buffers of a state show. -/
theorem Inv.run_views (inv : Inv p cfg s) (later : List Action) :
    (∃ s', run (step A cfg) s later = .ok s' ∧ Evolves p cfg s.slots.length s s') ∨
    ∃ f, run (step A cfg) s later = .error f ∧ f.Aborts := by
  refine run_rule (fun s' => Evolves p cfg s.slots.length s s') Fault.Aborts ?_ later s (.refl inv)
  intro s₁ action h₁
  rcases step_proceeds A h₁.inv action with ⟨s₂, hs₂, h₂⟩ | hf
  · have hle : s.slots.length ≤ s₁.slots.length := h₁.views.grows
    exact Or.inl ⟨s₂, hs₂, h₁.trans ⟨h₂.inv, h₂.views.grows, fun i this hi =>
      h₂.views.same i this (Nat.lt_of_lt_of_le hi hle)⟩⟩
  · exact Or.inr hf

theorem Inv.keepsShared (inv : Inv p cfg s) : KeepsShared A cfg s where
  same i this hi := by
    obtain ⟨⟨xs, data, hshows⟩, -⟩ := inv.slots i _ hi
    obtain ⟨hread, hlen⟩ := hshows.asSlice_eq
    refine ⟨xs, hread, hlen, fun later => ?_⟩
    have hlt : i < s.slots.length := (List.getElem?_eq_some_iff.mp hi).1
    rcases inv.run_views A later with ⟨s', hr, hev⟩ | ⟨f, hr, hf⟩
    · rw [hr]
      intro other hother
      obtain ⟨hsame, hread'⟩ := hev.views.same i other hlt hother
      rw [hi] at hsame
      cases hsame
      exact ⟨hread'.trans hread, hlen⟩
    · rw [hr]; exact hf
  intoShared i this hi := by
    obtain ⟨⟨o, xs, data, hs⟩, -⟩ := inv.slots i _ hi
    obtain ⟨shared, hshared, hshows, -⟩ := Stores.intoShared hs
    have hnew : ((s.setSlot i .gone).addSlot (.shared shared)).slots[s.slots.length]?
        = some (.shared shared) := by simp [State.addSlot, State.setSlot]
    refine ⟨xs, _, shared, hs.asSlice_eq, ?_, hnew, Shows.showsAt hnew hshows⟩
    simp only [step, hi]
    rw [hshared, ok_bind]
    rfl
  clone i this hi := by
    obtain ⟨⟨xs, data, hshows⟩, -⟩ := inv.slots i _ hi
    refine ⟨xs, hshows.asSlice_eq.1, ?_⟩
    simp only [step, hi]
    rcases hshows.clone with ⟨h', hclone, hshows'⟩ | hclone
    · rw [hclone, ok_bind]
      have hnew : ({ s with
          heap := h'
          allocMade := s.allocMade + this.buf.alloc.weight }.addSlot (.shared this)).slots[s.slots.length]?
          = some (.shared this) := by simp [State.addSlot]
      exact ⟨hnew, Shows.showsAt hnew hshows'⟩
    · rw [hclone]; rfl

/-- **What a shared buffer shows never changes.** Whatever is done to other handles, to clones and to the
    pool, in any interleaving: from the `into_shared` that makes it (or the `clone`) until it is given up,
    the length and the bytes of a shared buffer are those of the unique buffer it was made from. -/
theorem shared_never_changes (actions : List Action) :
    match runFrom A cfg actions with
    | .ok s => KeepsShared A cfg s
    | .error f => f = .allocError ∨ f = .refcountAbort := by
  rcases run_proceeds cfg A actions with ⟨s, hr, inv⟩ | ⟨f, hr, hf⟩
  · rw [hr]; exact inv.keepsShared A
  · rw [hr]; exact hf

/-! ## The allocator's side -/

/-- **The allocator is called inside its contract only.** `Heap.grow`, `Heap.shrink` and
    `Heap.deallocate` fault with `contract` unless the pointer is the start of an allocated block that the
    old layout fits, and the new size is strictly larger or strictly smaller; `unreachable` and
    `invalidLayout` stand for the `unreachable!()` of `realloc` and the `expect` of `alloc_info`. No
    interleaving of the operations of any number of buffers ends with one of them. -/
theorem allocator_contract_kept (actions : List Action) :
    runFrom A cfg actions ≠ .error .contract ∧ runFrom A cfg actions ≠ .error .unreachable ∧
      runFrom A cfg actions ≠ .error .invalidLayout := by
  rcases run_proceeds cfg A actions with ⟨s, hr, -⟩ | ⟨f, hr, rfl | rfl⟩ <;>
    rw [hr] <;> exact ⟨nofun, nofun, nofun⟩

end BufferPool

end RkyvUtils
