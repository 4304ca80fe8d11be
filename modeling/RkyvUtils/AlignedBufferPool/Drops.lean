import RkyvUtils.AlignedBufferPool.AllocatorClones
import RkyvUtils.AlignedBufferPool.Safety
import RkyvUtils.AlignedBufferPool.Values

/-!
# `AlignedBufferPool.Drops` — giving blocks up comes to an end

A drop is several steps, and one can start another: the last reference to the pool drops every queued buffer.
Two things are proved about it. Whatever else happens in between, the steps of all drops together are at most
11 for each action that starts one (`drops_end`): the measure is how many steps every handle has left, and a
queued buffer has those of its later drop. And no step of a drop fails: once every handle and the pool are
dropped, in any order of the steps left, these run out and no block stays allocated (`shutdown`).
-/

namespace RkyvUtils

open Word Run Ownership SlotTable

namespace BufferPool

open UniqueAlignedBuffer RawAlignedBuffer

variable {p : Params} {cfg : Config} {s t : State}

/-! ## The steps that are left -/

/-- The handle is being given up. -/
def Slot.Releasing : Slot → Prop
  | .releasing _ _ _ => True
  | _ => False

instance : DecidablePred Slot.Releasing
  | .releasing _ _ _ => .isTrue trivial
  | .unique _ | .shared _ | .gone => .isFalse id

/-- How many steps are left at most from `deallocate_buffer` on, if the pool can be upgraded to or not. -/
def callLeft (alive : Bool) : Nat := if alive then 8 else 2

/-- How many steps are left at most. A push leaves the drop of the queued buffer, which is 5 steps when the
    pool is gone, and the drop of the upgraded reference. -/
def Pc.left (alive : Bool) : Pc → Nat
  | .fetchSub => 3 + callLeft alive
  | .load => 2 + callLeft alive
  | .store => 1 + callLeft alive
  | .call _ => callLeft alive
  | .push _ _ => 7
  | .reject _ => 2
  | .dealloc _ | .unref => 1

def Slot.left (alive : Bool) : Slot → Nat
  | .releasing _ pc _ => pc.left alive
  | _ => 0

/-- Whether the pool can be upgraded to. -/
def State.alive (s : State) : Bool := decide (s.strong ≠ 0)

/-- How many steps all drops have left at most, those that may start by themselves included. -/
def State.left (s : State) : Nat :=
  total (Slot.left s.alive) s.slots + Pc.fetchSub.left false * total List.length s.queues

/-- An action that can start giving a block up. -/
def Action.givesUp : Action → Bool
  | .drop _ | .tryUnique _ | .mutate _ (.unique .shrinkToFit) | .mutate _ (.unique (.shrinkTo _)) => true
  | _ => false

/-- 1 for a step of a handle that is being given up. -/
def dropSteps (s : State) : Action → Nat
  | .advance i => if ∃ slot, s.slots[i]? = some slot ∧ slot.Releasing then 1 else 0
  | _ => 0

/-! ## One step -/

section

variable {i : Nat} {slot slot' : Slot} {this : RawAlignedBuffer Home} {pc : Pc} {after : After}

/-- One handle changes. -/
theorem left_setSlot {u : State} (hslots : u.slots = s.slots) (halive : u.alive = s.alive)
    (hqueues : u.queues = s.queues) (hi : s.slots[i]? = some slot) (slot' : Slot) :
    (u.setSlot i slot').left + slot.left s.alive = s.left + slot'.left s.alive := by
  have hset := total_set (f := Slot.left s.alive) hi slot'
  show total (Slot.left u.alive) (u.slots.set i slot') + _ * total List.length u.queues + _ = _
  rw [hslots, halive, hqueues]
  show _ = total (Slot.left s.alive) s.slots + _ * total List.length s.queues + _
  omega

theorem left_finishSlot {alive : Bool} : (finishSlot this after).left alive = 0 := by
  cases after <;> rfl

/-- A pool that is gone leaves no handle more steps. -/
theorem Slot.left_false_le {alive : Bool} (slot : Slot) : slot.left false ≤ slot.left alive := by
  cases slot with
  | releasing this pc after => cases alive <;> cases pc <;> simp [Slot.left, Pc.left, callLeft]
  | _ => exact Nat.le_refl _

theorem Pc.left_pos {alive : Bool} (pc : Pc) : 0 < pc.left alive := by
  cases alive <;> cases pc <;> simp [Pc.left, callLeft]

theorem Slot.left_le (alive : Bool) (slot : Slot) : slot.left alive ≤ 11 := by
  cases slot with
  | releasing this pc after => cases alive <;> cases pc <;> simp [Slot.left, Pc.left, callLeft]
  | _ => exact Nat.zero_le _

/-- **A strong reference goes.** With the last one the drops of the queued buffers start. -/
theorem left_releaseStrong : (releaseStrong cfg s).left ≤ s.left := by
  by_cases hlast : s.strong - 1 = 0
  · have heq : releaseStrong cfg s = dropInner cfg { s with strong := s.strong - 1 } := if_pos hlast
    have halive : (dropInner cfg { s with strong := s.strong - 1 }).alive = false :=
      decide_eq_false (not_not_intro hlast)
    have hslots : total (Slot.left false) s.slots ≤ total (Slot.left s.alive) s.slots :=
      total_mono Slot.left_false_le
    have hqueues : total List.length (s.queues.map fun _ => ([] : List (UniqueAlignedBuffer Home))) = 0 := by
      rw [total_map]
      exact (total_const fun _ => rfl).trans (Nat.zero_mul _)
    have hnew : total (Slot.left false) (startDrops s.queues.flatten)
        = Pc.fetchSub.left false * total List.length s.queues := by
      rw [startDrops, total_map, ← show s.queues.flatten.length = total List.length s.queues
        from List.length_flatten]
      exact total_const fun _ => rfl
    rw [heq]
    unfold State.left
    rw [halive]
    show total (Slot.left false) (s.slots ++ startDrops s.queues.flatten)
      + Pc.fetchSub.left false * total List.length (s.queues.map fun _ => []) ≤ _
    rw [total_append, hqueues, hnew]
    omega
  · have heq : releaseStrong cfg s = { s with strong := s.strong - 1 } := if_neg hlast
    have halive : State.alive { s with strong := s.strong - 1 } = s.alive := by
      rw [State.alive, decide_eq_true hlast, State.alive, decide_eq_true (by omega)]
    rw [heq]
    unfold State.left
    rw [halive]

/-- A buffer goes to a queue. -/
theorem left_push {queue : Nat} {raw : RawBuffer} {entries : List (UniqueAlignedBuffer Home)}
    {entry : UniqueAlignedBuffer Home} (hi : s.slots[i]? = some (.releasing this (.push queue raw) after))
    (hqueue : s.queues[queue]? = some entries) :
    ({ s with queues := s.queues.set queue (entries ++ [entry]) }.setSlot i
      (.releasing this .unref after)).left < s.left := by
  have hslots := total_set (f := Slot.left s.alive) hi (.releasing this .unref after)
  have hqueues := total_set (f := List.length) hqueue (entries ++ [entry])
  rw [List.length_append, List.length_singleton] at hqueues
  simp only [Slot.left, Pc.left] at hslots
  show total (Slot.left s.alive) (s.slots.set i (.releasing this .unref after))
    + 5 * total List.length (s.queues.set queue (entries ++ [entry]))
      < total (Slot.left s.alive) s.slots + 5 * total List.length s.queues
  omega

/-- **A step of giving a block up** leaves fewer. -/
theorem advance_left (inv : Inv p cfg s) (hi : s.slots[i]? = some (.releasing this pc after))
    (h : advance p cfg s i this after pc = .ok t) : t.left < s.left := by
  -- the handle is finished, or goes to a program counter with fewer steps left
  have hfinish : ∀ {u : State}, u.slots = s.slots → u.alive = s.alive → u.queues = s.queues →
      (finish u i this after).left < s.left := by
    intro u hslots halive hqueues
    have hset := left_setSlot (u := u) hslots halive hqueues hi (finishSlot this after)
    have hpos : 0 < (Slot.releasing this pc after).left s.alive := Pc.left_pos pc
    rw [left_finishSlot] at hset
    show (u.setSlot i (finishSlot this after)).left < _
    omega
  have hnext : ∀ {u : State} {pc' : Pc}, u.slots = s.slots → u.alive = s.alive → u.queues = s.queues →
      pc'.left s.alive < pc.left s.alive → (u.setSlot i (.releasing this pc' after)).left < s.left := by
    intro u pc' hslots halive hqueues hless
    have hset := left_setSlot (u := u) hslots halive hqueues hi (.releasing this pc' after)
    simp only [Slot.left] at hset
    omega
  cases pc with
  | fetchSub =>
      simp only [advance] at h
      split at h
      · cases h
        exact hfinish rfl rfl rfl
      · obtain ⟨⟨heap, old⟩, -, h⟩ := bind_eq_ok h
        dsimp only at h
        split at h
        · cases h
          exact hfinish rfl rfl rfl
        · cases h
          exact hnext rfl rfl rfl (by simp only [Pc.left]; omega)
  | load =>
      obtain ⟨_, -, h⟩ := bind_eq_ok h
      cases h
      exact hnext rfl rfl rfl (by simp only [Pc.left]; omega)
  | store =>
      obtain ⟨heap, -, h⟩ := bind_eq_ok h
      obtain ⟨raw, -, h⟩ := bind_eq_ok h
      cases h
      exact hnext rfl rfl rfl (by simp only [Pc.left]; omega)
  | call raw =>
      have hcall : 1 < callLeft s.alive := by unfold callLeft; split <;> omega
      simp only [advance] at h
      split at h
      · obtain ⟨heap, -, h⟩ := bind_eq_ok h
        cases h
        exact hfinish rfl rfl rfl
      · split at h
        · cases h
          exact hnext rfl rfl rfl hcall
        · split at h
          case isTrue hstrong =>
            cases h
            exact hnext rfl rfl rfl hcall
          case isFalse hstrong =>
            -- the upgrade succeeds, and the pool cannot go away before `unref`
            have halive : s.alive = true := decide_eq_true hstrong
            cases h
            refine hnext rfl ?_ rfl ?_
            · rw [halive]
              exact decide_eq_true (Nat.succ_ne_zero _)
            · rw [halive]
              simp [Pc.left, callLeft]
  | dealloc raw =>
      obtain ⟨heap, -, h⟩ := bind_eq_ok h
      cases h
      exact hfinish rfl rfl rfl
  | push queue raw =>
      obtain ⟨⟨-, hlt, -⟩, -⟩ := inv.slots i _ hi
      have hqueue : s.queues[queue]? = some (s.queues.getD queue []) := by
        rw [List.getD_eq_getElem?_getD, List.getElem?_eq_getElem (by rw [inv.queues_length]; exact hlt)]
        rfl
      simp only [advance] at h
      split at h
      · -- the drop of the entry is paid for by the push
        cases h
        exact left_push hi hqueue
      · cases h
        exact hnext rfl rfl rfl (by simp [Pc.left])
  | reject raw =>
      obtain ⟨heap, -, h⟩ := bind_eq_ok h
      cases h
      exact hnext rfl rfl rfl (by simp [Pc.left])
  | unref =>
      cases h
      -- with the last reference the drops of the queued buffers begin, whose steps were counted in the queue
      have hchanges : Changes s (releaseStrong cfg s) none [] := .releaseStrong s
      have hi' : (releaseStrong cfg s).slots[i]? = some (.releasing this .unref after) :=
        (hchanges.others i (List.getElem?_eq_some_iff.mp hi).1 fun he => by cases he).trans hi
      have hset := left_setSlot rfl rfl rfl hi' (finishSlot this after)
      rw [left_finishSlot] at hset
      have hless : (releaseStrong cfg s).left ≤ s.left := left_releaseStrong
      show ((releaseStrong cfg s).setSlot i (finishSlot this after)).left < s.left
      simp only [Slot.left, Pc.left] at hset
      omega

/-- A handle is added, and an entry of the queues may go. -/
theorem left_addSlot {u : State} (hslots : u.slots = s.slots) (halive : u.alive = s.alive)
    (hqueues : total List.length u.queues ≤ total List.length s.queues) (hslot : slot.left s.alive = 0) :
    (u.addSlot slot).left ≤ s.left := by
  show total (Slot.left u.alive) (u.slots ++ [slot]) + Pc.fetchSub.left false * total List.length u.queues
    ≤ total (Slot.left s.alive) s.slots + Pc.fetchSub.left false * total List.length s.queues
  rw [hslots, halive, total_append, total_singleton, hslot]
  have := Nat.mul_le_mul_left (Pc.fetchSub.left false) hqueues
  omega

/-- A handle that is not being given up changes. -/
theorem left_setSlot_le {u : State} (hslots : u.slots = s.slots) (halive : u.alive = s.alive)
    (hqueues : u.queues = s.queues) (hi : s.slots[i]? = some slot) (slot' : Slot) :
    (u.setSlot i slot').left ≤ s.left + slot'.left s.alive := by
  have := left_setSlot hslots halive hqueues hi slot'
  omega

end

variable (A : Allocator p.toTarget)

/-- An operation that gives the block up is a shrink. -/
theorem givesUp_of_frees {i : Nat} {this : UniqueAlignedBuffer Home} {op : BufferOp}
    (h : op.frees p this = true) : (Action.mutate i op).givesUp = true := by
  cases op with
  | unique op =>
      cases op with
      | shrinkTo _ | shrinkToFit => rfl
      | _ => cases h
  | _ => cases h

theorem dropSteps_le (s : State) (action : Action) : dropSteps s action ≤ 1 := by
  cases action with
  | advance i =>
      simp only [dropSteps]
      split <;> omega
  | _ => exact Nat.zero_le _

/-- A handle that is being given up has a step left. -/
theorem dropSteps_le_left (s : State) (action : Action) : dropSteps s action ≤ s.left := by
  cases action with
  | advance i =>
      simp only [dropSteps]
      split
      case isTrue h =>
        obtain ⟨slot, hi, hslot⟩ := h
        have hle := le_total (f := Slot.left s.alive) hi
        cases slot with
        | releasing this pc after =>
            have hpos : 0 < (Slot.releasing this pc after).left s.alive := Pc.left_pos pc
            unfold State.left
            omega
        | _ => exact hslot.elim
      case isFalse => exact Nat.zero_le _
  | _ => exact Nat.zero_le _

/-- **Every action** leaves no more steps than before, but for the drop it may start. -/
theorem step_left (inv : Inv p cfg s) {action : Action} (h : step A cfg s action = .ok t) :
    dropSteps s action + t.left ≤ s.left + if action.givesUp then 11 else 0 := by
  have hkeep : dropSteps s action = 0 → t.left ≤ s.left →
      dropSteps s action + t.left ≤ s.left + if action.givesUp then 11 else 0 := by
    intro hzero hle
    rw [hzero]
    omega
  -- an action that starts a drop pays for all of its steps
  have hstart : ∀ {i : Nat} {slot slot' : Slot}, dropSteps s action = 0 → action.givesUp = true →
      s.slots[i]? = some slot → t = s.setSlot i slot' →
      dropSteps s action + t.left ≤ s.left + if action.givesUp then 11 else 0 := by
    intro i slot slot' hzero hgives hi ht
    have hset := left_setSlot_le (u := s) rfl rfl rfl hi slot'
    have hle := slot'.left_le s.alive
    rw [hzero, hgives, if_pos rfl, ht]
    omega
  cases action with
  | new =>
      cases h
      exact hkeep rfl (left_addSlot rfl rfl (Nat.le_refl _) rfl)
  | withCapacity capacity =>
      simp only [step] at h
      split at h
      · cases h
        exact hkeep rfl (left_addSlot rfl rfl (Nat.le_refl _) rfl)
      · split at h
        · cases h
          exact hkeep rfl (Nat.le_refl _)
        · cases h
  | get queue =>
      simp only [step] at h
      split at h
      · cases h
        exact hkeep rfl (Nat.le_refl _)
      · split at h
        case h_1 =>
          cases h
          exact hkeep rfl (Nat.le_refl _)
        case h_2 =>
          cases h
          exact hkeep rfl (left_addSlot rfl rfl (Nat.le_refl _) rfl)
        case h_3 this rest hqueue =>
          cases h
          -- a buffer leaves the queue, and with it the drop it might have had there
          have hqueues := total_set (f := List.length) hqueue rest
          rw [List.length_cons] at hqueues
          refine hkeep rfl (left_addSlot rfl rfl ?_ rfl)
          show total List.length (s.queues.set queue rest) ≤ _
          omega
  | mutate i op =>
      rcases step_mutate A h with rfl | ⟨this, hi, h⟩
      · exact hkeep rfl (Nat.le_refl _)
      · rcases mutate_done A h with ⟨hfrees, rfl⟩ | ⟨-, heap, this', e, -, rfl⟩
        · exact hstart rfl (givesUp_of_frees hfrees) hi rfl
        · exact hkeep rfl (left_setSlot_le rfl rfl rfl hi _)
  | intoShared i =>
      rcases step_intoShared A h with rfl | ⟨this, shared, hi, -, rfl⟩
      · exact hkeep rfl (Nat.le_refl _)
      · have hset : (s.setSlot i .gone).left ≤ s.left := left_setSlot_le rfl rfl rfl hi _
        have hadd : ((s.setSlot i .gone).addSlot (.shared shared)).left ≤ (s.setSlot i .gone).left :=
          left_addSlot rfl rfl (Nat.le_refl _) rfl
        exact hkeep rfl (hadd.trans hset)
  | clone i =>
      rcases step_clone A h with rfl | ⟨this, heap, copy, hi, -, rfl⟩
      · exact hkeep rfl (Nat.le_refl _)
      · exact hkeep rfl (left_addSlot rfl rfl (Nat.le_refl _) rfl)
  | tryUnique i =>
      rcases step_tryUnique A h with rfl | ⟨this, hi, ⟨unique, -, rfl⟩ | rfl⟩
      · exact hkeep rfl (Nat.le_refl _)
      · -- the same block under a new handle
        have hset : (s.setSlot i .gone).left ≤ s.left := left_setSlot_le rfl rfl rfl hi _
        have hadd : ((s.setSlot i .gone).addSlot (.unique unique)).left ≤ (s.setSlot i .gone).left :=
          left_addSlot rfl rfl (Nat.le_refl _) rfl
        exact hkeep rfl (hadd.trans hset)
      · exact hstart rfl rfl hi rfl
  | read i =>
      obtain rfl := step_read A h
      exact hkeep rfl (Nat.le_refl _)
  | drop i =>
      rcases step_drop A h with rfl | ⟨this, hi, rfl⟩ | ⟨this, hi, rfl⟩
      · exact hkeep rfl (Nat.le_refl _)
      · exact hstart rfl rfl hi rfl
      · exact hstart rfl rfl hi rfl
  | advance i =>
      rcases step_advance A h with ⟨rfl, hnot⟩ | ⟨this, pc, after, hi, h⟩
      · refine hkeep (if_neg ?_) (Nat.le_refl _)
        rintro ⟨slot, hi, hslot⟩
        cases slot with
        | releasing this pc after => exact hnot this pc after hi
        | _ => exact hslot
      · have hless := advance_left inv hi h
        have hone := dropSteps_le s (.advance i)
        omega
  | dropPool =>
      simp only [step] at h
      split at h
      · cases h
        exact hkeep rfl (Nat.le_refl _)
      · cases h
        have hless : (releaseStrong cfg { s with handle := false }).left
            ≤ State.left { s with handle := false } := left_releaseStrong
        exact hkeep rfl hless

/-- **Drops come to an end.** In every run, and up to an abort, the steps that all drops take together are at
    most 11 for each action that starts one, whatever the other handles and the pool do in between. -/
theorem drops_end (actions : List Action) :
    tally dropSteps (step A cfg) (State.init cfg) actions ≤ 11 * actions.countP Action.givesUp := by
  have hnew : (State.init cfg).left = 0 := by
    have hqueues : total List.length (List.replicate cfg.queues ([] : List (UniqueAlignedBuffer Home))) = 0 :=
      total_eq_zero.mpr fun q entries hq => by
        rw [(List.mem_replicate.mp (List.mem_of_getElem? hq)).2]
        rfl
    show 0 + Pc.fetchSub.left false * total List.length (List.replicate cfg.queues []) = 0
    rw [hqueues, Nat.mul_zero]
  have hpaid : total (fun action : Action => if action.givesUp then 11 else 0) actions
      = 11 * actions.countP Action.givesUp := total_ite
  -- `State.left` is the potential
  have hrun := run_potential (Inv p cfg) State.left dropSteps (fun action => if action.givesUp then 11 else 0)
    (fun s action t inv h => ⟨inv.of_step A h, step_left A inv h⟩)
    (fun s action f _ _ => (dropSteps_le_left s action).trans (Nat.le_add_right _ _))
    actions (State.init cfg) Inv.init
  rwa [hnew, hpaid, Nat.zero_add] at hrun

/-! ## No step of a drop fails -/

/-- `deallocate_buffer` accepts what a drop passes to it. -/
theorem Given.deallocates {h : Heap} {raw : RawBuffer} (hraw : Given p h raw) :
    ∃ heap, deallocateBuffer p h raw = .ok heap := by
  obtain ⟨b, blk, rfl, hb, ok⟩ := hraw
  have hdealloc : deallocateBuffer p h ⟨(blk.counted 1).dataPtr p b,
      .pack p.toTarget (blk.counted 1).data.length true⟩
      = .ok (h.update b { blk.counted 1 with status := .deallocated }) :=
    deallocateBuffer_eq hb (ok.counted 1) rfl
  exact ⟨_, hdealloc⟩

/-- **The next step of a drop** neither panics nor aborts. -/
theorem advance_ok (inv : Inv p cfg s) {i : Nat} {this : RawAlignedBuffer Home} {pc : Pc} {after : After}
    (hi : s.slots[i]? = some (.releasing this pc after)) : ∃ t, advance p cfg s i this after pc = .ok t := by
  obtain ⟨hpc, -⟩ := inv.slots i _ hi
  cases pc with
  | fetchSub =>
      obtain ⟨v, data, hg⟩ := hpc
      simp only [advance]
      cases hg with
      | empty alloc =>
          rw [isAllocated_newIn, if_pos (by simp)]
          exact ⟨_, rfl⟩
      | @block b blk rc v alloc hb ok hle =>
          have hlt := ok.data_lt
          rw [isAllocated_onBlock _ _ _ (by omega), if_neg (by simp), headerPtr_onBlock,
            fetchSub_counted hb ok, ok_bind]
          dsimp only
          split <;> exact ⟨_, rfl⟩
  | load =>
      obtain ⟨b, blk, v, alloc, rfl, hb, ok, hle⟩ := hpc
      simp only [advance]
      rw [headerPtr_onBlock, loadRefCount_counted hb ok, ok_bind]
      exact ⟨_, rfl⟩
  | store =>
      obtain ⟨b, blk, v, alloc, rfl, hb, ok, hle⟩ := hpc
      have hget : (s.heap.update b (blk.counted 1)).blocks[b]? = some (blk.counted 1) :=
        List.getElem?_set_self (List.getElem?_eq_some_iff.mp hb).1
      simp only [advance]
      rw [headerPtr_onBlock, storeRefCount_counted hb ok, ok_bind, dropRaw_onBlock hget ok, ok_bind]
      exact ⟨_, rfl⟩
  | call raw =>
      -- `Given` is what every call of `deallocate_buffer` gets, whoever frees the block in the end
      obtain ⟨heap, hd⟩ := Given.deallocates hpc
      simp only [advance]
      cases this.alloc with
      | global =>
          dsimp only
          rw [hd, ok_bind]
          exact ⟨_, rfl⟩
      | pool queue =>
          dsimp only
          split
          · exact ⟨_, rfl⟩
          · split <;> exact ⟨_, rfl⟩
  | dealloc raw | reject raw =>
      obtain ⟨heap, hd⟩ := Given.deallocates hpc.1
      simp only [advance]
      rw [hd, ok_bind]
      exact ⟨_, rfl⟩
  | push queue raw =>
      simp only [advance]
      split <;> exact ⟨_, rfl⟩
  | unref => exact ⟨_, rfl⟩

/-! ## Shutting everything down -/

/-- What is done when nothing is used any more. -/
inductive Closing where
  | drop (i : Nat)
  | advance (i : Nat)
  | dropPool
deriving DecidableEq

def Closing.action : Closing → Action
  | .drop i => .drop i
  | .advance i => .advance i
  | .dropPool => .dropPool

/-- A buffer that somebody has. -/
def Slot.InUse : Slot → Prop
  | .unique _ | .shared _ => True
  | _ => False

instance : DecidablePred Slot.InUse
  | .unique _ | .shared _ => .isTrue trivial
  | .releasing _ _ _ | .gone => .isFalse id

/-- The action does something. -/
def Closing.Acts (s : State) : Closing → Prop
  | .drop i => ∃ slot, s.slots[i]? = some slot ∧ slot.InUse
  | .advance i => ∃ slot, s.slots[i]? = some slot ∧ slot.Releasing
  | .dropPool => s.handle = true

instance (s : State) : DecidablePred (Closing.Acts s)
  | .drop i => inferInstanceAs (Decidable (∃ slot, s.slots[i]? = some slot ∧ slot.InUse))
  | .advance i => inferInstanceAs (Decidable (∃ slot, s.slots[i]? = some slot ∧ slot.Releasing))
  | .dropPool => inferInstanceAs (Decidable (s.handle = true))

/-- 1 for an action that does something. -/
def closeSteps (s : State) (closing : Closing) : Nat := if closing.Acts s then 1 else 0

/-- A later drop of the handle, with all its steps. -/
def Slot.toDrop : Slot → Nat
  | .unique _ | .shared _ | .releasing _ _ (.emptied _) => 12
  | _ => 0

/-- How many actions are left at most until everything is gone. -/
def State.toClose (s : State) : Nat := s.left + total Slot.toDrop s.slots + s.handle.toNat

/-- Everything is gone, and no block is left. -/
structure State.Closed (s : State) : Prop where
  handle : s.handle = false
  slots : ∀ (i : Nat) (slot : Slot), s.slots[i]? = some slot → slot = .gone
  blocks : ∀ (b : BlockId) (blk : Block), s.heap.blocks[b]? = some blk → ¬blk.Live

def closeStep (A : Allocator p.toTarget) (cfg : Config) (s : State) (closing : Closing) : Except Fault State :=
  step A cfg s closing.action

/-- No action of closing fails. -/
theorem closeStep_ok (inv : Inv p cfg s) (closing : Closing) : ∃ t, closeStep A cfg s closing = .ok t := by
  cases closing with
  | drop i =>
      simp only [closeStep, Closing.action, step]
      split <;> exact ⟨_, rfl⟩
  | advance i =>
      simp only [closeStep, Closing.action, step]
      split
      case h_1 this pc after hi => exact advance_ok inv hi
      case h_2 => exact ⟨_, rfl⟩
  | dropPool =>
      simp only [closeStep, Closing.action, step]
      split <;> exact ⟨_, rfl⟩

theorem toDrop_finishSlot {this : RawAlignedBuffer Home} {pc : Pc} {after : After} :
    (finishSlot this after).toDrop = (Slot.releasing this pc after).toDrop := by
  cases after <;> rfl

/-- The drops that start by themselves are not dropped again. -/
theorem total_toDrop_startDrops {bufs : List (UniqueAlignedBuffer Home)} :
    total Slot.toDrop (startDrops bufs) = 0 := by
  rw [startDrops, total_map]
  exact (total_const fun _ => rfl).trans (Nat.zero_mul _)

theorem toClose_releaseStrong : (releaseStrong cfg s).toClose ≤ s.toClose := by
  have hleft : (releaseStrong cfg s).left ≤ s.left := left_releaseStrong
  have hslots : total Slot.toDrop (releaseStrong cfg s).slots = total Slot.toDrop s.slots := by
    unfold releaseStrong
    dsimp only
    split
    · show total Slot.toDrop (s.slots ++ startDrops s.queues.flatten) = _
      rw [total_append, total_toDrop_startDrops, Nat.add_zero]
    · rfl
  have hhandle : (releaseStrong cfg s).handle = s.handle := by
    unfold releaseStrong
    dsimp only
    split <;> rfl
  rw [State.toClose, State.toClose, hslots, hhandle]
  omega

/-- **One action** of closing leaves fewer, if it does something. -/
theorem closeStep_toClose (inv : Inv p cfg s) {closing : Closing} (h : closeStep A cfg s closing = .ok t) :
    closeSteps s closing + t.toClose ≤ s.toClose := by
  unfold closeSteps
  cases closing with
  | drop i =>
      have hdrop : ∀ {slot : Slot} {this : RawAlignedBuffer Home}, s.slots[i]? = some slot → slot.toDrop = 12 →
          slot.left s.alive = 0 → t = s.setSlot i (.releasing this .fetchSub .dropped) →
          1 + t.toClose ≤ s.toClose := by
        intro slot this hi htoDrop hzero ht
        have hleft := left_setSlot (u := s) rfl rfl rfl hi (.releasing this .fetchSub .dropped)
        have hset := total_set (f := Slot.toDrop) hi (.releasing this .fetchSub .dropped)
        have hle := (Slot.releasing this .fetchSub .dropped).left_le s.alive
        rw [ht]
        simp only [State.toClose, State.setSlot] at hleft ⊢
        rw [htoDrop, show (Slot.releasing this .fetchSub .dropped).toDrop = 0 from rfl] at hset
        omega
      simp only [closeStep, Closing.action, step] at h
      split at h
      case h_1 this hi =>
        cases h
        rw [if_pos ⟨_, hi, trivial⟩]
        exact hdrop hi rfl rfl rfl
      case h_2 this hi =>
        cases h
        rw [if_pos ⟨_, hi, trivial⟩]
        exact hdrop hi rfl rfl rfl
      case h_3 hunique hshared =>
        cases h
        have hidle : ¬Closing.Acts s (.drop i) := by
          rintro ⟨slot, hi, hslot⟩
          cases slot with
          | unique this => exact hunique this hi
          | shared this => exact hshared this hi
          | _ => exact hslot
        rw [if_neg hidle]
        omega
  | advance i =>
      rcases step_advance A h with ⟨rfl, hnot⟩ | ⟨this, pc, after, hi, h⟩
      · have hidle : ¬Closing.Acts t (.advance i) := by
          rintro ⟨slot, hi, hslot⟩
          cases slot with
          | releasing this pc after => exact hnot this pc after hi
          | _ => exact hslot
        rw [if_neg hidle]
        omega
      · have hless := advance_left inv hi h
        -- the step may start drops of queued buffers, but makes no handle that anybody has to drop
        obtain ⟨hhandle, slot', bufs, hslots, hslot'⟩ := advance_movesOn hi h
        have hset := total_set (f := Slot.toDrop) hi slot'
        have htoDrop : slot'.toDrop = (Slot.releasing this pc after).toDrop := by
          rcases hslot' with rfl | ⟨pc', rfl⟩
          · exact toDrop_finishSlot
          · cases after <;> rfl
        unfold State.toClose
        rw [hslots, total_append, total_toDrop_startDrops, hhandle]
        split <;> omega
  | dropPool =>
      simp only [closeStep, Closing.action, step] at h
      split at h
      case isTrue hhandle =>
        cases h
        rw [if_neg (show ¬Closing.Acts s .dropPool by rw [Closing.Acts, hhandle]; exact Bool.false_ne_true)]
        omega
      case isFalse hhandle =>
        cases h
        have htrue : s.handle = true := Bool.eq_true_of_not_eq_false hhandle
        have hless : (releaseStrong cfg { s with handle := false }).toClose
            ≤ State.toClose { s with handle := false } := toClose_releaseStrong
        have hpool : s.toClose = State.toClose { s with handle := false } + 1 := by
          show _ + s.handle.toNat = _
          rw [htrue]
          rfl
        rw [if_pos (show Closing.Acts s .dropPool from htrue)]
        omega

/-- Where nothing can be done any more everything is gone. -/
theorem closed_of_idle (inv : Inv p cfg s) (hidle : ∀ closing : Closing, ¬closing.Acts s) : s.Closed := by
  have hhandle : s.handle = false := Bool.eq_false_of_not_eq_true (hidle .dropPool)
  have hgone : ∀ (i : Nat) (slot : Slot), s.slots[i]? = some slot → slot = .gone := by
    intro i slot hi
    cases slot with
    | unique this | shared this => exact absurd ⟨_, hi, trivial⟩ (hidle (.drop i))
    | releasing this pc after => exact absurd ⟨_, hi, trivial⟩ (hidle (.advance i))
    | gone => rfl
  have hupgrades : s.upgrades = 0 := total_eq_zero.mpr fun i slot hi => by
    rw [hgone i slot hi]
    rfl
  have hstrong : s.strong = 0 := by
    rw [inv.strong, hhandle, hupgrades]
    rfl
  refine ⟨hhandle, hgone, fun b blk hb hlive => ?_⟩
  have hrefs : s.refs b = 0 := total_eq_zero.mpr fun i slot hi => by
    rw [hgone i slot hi]
    rfl
  have hsoles : s.soles b = 0 := by
    have hslots : total (fun slot => hit slot.sole b) s.slots = 0 := total_eq_zero.mpr fun i slot hi => by
      rw [hgone i slot hi]
      rfl
    have hqueued : s.queued b = 0 := total_eq_zero.mpr fun q entries hq => by
      rw [inv.drained hstrong q entries hq]
      rfl
    rw [State.soles, hslots, hqueued]
  -- a live block is counted once, by a handle or a queue; there are none
  have hown := inv.own b
  have halive : s.heap.alive b = 1 := mark_eq_one.mpr ⟨blk, hb, hlive⟩
  omega

/-- How many actions of closing do something at most: a handle may come back from a shrink once. -/
def State.closeBound (s : State) : Nat :=
  23 * s.slots.countP (fun slot => slot ≠ .gone) + 5 * s.queues.flatten.length + 1

theorem toClose_le_closeBound : s.toClose ≤ s.closeBound := by
  have hweigh : ∀ {f : Slot → Nat} {c : Nat}, (∀ slot, f slot ≤ if decide (slot ≠ .gone) then c else 0) →
      total f s.slots ≤ c * s.slots.countP fun slot => slot ≠ .gone := by
    intro f c hf
    exact (total_mono hf).trans_eq total_ite
  have hleft : total (Slot.left s.alive) s.slots ≤ 11 * s.slots.countP fun slot => slot ≠ .gone :=
    hweigh fun slot => by
      cases slot with
      | gone => exact Nat.le_refl _
      | _ => exact Slot.left_le _ _
  have htoDrop : total Slot.toDrop s.slots ≤ 12 * s.slots.countP fun slot => slot ≠ .gone :=
    hweigh fun slot => by
      cases slot with
      | releasing this pc after => cases after <;> simp [Slot.toDrop]
      | _ => exact Nat.le_refl _
  have hqueues : total List.length s.queues = s.queues.flatten.length := List.length_flatten.symm
  have hhandle := s.handle.toNat_le
  unfold State.toClose State.closeBound State.left
  rw [hqueues, show Pc.fetchSub.left false = 5 from rfl]
  omega

/-- **What closing does**, from one state on. -/
structure ShutsDown (A : Allocator p.toTarget) (cfg : Config) (s : State) : Prop where
  /-- in any order no action fails, few do anything, and when none does any more everything is gone -/
  anyOrder : ∀ closing : List Closing, ∃ t, run (closeStep A cfg) s closing = .ok t ∧
    tally closeSteps (closeStep A cfg) s closing ≤ s.closeBound ∧ ((∀ closing : Closing, ¬closing.Acts t) → t.Closed)
  /-- and that can be reached -/
  someOrder : ∃ closing t, closing.length ≤ s.closeBound ∧ run (closeStep A cfg) s closing = .ok t ∧ t.Closed

theorem closeStep_inv (inv : Inv p cfg s) {closing : Closing} (h : closeStep A cfg s closing = .ok t) :
    Inv p cfg t := inv.of_step A h

theorem Inv.shutsDown (inv : Inv p cfg s) : ShutsDown A cfg s where
  anyOrder closing := by
    have hrun := run_rule (Inv p cfg) (fun _ => False)
      (fun s closing inv => .inl <| by
        obtain ⟨t, ht⟩ := closeStep_ok A inv closing
        exact ⟨t, ht, closeStep_inv A inv ht⟩) closing s inv
    rcases hrun with ⟨t, ht, hinv⟩ | ⟨f, -, hf⟩
    · refine ⟨t, ht, ?_, closed_of_idle hinv⟩
      have htally : tally closeSteps (closeStep A cfg) s closing ≤ s.toClose + total (fun _ => 0) closing :=
        run_potential (Inv p cfg) State.toClose closeSteps (fun _ => 0)
        (fun s closing t inv h => ⟨closeStep_inv A inv h, closeStep_toClose A inv h⟩)
        (fun s closing f inv h => by
          obtain ⟨t, ht⟩ := closeStep_ok A inv closing
          rw [ht] at h
          cases h) closing s inv
      have hle : s.toClose ≤ s.closeBound := toClose_le_closeBound
      have hnone : total (fun _ => 0) closing = 0 := total_eq_zero.mpr fun _ _ _ => rfl
      rw [hnone] at htally
      omega
    · exact hf.elim
  someOrder := by
    have hsettles : ∀ s, Inv p cfg s → s.Closed ∨
        ∃ closing t, closeStep A cfg s closing = .ok t ∧ Inv p cfg t ∧ t.toClose < s.toClose := by
      intro s inv
      -- while anything can be done, doing it brings the end closer
      by_cases hidle : ∀ closing : Closing, ¬closing.Acts s
      · exact .inl (closed_of_idle inv hidle)
      · obtain ⟨closing, hacts⟩ := not_forall_not.mp hidle
        obtain ⟨t, ht⟩ := closeStep_ok A inv closing
        have hless := closeStep_toClose A inv ht
        rw [closeSteps, if_pos hacts] at hless
        exact .inr ⟨closing, t, ht, closeStep_inv A inv ht, by omega⟩
    obtain ⟨closing, t, hlength, hrun, -, hclosed⟩ :=
      run_settles (Inv p cfg) State.Closed State.toClose hsettles s inv
    exact ⟨closing, t, hlength.trans toClose_le_closeBound, hrun, hclosed⟩

/-- **Everything can be shut down.** From every state a run can reach, drops of the handles and of the pool
    and the steps of these drops, in any order whatever, never fail, only a bounded number of them does
    anything, and when nothing is left to do all handles are gone and no block is allocated. -/
theorem shutdown (actions : List Action) :
    match runFrom A cfg actions with
    | .ok s => ShutsDown A cfg s
    | .error f => f.Aborts := by
  rcases run_proceeds cfg A actions with ⟨s, hr, inv⟩ | ⟨f, hr, hf⟩
  · rw [hr]
    exact inv.shutsDown A
  · rw [hr]
    exact hf

end BufferPool

end RkyvUtils
