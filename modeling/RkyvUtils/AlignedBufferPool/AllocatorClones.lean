import RkyvUtils.AlignedBufferPool.Steps

/-!
# `AlignedBufferPool.AllocatorClones` — who holds the clones of a `BufferPoolAllocator`

A clone holds a weak reference to the pool and a clone of the inner allocator. The pool has one for each
queue, every handle to one of its buffers has one, every queued buffer, and the closure of `with` has the one
it moves to the queue. `State.clones` counts these holders; each step makes as many clones as it drops and
adds holders, but for one: a push to a full queue, which forgets the rejected buffer with the clone in it.
-/

namespace RkyvUtils

open Word Ownership SlotTable Run

namespace BufferPool

open UniqueAlignedBuffer RawAlignedBuffer

/-- How many clones a handle holds. -/
def Slot.clones : Slot → Nat
  | .unique this => this.buf.alloc.weight
  | .shared this => this.buf.alloc.weight
  -- the closure has its own
  | .releasing this (.push _ _) _ => this.alloc.weight + 1
  | .releasing this _ _ => this.alloc.weight
  | .gone => 0

/-- How many clones the buffers of a queue hold. -/
def queueClones : List (UniqueAlignedBuffer Home) → Nat := total fun this => this.buf.alloc.weight

/-- How many clones the pool holds itself, until its last strong reference is dropped. -/
def innerClones (cfg : Config) (strong : Nat) : Nat := if strong = 0 then 0 else cfg.queues

/-- How many clones are held by anyone. -/
def State.clones (cfg : Config) (s : State) : Nat :=
  total Slot.clones s.slots + total queueClones s.queues + innerClones cfg s.strong

/-- The step pushes a buffer to a full queue. -/
def rejects (cfg : Config) (s : State) : Action → Nat
  | .advance i =>
      match s.slots[i]? with
      | some (.releasing _ (.push queue _) _) =>
          if (s.queues.getD queue []).length < cfg.capacity then 0 else 1
      | _ => 0
  | _ => 0

theorem rejects_of_not {i : Nat}
    (hnot : ∀ this pc after, s.slots[i]? ≠ some (.releasing this pc after)) :
    rejects cfg s (.advance i) = 0 := by
  simp only [rejects]
  split
  case h_1 this queue raw after hi => exact absurd hi (hnot this _ after)
  case h_2 => rfl

/-- The pool and all buffers are gone. -/
structure State.Over (s : State) : Prop where
  handle : s.handle = false
  slots : ∀ slot ∈ s.slots, slot = .gone

variable {p : Params} {cfg : Config} {s t : State}

/-! ## Counting clones -/

/-- From `s` to `t`, as many clones were made as dropped and newly held, and `lost` more. -/
def Balanced (cfg : Config) (s t : State) (lost : Nat) : Prop :=
  t.allocMade + (s.allocDropped + s.clones cfg) = s.allocMade + (t.allocDropped + t.clones cfg) + lost

theorem Balanced.refl : Balanced cfg s s 0 := rfl

theorem Balanced.trans {u : State} {lost : Nat} (h : Balanced cfg s t 0) (h' : Balanced cfg t u lost) :
    Balanced cfg s u lost := by
  unfold Balanced at h h' ⊢
  omega

theorem clones_setSlot (cfg : Config) {i : Nat} {slot : Slot} (slot' : Slot)
    (hi : s.slots[i]? = some slot) :
    (s.setSlot i slot').clones cfg + slot.clones = s.clones cfg + slot'.clones := by
  have := total_set (f := Slot.clones) hi slot'
  unfold State.clones
  show total Slot.clones (s.slots.set i slot') + _ + _ + _ = _
  show _ + total queueClones s.queues + innerClones cfg s.strong + _ = _
  omega

theorem clones_addSlot (cfg : Config) (slot : Slot) :
    (s.addSlot slot).clones cfg = s.clones cfg + slot.clones := by
  unfold State.clones State.addSlot
  simp only [total_append, total_cons, total_nil]
  omega

section

variable {i : Nat} {slot slot' : Slot} {this : RawAlignedBuffer Home} {after : After} {pc : Pc}

/-- A handle changes and holds as many clones as before. -/
theorem Balanced.set (slot' : Slot) (hi : s.slots[i]? = some slot) (hsame : slot'.clones = slot.clones)
    (heap : Heap) (given : List BlockId) : Balanced cfg s ({ s with heap, given }.setSlot i slot') 0 := by
  have := clones_setSlot cfg (s := { s with heap, given }) slot' hi
  have hheap : State.clones cfg { s with heap, given } = s.clones cfg := rfl
  unfold Balanced
  show s.allocMade + _ = s.allocMade + (s.allocDropped + _) + 0
  omega

/-- The end of giving up a block: the clone of the handle is dropped, or stays in the emptied buffer. -/
theorem Balanced.finish (hi : s.slots[i]? = some slot) (hclones : slot.clones = this.alloc.weight)
    (after : After) (heap : Heap) (given : List BlockId) :
    Balanced cfg s (finish { s with heap, given } i this after) 0 := by
  have hset := clones_setSlot cfg (s := { s with heap, given }) (finishSlot this after) hi
  have hheap : State.clones cfg { s with heap, given } = s.clones cfg := rfl
  -- the clone of the handle is in one of the two places
  have hsplit : (if after = .dropped then this.alloc.weight else 0) + (finishSlot this after).clones
      = this.alloc.weight := by
    cases after with
    | dropped => rfl
    | emptied len => exact Nat.zero_add _
  unfold Balanced
  show s.allocMade + _ = s.allocMade + (s.allocDropped + (if after = .dropped then _ else 0) +
    State.clones cfg ({ s with heap, given }.setSlot i (finishSlot this after))) + 0
  omega

/-- **A strong reference is dropped.** With the last one, the queued buffers start their own drops and the
    allocators of the queues are dropped. -/
theorem Balanced.releaseStrong (hpos : 0 < s.strong) : Balanced cfg s (releaseStrong cfg s) 0 := by
  unfold BufferPool.releaseStrong Balanced
  dsimp only
  by_cases hlast : s.strong - 1 = 0
  · rw [if_pos hlast]
    have hqueued : total Slot.clones (s.queues.flatten.map fun this => .releasing this.buf .fetchSub .dropped)
        = total queueClones s.queues := by
      rw [total_map, total_flatten]
      rfl
    have hempty : total queueClones (s.queues.map fun _ => []) = 0 := by
      rw [total_map]
      exact total_eq_zero.mpr fun _ _ _ => rfl
    simp only [dropInner, State.clones, total_append, hqueued, hempty, hlast, innerClones, if_true]
    rw [if_neg (show s.strong ≠ 0 by omega)]
    omega
  · rw [if_neg hlast]
    simp only [State.clones, innerClones]
    rw [if_neg hlast, if_neg (show s.strong ≠ 0 by omega), Nat.add_zero]

end

/-! ## One step -/

section

variable {i : Nat} {this : RawAlignedBuffer Home} {after : After} {raw : RawBuffer}

/-- The clone for the closure is made; it is dropped with the closure, or held by it. -/
theorem call_balanced (hi : s.slots[i]? = some (.releasing this (.call raw) after))
    (h : advance p cfg s i this after (.call raw) = .ok t) : Balanced cfg s t 0 := by
  have hset := fun slot' => clones_setSlot cfg slot' hi
  simp only [advance] at h
  cases halloc : this.alloc with
  | global =>
      rw [halloc] at h
      obtain ⟨heap, -, h⟩ := bind_eq_ok h
      cases h
      exact .finish hi rfl after heap _
  | pool queue =>
      rw [halloc] at h
      dsimp only at h
      by_cases hpolicy : cfg.policy (raw.cap.value p.toTarget) = false
      · rw [if_pos hpolicy] at h
        cases h
        exact .set (.releasing this (.dealloc raw) after) hi rfl s.heap _
      · rw [if_neg hpolicy] at h
        by_cases hstrong : s.strong = 0
        · rw [if_pos hstrong] at h
          cases h
          have hslot := hset (.releasing this (.dealloc raw) after)
          unfold Balanced
          show s.allocMade + 1 + _ = s.allocMade +
            (s.allocDropped + 1 + State.clones cfg (s.setSlot i (.releasing this (.dealloc raw) after))) + 0
          simp only [Slot.clones] at hslot
          omega
        · rw [if_neg hstrong] at h
          cases h
          have hslot := hset (.releasing this (.push queue raw) after)
          have hinner : State.clones cfg ({ s with strong := s.strong + 1 }.setSlot i
              (.releasing this (.push queue raw) after))
              = State.clones cfg (s.setSlot i (.releasing this (.push queue raw) after)) := by
            show _ + innerClones cfg (s.strong + 1) = _ + innerClones cfg s.strong
            unfold innerClones
            rw [if_neg hstrong, if_neg (Nat.succ_ne_zero _)]
            rfl
          unfold Balanced
          show s.allocMade + 1 + _ = s.allocMade + (s.allocDropped +
            State.clones cfg ({ s with strong := s.strong + 1 }.setSlot i
              (.releasing this (.push queue raw) after))) + 0
          rw [hinner]
          simp only [Slot.clones] at hslot
          omega

/-- **The push.** The queue takes the clone with the buffer; a full queue gives both back, and the clone
    is lost. -/
theorem push_balanced {queue : Nat} (hlt : queue < s.queues.length)
    (hi : s.slots[i]? = some (.releasing this (.push queue raw) after))
    (h : advance p cfg s i this after (.push queue raw) = .ok t) :
    Balanced cfg s t (rejects cfg s (.advance i)) := by
  have hset := fun slot' => clones_setSlot cfg slot' hi
  simp only [advance] at h
  simp only [rejects, hi]
  by_cases hroom : (s.queues.getD queue []).length < cfg.capacity
  · rw [if_pos hroom] at h ⊢
    cases h
    have hslot := hset (.releasing this .unref after)
    have hentries : s.queues[queue]? = some (s.queues.getD queue []) := by
      rw [List.getD_eq_getElem?_getD, List.getElem?_eq_getElem hlt]
      rfl
    have hqueue := total_set (f := queueClones) hentries
      (s.queues.getD queue [] ++ [⟨⟨raw.buf, raw.cap, .pool queue⟩, 0⟩])
    have hentry : queueClones (s.queues.getD queue [] ++ [⟨⟨raw.buf, raw.cap, .pool queue⟩, 0⟩])
        = queueClones (s.queues.getD queue []) + 1 := by
      simp [queueClones, Home.weight]
    simp only [Slot.clones] at hslot
    unfold Balanced State.clones at *
    simp only [State.setSlot] at hslot ⊢
    omega
  · rw [if_neg hroom] at h ⊢
    cases h
    have hslot := hset (.releasing this (.reject raw) after)
    simp only [Slot.clones] at hslot
    unfold Balanced
    show s.allocMade + _ = s.allocMade + (s.allocDropped + _) + 1
    omega

theorem unref_balanced (hpos : 0 < s.strong) (hi : s.slots[i]? = some (.releasing this .unref after))
    (h : advance p cfg s i this after .unref = .ok t) : Balanced cfg s t 0 := by
  cases h
  -- the drops that a last reference starts are behind the handle in the table
  have hi' : (releaseStrong cfg s).slots[i]? = some (.releasing this .unref after) := by
    have hlt : i < s.slots.length := (List.getElem?_eq_some_iff.mp hi).1
    unfold releaseStrong
    dsimp only
    split
    · exact (List.getElem?_append_left hlt).trans hi
    · exact hi
  exact (Balanced.releaseStrong hpos).trans (.finish hi' rfl after _ _)

/-- **One step of giving a block up.** -/
theorem advance_balanced (inv : Inv p cfg s) {pc : Pc} (hi : s.slots[i]? = some (.releasing this pc after))
    (h : advance p cfg s i this after pc = .ok t) :
    Balanced cfg s t (rejects cfg s (.advance i)) := by
  cases pc with
  | push queue raw =>
      refine push_balanced ?_ hi h
      rw [inv.queues_length]
      exact (inv.slots i _ hi).1.2.1
  | call raw =>
      rw [show rejects cfg s (.advance i) = 0 by simp only [rejects, hi]]
      exact call_balanced hi h
  | unref =>
      rw [show rejects cfg s (.advance i) = 0 by simp only [rejects, hi]]
      exact unref_balanced (inv.strong_pos hi rfl) hi h
  | fetchSub =>
      rw [show rejects cfg s (.advance i) = 0 by simp only [rejects, hi]]
      simp only [advance] at h
      by_cases hall : ¬this.isAllocated p
      · rw [if_pos hall] at h
        cases h
        exact .finish hi rfl after s.heap s.given
      · rw [if_neg hall] at h
        obtain ⟨⟨heap, old⟩, -, h⟩ := bind_eq_ok h
        dsimp only at h
        by_cases hlast : old ≠ 1
        · rw [if_pos hlast] at h
          cases h
          exact .finish hi rfl after heap s.given
        · rw [if_neg hlast] at h
          cases h
          exact .set (.releasing this .load after) hi rfl heap s.given
  | load =>
      rw [show rejects cfg s (.advance i) = 0 by simp only [rejects, hi]]
      obtain ⟨_, -, h⟩ := bind_eq_ok h
      cases h
      exact .set (.releasing this .store after) hi rfl s.heap s.given
  | store =>
      rw [show rejects cfg s (.advance i) = 0 by simp only [rejects, hi]]
      obtain ⟨heap, -, h⟩ := bind_eq_ok h
      obtain ⟨raw, -, h⟩ := bind_eq_ok h
      cases h
      exact .set (.releasing this (.call raw) after) hi rfl heap s.given
  | dealloc raw =>
      rw [show rejects cfg s (.advance i) = 0 by simp only [rejects, hi]]
      obtain ⟨heap, -, h⟩ := bind_eq_ok h
      cases h
      exact .finish hi rfl after heap s.given
  | reject raw =>
      rw [show rejects cfg s (.advance i) = 0 by simp only [rejects, hi]]
      obtain ⟨heap, -, h⟩ := bind_eq_ok h
      cases h
      exact .set (.releasing this .unref after) hi rfl heap s.given

end

/-! ## Conversions keep the allocator -/

section

variable {α : Type} {h h' : Heap}

theorem intoShared_alloc {this : UniqueAlignedBuffer α} {shared : SharedAlignedBuffer α}
    (hr : this.intoShared p = .ok shared) : shared.buf.alloc = this.buf.alloc := by
  unfold UniqueAlignedBuffer.intoShared resetLen at hr
  obtain ⟨buf, hbuf, hr⟩ := bind_eq_ok hr
  obtain ⟨_, -, hbuf⟩ := bind_eq_ok hbuf
  obtain ⟨_, -, hbuf⟩ := bind_eq_ok hbuf
  obtain ⟨_, -, hr⟩ := bind_eq_ok hr
  cases hbuf
  cases hr
  rfl

theorem clone_alloc {this copy : SharedAlignedBuffer α} (hr : this.clone p h = .ok (h', copy)) :
    copy.buf.alloc = this.buf.alloc := by
  unfold SharedAlignedBuffer.clone refClone at hr
  obtain ⟨⟨h₁, buf⟩, hbuf, hr⟩ := bind_eq_ok hr
  cases hr
  by_cases hall : ¬this.buf.isAllocated p
  · rw [if_pos hall] at hbuf
    cases hbuf
    rfl
  · rw [if_neg hall] at hbuf
    obtain ⟨⟨h₂, old⟩, -, hbuf⟩ := bind_eq_ok hbuf
    dsimp only at hbuf
    by_cases hmax : p.maxRefcount < old
    · rw [if_pos hmax] at hbuf
      cases hbuf
    · rw [if_neg hmax] at hbuf
      cases hbuf
      rfl

theorem resetCap_alloc {this buf : RawAlignedBuffer α} (hr : this.resetCap p h = .ok buf) :
    buf.alloc = this.alloc := by
  unfold resetCap at hr
  by_cases hall : ¬this.isAllocated p
  · rw [if_pos hall] at hr
    obtain ⟨_, -, hr⟩ := bind_eq_ok hr
    cases hr
    rfl
  · rw [if_neg hall] at hr
    obtain ⟨_, -, hr⟩ := bind_eq_ok hr
    obtain ⟨_, -, hr⟩ := bind_eq_ok hr
    cases hr
    rfl

theorem tryUnique_alloc {this : SharedAlignedBuffer α} {unique : UniqueAlignedBuffer α}
    (hr : this.tryUnique p h = .ok (.ok unique)) : unique.buf.alloc = this.buf.alloc := by
  unfold SharedAlignedBuffer.tryUnique at hr
  obtain ⟨isUnique, -, hr⟩ := bind_eq_ok hr
  cases isUnique with
  | false => cases hr
  | true =>
      obtain ⟨buf, hbuf, hr⟩ := bind_eq_ok hr
      cases hr
      exact resetCap_alloc hbuf

end

/-! ## All actions -/

section

variable {i : Nat}

/-- A handle moves to a new place. -/
theorem Balanced.move {slot : Slot} (hi : s.slots[i]? = some slot) (slot' : Slot)
    (hsame : slot'.clones = slot.clones) : Balanced cfg s ((s.setSlot i .gone).addSlot slot') 0 := by
  have hset := clones_setSlot cfg .gone hi
  have hadd := clones_addSlot cfg (s := s.setSlot i .gone) slot'
  rw [show Slot.gone.clones = 0 from rfl] at hset
  unfold Balanced
  show s.allocMade + _ = s.allocMade + (s.allocDropped + _) + 0
  omega

theorem mutate_balanced (A : Allocator p.toTarget) (inv : Inv p cfg s) {this : UniqueAlignedBuffer Home}
    (hi : s.slots[i]? = some (.unique this)) (op : BufferOp) (h : mutate A s i this op = .ok t) :
    Balanced cfg s t 0 := by
  obtain ⟨⟨o, xs, data, hs⟩, -⟩ := inv.slots i _ hi
  rcases mutate_done A h with ⟨-, rfl⟩ | ⟨hfrees, heap, this', e, happ, rfl⟩
  · exact .set (.releasing this.buf (.call this.buf.rawBuffer) (.emptied this.len)) hi rfl s.heap s.given
  · obtain ⟨h', this₁, e', o', ys, data', happ', hl, -⟩ := BufferOp.apply_spec A hs op hfrees
    rw [happ] at happ'
    cases happ'
    exact .set (.unique this') hi (congrArg Home.weight hl.alloc) heap s.given

variable (A : Allocator p.toTarget)

theorem withCapacity_balanced (capacity : Nat) (h : step A cfg s (.withCapacity capacity) = .ok t) :
    Balanced cfg s t 0 := by
  simp only [step] at h
  rcases withCapacityIn_spec A Home.global s.heap capacity with
    ⟨h', this', o', data', hr, hl, -⟩ | hr | hr
  · rw [hr] at h
    cases h
    have hadd := clones_addSlot cfg (s := { s with heap := h' }) (.unique this')
    have hzero : (Slot.unique this').clones = 0 := congrArg Home.weight hl.alloc
    have hheap : State.clones cfg { s with heap := h' } = s.clones cfg := rfl
    unfold Balanced
    show s.allocMade + _ = s.allocMade + (s.allocDropped + _) + 0
    omega
  · rw [hr] at h
    cases h
    exact .refl
  · rw [hr] at h
    cases h

theorem get_balanced (queue : Nat) (h : step A cfg s (.get queue) = .ok t) : Balanced cfg s t 0 := by
  simp only [step] at h
  by_cases hhandle : s.handle = false
  · rw [if_pos hhandle] at h
    cases h
    exact .refl
  · rw [if_neg hhandle] at h
    cases hq : s.queues[queue]? with
    | none =>
        rw [hq] at h
        cases h
        exact .refl
    | some entries =>
        rw [hq] at h
        cases entries with
        | nil =>
            cases h
            -- two clones are made, one of them is dropped, the other is the new handle's
            have hadd := clones_addSlot cfg
              (s := { s with allocMade := s.allocMade + 2, allocDropped := s.allocDropped + 1 })
              (.unique (.newIn (.pool queue)))
            have hone : (Slot.unique (UniqueAlignedBuffer.newIn (Home.pool queue))).clones = 1 := rfl
            have hcount : State.clones cfg
                { s with allocMade := s.allocMade + 2, allocDropped := s.allocDropped + 1 } = s.clones cfg := rfl
            unfold Balanced
            show s.allocMade + 2 + _ = s.allocMade + (s.allocDropped + 1 + _) + 0
            omega
        | cons this rest =>
            cases h
            have hadd := clones_addSlot cfg
              (s := { s with queues := s.queues.set queue rest }) (.unique this)
            have hqueue := total_set (f := queueClones) hq rest
            have hfirst : queueClones (this :: rest) = (Slot.unique this).clones + queueClones rest := rfl
            unfold Balanced
            show s.allocMade + _ = s.allocMade + (s.allocDropped + _) + 0
            rw [hadd]
            show s.allocMade + (s.allocDropped + (total Slot.clones s.slots + total queueClones s.queues +
              innerClones cfg s.strong)) = s.allocMade + (s.allocDropped + (total Slot.clones s.slots +
              total queueClones (s.queues.set queue rest) + innerClones cfg s.strong + _)) + 0
            omega

/-- **Every action** makes as many clones as are dropped and newly held, and the one that it loses. -/
theorem step_balanced (inv : Inv p cfg s) (action : Action) (h : step A cfg s action = .ok t) :
    Balanced cfg s t (rejects cfg s action) := by
  cases action with
  | new =>
      cases h
      have hadd := clones_addSlot cfg (s := s) (.unique (.newIn .global))
      have hzero : (Slot.unique (UniqueAlignedBuffer.newIn Home.global)).clones = 0 := rfl
      unfold Balanced
      show s.allocMade + _ = s.allocMade + (s.allocDropped + _) + 0
      omega
  | withCapacity capacity => exact withCapacity_balanced A capacity h
  | get queue => exact get_balanced A queue h
  | mutate i op =>
      rcases step_mutate A h with rfl | ⟨this, hi, h⟩
      · exact .refl
      · exact mutate_balanced A inv hi op h
  | intoShared i =>
      rcases step_intoShared A h with rfl | ⟨this, shared, hi, hshared, rfl⟩
      · exact .refl
      · exact .move hi (.shared shared) (congrArg Home.weight (intoShared_alloc hshared))
  | clone i =>
      rcases step_clone A h with rfl | ⟨this, heap, copy, -, hcopy, rfl⟩
      · exact .refl
      · have hadd := clones_addSlot cfg
          (s := { s with heap, allocMade := s.allocMade + this.buf.alloc.weight }) (.shared copy)
        have hsame : (Slot.shared copy).clones = this.buf.alloc.weight :=
          congrArg Home.weight (clone_alloc hcopy)
        have hheap : State.clones cfg { s with heap, allocMade := s.allocMade + this.buf.alloc.weight }
            = s.clones cfg := rfl
        unfold Balanced
        show s.allocMade + this.buf.alloc.weight + _ = s.allocMade + (s.allocDropped + _) + 0
        omega
  | tryUnique i =>
      rcases step_tryUnique A h with rfl | ⟨this, hi, ⟨unique, hunique, rfl⟩ | rfl⟩
      · exact .refl
      · exact .move hi (.unique unique) (congrArg Home.weight (tryUnique_alloc hunique))
      · exact .set (.releasing this.buf .fetchSub .dropped) hi rfl s.heap s.given
  | read i =>
      rw [step_read A h]
      exact .refl
  | drop i =>
      rcases step_drop A h with rfl | ⟨this, hi, rfl⟩ | ⟨this, hi, rfl⟩
      · exact .refl
      · exact .set (.releasing this.buf .fetchSub .dropped) hi rfl s.heap s.given
      · exact .set (.releasing this.buf .fetchSub .dropped) hi rfl s.heap s.given
  | advance i =>
      rcases step_advance A h with ⟨rfl, hnot⟩ | ⟨this, pc, after, hi, h⟩
      · rw [rejects_of_not hnot]
        exact .refl
      · exact advance_balanced inv hi h
  | dropPool =>
      simp only [step] at h
      by_cases hhandle : s.handle = false
      · rw [if_pos hhandle] at h
        cases h
        exact .refl
      · rw [if_neg hhandle] at h
        cases h
        have hstrong := inv.strong
        rw [Bool.eq_true_of_not_eq_false hhandle, Bool.toNat_true] at hstrong
        exact Balanced.releaseStrong (s := { s with handle := false }) (show 0 < s.strong by omega)

end

/-! ## Whole runs -/

/-- When the pool and all buffers are gone nobody holds a clone. -/
theorem Inv.clones_eq_zero (inv : Inv p cfg s) (hover : s.Over) : s.clones cfg = 0 := by
  have hupgrades : s.upgrades = 0 := total_eq_zero.mpr fun i slot hi => by
    rw [hover.slots slot (List.mem_of_getElem? hi)]
    rfl
  have hstrong : s.strong = 0 := by
    rw [inv.strong, hover.handle, hupgrades]
    rfl
  have hslots : total Slot.clones s.slots = 0 := total_eq_zero.mpr fun i slot hi => by
    rw [hover.slots slot (List.mem_of_getElem? hi)]
    rfl
  have hqueues : total queueClones s.queues = 0 := total_eq_zero.mpr fun q entries hq => by
    rw [inv.drained hstrong q entries hq]
    rfl
  unfold State.clones innerClones
  rw [hslots, hqueues, if_pos hstrong]

variable (A : Allocator p.toTarget)

theorem Inv.of_step (inv : Inv p cfg s) {action : Action} (h : step A cfg s action = .ok t) :
    Inv p cfg t := by
  rcases step_proceeds A inv action with ⟨s', hs', hev⟩ | ⟨f, hf, -⟩
  · rw [h] at hs'
    cases hs'
    exact hev.inv
  · rw [h] at hf
    cases hf

/-- **The clones of a run** are dropped, held, or were lost at a push to a full queue. -/
theorem run_balanced {actions : List Action} (hrun : runFrom A cfg actions = .ok s) :
    s.allocMade = s.allocDropped + s.clones cfg +
      tally (rejects cfg) (step A cfg) (State.init cfg) actions := by
  have h : s.allocMade + (0 + State.clones cfg (State.init cfg)) =
      cfg.queues + (s.allocDropped + s.clones cfg) +
        tally (rejects cfg) (step A cfg) (State.init cfg) actions :=
    run_balance (Inv p cfg) State.allocMade (fun s => s.allocDropped + s.clones cfg) (rejects cfg)
      (fun _ action _ inv hs' => ⟨inv.of_step A hs', step_balanced A inv action hs'⟩) actions _ _ Inv.init
      hrun
  have hinit : State.clones cfg (State.init cfg) = cfg.queues := by
    have hqueues : total queueClones (State.init cfg).queues = 0 := total_eq_zero.mpr fun q entries hq => by
      obtain rfl := (List.mem_replicate.mp (List.mem_of_getElem? hq)).2
      rfl
    unfold State.clones
    rw [hqueues]
    show 0 + 0 + cfg.queues = _
    omega
  omega

/-- No step of the run pushes a buffer to a full queue. -/
def NeverFull (A : Allocator p.toTarget) (cfg : Config) (actions : List Action) : Prop :=
  Along (fun s action => rejects cfg s action = 0) (step A cfg) (State.init cfg) actions

instance (actions : List Action) : Decidable (NeverFull A cfg actions) :=
  inferInstanceAs (Decidable (Along _ _ _ _))

/-- **Every clone of the pool's allocator is dropped exactly once**, unless a queue is full. In a run with
    no push to a full queue, the clones made and not yet dropped are, in every state, those that some
    handle, queued buffer or queue still holds. When the pool and all buffers are gone, none is left if and
    only if there was no such push. -/
theorem clones_dropped_once {actions : List Action} (hrun : runFrom A cfg actions = .ok s) :
    (NeverFull A cfg actions → s.allocMade = s.allocDropped + s.clones cfg) ∧
      (s.Over → (s.allocMade = s.allocDropped ↔ NeverFull A cfg actions)) := by
  have hbalance := run_balanced A hrun
  have hnever : tally (rejects cfg) (step A cfg) (State.init cfg) actions = 0 ↔ NeverFull A cfg actions :=
    tally_eq_zero
  constructor
  · intro hroom
    rw [hnever.mpr hroom] at hbalance
    exact hbalance
  · intro hover
    rcases run_proceeds cfg A actions with ⟨s', hr, inv⟩ | ⟨f, hr, -⟩
    · rw [hrun] at hr
      cases hr
      rw [inv.clones_eq_zero hover] at hbalance
      rw [← hnever]
      omega
    · rw [hrun] at hr
      cases hr

/-- One buffer is shared, cloned, and given up by both handles; it waits in the queue until the pool is
    dropped. -/
def queuedOnce : List Action :=
  [.get 0, .mutate 0 (.unique (.push 1)), .intoShared 0, .clone 1, .drop 1, .advance 1, .drop 2] ++
    List.replicate 6 (.advance 2) ++ [.dropPool] ++ List.replicate 5 (.advance 3)

/-- All the clones of that run are dropped. -/
theorem clones_dropped_once_queued :
    ∃ s, runFrom (.bump (Params.x86_64 true).toTarget) ⟨1, 1, fun _ => true⟩ queuedOnce = .ok s ∧
      s.Over ∧ s.allocMade = s.allocDropped := by
  have hover : ∃ s, runFrom (.bump (Params.x86_64 true).toTarget) ⟨1, 1, fun _ => true⟩ queuedOnce = .ok s ∧
      s.Over := ⟨_, rfl, rfl, by decide⟩
  obtain ⟨s, hrun, hover⟩ := hover
  exact ⟨s, hrun, hover, ((clones_dropped_once _ hrun).2 hover).mpr (by decide)⟩

/-- Two buffers of a pool that keeps one are given up, then the pool. -/
def outnumbered : List Action :=
  [.get 0, .get 0, .mutate 0 (.unique (.push 1)), .mutate 1 (.unique (.push 2)), .drop 0] ++
    List.replicate 6 (.advance 0) ++ [.drop 1] ++ List.replicate 7 (.advance 1) ++ [.dropPool] ++
    List.replicate 5 (.advance 2)

/-- **A clone is left over**: the pool and the buffers are gone, and one clone was never dropped. -/
theorem clone_left_outnumbered :
    ∃ s, runFrom (.bump (Params.x86_64 true).toTarget) ⟨1, 1, fun _ => true⟩ outnumbered = .ok s ∧
      s.Over ∧ s.allocMade = s.allocDropped + 1 :=
  ⟨_, rfl, ⟨rfl, by decide⟩, by decide⟩

end BufferPool

end RkyvUtils
