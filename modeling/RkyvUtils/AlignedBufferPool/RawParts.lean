import RkyvUtils.AlignedBufferPool.Safety

/-!
# `AlignedBufferPool.RawParts` — buffers taken apart and put together again

`into_raw_parts_with_alloc` lets go of a buffer without dropping it, and `from_raw_parts_in` makes a buffer of
what it returned. Here the system of `BufferPool` is given these calls, in between anything else that happens
to buffers and pools. While a buffer is apart its place in the table is empty; its owner may write through the
pointer, and put it together again with any length up to the one it came with. A run of this system is,
action by action, a run of the system in which no buffer is ever taken apart (`parts_are_the_buffer`).
-/

namespace RkyvUtils

open Run

/-! ## The calls -/

namespace RawAlignedBuffer

variable {α : Type}

/-- `into_raw_parts_with_alloc`. Nothing is dropped. -/
def intoRawPartsWithAlloc (this : RawAlignedBuffer α) : Ptr × TaggedCap × α :=
  (this.buf, this.capOrLen, this.alloc)

/-- `into_raw_parts`, of a buffer on `Global`. -/
def intoRawParts (this : RawAlignedBuffer Home) : Ptr × TaggedCap := (this.buf, this.capOrLen)

def fromRawPartsIn (ptr : Ptr) (cap : TaggedCap) (alloc : α) : RawAlignedBuffer α := ⟨ptr, cap, alloc⟩

def fromRawParts (ptr : Ptr) (cap : TaggedCap) : RawAlignedBuffer Home := fromRawPartsIn ptr cap .global

end RawAlignedBuffer

namespace UniqueAlignedBuffer

variable {α : Type}

def intoRawPartsWithAlloc (this : UniqueAlignedBuffer α) : Ptr × Nat × TaggedCap × α :=
  let (ptr, cap, alloc) := this.buf.intoRawPartsWithAlloc
  (ptr, this.len, cap, alloc)

def intoRawParts (this : UniqueAlignedBuffer Home) : Ptr × Nat × TaggedCap :=
  let (ptr, cap) := this.buf.intoRawParts
  (ptr, this.len, cap)

/-- `from_raw_parts_in` (unsafe). -/
def fromRawPartsIn (ptr : Ptr) (len : Nat) (capacity : TaggedCap) (alloc : α) : UniqueAlignedBuffer α :=
  ⟨.fromRawPartsIn ptr capacity alloc, len⟩

/-- `from_raw_parts` (unsafe). -/
def fromRawParts (ptr : Ptr) (len : Nat) (capacity : TaggedCap) : UniqueAlignedBuffer Home :=
  ⟨.fromRawParts ptr capacity, len⟩

end UniqueAlignedBuffer

namespace BufferPool

/-! ## The system -/

/-- What the owner of a buffer taken apart has: the result of the one call or of the other. -/
inductive Parts where
  | global (parts : Ptr × Nat × TaggedCap)
  | withAlloc (parts : Ptr × Nat × TaggedCap × Home)
deriving DecidableEq, Repr

namespace Parts

def ptr : Parts → Ptr
  | global (ptr, _, _) | withAlloc (ptr, _, _, _) => ptr

def len : Parts → Nat
  | global (_, len, _) | withAlloc (_, len, _, _) => len

/-- The parts put together by the call that goes with them. -/
def rebuild (len : Nat) : Parts → UniqueAlignedBuffer Home
  | global (ptr, _, cap) => .fromRawParts ptr len cap
  | withAlloc (ptr, _, cap, alloc) => .fromRawPartsIn ptr len cap alloc

end Parts

/-- The system, and what its callers have of the buffers that are apart, by their places in the table. -/
structure Apart where
  buffers : State
  loose : Nat → Option Parts

inductive ApartAction where
  /-- anything else -/
  | buffers (action : Action)
  | intoRawParts (i : Nat)
  | intoRawPartsWithAlloc (i : Nat)
  /-- bytes written through the pointer of the parts, over the initialised ones -/
  | write (i offset : Nat) (bytes : List UInt8)
  /-- `from_raw_parts` or `from_raw_parts_in`, with the length `len` -/
  | fromRawParts (i len : Nat)
deriving DecidableEq, Repr

namespace Apart

variable {p : Params} (A : Allocator p.toTarget) (cfg : Config)

def init : Apart := ⟨.init cfg, fun _ => none⟩

/-- The buffer of place `i` goes, and its parts stay with the caller. -/
def takeApart (s : Apart) (i : Nat) (parts : Parts) : Apart :=
  ⟨s.buffers.setSlot i .gone, Function.update s.loose i (some parts)⟩

/-- One action. As everywhere, an action that names nothing of its kind does nothing; nor does an unsafe call
    outside its safety section. -/
def step (s : Apart) : ApartAction → Except Fault Apart
  | .buffers action => do
      let buffers ← BufferPool.step A cfg s.buffers action
      return { s with buffers }
  | .intoRawParts i =>
      match s.buffers.slots[i]? with
      | some (.unique this) =>
          -- the method is one of `UniqueAlignedBuffer<ALIGNMENT, Global>`
          if this.buf.alloc = .global then return s.takeApart i (.global this.intoRawParts) else return s
      | _ => return s
  | .intoRawPartsWithAlloc i =>
      match s.buffers.slots[i]? with
      | some (.unique this) => return s.takeApart i (.withAlloc this.intoRawPartsWithAlloc)
      | _ => return s
  | .write i offset bytes =>
      match s.loose i with
      | some parts =>
          if parts.len < offset + bytes.length then return s
          else do
            let heap ← s.buffers.heap.write p (parts.ptr.add offset) bytes
            return { s with buffers := { s.buffers with heap } }
      | none => return s
  | .fromRawParts i len =>
      match s.loose i with
      | some parts =>
          if parts.len < len then return s
          else return ⟨s.buffers.setSlot i (.unique (parts.rebuild len)), Function.update s.loose i none⟩
      | none => return s

def runFrom (actions : List ApartAction) : Except Fault Apart := run (step A cfg) (init cfg) actions

end Apart

/-! ## The system in which nothing is taken apart -/

/-- The table with the buffers that are apart back in their places. -/
def fill (loose : Nat → Option Parts) (slots : List Slot) : List Slot :=
  slots.mapIdx fun i slot => (loose i).elim slot fun parts => .unique (parts.rebuild parts.len)

/-- The state in which no buffer was ever taken apart. -/
def State.whole (loose : Nat → Option Parts) (s : State) : State := { s with slots := fill loose s.slots }

/-- What an action is when the buffer was never taken apart: its parts are the buffer, and putting them
    together cuts it to the length. -/
def Apart.plain (s : Apart) : ApartAction → List Action
  | .buffers action => if (action.handle.bind s.loose).isSome then [] else [action]
  | .intoRawParts _ | .intoRawPartsWithAlloc _ => []
  | .write i offset bytes =>
      match s.loose i with
      | some parts =>
          if parts.len < offset + bytes.length then [] else [.mutate i (.unique (.indexMut offset bytes))]
      | none => []
  | .fromRawParts i len =>
      match s.loose i with
      | some parts => if parts.len < len then [] else [.mutate i (.unique (.truncate len))]
      | none => []

/-- A run, with the buffers left in one piece. -/
def Apart.plainRun {p : Params} (A : Allocator p.toTarget) (cfg : Config) (s : Apart) :
    List ApartAction → List Action
  | [] => []
  | a :: as => s.plain a ++
      match s.step A cfg a with
      | .ok s' => s'.plainRun A cfg as
      | .error _ => []

/-! ## Filling the table commutes with what is done to other places -/

section

variable {loose : Nat → Option Parts} {slots more : List Slot} {i : Nat} {slot : Slot} {parts : Parts}

theorem getElem?_fill (loose : Nat → Option Parts) (slots : List Slot) (j : Nat) :
    (fill loose slots)[j]? =
      slots[j]?.map fun slot => (loose j).elim slot fun parts => .unique (parts.rebuild parts.len) :=
  List.getElem?_mapIdx

theorem getElem?_fill_free (hfree : loose i = none) : (fill loose slots)[i]? = slots[i]? := by
  simp [getElem?_fill, hfree]

theorem getElem?_fill_loose (hi : loose i = some parts) (hgone : slots[i]? = some .gone) :
    (fill loose slots)[i]? = some (.unique (parts.rebuild parts.len)) := by
  rw [getElem?_fill, hi, hgone]
  rfl

@[simp] theorem length_fill : (fill loose slots).length = slots.length := List.length_mapIdx

/-- Another table of parts, which differs in place `i` at most. -/
theorem fill_set {loose' : Nat → Option Parts} (hsame : ∀ j, j ≠ i → loose' j = loose j) :
    fill loose' (slots.set i slot) =
      (fill loose slots).set i ((loose' i).elim slot fun parts => .unique (parts.rebuild parts.len)) := by
  refine List.ext_getElem? fun j => ?_
  rw [getElem?_fill]
  by_cases hj : i = j
  · subst hj
    by_cases hlt : i < slots.length
    · rw [List.getElem?_set_self hlt, List.getElem?_set_self (by rw [length_fill]; exact hlt)]
      rfl
    · rw [List.getElem?_eq_none (by simpa using hlt), List.getElem?_eq_none (by simpa using hlt)]
      rfl
  · rw [List.getElem?_set_ne hj, List.getElem?_set_ne hj, getElem?_fill, hsame j (Ne.symm hj)]

theorem fill_set_free (hfree : loose i = none) :
    fill loose (slots.set i slot) = (fill loose slots).set i slot := by
  rw [fill_set fun _ _ => rfl, hfree]
  rfl

theorem fill_append (hlt : ∀ j parts, loose j = some parts → j < slots.length) :
    fill loose (slots ++ more) = fill loose slots ++ more := by
  refine List.ext_getElem? fun j => ?_
  rw [getElem?_fill]
  -- the new places are not filled, because parts have the numbers of old ones
  by_cases hj : j < slots.length
  · rw [List.getElem?_append_left hj, List.getElem?_append_left (by rw [length_fill]; exact hj),
      getElem?_fill]
  · rw [List.getElem?_append_right (by omega), List.getElem?_append_right (by rw [length_fill]; omega),
      length_fill]
    cases hloose : loose j with
    | some parts => exact absurd (hlt j parts hloose) hj
    | none => simp

end

/-- The places of the buffers that are apart are empty. -/
def Empty (loose : Nat → Option Parts) (s : State) : Prop :=
  ∀ i parts, loose i = some parts → s.slots[i]? = some .gone

section

variable {p : Params} {cfg : Config} {loose : Nat → Option Parts} {s : State} {i : Nat}

theorem Empty.lt (hempty : Empty loose s) (j : Nat) (parts : Parts) (hj : loose j = some parts) :
    j < s.slots.length :=
  (List.getElem?_eq_some_iff.mp (hempty j parts hj)).1

/-- The places that are filled are in the table. -/
def Inside (loose : Nat → Option Parts) (s : State) : Prop :=
  ∀ j parts, loose j = some parts → j < s.slots.length

theorem whole_setSlot (hfree : loose i = none) (slot : Slot) :
    (s.setSlot i slot).whole loose = (s.whole loose).setSlot i slot := by
  unfold State.whole State.setSlot
  dsimp only
  rw [fill_set_free hfree]

theorem whole_addSlot (hin : Inside loose s) (slot : Slot) :
    (s.addSlot slot).whole loose = (s.whole loose).addSlot slot := by
  unfold State.whole State.addSlot
  dsimp only
  rw [fill_append hin]

theorem whole_finish (hfree : loose i = none) (this : RawAlignedBuffer Home) (after : After) :
    (finish s i this after).whole loose = finish (s.whole loose) i this after :=
  whole_setSlot hfree _

theorem whole_releaseStrong (hin : Inside loose s) :
    (releaseStrong cfg s).whole loose = releaseStrong cfg (s.whole loose) := by
  unfold releaseStrong
  dsimp only
  by_cases hlast : s.strong - 1 = 0
  · rw [if_pos hlast, if_pos (show (s.whole loose).strong - 1 = 0 from hlast)]
    unfold dropInner State.whole
    dsimp only
    rw [fill_append hin]
  · rw [if_neg hlast, if_neg (show ¬(s.whole loose).strong - 1 = 0 from hlast)]
    rfl

/-- A call that does not look at the table, followed by a change of it. -/
theorem bind_whole {α : Type} {x : Except Fault α} {f g : α → Except Fault State}
    (h : ∀ a, g a = (f a).map (State.whole loose)) : (x >>= g) = (x >>= f).map (State.whole loose) := by
  cases x with
  | error f => rfl
  | ok a => exact h a

theorem whole_advance (hfree : loose i = none) (hin : Inside loose s) (this : RawAlignedBuffer Home)
    (after : After) (pc : Pc) :
    advance p cfg (s.whole loose) i this after pc
      = (advance p cfg s i this after pc).map (State.whole loose) := by
  -- every branch ends in one of two changes of place `i`, which is not filled
  have hset (t : State) (slot : Slot) : (Except.ok ((t.whole loose).setSlot i slot) : Except Fault State)
      = .ok ((t.setSlot i slot).whole loose) := by rw [whole_setSlot hfree]
  have hfinish (t : State) : (Except.ok (finish (t.whole loose) i this after) : Except Fault State)
      = .ok ((finish t i this after).whole loose) := by rw [whole_finish hfree]
  cases pc with
  | fetchSub =>
      simp only [advance]
      by_cases hall : ¬this.isAllocated p = true
      · rw [if_pos hall, if_pos hall]
        exact hfinish s
      · rw [if_neg hall, if_neg hall]
        refine bind_whole fun r => ?_
        obtain ⟨heap, old⟩ := r
        dsimp only
        by_cases hold : old ≠ 1
        · rw [if_pos hold, if_pos hold]
          exact hfinish { s with heap }
        · rw [if_neg hold, if_neg hold]
          exact hset { s with heap } _
  | load => exact bind_whole fun _ => hset s _
  | store => exact bind_whole fun heap => bind_whole fun raw => hset { s with heap } _
  | call raw =>
      simp only [advance]
      cases this.alloc with
      | global => exact bind_whole fun heap => hfinish { s with heap, given := _ }
      | pool queue =>
          dsimp only
          by_cases hpolicy : cfg.policy (raw.cap.value p.toTarget) = false
          · rw [if_pos hpolicy, if_pos hpolicy]
            exact hset { s with given := s.given ++ raw.buf.prov.toList } _
          · rw [if_neg hpolicy, if_neg hpolicy]
            by_cases hgone : s.strong = 0
            · rw [if_pos hgone, if_pos (show (s.whole loose).strong = 0 from hgone)]
              exact hset { s with
                given := s.given ++ raw.buf.prov.toList
                allocMade := s.allocMade + 1
                allocDropped := s.allocDropped + 1 } _
            · rw [if_neg hgone, if_neg (show ¬(s.whole loose).strong = 0 from hgone)]
              exact hset { s with
                given := s.given ++ raw.buf.prov.toList
                allocMade := s.allocMade + 1
                strong := s.strong + 1 } _
  | dealloc raw => exact bind_whole fun heap => hfinish { s with heap }
  | push queue raw =>
      simp only [advance]
      by_cases hroom : (s.queues.getD queue []).length < cfg.capacity
      · rw [if_pos hroom, if_pos (show ((s.whole loose).queues.getD queue []).length < _ from hroom)]
        exact hset { s with queues := s.queues.set queue _ } _
      · rw [if_neg hroom, if_neg (show ¬((s.whole loose).queues.getD queue []).length < _ from hroom)]
        exact hset s _
  | reject raw => exact bind_whole fun heap => hset { s with heap } _
  | unref =>
      simp only [advance]
      rw [← whole_releaseStrong hin]
      exact hfinish (releaseStrong cfg s)

theorem whole_mutate (A : Allocator p.toTarget) (hfree : loose i = none)
    (this : UniqueAlignedBuffer Home) (op : BufferOp) :
    mutate A (s.whole loose) i this op = (mutate A s i this op).map (State.whole loose) := by
  have hset (t : State) (slot : Slot) : (Except.ok ((t.whole loose).setSlot i slot) : Except Fault State)
      = .ok ((t.setSlot i slot).whole loose) := by rw [whole_setSlot hfree]
  unfold mutate
  by_cases hfrees : op.frees p this = true
  · rw [if_pos hfrees, if_pos hfrees]
    exact bind_whole fun _ => hset s _
  · rw [if_neg hfrees, if_neg hfrees]
    rw [show (s.whole loose).heap = s.heap from rfl]
    generalize op.apply A s.heap this = e
    obtain ⟨heap, this', _ | f⟩ := e
    · exact hset { s with heap } _
    · dsimp only
      by_cases hunwinds : f.unwinds = true
      · rw [if_pos hunwinds, if_pos hunwinds]
        exact hset { s with heap } _
      · rw [if_neg hunwinds, if_neg hunwinds]
        rfl

theorem whole_tryUnique (hfree : loose i = none) (hin : Inside loose s)
    (this : SharedAlignedBuffer Home) :
    tryUnique p (s.whole loose) i this = (tryUnique p s i this).map (State.whole loose) := by
  unfold tryUnique
  rw [show (s.whole loose).heap = s.heap from rfl]
  generalize this.tryUnique p s.heap = r
  obtain f | (back | unique) := r
  · dsimp only
    by_cases hempty : f = .debugAssert ∧ this.buf.isAllocated p = false
    · rw [if_pos hempty, if_pos hempty]
      exact congrArg Except.ok (whole_setSlot hfree _).symm
    · rw [if_neg hempty, if_neg hempty]
      rfl
  · rfl
  · refine congrArg Except.ok ?_
    rw [← whole_setSlot hfree]
    refine (whole_addSlot ?_ _).symm
    intro j parts hj
    have hlt := hin j parts hj
    simpa [State.setSlot] using hlt

/-- **An action on a place that is not filled** does the same in the whole table. -/
theorem whole_step (A : Allocator p.toTarget) (hin : Inside loose s) (action : Action)
    (hfree : ∀ i, action.handle = some i → loose i = none) :
    step A cfg (s.whole loose) action = (step A cfg s action).map (State.whole loose) := by
  have hslot (i : Nat) (hi : loose i = none) : (s.whole loose).slots[i]? = s.slots[i]? :=
    getElem?_fill_free hi
  have hadd (t : State) (ht : t.slots.length = s.slots.length) (slot : Slot) :
      (Except.ok ((t.whole loose).addSlot slot) : Except Fault State) = .ok ((t.addSlot slot).whole loose) := by
    rw [whole_addSlot]
    intro j parts hj
    rw [ht]
    exact hin j parts hj
  cases action with
  | new => exact hadd s rfl _
  | withCapacity capacity =>
      simp only [step]
      rw [show (s.whole loose).heap = s.heap from rfl]
      generalize UniqueAlignedBuffer.withCapacityIn A s.heap capacity Home.global = r
      obtain f | ⟨heap, this⟩ := r
      · dsimp only
        by_cases hunwinds : f.unwinds = true
        · rw [if_pos hunwinds, if_pos hunwinds]
          rfl
        · rw [if_neg hunwinds, if_neg hunwinds]
          rfl
      · exact hadd { s with heap } rfl _
  | get queue =>
      simp only [step]
      rw [show (s.whole loose).handle = s.handle from rfl, show (s.whole loose).queues = s.queues from rfl]
      by_cases hhandle : s.handle = false
      · rw [if_pos hhandle, if_pos hhandle]
        rfl
      · rw [if_neg hhandle, if_neg hhandle]
        generalize s.queues[queue]? = r
        obtain _ | (_ | ⟨this, rest⟩) := r
        · rfl
        · exact hadd { s with allocMade := s.allocMade + 2, allocDropped := s.allocDropped + 1 } rfl _
        · exact hadd { s with queues := s.queues.set queue rest } rfl _
  | mutate i op =>
      simp only [step, hslot i (hfree i rfl)]
      obtain _ | (this | _ | _ | _) := s.slots[i]?
      case some.unique => exact whole_mutate A (hfree i rfl) this op
      all_goals rfl
  | intoShared i =>
      simp only [step, hslot i (hfree i rfl)]
      obtain _ | (this | _ | _ | _) := s.slots[i]?
      case some.unique =>
        refine bind_whole fun shared => ?_
        rw [← whole_setSlot (hfree i rfl)]
        exact hadd (s.setSlot i .gone) List.length_set _
      all_goals rfl
  | clone i =>
      simp only [step, hslot i (hfree i rfl)]
      obtain _ | (_ | this | _ | _) := s.slots[i]?
      case some.shared => exact bind_whole fun r => hadd { s with heap := r.1, allocMade := _ } rfl _
      all_goals rfl
  | tryUnique i =>
      simp only [step, hslot i (hfree i rfl)]
      obtain _ | (_ | this | _ | _) := s.slots[i]?
      case some.shared => exact whole_tryUnique (hfree i rfl) hin this
      all_goals rfl
  | read i =>
      simp only [step, hslot i (hfree i rfl)]
      obtain _ | (this | this | _ | _) := s.slots[i]?
      case some.unique | some.shared => exact bind_whole fun _ => rfl
      all_goals rfl
  | drop i =>
      simp only [step, hslot i (hfree i rfl)]
      obtain _ | (this | this | _ | _) := s.slots[i]?
      case some.unique | some.shared => exact congrArg Except.ok (whole_setSlot (hfree i rfl) _).symm
      all_goals rfl
  | advance i =>
      simp only [step, hslot i (hfree i rfl)]
      obtain _ | (_ | _ | ⟨this, pc, after⟩ | _) := s.slots[i]?
      case some.releasing => exact whole_advance (hfree i rfl) hin this after pc
      all_goals rfl
  | dropPool =>
      simp only [step]
      rw [show (s.whole loose).handle = s.handle from rfl]
      by_cases hhandle : s.handle = false
      · rw [if_pos hhandle, if_pos hhandle]
        rfl
      · rw [if_neg hhandle, if_neg hhandle]
        exact congrArg Except.ok (whole_releaseStrong (s := { s with handle := false }) hin).symm

/-- An action on an empty place does nothing. -/
theorem step_gone (A : Allocator p.toTarget) {action : Action} (hi : s.slots[i]? = some .gone)
    (hhandle : action.handle = some i) : step A cfg s action = .ok s := by
  cases action with
  | new | withCapacity | get | dropPool => cases hhandle
  | mutate j op | intoShared j | clone j | tryUnique j | read j | drop j | advance j =>
      obtain rfl : j = i := Option.some.inj hhandle
      simp only [step, hi]
      rfl

end

/-! ## One action -/

/-- Parts put together as they came are the buffer they were taken from. -/
theorem rebuild_withAlloc (this : UniqueAlignedBuffer Home) :
    (Parts.withAlloc this.intoRawPartsWithAlloc).rebuild (Parts.withAlloc this.intoRawPartsWithAlloc).len
      = this := rfl

theorem rebuild_global {this : UniqueAlignedBuffer Home} (hglobal : this.buf.alloc = .global) :
    (Parts.global this.intoRawParts).rebuild (Parts.global this.intoRawParts).len = this := by
  obtain ⟨⟨buf, cap, alloc⟩, len⟩ := this
  cases hglobal
  rfl

/-- Parts put together with a smaller length are the buffer cut to it. -/
theorem rebuild_truncate {parts : Parts} {len : Nat} (hle : len ≤ parts.len) :
    (parts.rebuild parts.len).truncate len = parts.rebuild len := by
  cases parts with
  | global parts =>
      have hmin : min len parts.2.1 = len := Nat.min_eq_left hle
      show (⟨_, min len parts.2.1⟩ : UniqueAlignedBuffer Home) = ⟨_, len⟩
      rw [hmin]
      rfl
  | withAlloc parts =>
      have hmin : min len parts.2.1 = len := Nat.min_eq_left hle
      show (⟨_, min len parts.2.1⟩ : UniqueAlignedBuffer Home) = ⟨_, len⟩
      rw [hmin]
      rfl

theorem rebuild_ptr (parts : Parts) (len : Nat) : (parts.rebuild len).buf.buf = parts.ptr := by
  cases parts <;> rfl

theorem rebuild_len (parts : Parts) (len : Nat) : (parts.rebuild len).len = len := by
  cases parts <;> rfl

namespace Apart

variable {p : Params} {cfg : Config} {s s' : Apart}

/-- The state as if nothing had been taken apart. -/
def whole (s : Apart) : State := s.buffers.whole s.loose

/-- What holds in every state. -/
structure Sound (p : Params) (cfg : Config) (s : Apart) : Prop where
  empty : Empty s.loose s.buffers
  inv : Inv p cfg s.whole

variable (A : Allocator p.toTarget)

/-- An action of the system is `plain` in the whole one, with the same end. -/
def Plainly (A : Allocator p.toTarget) (cfg : Config) (s : Apart) (plain : List Action) :
    Except Fault Apart → Prop
  | .ok s' => run (BufferPool.step A cfg) s.whole plain = .ok s'.whole ∧ Empty s'.loose s'.buffers
  | .error f => run (BufferPool.step A cfg) s.whole plain = .error f

theorem buffers_plainly (sound : Sound p cfg s) (action : Action) :
    Plainly A cfg s (s.plain (.buffers action)) (s.step A cfg (.buffers action)) := by
  have hempty := sound.empty
  simp only [plain, step]
  cases hloose : action.handle.bind s.loose with
  | some parts =>
      -- the buffer is apart, so the place is empty and nobody has a handle to act on
      obtain ⟨i, hhandle, hparts⟩ := Option.bind_eq_some_iff.mp hloose
      rw [step_gone A (hempty i parts hparts) hhandle]
      exact ⟨rfl, hempty⟩
  | none =>
      have hfree : ∀ i, action.handle = some i → s.loose i = none := by
        intro i hhandle
        rw [hhandle] at hloose
        exact hloose
      have hone : BufferPool.step A cfg s.whole action
          = (BufferPool.step A cfg s.buffers action).map (State.whole s.loose) :=
        whole_step A hempty.lt action hfree
      cases hr : BufferPool.step A cfg s.buffers action with
      | error f =>
          rw [hr] at hone
          exact run_cons_error hone
      | ok t =>
          rw [hr] at hone
          refine ⟨run_cons_ok hone, ?_⟩
          -- places that the action does not name stay empty
          intro j parts hj
          have hother : action.handle ≠ some j := by
            intro hhandle
            rw [hfree j hhandle] at hj
            cases hj
          have hplace := hempty j parts hj
          exact ((step_changes A hr).others j (hempty.lt j parts hj) hother).trans hplace

/-- A mutator that returns. -/
theorem step_mutate_eq {t : State} {i : Nat} {this this' : UniqueAlignedBuffer Home} {op : BufferOp}
    {heap : Heap} (hi : t.slots[i]? = some (.unique this)) (hfrees : op.frees p this = false)
    (happ : op.apply A t.heap this = (heap, this', none)) :
    BufferPool.step A cfg t (.mutate i op) = .ok ({ t with heap }.setSlot i (.unique this')) := by
  simp only [BufferPool.step, hi]
  unfold mutate
  rw [if_neg (by simp [hfrees]), happ]
  rfl

/-- **Taking a buffer apart** changes nothing in the whole table. -/
theorem takeApart_plainly {i : Nat} {this : UniqueAlignedBuffer Home} {parts : Parts} (sound : Sound p cfg s)
    (hi : s.buffers.slots[i]? = some (.unique this)) (hparts : parts.rebuild parts.len = this) :
    Plainly A cfg s [] (.ok (s.takeApart i parts)) := by
  have hlt := (List.getElem?_eq_some_iff.mp hi).1
  have hfree : s.loose i = none := by
    cases hloose : s.loose i with
    | none => rfl
    | some other =>
        -- the place of parts is empty, and here is a buffer
        have hgone := sound.empty i other hloose
        rw [hi] at hgone
        cases hgone
  have hsame : fill (Function.update s.loose i (some parts)) (s.buffers.slots.set i .gone)
      = fill s.loose s.buffers.slots := by
    have hplace : (fill s.loose s.buffers.slots)[i]? = some (.unique this) := by
      rw [getElem?_fill_free hfree, hi]
    obtain ⟨_, hget⟩ := List.getElem?_eq_some_iff.mp hplace
    rw [fill_set fun j hj => Function.update_of_ne hj _ _, Function.update_self]
    show (fill s.loose s.buffers.slots).set i (.unique (parts.rebuild parts.len)) = _
    rw [hparts, ← hget, List.set_getElem_self]
  refine ⟨?_, ?_⟩
  · exact congrArg (fun slots => Except.ok { s.buffers with slots }) hsame.symm
  · intro j other hj
    by_cases hji : j = i
    · subst hji
      exact List.getElem?_set_self hlt
    · have hj : s.loose j = some other := by
        rw [← hj]
        exact (Function.update_of_ne hji _ _).symm
      exact (List.getElem?_set_ne (Ne.symm hji)).trans (sound.empty j other hj)

/-- The buffer that the parts are, in the whole table. -/
theorem Sound.place {i : Nat} {parts : Parts} (sound : Sound p cfg s) (hloose : s.loose i = some parts) :
    s.whole.slots[i]? = some (.unique (parts.rebuild parts.len)) :=
  getElem?_fill_loose hloose (sound.empty i parts hloose)

/-- **A write through the pointer** is one through `index_mut` of the buffer in one piece. -/
theorem write_plainly {i offset : Nat} {bytes : List UInt8} {parts : Parts} (sound : Sound p cfg s)
    (hloose : s.loose i = some parts) (hle : offset + bytes.length ≤ parts.len) :
    Plainly A cfg s [.mutate i (.unique (.indexMut offset bytes))] (do
      let heap ← s.buffers.heap.write p (parts.ptr.add offset) bytes
      return { s with buffers := { s.buffers with heap } }) := by
  -- the invariant of the whole table gives the buffer in one piece, with its bytes
  have hplace := sound.place hloose
  obtain ⟨⟨o, xs, data, hs⟩, -⟩ := sound.inv.slots i _ hplace
  have hlen := hs.length_eq
  rw [rebuild_len] at hlen
  have hdata := hs.length_le
  obtain ⟨heap, hw, -, -⟩ := hs.holds.write (show offset + bytes.length ≤ data.length by omega)
  have hcall : (parts.rebuild parts.len).indexMut p s.buffers.heap offset bytes
      = .ok (heap, parts.rebuild parts.len) := by
    unfold UniqueAlignedBuffer.indexMut
    rw [show (parts.rebuild parts.len).asSlice p s.buffers.heap = .ok xs from hs.asSlice_eq, ok_bind,
      if_neg (by omega)]
    show (s.buffers.heap.write p ((parts.rebuild parts.len).buf.buf.add offset) bytes >>= _) = _
    rw [show s.buffers.heap.write p ((parts.rebuild parts.len).buf.buf.add offset) bytes = _ from hw]
    rfl
  rw [rebuild_ptr] at hw
  rw [show s.buffers.heap.write p (parts.ptr.add offset) bytes = _ from hw]
  refine ⟨?_, sound.empty⟩
  have happ : BufferOp.apply A s.whole.heap (parts.rebuild parts.len) (.unique (.indexMut offset bytes))
      = (heap, parts.rebuild parts.len, none) := by
    show UniqueOp.settle _ _ ((parts.rebuild parts.len).indexMut p s.buffers.heap offset bytes) = _
    rw [hcall]
    rfl
  -- the handle is the same one afterwards
  have hset : s.whole.slots.set i (.unique (parts.rebuild parts.len)) = s.whole.slots := by
    obtain ⟨_, hget⟩ := List.getElem?_eq_some_iff.mp hplace
    rw [← hget, List.set_getElem_self]
  refine run_cons_ok ((step_mutate_eq A hplace rfl happ).trans (congrArg Except.ok ?_))
  exact congrArg (fun slots => { s.whole with heap, slots }) hset

/-- **Putting the parts together** is cutting the buffer in one piece to the length. -/
theorem rebuild_plainly {i len : Nat} {parts : Parts} (sound : Sound p cfg s)
    (hloose : s.loose i = some parts) (hle : len ≤ parts.len) :
    Plainly A cfg s [.mutate i (.unique (.truncate len))]
      (.ok ⟨s.buffers.setSlot i (.unique (parts.rebuild len)), Function.update s.loose i none⟩) := by
  have hplace := sound.place hloose
  have happ : BufferOp.apply A s.whole.heap (parts.rebuild parts.len) (.unique (.truncate len))
      = (s.whole.heap, parts.rebuild len, none) := by
    show (_, (parts.rebuild parts.len).truncate len, _) = _
    rw [rebuild_truncate hle]
  have hsame : (fill s.loose s.buffers.slots).set i (.unique (parts.rebuild len))
      = fill (Function.update s.loose i none) (s.buffers.slots.set i (.unique (parts.rebuild len))) := by
    rw [fill_set fun j hj => Function.update_of_ne hj _ _, Function.update_self]
    rfl
  refine ⟨run_cons_ok ((step_mutate_eq A hplace rfl happ).trans (congrArg Except.ok ?_)), ?_⟩
  · exact congrArg (fun slots => { s.buffers with slots }) hsame
  · intro j other hj
    dsimp only at hj
    have hji : j ≠ i := by
      intro hji
      rw [hji, Function.update_self] at hj
      cases hj
    rw [Function.update_of_ne hji] at hj
    exact (List.getElem?_set_ne (Ne.symm hji)).trans (sound.empty j other hj)

/-- **Every action** is plain. -/
theorem step_plainly (sound : Sound p cfg s) (a : ApartAction) :
    Plainly A cfg s (s.plain a) (s.step A cfg a) := by
  have hidle : Plainly A cfg s [] (.ok s) := ⟨rfl, sound.empty⟩
  cases a with
  | buffers action => exact buffers_plainly A sound action
  | intoRawParts i =>
      simp only [plain, step]
      rcases hi : s.buffers.slots[i]? with _ | (this | _ | _ | _)
      case some.unique =>
        dsimp only
        by_cases hglobal : this.buf.alloc = .global
        · rw [if_pos hglobal]
          exact takeApart_plainly A sound hi (rebuild_global hglobal)
        · rw [if_neg hglobal]
          exact hidle
      all_goals exact hidle
  | intoRawPartsWithAlloc i =>
      simp only [plain, step]
      rcases hi : s.buffers.slots[i]? with _ | (this | _ | _ | _)
      case some.unique => exact takeApart_plainly A sound hi (rebuild_withAlloc this)
      all_goals exact hidle
  | write i offset bytes =>
      simp only [plain, step]
      cases hloose : s.loose i with
      | none => exact hidle
      | some parts =>
          dsimp only
          by_cases hlt : parts.len < offset + bytes.length
          · rw [if_pos hlt, if_pos hlt]
            exact hidle
          · rw [if_neg hlt, if_neg hlt]
            exact write_plainly A sound hloose (by omega)
  | fromRawParts i len =>
      simp only [plain, step]
      cases hloose : s.loose i with
      | none => exact hidle
      | some parts =>
          dsimp only
          by_cases hlt : parts.len < len
          · rw [if_pos hlt, if_pos hlt]
            exact hidle
          · rw [if_neg hlt, if_neg hlt]
            exact rebuild_plainly A sound hloose (by omega)

/-- **Every run** is plain. -/
theorem run_plainly (as : List ApartAction) (sound : Sound p cfg s) :
    (∃ s', run (step A cfg) s as = .ok s' ∧ Sound p cfg s' ∧
      run (BufferPool.step A cfg) s.whole (s.plainRun A cfg as) = .ok s'.whole) ∨
    ∃ f, run (step A cfg) s as = .error f ∧ f.Aborts ∧
      run (BufferPool.step A cfg) s.whole (s.plainRun A cfg as) = .error f := by
  -- the invariant is carried by the plain run; here `Empty` is all that has to be kept
  induction as generalizing s with
  | nil => exact Or.inl ⟨s, rfl, sound, rfl⟩
  | cons a as ih =>
      have hone := step_plainly A sound a
      have hruns := run_rule (Inv p cfg) Fault.Aborts (fun _ action inv =>
        (step_proceeds A inv action).imp_left fun ⟨s', hs', hev⟩ => ⟨s', hs', hev.inv⟩)
        (s.plain a) s.whole sound.inv
      simp only [plainRun]
      cases hr : s.step A cfg a with
      | error f =>
          rw [hr] at hone
          rw [run_cons_error hr, List.append_nil]
          rcases hruns with ⟨t, ht, -⟩ | ⟨f', hf, haborts⟩
          · rw [show run _ _ _ = _ from hone] at ht
            cases ht
          · rw [show run _ _ _ = _ from hone] at hf
            cases hf
            exact Or.inr ⟨f, rfl, haborts, hone⟩
      | ok s₁ =>
          rw [hr] at hone
          rw [run_cons_ok hr, run_append hone.1]
          rcases hruns with ⟨t, ht, hinv⟩ | ⟨f', hf, -⟩
          · rw [hone.1] at ht
            cases ht
            exact ih ⟨hone.2, hinv⟩
          · rw [hone.1] at hf
            cases hf

/-- **What is true of parts** while their buffer is apart. -/
structure Owns (p : Params) (s : Apart) (i : Nat) (parts : Parts) : Prop where
  /-- the buffer is gone -/
  place : s.buffers.slots[i]? = some .gone
  /-- the bytes up to the length are there to read -/
  bytes : ∃ xs, s.buffers.heap.read p parts.ptr parts.len = .ok xs ∧ xs.length = parts.len
  /-- the block, if there is one, is allocated, and no handle, no queue and no other parts are on it -/
  alone : ∀ b, parts.ptr.prov = some b →
    (∃ blk, s.buffers.heap.blocks[b]? = some blk ∧ blk.status = .allocated) ∧
    (∀ (j : Nat) (slot : Slot), s.buffers.slots[j]? = some slot → ¬slot.Has b) ∧ s.buffers.queued b = 0 ∧
    ∀ (j : Nat) (other : Parts), s.loose j = some other → other.ptr.prov = some b → j = i

theorem Sound.owns (sound : Sound p cfg s) {i : Nat} {parts : Parts} (hloose : s.loose i = some parts) :
    Owns p s i parts := by
  have hplace := sound.place hloose
  obtain ⟨⟨o, xs, data, hs⟩, -⟩ := sound.inv.slots i _ hplace
  have hsole (other : Parts) (b : BlockId) (hb : other.ptr.prov = some b) :
      (Slot.unique (other.rebuild other.len)).sole = some b := by
    rw [← hb, ← rebuild_ptr other other.len]
    rfl
  have howned := sound.inv.ownedOnce
  constructor
  · exact sound.empty i parts hloose
  · have hread := hs.asSlice_eq
    have hlen := hs.length_eq
    unfold UniqueAlignedBuffer.asSlice at hread
    rw [rebuild_ptr, rebuild_len] at hread
    rw [rebuild_len] at hlen
    exact ⟨xs, hread, hlen.symm⟩
  · intro b hb
    have hhas : (Slot.unique (parts.rebuild parts.len)).Has b := Or.inl (hsole parts b hb)
    obtain ⟨blk, hblk, hlive⟩ := howned.live b (Or.inr ⟨i, _, hplace, hhas⟩)
    refine ⟨⟨blk, hblk, hlive⟩, ?_, ?_, ?_⟩
    · intro j slot hj hother
      -- a filled place is empty here; any other is the same place of the whole table
      cases hfilled : s.loose j with
      | some other =>
          have hgone := sound.empty j other hfilled
          rw [hj] at hgone
          cases hgone
          rcases hother with h | h <;> cases h
      | none =>
          have hj' : s.whole.slots[j]? = some slot := (getElem?_fill_free hfilled).trans hj
          obtain rfl := sound.inv.eq_of_has (hsole parts b hb) hplace hj' hother
          rw [hloose] at hfilled
          cases hfilled
    · rcases howned.owner b blk hblk hlive with ⟨-, hnone⟩ | ⟨hqueued, -⟩
      · exact absurd hhas (hnone i _ hplace)
      · exact hqueued
    · intro j other hj hb'
      exact sound.inv.eq_of_has (hsole parts b hb) hplace (sound.place hj) (Or.inl (hsole other b hb'))

variable (cfg)

/-- **Parts are the buffer.** Let buffers be taken apart, written through their pointers and put together again
    in between anything else that happens to buffers and pools, in any order and on any allocator. The run is,
    action by action, the run in which no buffer is ever taken apart: the one ends where the other does, in the
    same state but for the places of the buffers that are still apart, or with the same abort. In particular a
    buffer put together with the length it came with is the buffer that was taken apart, with a smaller length
    it is that buffer truncated, and one that is never put together is never given back; and while a buffer is
    apart its bytes are there to read, in a block that nobody else is on. -/
theorem parts_are_the_buffer (actions : List ApartAction) :
    match Apart.runFrom A cfg actions with
    | .ok s => BufferPool.runFrom A cfg ((init cfg).plainRun A cfg actions) = .ok s.whole ∧
        ∀ i parts, s.loose i = some parts → Owns p s i parts
    | .error f => BufferPool.runFrom A cfg ((init cfg).plainRun A cfg actions) = .error f ∧
        (f = .allocError ∨ f = .refcountAbort) := by
  have sound : Sound p cfg (init cfg) := by
    constructor
    · intro i parts hloose
      cases hloose
    · exact Inv.init
  unfold Apart.runFrom BufferPool.runFrom
  rcases run_plainly A actions sound with ⟨s, hrun, hsound, hplain⟩ | ⟨f, hrun, haborts, hplain⟩
  · rw [hrun]
    exact ⟨hplain, fun i parts hloose => hsound.owns hloose⟩
  · rw [hrun]
    exact ⟨hplain, haborts⟩

end Apart

end BufferPool

end RkyvUtils
