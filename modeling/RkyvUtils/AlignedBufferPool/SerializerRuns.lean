import RkyvUtils.AlignedBufferPool.SerializerPool
import RkyvUtils.AlignedBufferPool.Safety

/-!
# `AlignedBufferPool.SerializerRuns` — what a serializer starts with

The buffers of a serializer come from the pool empty (`buffers_start_clean`): a recycled buffer has length
0, which is part of the invariant of the queues. Its table does not: `RentedUnify::drop` puts the table
back as it is, so a serializer starts clean in every run in which no table with entries is put back
(`serializers_start_clean`), and after a run that puts one back it can start with the entries of another
(`not_nextClean_sharedOnce`). While it is in use a serializer has its two buffers to itself (`run_owned`).
-/

namespace RkyvUtils

open Run Recycle

namespace SerializerPool

variable {p : Params} (A : Allocator p.toTarget) (capacity : Nat) (policy : Nat → Bool)

/-! ## What the next serializer is like -/

/-- A serializer is what one of a new pool is: its position and its scratch length are 0, its table is
    empty, and it answers every sequence of calls as one with a new table does. -/
structure Serializer.Clean (p : Params) (s : State) (this : Serializer) : Prop where
  writer : ∃ writer, s.buffers.slots[this.writer]? = some (.unique writer) ∧ writer.len = 0
  scratch : ∃ scratch, s.buffers.slots[this.scratch]? = some (.unique scratch) ∧ scratch.len = 0
  unify : this.unify = ∅
  answers : ∀ sharing : List SharingCall,
    (calls (SharingMap.call p) this.unify sharing).2 = (calls (SharingMap.call p) ∅ sharing).2

/-- The next `get` gives a clean serializer. -/
def NextClean (s : State) : Prop :=
  s.buffers.handle = true → ∃ s' this, step A capacity policy s .get = .ok s' ∧
    s'.serializers[s.serializers.length]? = some (.live this) ∧ this.Clean p s'

/-- `RentedUnify::drop` puts a table that is not empty back into the queue, unless there is no pool or no
    room. This is the condition that it does not. -/
def PutsBackEmpty (s : State) : Action → Prop
  | .dropUnify i => ∀ map, s.serializers[i]? = some (.unify map) →
      map = ∅ ∨ s.buffers.strong = 0 ∨ capacity ≤ s.unify.length
  | _ => True

instance (s : State) : ∀ action, Decidable (PutsBackEmpty capacity s action)
  | .dropUnify i =>
      match h : s.serializers[i]? with
      | some (.unify map) =>
          decidable_of_iff
            (map.entries.isEmpty = true ∨ s.buffers.strong = 0 ∨ capacity ≤ s.unify.length)
            (by simp only [PutsBackEmpty, h, Option.some.injEq, Rental.unify.injEq, forall_eq',
              SharingMap.eq_empty_iff])
      | some (.live _) | some .gone | none => isTrue (by simp [PutsBackEmpty, h])
  | .get | .write _ _ | .pushAlloc _ _ | .popAlloc _ _ _ | .sharing _ _ | .intoBuffer _ | .drop _
  | .buffers _ => isTrue trivial

/-! ## Steps -/

section

/-- A buffer from a queue of the pool stores nothing, be it a new one or a recycled one. -/
theorem get_fresh {cfg : BufferPool.Config} {s : BufferPool.State} (inv : BufferPool.Inv p cfg s)
    (hhandle : s.handle = true) {queue : Nat} (hlt : queue < cfg.queues) :
    ∃ s' this, BufferPool.step A cfg s (.get queue) = .ok s' ∧ BufferPool.Inv p cfg s' ∧
      s'.slots = s.slots ++ [.unique this] ∧ this.len = 0 ∧ s'.handle = true := by
  have hstep := BufferPool.get_proceeds A inv queue
  have hq : queue < s.queues.length := by rw [inv.queues_length]; exact hlt
  have hentries : s.queues[queue]? = some s.queues[queue] := List.getElem?_eq_getElem hq
  generalize s.queues[queue] = entries at hentries
  simp only [BufferPool.step] at hstep ⊢
  rw [if_neg (by simp [hhandle]), hentries] at hstep ⊢
  cases entries with
  | nil =>
      rcases hstep with ⟨s', hs', hev⟩ | ⟨f, hf, -⟩
      · cases hs'
        exact ⟨_, _, rfl, hev.inv, rfl, rfl, hhandle⟩
      · cases hf
  | cons this rest =>
      rcases hstep with ⟨s', hs', hev⟩ | ⟨f, hf, -⟩
      · cases hs'
        have hlen := (inv.queues queue _ hentries this (List.mem_cons_self ..)).len
        exact ⟨_, _, rfl, hev.inv, rfl, hlen, hhandle⟩
      · cases hf

/-- The invariant of the buffers, whatever the tables are. -/
abbrev BuffersInv (p : Params) (s : State) : Prop :=
  BufferPool.Inv p (config capacity policy) s.buffers

/-- What one action does: the buffers keep their invariant, and a table in the queue was there before or
    was put back by the action. -/
def Proceeds (p : Params) (s : State) (action : Action) (r : Except Fault State) : Prop :=
  (∃ s', r = .ok s' ∧ BuffersInv capacity policy p s' ∧
    ∀ map ∈ s'.unify, map ∈ s.unify ∨ ∃ i, action = .dropUnify i ∧
      s.serializers[i]? = some (.unify map) ∧ s.buffers.strong ≠ 0 ∧ s.unify.length < capacity) ∨
  ∃ f, r = .error f ∧ f.Aborts

variable {s : State}

/-- A step of the buffers, and then nothing that adds a table. -/
theorem buffers_proceed {buffers : BufferPool.State}
    (hinv : BufferPool.Inv p (config capacity policy) buffers)
    (action : BufferPool.Action) (action' : Action) (k : BufferPool.State → Except Fault State)
    (hk : ∀ buffers', BufferPool.Inv p (config capacity policy) buffers' →
      Proceeds capacity policy p s action' (k buffers')) :
    Proceeds capacity policy p s action'
      (BufferPool.step A (config capacity policy) buffers action >>= k) := by
  rcases BufferPool.step_proceeds A hinv action with ⟨buffers', hs', hev⟩ | ⟨f, hf, habort⟩
  · rw [hs', ok_bind]
    exact hk buffers' hev.inv
  · rw [hf]
    exact Or.inr ⟨f, rfl, habort⟩

/-- The queue of tables after a step of the buffers is what it was, or gone. -/
theorem settle_proceeds {buffers : BufferPool.State}
    (hinv : BufferPool.Inv p (config capacity policy) buffers) (serializers : List Rental)
    (action : Action) :
    Proceeds capacity policy p s action (.ok { settle s buffers with serializers := serializers }) := by
  refine Or.inl ⟨_, rfl, hinv, fun map hmap => Or.inl ?_⟩
  unfold settle at hmap
  dsimp only at hmap
  split at hmap
  · cases hmap
  · exact hmap

variable (inv : BuffersInv capacity policy p s)
include inv

theorem stays (action : Action) : Proceeds capacity policy p s action (.ok s) :=
  Or.inl ⟨s, rfl, inv, fun _ hmap => Or.inl hmap⟩

theorem mutate_proceeds (i : Nat) (buffer : Serializer → Nat) (op : BufferOp) (action : Action) :
    Proceeds capacity policy p s action (mutate A capacity policy s i buffer op) := by
  unfold mutate
  split
  · refine buffers_proceed A capacity policy inv _ action _ fun buffers' hinv => ?_
    exact settle_proceeds capacity policy hinv s.serializers action
  · exact stays capacity policy inv action

theorem giveUp_proceeds (i : Nat) (writer : Nat → BufferPool.Action) (action : Action) :
    Proceeds capacity policy p s action (giveUp A capacity policy s i writer) := by
  unfold giveUp
  split
  · refine buffers_proceed A capacity policy inv _ action _ fun buffers₁ hinv₁ => ?_
    refine buffers_proceed A capacity policy hinv₁ _ action _ fun buffers₂ hinv₂ => ?_
    exact settle_proceeds capacity policy hinv₂ _ action
  · exact stays capacity policy inv action

/-- **`get`** gives a serializer with two new handles, to buffers that store nothing, and the oldest
    table. -/
theorem get_spec (hhandle : s.buffers.handle = true) :
    ∃ s' this writer scratch, step A capacity policy s .get = .ok s' ∧ BuffersInv capacity policy p s' ∧
      s'.unify = (take ∅ s.unify).2 ∧ s'.serializers = s.serializers ++ [.live this] ∧
      this = ⟨s.buffers.slots.length, s.buffers.slots.length + 1, (take ∅ s.unify).1⟩ ∧
      s'.buffers.slots = s.buffers.slots ++ [.unique writer, .unique scratch] ∧
      writer.len = 0 ∧ scratch.len = 0 := by
  obtain ⟨writers, writer, hw, hinv₁, hslots₁, hlen₁, hhandle₁⟩ :=
    get_fresh A inv hhandle (show 0 < (config capacity policy).queues from Nat.two_pos)
  obtain ⟨buffers, scratch, hb, hinv₂, hslots₂, hlen₂, -⟩ :=
    get_fresh A hinv₁ hhandle₁ (show 1 < (config capacity policy).queues from Nat.one_lt_two)
  have hlength : writers.slots.length = s.buffers.slots.length + 1 := by
    rw [hslots₁, List.length_append, List.length_singleton]
  simp only [step]
  rw [if_neg (by simp [hhandle]), hw, ok_bind, hb, ok_bind, hlength]
  refine ⟨_, _, writer, scratch, rfl, hinv₂, rfl, rfl, rfl, ?_, hlen₁, hlen₂⟩
  show buffers.slots = _
  rw [hslots₂, hslots₁, List.append_assoc]
  rfl

/-- **Every action.** -/
theorem step_proceeds (action : Action) :
    Proceeds capacity policy p s action (step A capacity policy s action) := by
  cases action with
  | get =>
      by_cases hhandle : s.buffers.handle = false
      · simp only [step]
        rw [if_pos hhandle]
        exact stays capacity policy inv .get
      · obtain ⟨s', this, writer, scratch, hs', hinv, hunify, -⟩ :=
          get_spec A capacity policy inv (Bool.eq_true_of_not_eq_false hhandle)
        refine Or.inl ⟨s', hs', hinv, fun map hmap => Or.inl ?_⟩
        rw [hunify] at hmap
        cases hq : s.unify with
        | nil => rw [hq] at hmap; cases hmap
        | cons map' rest =>
            rw [hq] at hmap
            exact List.mem_cons_of_mem _ hmap
  | write i bytes => exact mutate_proceeds A capacity policy inv i _ _ _
  | pushAlloc i layout => exact mutate_proceeds A capacity policy inv i _ _ _
  | popAlloc i ptr layout => exact mutate_proceeds A capacity policy inv i _ _ _
  | sharing i call =>
      simp only [step]
      split
      · exact Or.inl ⟨_, rfl, inv, fun _ hmap => Or.inl hmap⟩
      · exact stays capacity policy inv _
  | intoBuffer i => exact giveUp_proceeds A capacity policy inv i _ _
  | drop i => exact giveUp_proceeds A capacity policy inv i _ _
  | dropUnify i =>
      simp only [step]
      split
      case h_1 map hi =>
        refine Or.inl ⟨_, rfl, inv, fun map' hmap => ?_⟩
        dsimp only at hmap
        split at hmap
        · exact Or.inl hmap
        case isFalse hstrong =>
          unfold put at hmap
          split at hmap
          case isTrue hroom =>
            rcases List.mem_append.mp hmap with hmem | hmem
            · exact Or.inl hmem
            · rw [List.mem_singleton.mp hmem]
              exact Or.inr ⟨i, rfl, hi, hstrong, hroom⟩
          case isFalse => exact Or.inl hmap
      case h_2 => exact stays capacity policy inv _
  | buffers action =>
      simp only [step]
      split
      · refine buffers_proceed A capacity policy inv _ _ _ fun buffers' hinv => ?_
        exact settle_proceeds capacity policy hinv s.serializers _
      · exact stays capacity policy inv _

end

/-! ## Runs -/

/-- What a serializer's two handles are after `get`. -/
theorem get_buffers {s s' : State} {this : Serializer} {writer scratch : UniqueAlignedBuffer Home}
    {map : SharingMap} (hthis : this = ⟨s.buffers.slots.length, s.buffers.slots.length + 1, map⟩)
    (hslots : s'.buffers.slots = s.buffers.slots ++ [.unique writer, .unique scratch]) :
    s'.buffers.slots[this.writer]? = some (.unique writer) ∧
      s'.buffers.slots[this.scratch]? = some (.unique scratch) := by
  rw [hthis, hslots]
  constructor
  · rw [List.getElem?_append_right (Nat.le_refl _), Nat.sub_self]; rfl
  · rw [List.getElem?_append_right (Nat.le_add_right _ _), Nat.add_sub_cancel_left]; rfl

/-- The invariant under the condition: no table in the queue has an entry. -/
def Inv (p : Params) (s : State) : Prop :=
  BuffersInv capacity policy p s ∧ ∀ map ∈ s.unify, map = ∅

/-- **One action** that puts no entry back. -/
theorem Inv.step {s : State} (inv : Inv capacity policy p s) (action : Action)
    (hkeep : PutsBackEmpty capacity s action) :
    (∃ s', step A capacity policy s action = .ok s' ∧ Inv capacity policy p s') ∨
    ∃ f, step A capacity policy s action = .error f ∧ f.Aborts := by
  obtain ⟨hbuffers, hunify⟩ := inv
  rcases step_proceeds A capacity policy hbuffers action with ⟨s', hs', hbuffers', hmaps⟩ | hf
  · refine Or.inl ⟨s', hs', hbuffers', fun map hmap => ?_⟩
    -- a table in the queue was there, or is put back by this very action
    rcases hmaps map hmap with hold | ⟨i, rfl, hi, hstrong, hroom⟩
    · exact hunify map hold
    · rcases hkeep map hi with hempty | hgone | hfull
      · exact hempty
      · exact absurd hgone hstrong
      · omega
  · exact Or.inr hf

theorem Inv.init : Inv capacity policy p (State.init capacity policy) :=
  ⟨BufferPool.Inv.init, nofun⟩

/-- The next serializer is clean. -/
theorem Inv.nextClean {s : State} (inv : Inv capacity policy p s) : NextClean A capacity policy s := by
  intro hhandle
  obtain ⟨s', this, writer, scratch, hs', -, -, hserializers, hthis, hslots, hwriter, hscratch⟩ :=
    get_spec A capacity policy inv.1 hhandle
  obtain ⟨hw, hs⟩ := get_buffers hthis hslots
  obtain ⟨hempty, -⟩ := take_clean (P := fun map => map = ∅) rfl inv.2
  have hunify : this.unify = ∅ := by
    rw [hthis]
    exact hempty
  refine ⟨s', this, hs', ?_, ⟨writer, hw, hwriter⟩, ⟨scratch, hs, hscratch⟩, hunify, fun sharing => ?_⟩
  · rw [hserializers, List.getElem?_concat_length]
  · rw [hunify]

/-- **Buffers come back empty**: in every run the next serializer starts at position 0 with an empty
    scratch buffer. -/
theorem buffers_start_clean (actions : List Action) :
    match runFrom A capacity policy actions with
    | .ok s => s.buffers.handle = true → ∃ s' this, step A capacity policy s .get = .ok s' ∧
        s'.serializers[s.serializers.length]? = some (.live this) ∧
        (∃ writer, s'.buffers.slots[this.writer]? = some (.unique writer) ∧ writer.len = 0) ∧
        ∃ scratch, s'.buffers.slots[this.scratch]? = some (.unique scratch) ∧ scratch.len = 0
    | .error f => f = .allocError ∨ f = .refcountAbort := by
  have hstep : ∀ s action, BuffersInv capacity policy p s →
      (∃ s', step A capacity policy s action = .ok s' ∧ BuffersInv capacity policy p s') ∨
      ∃ f, step A capacity policy s action = .error f ∧ f.Aborts := fun s action inv =>
    (step_proceeds A capacity policy inv action).imp_left fun ⟨s', hs', hinv, _⟩ => ⟨s', hs', hinv⟩
  rcases run_rule _ Fault.Aborts hstep actions (State.init capacity policy) BufferPool.Inv.init with
    ⟨s, hr, inv⟩ | ⟨f, hr, hf⟩
  · rw [show runFrom A capacity policy actions = .ok s from hr]
    intro hhandle
    obtain ⟨s', this, writer, scratch, hs', -, -, hserializers, hthis, hslots, hwriter, hscratch⟩ :=
      get_spec A capacity policy inv hhandle
    obtain ⟨hw, hs⟩ := get_buffers hthis hslots
    refine ⟨s', this, hs', ?_, ⟨writer, hw, hwriter⟩, ⟨scratch, hs, hscratch⟩⟩
    rw [hserializers, List.getElem?_concat_length]
  · rw [show runFrom A capacity policy actions = .error f from hr]
    exact hf

/-- **Serializers start clean** in every run in which no table with entries is put back: each table that
    is given up while the pool is there and its queue has room is empty. -/
theorem serializers_start_clean (actions : List Action)
    (hkeep : Along (PutsBackEmpty capacity) (step A capacity policy) (State.init capacity policy)
      actions) :
    match runFrom A capacity policy actions with
    | .ok s => NextClean A capacity policy s
    | .error f => f = .allocError ∨ f = .refcountAbort := by
  rcases run_rule_along _ (Inv capacity policy p) Fault.Aborts
    (fun s action inv hkeep => inv.step A capacity policy action hkeep) actions _
    (Inv.init capacity policy) hkeep with ⟨s, hr, inv⟩ | ⟨f, hr, hf⟩
  · rw [show runFrom A capacity policy actions = .ok s from hr]
    exact inv.nextClean A capacity policy
  · rw [show runFrom A capacity policy actions = .error f from hr]
    exact hf

/-- Two serializers, one of them with an entry in its table; the other fills the queue of capacity 1
    first. -/
def filledUp : List Action :=
  [.get, .get, .sharing 0 (.startSharing 4096), .drop 1, .dropUnify 1, .drop 0, .dropUnify 0]

/-- The table with the entry is lost, and the next serializer is clean. -/
theorem serializers_start_clean_filledUp :
    match runFrom (.bump (Params.x86_64 true).toTarget) 1 (fun _ => true) filledUp with
    | .ok s => NextClean (.bump (Params.x86_64 true).toTarget) 1 (fun _ => true) s
    | .error f => f = .allocError ∨ f = .refcountAbort :=
  serializers_start_clean (.bump (Params.x86_64 true).toTarget) 1 (fun _ => true) filledUp (by decide)

/-- A serializer shares one value, of address 4096 and at position 8, and is dropped. -/
def sharedOnce : List Action :=
  [.get, .sharing 0 (.startSharing 4096), .sharing 0 (.finishSharing 4096 8), .drop 0, .dropUnify 0]

/-- **The next serializer has that entry**: asked for another value at the same address it answers that
    it was written at position 8, where a new one starts to write it. -/
theorem not_nextClean_sharedOnce :
    ∃ s s' this, runFrom (.bump (Params.x86_64 true).toTarget) 1 (fun _ => true) sharedOnce = .ok s ∧
      step (.bump (Params.x86_64 true).toTarget) 1 (fun _ => true) s .get = .ok s' ∧
      s'.serializers[s.serializers.length]? = some (.live this) ∧
      (calls (SharingMap.call (Params.x86_64 true)) this.unify [.startSharing 4096]).2
        = [.state (.finished 8)] ∧
      (calls (SharingMap.call (Params.x86_64 true)) ∅ [.startSharing 4096]).2 = [.state .started] ∧
      ¬NextClean (.bump (Params.x86_64 true).toTarget) 1 (fun _ => true) s := by
  refine ⟨_, _, _, rfl, rfl, rfl, by decide, by decide, ?_⟩
  intro hnext
  obtain ⟨s', this, hs', hthis, hclean⟩ := hnext rfl
  cases hs'
  cases hthis
  exact absurd (hclean.answers [.startSharing 4096]) (by decide)

/-! ## Every serializer has its buffers to itself -/

/-- Handle `k` is a unique buffer. -/
def IsUnique (buffers : BufferPool.State) (k : Nat) : Prop :=
  ∃ this, buffers.slots[k]? = some (.unique this)

theorem IsUnique.lt {buffers : BufferPool.State} {k : Nat} (h : IsUnique buffers k) :
    k < buffers.slots.length := by
  obtain ⟨this, hk⟩ := h
  exact (List.getElem?_eq_some_iff.mp hk).1

/-- What is done to another handle leaves a unique buffer unique. -/
theorem IsUnique.of_changes {buffers buffers' : BufferPool.State} {handle : Option Nat}
    {passed : List BlockId} {k : Nat} (h : IsUnique buffers k)
    (hchanges : BufferPool.Changes buffers buffers' handle passed) (hne : handle ≠ some k) :
    IsUnique buffers' k := by
  obtain ⟨this, hk⟩ := h
  exact ⟨this, (hchanges.others k (List.getElem?_eq_some_iff.mp hk).1 hne).trans hk⟩

/-- An operation that does not give up the block leaves the buffer unique. -/
theorem IsUnique.mutate {cfg : BufferPool.Config} {buffers buffers' : BufferPool.State} {k : Nat}
    {op : BufferOp} (h : IsUnique buffers k)
    (hkeep : ∀ this : UniqueAlignedBuffer Home, op.frees p this = false)
    (hstep : BufferPool.step A cfg buffers (.mutate k op) = .ok buffers') : IsUnique buffers' k := by
  obtain ⟨this, hk⟩ := h
  have hlt := (List.getElem?_eq_some_iff.mp hk).1
  simp only [BufferPool.step, hk] at hstep
  unfold BufferPool.mutate at hstep
  rw [hkeep this, if_neg (by simp)] at hstep
  split at hstep
  · cases hstep
    exact ⟨_, List.getElem?_set_self hlt⟩
  · split at hstep
    · cases hstep
      exact ⟨_, List.getElem?_set_self hlt⟩
    · cases hstep

/-- Every serializer in use has two unique buffers, and shares them with no other. -/
structure Owned (s : State) : Prop where
  unique : ∀ (i : Nat) (this : Serializer), s.serializers[i]? = some (.live this) →
    IsUnique s.buffers this.writer ∧ IsUnique s.buffers this.scratch
  ne : ∀ (i : Nat) (this : Serializer), s.serializers[i]? = some (.live this) →
    this.writer ≠ this.scratch
  apart : ∀ (i j : Nat) (this other : Rental) (k : Nat), s.serializers[i]? = some this →
    s.serializers[j]? = some other → this.owns k = true → other.owns k = true → i = j

theorem owns_writer (this : Serializer) : (Rental.live this).owns this.writer = true := by
  simp [Rental.owns]

theorem owns_scratch (this : Serializer) : (Rental.live this).owns this.scratch = true := by
  simp [Rental.owns]

theorem Owned.unique_of_owns {s : State} (owned : Owned s) {i : Nat} {this : Rental} {k : Nat}
    (hi : s.serializers[i]? = some this) (hk : this.owns k = true) : IsUnique s.buffers k := by
  cases this with
  | live this =>
      obtain ⟨hwriter, hscratch⟩ := owned.unique i this hi
      rcases Bool.or_eq_true_iff.mp hk with he | he
      · rw [← of_decide_eq_true he]; exact hwriter
      · rw [← of_decide_eq_true he]; exact hscratch
  | unify map => cases hk
  | gone => cases hk

/-- The serializers stay, and all that they own stays unique. -/
theorem Owned.of_unique {s s' : State} (owned : Owned s) (hsame : s'.serializers = s.serializers)
    (hunique : ∀ (i : Nat) (this : Rental) (k : Nat), s.serializers[i]? = some this →
      this.owns k = true → IsUnique s'.buffers k) : Owned s' where
  unique i this hi := by
    rw [hsame] at hi
    exact ⟨hunique i _ _ hi (owns_writer this), hunique i _ _ hi (owns_scratch this)⟩
  ne := by rw [hsame]; exact owned.ne
  apart := by rw [hsame]; exact owned.apart

/-- Serializer `i` changes to one that owns no more than it did. -/
theorem Owned.set {s s' : State} (owned : Owned s) {i : Nat} {this this' : Rental}
    (hi : s.serializers[i]? = some this) (hset : s'.serializers = s.serializers.set i this')
    (hle : ∀ k, this'.owns k = true → this.owns k = true)
    (hne : ∀ serializer, this' = .live serializer → serializer.writer ≠ serializer.scratch)
    (hunique : ∀ (j : Nat) (other : Rental) (k : Nat), s'.serializers[j]? = some other →
      other.owns k = true → IsUnique s'.buffers k) : Owned s' where
  unique j other hj :=
    ⟨hunique j _ _ hj (owns_writer other), hunique j _ _ hj (owns_scratch other)⟩
  ne j other hj := by
    rw [hset] at hj
    rcases SlotTable.getElem?_set_cases hi hj with ⟨-, he⟩ | ⟨-, hj⟩
    · exact hne other he.symm
    · exact owned.ne j other hj
  apart j₁ j₂ r₁ r₂ k hj₁ hj₂ hk₁ hk₂ := by
    rw [hset] at hj₁ hj₂
    -- what a serializer owns now, the one at the same place owned before
    have hold : ∀ (j : Nat) (r : Rental), (s.serializers.set i this')[j]? = some r →
        r.owns k = true → ∃ r₀, s.serializers[j]? = some r₀ ∧ r₀.owns k = true := by
      intro j r hj hk
      rcases SlotTable.getElem?_set_cases hi hj with ⟨rfl, rfl⟩ | ⟨-, hj⟩
      · exact ⟨this, hi, hle k hk⟩
      · exact ⟨r, hj, hk⟩
    obtain ⟨r₁', hj₁', hk₁'⟩ := hold j₁ r₁ hj₁ hk₁
    obtain ⟨r₂', hj₂', hk₂'⟩ := hold j₂ r₂ hj₂ hk₂
    exact owned.apart j₁ j₂ r₁' r₂' k hj₁' hj₂' hk₁' hk₂'

/-- What a handle of no serializer does changes none of their buffers. -/
theorem Owned.settle {s : State} (owned : Owned s) {buffers : BufferPool.State}
    {handle : Option Nat} {passed : List BlockId}
    (hchanges : BufferPool.Changes s.buffers buffers handle passed)
    (hfree : ∀ (i : Nat) (this : Rental) (k : Nat), s.serializers[i]? = some this →
      this.owns k = true → handle ≠ some k) : Owned (settle s buffers) :=
  owned.of_unique rfl fun i this k hi hk =>
    (owned.unique_of_owns hi hk).of_changes hchanges (hfree i this k hi hk)

/-- No serializer owns a handle that may be used apart from them. -/
theorem not_owned_of_allowed {s : State} {action : BufferPool.Action} (h : allowed s action = true)
    {i : Nat} {this : Rental} {k : Nat} (hi : s.serializers[i]? = some this)
    (hk : this.owns k = true) : action.handle ≠ some k := by
  have hall : ∀ j, (s.serializers.all fun rental => !rental.owns j) = true → j ≠ k := by
    rintro j hall rfl
    have := List.all_eq_true.mp hall this (List.mem_of_getElem? hi)
    rw [hk] at this
    cases this
  intro hhandle
  cases action with
  | get _ => cases h
  | new | withCapacity _ | dropPool => cases hhandle
  | mutate j _ | intoShared j | clone j | tryUnique j | read j | drop j | advance j =>
      exact hall j h (Option.some.inj hhandle)

/-- An operation on a buffer of a serializer changes that buffer only. -/
theorem Owned.mutate {s s' : State} (owned : Owned s) {i : Nat} {buffer : Serializer → Nat} {op : BufferOp}
    (hbuffer : ∀ this, (Rental.live this).owns (buffer this) = true)
    (hkeep : ∀ this : UniqueAlignedBuffer Home, op.frees p this = false)
    (h : SerializerPool.mutate A capacity policy s i buffer op = .ok s') : Owned s' := by
  unfold SerializerPool.mutate at h
  split at h
  case h_1 this hi =>
    obtain ⟨buffers, hstep, h⟩ := bind_eq_ok h
    cases h
    refine owned.of_unique rfl fun j other k hj hk => ?_
    -- only the handle that the operation is about may change
    by_cases hne : buffer this = k
    · rw [← hne]
      exact (owned.unique_of_owns hi (hbuffer this)).mutate A hkeep hstep
    · refine (owned.unique_of_owns hj hk).of_changes (BufferPool.step_changes A hstep) ?_
      intro he
      exact hne (Option.some.inj he)
  case h_2 =>
    cases h
    exact owned

/-- The end of a serializer changes its own two buffers. -/
theorem Owned.giveUp {s s' : State} (owned : Owned s) {i : Nat} {writer : Nat → BufferPool.Action}
    (hwriter : ∀ k, (writer k).handle = some k)
    (h : SerializerPool.giveUp A capacity policy s i writer = .ok s') : Owned s' := by
  unfold SerializerPool.giveUp at h
  split at h
  case h_1 this hi =>
    obtain ⟨buffers₁, hstep₁, h⟩ := bind_eq_ok h
    obtain ⟨buffers₂, hstep₂, h⟩ := bind_eq_ok h
    cases h
    refine owned.set hi rfl (fun _ hk => by cases hk) (fun _ he => by cases he) ?_
    intro j other k hj hk
    rcases SlotTable.getElem?_set_cases hi hj with ⟨-, rfl⟩ | ⟨hne, hj⟩
    · cases hk
    · have hother : ∀ k', (Rental.live this).owns k' = true → some k' ≠ some k := by
        intro k' hk' he
        cases he
        exact hne (owned.apart j i other _ _ hj hi hk hk')
      refine IsUnique.of_changes (IsUnique.of_changes (owned.unique_of_owns hj hk)
        (BufferPool.step_changes A hstep₁) ?_) (BufferPool.step_changes A hstep₂) ?_
      · rw [hwriter]
        exact hother _ (owns_writer this)
      · exact hother _ (owns_scratch this)
  case h_2 =>
    cases h
    exact owned

/-- A new serializer has two new handles. -/
theorem Owned.get {s s' : State} (owned : Owned s) {this : Serializer} {map : SharingMap}
    {writer scratch : UniqueAlignedBuffer Home}
    (hserializers : s'.serializers = s.serializers ++ [.live this])
    (hthis : this = ⟨s.buffers.slots.length, s.buffers.slots.length + 1, map⟩)
    (hslots : s'.buffers.slots = s.buffers.slots ++ [.unique writer, .unique scratch]) : Owned s' := by
  have hold : ∀ (j : Nat) (other : Rental) (k : Nat), s.serializers[j]? = some other →
      other.owns k = true → k < s.buffers.slots.length := fun j other k hj hk =>
    (owned.unique_of_owns hj hk).lt
  have hnew : ∀ k, (Rental.live this).owns k = true → s.buffers.slots.length ≤ k := by
    intro k hk
    rw [hthis] at hk
    rcases Bool.or_eq_true_iff.mp hk with he | he
    · rw [← of_decide_eq_true he]
    · rw [← of_decide_eq_true he]
      exact Nat.le_succ _
  -- a serializer of the new state is an old one or the new one
  have hcases : ∀ (j : Nat) (other : Rental), s'.serializers[j]? = some other →
      s.serializers[j]? = some other ∨ j = s.serializers.length ∧ other = .live this := by
    intro j other hj
    rw [hserializers] at hj
    exact SlotTable.getElem?_push_cases hj
  constructor
  case unique =>
    intro j other hj
    rcases hcases j _ hj with hj | ⟨-, he⟩
    · obtain ⟨⟨w, hw⟩, ⟨sc, hsc⟩⟩ := owned.unique j other hj
      refine ⟨⟨w, ?_⟩, ⟨sc, ?_⟩⟩ <;> rw [hslots]
      · rw [List.getElem?_append_left (hold j _ _ hj (owns_writer other)), hw]
      · rw [List.getElem?_append_left (hold j _ _ hj (owns_scratch other)), hsc]
    · cases he
      obtain ⟨hw, hsc⟩ := get_buffers hthis hslots
      exact ⟨⟨writer, hw⟩, ⟨scratch, hsc⟩⟩
  case ne =>
    intro j other hj
    rcases hcases j _ hj with hj | ⟨-, he⟩
    · exact owned.ne j other hj
    · cases he
      rw [hthis]
      exact Nat.ne_of_lt (Nat.lt_succ_self _)
  case apart =>
    intro i j r₁ r₂ k hi hj h₁ h₂
    rcases hcases i _ hi with hi | ⟨rfl, rfl⟩ <;> rcases hcases j _ hj with hj | ⟨rfl, rfl⟩
    · exact owned.apart i j r₁ r₂ k hi hj h₁ h₂
    · have := hold i _ k hi h₁
      have := hnew k h₂
      omega
    · have := hold j _ k hj h₂
      have := hnew k h₁
      omega
    · rfl

/-- **Every action** leaves the serializers their buffers. -/
theorem Owned.step {s s' : State} (owned : Owned s) (inv : BuffersInv capacity policy p s)
    {action : Action} (h : SerializerPool.step A capacity policy s action = .ok s') : Owned s' := by
  cases action with
  | get =>
      by_cases hhandle : s.buffers.handle = false
      · simp only [SerializerPool.step] at h
        rw [if_pos hhandle] at h
        cases h
        exact owned
      · obtain ⟨t, this, writer, scratch, ht, -, -, hserializers, hthis, hslots, -⟩ :=
          get_spec A capacity policy inv (Bool.eq_true_of_not_eq_false hhandle)
        rw [ht] at h
        cases h
        exact owned.get hserializers hthis hslots
  | write i bytes => exact owned.mutate A capacity policy owns_writer (fun _ => rfl) h
  | pushAlloc i layout => exact owned.mutate A capacity policy owns_scratch (fun _ => rfl) h
  | popAlloc i ptr layout => exact owned.mutate A capacity policy owns_scratch (fun _ => rfl) h
  | sharing i call =>
      simp only [SerializerPool.step] at h
      split at h
      case h_1 this hi =>
        cases h
        refine owned.set hi rfl (fun _ hk => hk) ?_ ?_
        · intro other he
          cases he
          exact owned.ne i this hi
        · intro j other k hj hk
          rcases SlotTable.getElem?_set_cases hi hj with ⟨-, rfl⟩ | ⟨-, hj⟩
          · exact owned.unique_of_owns hi hk
          · exact owned.unique_of_owns hj hk
      case h_2 =>
        cases h
        exact owned
  | intoBuffer i => exact owned.giveUp A capacity policy (fun _ => rfl) h
  | drop i => exact owned.giveUp A capacity policy (fun _ => rfl) h
  | dropUnify i =>
      simp only [SerializerPool.step] at h
      split at h
      case h_1 map hi =>
        cases h
        refine owned.set hi rfl (fun _ hk => by cases hk) (fun _ he => by cases he) ?_
        intro j other k hj hk
        rcases SlotTable.getElem?_set_cases hi hj with ⟨-, rfl⟩ | ⟨-, hj⟩
        · cases hk
        · exact owned.unique_of_owns hj hk
      case h_2 =>
        cases h
        exact owned
  | buffers action =>
      simp only [SerializerPool.step] at h
      split at h
      case isTrue hallowed =>
        obtain ⟨buffers, hstep, h⟩ := bind_eq_ok h
        cases h
        exact owned.settle (BufferPool.step_changes A hstep) fun i this k hi hk =>
          not_owned_of_allowed hallowed hi hk
      case isFalse =>
        cases h
        exact owned

theorem Owned.init : Owned (State.init capacity policy) := ⟨nofun, nofun, nofun⟩

/-- **In every run** each serializer in use has its buffers to itself, and its scratch buffer stores some
    list. -/
theorem run_owned (actions : List Action) :
    (∃ s, runFrom A capacity policy actions = .ok s ∧ BuffersInv capacity policy p s ∧ Owned s) ∨
    ∃ f, runFrom A capacity policy actions = .error f ∧ f.Aborts := by
  refine run_rule (fun s => BuffersInv capacity policy p s ∧ Owned s) Fault.Aborts ?_ actions _
    ⟨BufferPool.Inv.init, Owned.init capacity policy⟩
  rintro s action ⟨inv, owned⟩
  rcases step_proceeds A capacity policy inv action with ⟨s', hs', inv', -⟩ | hf
  · exact Or.inl ⟨s', hs', inv', owned.step A capacity policy inv hs'⟩
  · exact Or.inr hf

/-- The same, of a state that a run reaches. -/
theorem owned_of_run {actions : List Action} {s : State}
    (hrun : runFrom A capacity policy actions = .ok s) : BuffersInv capacity policy p s ∧ Owned s := by
  rcases run_owned A capacity policy actions with ⟨t, ht, howned⟩ | ⟨f, hf, -⟩
  · rw [hrun] at ht
    cases ht
    exact howned
  · rw [hrun] at hf
    cases hf

end SerializerPool

end RkyvUtils
