import RkyvUtils.AlignedBufferPool.AllocatorClones
import RkyvUtils.AlignedBufferPool.Serialize

/-!
# `AlignedBufferPool.SerializeRuns` — every call of `serialize` goes as if it were alone

An action on one serializer touches its own two buffers, so the others and their tables stay what they are
(`others_kept`); an action for a value is answered from what the value has done so far (`served`). A writer
that becomes a shared buffer shows its bytes from then on.
-/

namespace RkyvUtils

open Run Recycle

namespace BufferPool

open UniqueAlignedBuffer

variable {p : Params} {cfg : Config} {s t : State} {vs : Values} (A : Allocator p.toTarget)

/-- **A call on the unique buffer of handle `k`** that keeps its block and does not abort. -/
theorem Reads.step_mutate {k : Nat} {xs : List UInt8} {op : BufferOp} (hr : Reads p s vs) (inv : Inv p cfg s)
    (hk : vs.handles[k]? = some (.unique xs)) (hkeep : ∀ this : UniqueAlignedBuffer Home, op.frees p this = false)
    (h : step A cfg s (.mutate k op) = .ok t) :
    ∃ this o data, s.slots[k]? = some (.unique this) ∧ Stores p s.heap this o xs data ∧
      (op.apply A s.heap this).2.2 ≠ some .allocError ∧
      t.slots[k]? = some (.unique (op.apply A s.heap this).2.1) ∧
      ∀ ys o' data', Leads p s.heap this o ys (op.apply A s.heap this).1 (op.apply A s.heap this).2.1 o' data' →
        Reads p t (vs.set k (.unique ys)) := by
  obtain ⟨this, o, data, hslot, hs⟩ := hr.unique_of_value hk
  have hlt := (List.getElem?_eq_some_iff.mp hslot).1
  have hmutate : mutate A s k this op = .ok t := by
    simpa only [step, hslot] using h
  obtain ⟨hfrees, -⟩ | ⟨-, heap, this', e, happ, rfl⟩ := mutate_done A hmutate
  · rw [hkeep this] at hfrees
    cases hfrees
  refine ⟨this, o, data, hslot, hs, ?_⟩
  rw [happ]
  refine ⟨fun he => ?_, List.getElem?_set_self hlt, fun ys o' data' hl => ?_⟩
  · -- the call returned a state, so it ended with a value or with a panic that was caught
    dsimp only at he
    subst he
    unfold mutate at hmutate
    rw [if_neg (by simp [hkeep this]), happ] at hmutate
    cases hmutate
  · exact hr.mutated inv hslot hs hl

end BufferPool

namespace SerializerPool

open UniqueAlignedBuffer BufferPool

variable {p : Params} (A : Allocator p.toTarget) (capacity : Nat) (policy : Nat → Bool)
  {s s' : State} {vs : Values}

/-! ## What the action of one serializer leaves to the others -/

/-- The buffers of a serializer are not named by the actions of others. -/
theorem bufferActions_handle (owned : Owned s) {action : Action} {j k : Nat} {this : Rental}
    (hj : s.serializers[j]? = some this) (hk : this.owns k = true) (hne : action.serializer? ≠ some j) :
    ∀ a ∈ bufferActions s action, a.handle ≠ some k := by
  have hother : ∀ {i : Nat} {other : Serializer} {k' : Nat}, i ≠ j → s.serializers[i]? = some (.live other) →
      (Rental.live other).owns k' = true → some k' ≠ some k := by
    intro i other k' hij hi hk' he
    cases he
    exact hij (owned.apart i j _ _ k hi hj hk' hk)
  intro a ha
  cases action with
  | get =>
      simp only [bufferActions] at ha
      split at ha
      · cases ha
      · rcases List.mem_cons.mp ha with rfl | ha
        · intro he
          cases he
        · cases List.mem_singleton.mp ha
          intro he
          cases he
  | write i bytes =>
      have hij : i ≠ j := fun he => hne (congrArg some he)
      simp only [bufferActions] at ha
      split at ha
      case h_1 other hi =>
        cases List.mem_singleton.mp ha
        exact hother hij hi (owns_writer other)
      case h_2 => cases ha
  | pushAlloc i layout | popAlloc i ptr layout =>
      have hij : i ≠ j := fun he => hne (congrArg some he)
      simp only [bufferActions] at ha
      split at ha
      case h_1 other hi =>
        cases List.mem_singleton.mp ha
        exact hother hij hi (owns_scratch other)
      case h_2 => cases ha
  | intoBuffer i | drop i =>
      have hij : i ≠ j := fun he => hne (congrArg some he)
      simp only [bufferActions] at ha
      split at ha
      case h_1 other hi =>
        rcases List.mem_cons.mp ha with rfl | ha
        · exact hother hij hi (owns_writer other)
        · cases List.mem_singleton.mp ha
          exact hother hij hi (owns_scratch other)
      case h_2 => cases ha
  | sharing i call | dropUnify i => cases ha
  | buffers action =>
      simp only [bufferActions] at ha
      split at ha
      case isTrue hallowed =>
        cases List.mem_singleton.mp ha
        exact not_owned_of_allowed hallowed hj hk
      case isFalse => cases ha

/-- The other serializers stay. -/
theorem step_serializers {action : Action} (h : step A capacity policy s action = .ok s') {j : Nat}
    (hj : j < s.serializers.length) (hne : action.serializer? ≠ some j) :
    s'.serializers[j]? = s.serializers[j]? := by
  have hset : ∀ {i : Nat} {rental : Rental}, some i ≠ some j →
      (s.serializers.set i rental)[j]? = s.serializers[j]? :=
    fun hij => List.getElem?_set_ne fun he => hij (congrArg some he)
  cases action with
  | get =>
      simp only [step] at h
      split at h
      · cases h; rfl
      · obtain ⟨writers, -, h⟩ := bind_eq_ok h
        obtain ⟨buffers, -, h⟩ := bind_eq_ok h
        cases h
        exact List.getElem?_append_left hj
  | write i bytes | pushAlloc i layout | popAlloc i ptr layout =>
      simp only [step, mutate] at h
      split at h
      · obtain ⟨buffers, -, h⟩ := bind_eq_ok h
        cases h; rfl
      · cases h; rfl
  | sharing i call | dropUnify i =>
      simp only [step] at h
      split at h
      · cases h; exact hset hne
      · cases h; rfl
  | intoBuffer i | drop i =>
      simp only [step, giveUp] at h
      split at h
      · obtain ⟨buffers₁, -, h⟩ := bind_eq_ok h
        obtain ⟨buffers₂, -, h⟩ := bind_eq_ok h
        cases h; exact hset hne
      · cases h; rfl
  | buffers action =>
      simp only [step] at h
      split at h
      · obtain ⟨buffers, -, h⟩ := bind_eq_ok h
        cases h; rfl
      · cases h; rfl

theorem buffersInv_of_step (inv : BuffersInv capacity policy p s) {action : Action}
    (h : step A capacity policy s action = .ok s') : BuffersInv capacity policy p s' := by
  rcases step_proceeds A capacity policy inv action with ⟨s₁, hs₁, inv₁, -⟩ | ⟨f, hf, -⟩
  · rw [h] at hs₁
    cases hs₁
    exact inv₁
  · rw [h] at hf
    cases hf

/-- **What an action leaves alone**: the serializers it is not about, with what they have written, and every
    shared buffer. -/
structure Leaves (s s' : State) (action : Action) (vs vs' : Values) : Prop where
  length_le : vs.handles.length ≤ vs'.handles.length
  live : ∀ (j : Nat) (this : Serializer), s.serializers[j]? = some (.live this) →
    action.serializer? ≠ some j → s'.serializers[j]? = some (.live this) ∧
      ∀ k, (Rental.live this).owns k = true → vs'.handles[k]? = vs.handles[k]? ∧
        s'.buffers.slots[k]? = s.buffers.slots[k]?
  shared : ∀ (k : Nat) (xs : List UInt8), k < vs.handles.length → vs'.handles[k]? = some (.shared xs) →
    vs.handles[k]? = some (.shared xs)

/-- **Every action**, with the values of the handles after it. -/
theorem step_traces (inv : BuffersInv capacity policy p s) (owned : Owned s) (hr : Reads p s.buffers vs)
    {action : Action} (h : step A capacity policy s action = .ok s') :
    ∃ vs', Traces 2 vs (trace A (config capacity policy) s.buffers (bufferActions s action)) vs' ∧
      Reads p s'.buffers vs' ∧ Leaves s s' action vs vs' := by
  have hrun := step_buffers A capacity policy h
  obtain ⟨vs', htraces, hreads⟩ := hr.run_does A _ inv hrun
  refine ⟨vs', htraces, hreads, htraces.length_le, fun j this hj hne => ?_, fun k xs => htraces.shared⟩
  have hlt : j < s.serializers.length := (List.getElem?_eq_some_iff.mp hj).1
  refine ⟨(step_serializers A capacity policy h hlt hne).trans hj, fun k hk => ?_⟩
  -- the buffer actions behind it name none of the two buffers
  have hklt := (owned.unique_of_owns hj hk).lt
  have hnames := bufferActions_handle owned hj hk hne
  exact ⟨htraces.other (hr.length ▸ hklt) fun entry hmem => hnames _ (mem_trace A hmem),
    run_others A hrun hklt hnames⟩

/-! ## What a reservation does to the storage -/

section

variable {α : Type} {h : Heap} {this : UniqueAlignedBuffer α} {o : Option BlockId} {xs : List UInt8}
  {data : List (Option UInt8)}

/-- **`reserve`** makes room, is refused, or ends at an abort. -/
theorem reserve_makes (hs : Stores p h this o xs data) (n : Nat) :
    (∃ h' this' o' data', this.reserve A h n = .ok (h', this') ∧ Leads p h this o xs h' this' o' data' ∧
      (Storage.of p this).Makes p (xs.length + n) (.of p this')) ∨
    (this.reserve A h n = .error .capacityOverflow ∧ (Storage.of p this).Refuses p (xs.length + n)) ∨
    this.reserve A h n = .error .allocError := by
  have hcap := hs.capacity_eq
  have hrefuses : this.reserve A h n = .error .capacityOverflow ↔
      (Storage.of p this).Refuses p (xs.length + n) := by
    rw [CapacityRequest.reserve_overflow_iff A hs n, hs.length_eq, ← hcap]
    rfl
  by_cases hroom : xs.length + n ≤ data.length
  · refine Or.inl ⟨h, this, o, data, reserve_room A hs hroom, .refl hs, fun hover => ?_, ?_, fun _ => rfl⟩
    · have hlt : this.capacity p < xs.length + n := hover.1
      omega
    · show _ ≤ this.capacity p
      omega
  · rcases reserve_spec A hs n with ⟨h₁, this₁, o₁, data₁, hr, hl, hcap₁⟩ | hr | hr
    · refine Or.inl ⟨h₁, this₁, o₁, data₁, hr, hl, fun hover => ?_, ?_, fun hle => ?_⟩
      · rw [hrefuses.mpr hover] at hr
        cases hr
      · show _ ≤ this₁.capacity p
        rw [hl.stores.capacity_eq]
        exact hcap₁
      · have hle' : xs.length + n ≤ this.capacity p := hle
        omega
    · exact Or.inr (Or.inl ⟨hr, hrefuses.mp hr⟩)
    · exact Or.inr (Or.inr hr)

/-- **`extend_from_slice`** is a reservation and a write. -/
theorem extendFromSlice_makes (hs : Stores p h this o xs data) (bytes : List UInt8) :
    (∃ h' this' o' data', this.extendFromSlice A h bytes = .ok (h', this') ∧
      Leads p h this o (xs ++ bytes) h' this' o' data' ∧
      (Storage.of p this).Makes p (xs.length + bytes.length) (.of p this')) ∨
    (this.extendFromSlice A h bytes = .error .capacityOverflow ∧
      (Storage.of p this).Refuses p (xs.length + bytes.length)) ∨
    this.extendFromSlice A h bytes = .error .allocError := by
  unfold extendFromSlice append appendElements
  dsimp only
  rcases reserve_makes A hs bytes.length with ⟨h₁, this₁, o₁, data₁, hr, hl, hmakes⟩ | ⟨hr, hrefuses⟩ | hr
  · have hroom : xs.length + bytes.length ≤ data₁.length := hl.stores.capacity_eq ▸ hmakes.room
    obtain ⟨h₂, data₂, hw, hl₂, -⟩ := hl.stores.write_end bytes hroom
    refine Or.inl ⟨h₂, _, o₁, data₂, ?_, hl.trans hl₂, hmakes⟩
    rw [hr, ok_bind]
    dsimp only
    rw [hw]
    rfl
  · rw [hr]
    exact Or.inr (Or.inl ⟨rfl, hrefuses⟩)
  · rw [hr]
    exact Or.inr (Or.inr rfl)

/-- **`push_alloc`** likewise. The block is where the bytes are after the reservation. -/
theorem pushAlloc_makes (hs : Stores p h this o xs data) (layout : Layout) :
    (∃ h' this' o' data', Scratch.pushAlloc A h this layout
        = .ok (h', this', ⟨this'.asMutPtr.add (xs.length + Scratch.allocPad p this layout), layout.size⟩) ∧
      Leads p h this o (xs ++ List.replicate (Scratch.allocLen p this layout) 0) h' this' o' data' ∧
      (Storage.of p this).Makes p (xs.length + Scratch.allocLen p this layout) (.of p this')) ∨
    (Scratch.pushAlloc A h this layout = .error .capacityOverflow ∧
      (Storage.of p this).Refuses p (xs.length + Scratch.allocLen p this layout)) ∨
    Scratch.pushAlloc A h this layout = .error .allocError := by
  rcases reserve_makes A hs (Scratch.allocLen p this layout) with
    ⟨h₁, this₁, o₁, data₁, hr, hl, hmakes⟩ | ⟨hr, hrefuses⟩ | hr
  · have hroom : xs.length + Scratch.allocLen p this layout ≤ data₁.length :=
      hl.stores.capacity_eq ▸ hmakes.room
    obtain ⟨h₂, data₂, hpush, hl₂, -⟩ := Scratch.pushAlloc_reserved A hr hl.stores hroom
    exact Or.inl ⟨h₂, _, o₁, data₂, hpush, hl.trans hl₂, hmakes⟩
  · refine Or.inr (Or.inl ⟨?_, hrefuses⟩)
    unfold Scratch.pushAlloc
    dsimp only
    rw [hr]
    rfl
  · refine Or.inr (Or.inr ?_)
    unfold Scratch.pushAlloc
    dsimp only
    rw [hr]
    rfl

end

/-! ## What a serializer answers -/

/-- The buffer of handle `k` stores `xs` in `storage`. -/
structure Keeps (p : Params) (buffers : BufferPool.State) (vs : Values) (k : Nat) (xs : List UInt8)
    (storage : Storage) : Prop where
  value : vs.handles[k]? = some (.unique xs)
  storage : storageOf p buffers k = storage

/-- Serializer `this`, with the values `vs` of the handles, is `t` to its user. -/
structure Is (p : Params) (buffers : BufferPool.State) (this : Serializer) (vs : Values) (t : Alone) :
    Prop where
  writer : Keeps p buffers vs this.writer t.out t.outAt
  scratch : Keeps p buffers vs this.scratch t.scratch t.scratchAt
  table : this.unify = t.table

section

variable {α : Type} {buffers buffers' : BufferPool.State} {k : Nat} {buffer : UniqueAlignedBuffer Home}
  {method : UniqueAlignedBuffer Home → Except Fault α} {reply : α → Reply}

theorem replyOf_ok {a : α} (hk : buffers.slots[k]? = some (.unique buffer)) (h : method buffer = .ok a) :
    replyOf buffers k method reply = some (reply a) := by
  simp only [replyOf, hk, h]

theorem replyOf_error {f : Fault} (hk : buffers.slots[k]? = some (.unique buffer))
    (h : method buffer = .error f) : replyOf buffers k method reply = none := by
  simp only [replyOf, hk, h]

theorem storageOf_unique (hk : buffers.slots[k]? = some (.unique buffer)) :
    storageOf p buffers k = .of p buffer := by
  simp only [storageOf, hk]

variable {vs' : Values} {xs : List UInt8} {storage : Storage}

theorem Keeps.of_unique (h : Keeps p buffers vs k xs storage) (hk : buffers.slots[k]? = some (.unique buffer)) :
    Storage.of p buffer = storage := (storageOf_unique hk).symm.trans h.storage

/-- A buffer that an action leaves alone. -/
theorem Keeps.of_eq (h : Keeps p buffers vs k xs storage) (hvalue : vs'.handles[k]? = vs.handles[k]?)
    (hslot : buffers'.slots[k]? = buffers.slots[k]?) : Keeps p buffers' vs' k xs storage where
  value := hvalue.trans h.value
  storage := by
    rw [← h.storage]
    unfold storageOf
    rw [hslot]

/-- A buffer that an action changes. -/
theorem Keeps.set (h : Keeps p buffers vs k xs storage) (ys : List UInt8) {storage' : Storage}
    (hk : buffers'.slots[k]? = some (.unique buffer)) (hat : .of p buffer = storage') :
    Keeps p buffers' (vs.set k (.unique ys)) k ys storage' where
  value := List.getElem?_set_self (List.getElem?_eq_some_iff.mp h.value).1
  storage := (storageOf_unique hk).trans hat

end

section

variable {i k : Nat} {this : Serializer} {t : Alone}

/-- **A method on one of the two buffers**: where it leads to `ys`, that is what the buffer has; the other
    one, at handle `j`, stays. -/
theorem mutate_leads (inv : BuffersInv capacity policy p s) (hr : Reads p s.buffers vs)
    (hi : s.serializers[i]? = some (.live this)) {buffer : Serializer → Nat} {op : BufferOp}
    (hkeep : ∀ b : UniqueAlignedBuffer Home, op.frees p b = false)
    (h : mutate A capacity policy s i buffer op = .ok s') {j : Nat} {xs others : List UInt8}
    {storage othersAt : Storage} (hk : Keeps p s.buffers vs (buffer this) xs storage)
    (hj : Keeps p s.buffers vs j others othersAt) (hne : buffer this ≠ j) :
    s'.serializers = s.serializers ∧
      ∃ b o data, s.buffers.slots[buffer this]? = some (.unique b) ∧
        Stores p s.buffers.heap b o xs data ∧ Storage.of p b = storage ∧
        (op.apply A s.buffers.heap b).2.2 ≠ some .allocError ∧
        ∀ {ys o' data' storage'},
          Leads p s.buffers.heap b o ys (op.apply A s.buffers.heap b).1 (op.apply A s.buffers.heap b).2.1 o' data' →
          Storage.of p (op.apply A s.buffers.heap b).2.1 = storage' →
            Reads p s'.buffers (vs.set (buffer this) (.unique ys)) ∧
              Keeps p s'.buffers (vs.set (buffer this) (.unique ys)) (buffer this) ys storage' ∧
              Keeps p s'.buffers (vs.set (buffer this) (.unique ys)) j others othersAt := by
  simp only [mutate, hi] at h
  obtain ⟨buffers, hstep, h⟩ := bind_eq_ok h
  cases h
  obtain ⟨b, o, data, hslot, hs, habort, hslot', hreads⟩ := hr.step_mutate A inv hk.value hkeep hstep
  refine ⟨rfl, b, o, data, hslot, hs, hk.of_unique hslot, habort, fun {ys} _ _ _ hl hat => ?_⟩
  refine ⟨hreads _ _ _ hl, hk.set ys hslot' hat, hj.of_eq (Values.get_set_ne hne) ?_⟩
  -- the step names the handle of the first only
  have hlt : j < s.buffers.slots.length := by
    rw [← hr.length]
    exact (List.getElem?_eq_some_iff.mp hj.value).1
  exact (step_changes A hstep).others j hlt fun he => hne (Option.some.inj he)

/-- **`write`** of bytes that the writer has or makes room for, or a panic that writes nothing. -/
theorem write_served (inv : BuffersInv capacity policy p s) (hr : Reads p s.buffers vs)
    (hi : s.serializers[i]? = some (.live this)) (hne : this.writer ≠ this.scratch)
    (his : Is p s.buffers this vs t) (bytes : List UInt8)
    (h : step A capacity policy s (.write i bytes) = .ok s') :
    ∃ t' vs', Serves p t (.write bytes) (reply A s.buffers this (.write bytes)) t' ∧
      Reads p s'.buffers vs' ∧ s'.serializers = s.serializers ∧ Is p s'.buffers this vs' t' := by
  obtain ⟨hserializers, writer, o, data, hslot, hs, hat, habort, hleads⟩ :=
    mutate_leads A capacity policy inv hr hi (fun _ => rfl) h his.writer his.scratch hne
  simp only [BufferOp.apply, UniqueOp.apply] at habort hleads
  simp only [reply]
  rcases extendFromSlice_makes A hs bytes with
    ⟨h₁, writer₁, o₁, data₁, hext, hl, hmakes⟩ | ⟨hext, hrefuses⟩ | hext
  · rw [hext] at hleads
    rw [hat] at hmakes
    rw [replyOf_ok hslot hext]
    obtain ⟨hreads, hwriter, hscratch⟩ := hleads hl rfl
    exact ⟨_, _, .write bytes hmakes, hreads, hserializers, hwriter, hscratch, his.table⟩
  · -- a panic: there is no reply, and the writer has what it had
    rw [hext] at hleads
    rw [hat] at hrefuses
    rw [replyOf_error hslot hext]
    obtain ⟨hreads, hwriter, hscratch⟩ := hleads (.refl hs) hat
    exact ⟨t, _, .writePanics hrefuses, hreads, hserializers, hwriter, hscratch, his.table⟩
  · rw [hext] at habort
    exact absurd rfl habort

/-- The padding that a serializer takes is the one that its user works out. -/
theorem allocPad_eq {scratch : UniqueAlignedBuffer Home} (hat : Storage.of p scratch = t.scratchAt)
    (hlen : scratch.len = t.scratch.length) (layout : Layout) :
    Scratch.allocPad p scratch layout = t.allocPad p layout := by
  unfold Scratch.allocPad Alone.allocPad
  rw [← hat, ← hlen]
  rfl

/-- **`push_alloc`** of a zeroed block that the scratch buffer has or makes room for, or a panic that
    allocates nothing. -/
theorem pushAlloc_served (inv : BuffersInv capacity policy p s) (hr : Reads p s.buffers vs)
    (hi : s.serializers[i]? = some (.live this)) (hne : this.writer ≠ this.scratch)
    (his : Is p s.buffers this vs t) (layout : Layout)
    (h : step A capacity policy s (.pushAlloc i layout) = .ok s') :
    ∃ t' vs', Serves p t (.pushAlloc layout) (reply A s.buffers this (.pushAlloc layout)) t' ∧
      Reads p s'.buffers vs' ∧ s'.serializers = s.serializers ∧ Is p s'.buffers this vs' t' := by
  obtain ⟨hserializers, scratch, o, data, hslot, hs, hat, habort, hleads⟩ :=
    mutate_leads A capacity policy inv hr hi (fun _ => rfl) h his.scratch his.writer hne.symm
  have hpad := allocPad_eq hat hs.length_eq layout
  have hlen : Scratch.allocLen p scratch layout = t.allocPad p layout + layout.size := by
    rw [← hpad]
    rfl
  simp only [BufferOp.apply] at habort hleads
  simp only [reply]
  have hmakes := pushAlloc_makes A hs layout
  rw [hlen, hpad, hat] at hmakes
  rcases hmakes with ⟨h₁, scratch₁, o₁, data₁, hpush, hl, hmakes⟩ | ⟨hpush, hrefuses⟩ | hpush
  · rw [hpush] at hleads
    rw [replyOf_ok hslot hpush]
    obtain ⟨hreads, hscratch, hwriter⟩ := hleads hl rfl
    exact ⟨_, _, .pushAlloc hmakes rfl rfl, hreads, hserializers, hwriter, hscratch, his.table⟩
  · rw [hpush] at hleads
    rw [replyOf_error hslot hpush]
    obtain ⟨hreads, hscratch, hwriter⟩ := hleads (.refl hs) hat
    exact ⟨t, _, .pushAllocPanics hrefuses, hreads, hserializers, hwriter, hscratch, his.table⟩
  · rw [hpush] at habort
    exact absurd rfl habort

/-- **`pop_alloc`** cuts the scratch space, or returns an error and leaves it. -/
theorem popAlloc_served (inv : BuffersInv capacity policy p s) (hr : Reads p s.buffers vs)
    (hi : s.serializers[i]? = some (.live this)) (hne : this.writer ≠ this.scratch)
    (his : Is p s.buffers this vs t) (ptr : Ptr) (layout : Layout)
    (h : step A capacity policy s (.popAlloc i ptr layout) = .ok s') :
    ∃ t' vs', Serves p t (.popAlloc ptr layout) (reply A s.buffers this (.popAlloc ptr layout)) t' ∧
      Reads p s'.buffers vs' ∧ s'.serializers = s.serializers ∧ Is p s'.buffers this vs' t' := by
  obtain ⟨hserializers, scratch, o, data, hslot, hs, hat, -, hleads⟩ :=
    mutate_leads A capacity policy inv hr hi (fun _ => rfl) h his.scratch his.writer hne.symm
  have haddr : scratch.asMutPtr.addr = t.scratchAt.addr := congrArg Storage.addr hat
  simp only [BufferOp.apply] at hleads
  simp only [reply]
  have hpop := Scratch.popAlloc_spec hs ptr layout
  rw [haddr] at hpop
  -- an error leaves the scratch buffer
  have hkept : ∀ error, Scratch.popAlloc p s.buffers.heap scratch ptr layout = .ok (scratch, .error error) →
      Reads p s'.buffers (vs.set this.scratch (.unique t.scratch)) ∧
        Is p s'.buffers this (vs.set this.scratch (.unique t.scratch)) t := by
    intro error hpop
    rw [hpop] at hleads
    obtain ⟨hreads, hscratch, hwriter⟩ := hleads (.refl hs) hat
    exact ⟨hreads, hwriter, hscratch, his.table⟩
  by_cases hin : t.scratchAt.addr ≤ ptr.addr ∧ ptr.addr < t.scratchAt.addr + t.scratch.length
  · rw [if_pos hin] at hpop
    by_cases hfit : ptr.addr - t.scratchAt.addr + layout.size ≤ t.scratch.length
    · rw [if_pos hfit] at hpop
      rw [hpop] at hleads
      rw [replyOf_ok hslot hpop]
      have ht := hs.take (ptr.addr - t.scratchAt.addr)
      rw [Nat.min_eq_left (by have := hs.length_eq; omega)] at ht
      obtain ⟨hreads, hscratch, hwriter⟩ := hleads ⟨ht, rfl, .refl⟩ hat
      exact ⟨_, _, .popAlloc hin hfit, hreads, hserializers, hwriter, hscratch, his.table⟩
    · rw [if_neg hfit] at hpop
      rw [replyOf_ok hslot hpop]
      obtain ⟨hreads', his'⟩ := hkept _ hpop
      exact ⟨t, _, .notInReverseOrder hin (Nat.lt_of_not_le hfit), hreads', hserializers, his'⟩
  · rw [if_neg hin] at hpop
    rw [replyOf_ok hslot hpop]
    obtain ⟨hreads', his'⟩ := hkept _ hpop
    exact ⟨t, _, .notContained layout hin, hreads', hserializers, his'⟩

/-- **Every request** is answered as the serializer would alone. -/
theorem request_served (inv : BuffersInv capacity policy p s) (hr : Reads p s.buffers vs)
    (hi : s.serializers[i]? = some (.live this)) (hne : this.writer ≠ this.scratch)
    (his : Is p s.buffers this vs t) (request : Request) {action : Action}
    (haction : request.action i = some action) (h : step A capacity policy s action = .ok s') :
    ∃ t' vs' this', Serves p t request (reply A s.buffers this request) t' ∧ Reads p s'.buffers vs' ∧
      s'.serializers[i]? = some (.live this') ∧ Is p s'.buffers this' vs' t' := by
  cases request with
  | pos => cases haction
  | write bytes =>
      cases haction
      obtain ⟨t', vs', hserves, hreads, hsame, his'⟩ := write_served A capacity policy inv hr hi hne his bytes h
      exact ⟨t', vs', this, hserves, hreads, by rw [hsame]; exact hi, his'⟩
  | pushAlloc layout =>
      cases haction
      obtain ⟨t', vs', hserves, hreads, hsame, his'⟩ :=
        pushAlloc_served A capacity policy inv hr hi hne his layout h
      exact ⟨t', vs', this, hserves, hreads, by rw [hsame]; exact hi, his'⟩
  | popAlloc ptr layout =>
      cases haction
      obtain ⟨t', vs', hserves, hreads, hsame, his'⟩ :=
        popAlloc_served A capacity policy inv hr hi hne his ptr layout h
      exact ⟨t', vs', this, hserves, hreads, by rw [hsame]; exact hi, his'⟩
  | sharing call =>
      cases haction
      simp only [step, hi] at h
      cases h
      have hlt : i < s.serializers.length := (List.getElem?_eq_some_iff.mp hi).1
      refine ⟨{ t with table := (SharingMap.call p t.table call).1 }, vs, _, ?_, hr,
        List.getElem?_set_self hlt, his.writer, his.scratch, by rw [his.table]⟩
      simp only [reply, his.table]
      cases hanswer : (SharingMap.call p t.table call).2 with
      | panicked => exact .sharingPanics hanswer
      | state _ | done | failed _ =>
          have hnot : (SharingMap.call p t.table call).2 ≠ .panicked := by
            rw [hanswer]
            intro he
            cases he
          have hserves : Serves p t _ _ _ := .sharing hnot
          rwa [hanswer] at hserves

/-- **The end of a serializer** whose writer becomes a shared buffer: the new handle shows what was
    written. -/
theorem intoBuffer_shows (inv : BuffersInv capacity policy p s) (hr : Reads p s.buffers vs)
    (hi : s.serializers[i]? = some (.live this)) (his : Is p s.buffers this vs t)
    (h : step A capacity policy s (.intoBuffer i) = .ok s') :
    ∃ vs', Reads p s'.buffers vs' ∧ vs'.handles[s.buffers.slots.length]? = some (.shared t.out) := by
  simp only [step, giveUp, hi] at h
  obtain ⟨buffers₁, hstep₁, h⟩ := bind_eq_ok h
  obtain ⟨buffers₂, hstep₂, h⟩ := bind_eq_ok h
  cases h
  -- two actions of the buffers: the writer becomes a shared buffer, then the scratch buffer is dropped
  have hinv₁ : BufferPool.Inv p (config capacity policy) buffers₁ := inv.of_step A hstep₁
  obtain ⟨vs₁, hdoes₁, hr₁⟩ := step_does A inv hr _ hstep₁
  obtain ⟨vs₂, hdoes₂, hr₂⟩ := step_does A hinv₁ hr₁ _ hstep₂
  refine ⟨vs₂, hr₂, ?_⟩
  have hscratch : this.scratch < s.buffers.slots.length := by
    rw [← hr.length]
    exact (List.getElem?_eq_some_iff.mp his.scratch.value).1
  have hget : vs₁.handles[s.buffers.slots.length]? = some (.shared t.out) := by
    generalize BufferPool.answer A s.buffers (.intoShared this.writer) = ended at hdoes₁
    cases hdoes₁ with
    | @intoShared _ xs hw =>
        rw [his.writer.value] at hw
        cases hw
        rw [← hr.length]
        simp [Values.add, Values.set]
    | @idle _ k hk hnot =>
        -- the writer is a unique buffer, so `into_shared` is not idle
        cases hk
        cases hnot _ his.writer.value
  rw [hdoes₂.other ?_ ?_]
  · exact hget
  · exact (List.getElem?_eq_some_iff.mp hget).1
  · exact fun he => Nat.ne_of_lt hscratch (Option.some.inj he)

end

/-! ## Calls of `serialize` -/

variable {ε : Type}

/-- Where a call is, its value having gone as it would alone. -/
inductive Serialization.Follows (p : Params) (pool : State) (vs : Values) : Serialization ε → Prop
  | running {value rest : Value ε} {start : Start} {t : Alone} {i : Nat} {this : Serializer}
      (hruns : Runs p value start t rest) (hi : pool.serializers[i]? = some (.live this))
      (his : Is p pool.buffers this vs t) : Follows p pool vs ⟨value, start, .running i rest⟩
  | returned {value : Value ε} {start : Start} {t : Alone} {pos k : Nat}
      (hruns : Runs p value start t (.done (.ok pos))) (hk : k < vs.handles.length)
      (hshared : ∀ xs, vs.handles[k]? = some (.shared xs) → xs = t.out) :
      Follows p pool vs ⟨value, start, .returned pos k⟩
  | failed {value : Value ε} {start : Start} {t : Alone} {failure : Failure ε}
      (hruns : Runs p value start t (.done (.error failure))) :
      Follows p pool vs ⟨value, start, .failed failure⟩

/-- The invariant of all calls. -/
structure Callers.Inv (p : Params) (s : Callers ε) (vs : Values) : Prop where
  buffers : BuffersInv capacity policy p s.pool
  owned : Owned s.pool
  reads : Reads p s.pool.buffers vs
  follows : ∀ (c : Nat) (call : Serialization ε), s.calls[c]? = some call → call.Follows p s.pool vs
  apart : ∀ (c d i : Nat) (call call' : Serialization ε), s.calls[c]? = some call → s.calls[d]? = some call' →
    call.borrows i = true → call'.borrows i = true → c = d

/-- What an action leaves alone includes the calls that do not borrow its serializer. -/
theorem Serialization.Follows.leaves {pool pool' : State} {vs' : Values} {action : Action}
    {call : Serialization ε} (h : call.Follows p pool vs) (hleaves : Leaves pool pool' action vs vs')
    (hnot : ∀ i ∈ action.serializer?, call.borrows i = false) : call.Follows p pool' vs' := by
  cases h with
  | @running value rest start t i this hruns hi his =>
      have hne : action.serializer? ≠ some i := by
        intro he
        have := hnot i he
        simp [borrows] at this
      obtain ⟨hi', hkept⟩ := hleaves.live i this hi hne
      obtain ⟨hw, hwslot⟩ := hkept _ (owns_writer this)
      obtain ⟨hs, hsslot⟩ := hkept _ (owns_scratch this)
      exact .running hruns hi' ⟨his.writer.of_eq hw hwslot, his.scratch.of_eq hs hsslot, his.table⟩
  | returned hruns hk hshared =>
      exact .returned hruns (Nat.lt_of_lt_of_le hk hleaves.length_le) fun xs hxs =>
        hshared xs (hleaves.shared _ xs hk hxs)
  | failed hruns => exact .failed hruns

section

variable {s s' : Callers ε} {vs : Values}

/-- A borrowed serializer is there. -/
theorem Callers.Inv.borrowed_lt (inv : Callers.Inv capacity policy p s vs) {c i : Nat} {call : Serialization ε}
    (hc : s.calls[c]? = some call) (hi : call.borrows i = true) : i < s.pool.serializers.length := by
  have hfollows := inv.follows c call hc
  cases hfollows with
  | @running value rest start t j this hruns hj his =>
      obtain rfl : j = i := of_decide_eq_true hi
      exact (List.getElem?_eq_some_iff.mp hj).1
  | returned hruns hk hshared => cases hi
  | failed hruns => cases hi

/-- **Call `c` takes a step**: an action of its serializer, or none of the pool. -/
theorem Callers.Inv.set (inv : Callers.Inv capacity policy p s vs) {pool : State} {vs' : Values} {c i : Nat}
    {value rest : Value ε} {start : Start} {progress : Progress ε}
    (hc : s.calls[c]? = some ⟨value, start, .running i rest⟩)
    (hbuffers : BuffersInv capacity policy p pool) (howned : Owned pool) (hreads : Reads p pool.buffers vs')
    (hothers : ∀ call : Serialization ε, call.borrows i = false → call.Follows p s.pool vs →
      call.Follows p pool vs')
    (hfollows : Serialization.Follows p pool vs' ⟨value, start, progress⟩)
    (hborrows : ∀ j, Serialization.borrows j ⟨value, start, progress⟩ = true → j = i) :
    Callers.Inv capacity policy p ⟨pool, s.calls.set c ⟨value, start, progress⟩⟩ vs' where
  buffers := hbuffers
  owned := howned
  reads := hreads
  follows d call hd := by
    rcases SlotTable.getElem?_set_cases hc hd with ⟨-, rfl⟩ | ⟨hdc, hd⟩
    · exact hfollows
    · -- the serializer is borrowed by call `c` only
      refine hothers call (Bool.eq_false_iff.mpr fun hb => hdc ?_) (inv.follows d call hd)
      exact inv.apart d c i _ _ hd hc hb (decide_eq_true rfl)
  apart d e j call call' hd he hb hb' := by
    rcases SlotTable.getElem?_set_cases hc hd with ⟨rfl, rfl⟩ | ⟨-, hd'⟩ <;>
      rcases SlotTable.getElem?_set_cases hc he with ⟨rfl, rfl⟩ | ⟨-, he'⟩
    · rfl
    · obtain rfl := hborrows j hb
      exact inv.apart _ e j _ _ hc he' (decide_eq_true rfl) hb'
    · obtain rfl := hborrows j hb'
      exact inv.apart d _ j _ _ hd' hc hb (decide_eq_true rfl)
    · exact inv.apart d e j _ _ hd' he' hb hb'

/-- **A new call** borrows a serializer that was not there before. -/
theorem Callers.Inv.serialize (inv : Callers.Inv capacity policy p s vs) (value : Value ε)
    (h : Callers.step A capacity policy s (.serialize value) = .ok s') :
    ∃ vs', Callers.Inv capacity policy p s' vs' := by
  simp only [Callers.step] at h
  split at h
  · cases h
    exact ⟨vs, inv⟩
  case isFalse hhandle =>
    obtain ⟨pool, hget, h⟩ := bind_eq_ok h
    cases h
    obtain ⟨pool', this, writer, scratch, hget', hbuffers, -, hserializers, hthis, hslots, hwriter, hscratch⟩ :=
      get_spec A capacity policy inv.buffers (Bool.eq_true_of_not_eq_false hhandle)
    rw [hget] at hget'
    cases hget'
    obtain ⟨vs', -, hreads, hleaves⟩ := step_traces A capacity policy inv.buffers inv.owned inv.reads hget
    obtain ⟨hw, hs⟩ := get_buffers hthis hslots
    -- the two buffers store nothing
    have hfresh : ∀ {k : Nat} {buffer : UniqueAlignedBuffer Home}, pool.buffers.slots[k]? = some (.unique buffer) →
        buffer.len = 0 → vs'.handles[k]? = some (.unique []) := by
      intro k buffer hk hlen
      obtain ⟨o, xs, data, hv, hst⟩ := hreads.unique hk
      have hlength := hst.length_eq
      rw [hlen] at hlength
      obtain rfl : xs = [] := List.length_eq_zero_iff.mp hlength.symm
      exact hv
    have hnew : pool.serializers[s.pool.serializers.length]? = some (.live this) := by
      rw [hserializers, List.getElem?_concat_length]
    refine ⟨vs', hbuffers, inv.owned.step A capacity policy inv.buffers hget, hreads, fun c call hc => ?_,
      fun c d i call call' hc hd hi hi' => ?_⟩
    · rcases SlotTable.getElem?_push_cases hc with hc | ⟨-, rfl⟩
      · exact (inv.follows c call hc).leaves hleaves fun _ he => by cases he
      · have hruns : Runs p value (startOf p pool s.pool.serializers.length) _ value := .refl
        refine .running hruns hnew ?_
        unfold startOf Start.alone
        rw [hnew]
        exact ⟨⟨hfresh hw hwriter, rfl⟩, ⟨hfresh hs hscratch, rfl⟩, rfl⟩
    · -- an older call borrows an older serializer
      rcases SlotTable.getElem?_push_cases hc with hc | ⟨rfl, rfl⟩ <;>
        rcases SlotTable.getElem?_push_cases hd with hd | ⟨rfl, rfl⟩
      · exact inv.apart c d i call call' hc hd hi hi'
      · have hlt := inv.borrowed_lt capacity policy hc hi
        have heq : s.pool.serializers.length = i := of_decide_eq_true hi'
        omega
      · have hlt := inv.borrowed_lt capacity policy hd hi'
        have heq : s.pool.serializers.length = i := of_decide_eq_true hi
        omega
      · rfl

/-- An action of serializer `i` for the call that borrows it. -/
theorem Callers.Inv.acts (inv : Callers.Inv capacity policy p s vs) {pool : State} {action : Action} {i : Nat}
    (haction : action.serializer? = some i) (h : SerializerPool.step A capacity policy s.pool action = .ok pool) :
    ∃ vs', BuffersInv capacity policy p pool ∧ Owned pool ∧ Reads p pool.buffers vs' ∧
      vs.handles.length ≤ vs'.handles.length ∧
      ∀ call : Serialization ε, call.borrows i = false → call.Follows p s.pool vs → call.Follows p pool vs' := by
  obtain ⟨vs', -, hreads, hleaves⟩ := step_traces A capacity policy inv.buffers inv.owned inv.reads h
  refine ⟨vs', ?_, inv.owned.step A capacity policy inv.buffers h, hreads, hleaves.length_le, ?_⟩
  · exact buffersInv_of_step A capacity policy inv.buffers h
  · intro call hb hcall
    refine hcall.leaves hleaves fun j hj => ?_
    rw [haction] at hj
    cases hj
    exact hb

/-- **A call takes a step.** -/
theorem Callers.Inv.next (inv : Callers.Inv capacity policy p s vs) {c i : Nat} {value rest : Value ε}
    {start : Start} (hc : s.calls[c]? = some ⟨value, start, .running i rest⟩)
    (h : Callers.next A capacity policy s c value start i rest = .ok s') :
    ∃ vs', Callers.Inv capacity policy p s' vs' := by
  have hfollows := inv.follows c _ hc
  cases hfollows with
  | @running _ _ _ t _ this hruns hi his =>
  simp only [Callers.next, hi] at h
  have hne := inv.owned.ne i this hi
  cases rest with
  | ask request next =>
      dsimp only at h
      cases haction : request.action i with
      | none =>
          -- the position is read off the writer
          obtain rfl : request = .pos := by
            cases request with
            | pos => rfl
            | _ => cases haction
          rw [haction, ok_bind] at h
          cases h
          obtain ⟨writer, o, data, hslot, hs⟩ := inv.reads.unique_of_value his.writer.value
          have hreply : reply A s.pool.buffers this .pos = some (.pos t.out.length) := by
            simp only [reply, replyOf, hslot, hs.length_eq]
          refine ⟨vs, inv.set capacity policy hc inv.buffers inv.owned inv.reads (fun _ _ hcall => hcall) ?_ ?_⟩
          · rw [hreply]
            exact .running (hruns.step .pos) hi his
          · exact fun j hj => (of_decide_eq_true hj).symm
      | some action =>
          rw [haction] at h
          obtain ⟨pool, hpool, h⟩ := bind_eq_ok h
          cases h
          have hserializer : action.serializer? = some i := by
            cases request with
            | pos => cases haction
            | _ => cases haction; rfl
          obtain ⟨vs', hbuffers, howned, hreads, -, hothers⟩ := inv.acts A capacity policy hserializer hpool
          obtain ⟨t', vs'', this', hserves, hreads', hi', his'⟩ :=
            request_served A capacity policy inv.buffers inv.reads hi hne his request haction hpool
          -- the values that the others keep and those that the call has are of one state
          obtain rfl := hreads.det hreads'
          refine ⟨vs', inv.set capacity policy hc hbuffers howned hreads hothers ?_ ?_⟩
          · exact .running (hruns.step hserves) hi' his'
          · exact fun j hj => (of_decide_eq_true hj).symm
  | done result =>
      cases result with
      | ok pos =>
          obtain ⟨pool, hpool, h⟩ := bind_eq_ok h
          cases h
          obtain ⟨vs', hbuffers, howned, hreads, -, hothers⟩ := inv.acts A capacity policy rfl hpool
          obtain ⟨vs'', hreads', hshows⟩ :=
            intoBuffer_shows A capacity policy inv.buffers inv.reads hi his hpool
          obtain rfl := hreads.det hreads'
          refine ⟨vs', inv.set capacity policy hc hbuffers howned hreads hothers ?_ fun j hj => by cases hj⟩
          refine .returned hruns (List.getElem?_eq_some_iff.mp hshows).1 fun xs hxs => ?_
          rw [hshows] at hxs
          cases hxs
          rfl
      | error failure =>
          obtain ⟨pool, hpool, h⟩ := bind_eq_ok h
          cases h
          obtain ⟨vs', hbuffers, howned, hreads, -, hothers⟩ := inv.acts A capacity policy rfl hpool
          refine ⟨vs', inv.set capacity policy hc hbuffers howned hreads hothers ?_ fun j hj => by cases hj⟩
          exact .failed hruns

/-- **Every move.** -/
theorem Callers.Inv.step (inv : Callers.Inv capacity policy p s vs) (move : Move ε)
    (h : Callers.step A capacity policy s move = .ok s') : ∃ vs', Callers.Inv capacity policy p s' vs' := by
  cases move with
  | serialize value => exact inv.serialize A capacity policy value h
  | next c =>
      simp only [Callers.step] at h
      split at h
      case h_1 value start i rest hc => exact inv.next A capacity policy hc h
      case h_2 =>
        cases h
        exact ⟨vs, inv⟩
  | other action =>
      simp only [Callers.step] at h
      split at h
      case isTrue hallowed =>
        obtain ⟨pool, hpool, h⟩ := bind_eq_ok h
        cases h
        obtain ⟨vs', -, hreads, hleaves⟩ := step_traces A capacity policy inv.buffers inv.owned inv.reads hpool
        refine ⟨vs', buffersInv_of_step A capacity policy inv.buffers hpool,
          inv.owned.step A capacity policy inv.buffers hpool, hreads, fun c call hc => ?_, inv.apart⟩
        -- an action on a borrowed serializer is not allowed
        refine (inv.follows c call hc).leaves hleaves fun i hi => ?_
        simp only [Callers.allowed, Option.mem_def.mp hi, List.all_eq_true] at hallowed
        simpa using hallowed call (List.mem_of_getElem? hc)
      case isFalse =>
        cases h
        exact ⟨vs, inv⟩

/-- Every move is taken, or the system ends at an abort. -/
theorem Callers.Inv.proceeds (inv : Callers.Inv capacity policy p s vs) (move : Move ε) :
    (∃ s', Callers.step A capacity policy s move = .ok s') ∨
      ∃ f, Callers.step A capacity policy s move = .error f ∧ f.Aborts := by
  -- every branch is one action of the pool, or none
  have hbind : ∀ (action : Action) (k : State → Callers ε),
      (∃ s', (do
        let pool ← SerializerPool.step A capacity policy s.pool action
        return k pool) = (.ok s' : Except Fault (Callers ε))) ∨
      ∃ f, (do
        let pool ← SerializerPool.step A capacity policy s.pool action
        return k pool) = (.error f : Except Fault (Callers ε)) ∧ f.Aborts := by
    intro action k
    rcases step_proceeds A capacity policy inv.buffers action with ⟨pool, hpool, -⟩ | ⟨f, hf, habort⟩
    · rw [hpool]
      exact .inl ⟨_, rfl⟩
    · rw [hf]
      exact .inr ⟨f, rfl, habort⟩
  cases move with
  | serialize value =>
      simp only [Callers.step]
      split
      · exact .inl ⟨_, rfl⟩
      · exact hbind _ _
  | next c =>
      simp only [Callers.step]
      split
      case h_1 value start i rest hc =>
        unfold Callers.next
        split
        case h_1 this hi =>
          split
          case h_1 request next =>
            cases haction : request.action i with
            | none => exact .inl ⟨_, rfl⟩
            | some action => exact hbind _ _
          case h_2 pos => exact hbind _ _
          case h_3 failure => exact hbind _ _
        case h_2 => exact .inl ⟨_, rfl⟩
      case h_2 => exact .inl ⟨_, rfl⟩
  | other action =>
      simp only [Callers.step]
      split
      · exact hbind _ _
      · exact .inl ⟨_, rfl⟩

end

theorem Callers.Inv.init : Callers.Inv capacity policy p (Callers.init capacity policy : Callers ε) ⟨[], true⟩ where
  buffers := BufferPool.Inv.init
  owned := .init capacity policy
  reads := .init
  follows c call hc := by cases hc
  apart c d i call call' hc := by cases hc

/-- **In every run** each call follows its value alone. -/
theorem Callers.run_follows (moves : List (Move ε)) :
    (∃ s vs, Callers.runFrom A capacity policy moves = .ok s ∧ Callers.Inv capacity policy p s vs) ∨
      ∃ f, Callers.runFrom A capacity policy moves = .error f ∧ f.Aborts := by
  have hstep : ∀ (s : Callers ε) (move : Move ε), (∃ vs, Callers.Inv capacity policy p s vs) →
      (∃ s', Callers.step A capacity policy s move = .ok s' ∧ ∃ vs, Callers.Inv capacity policy p s' vs) ∨
        ∃ f, Callers.step A capacity policy s move = .error f ∧ f.Aborts := by
    rintro s move ⟨vs, inv⟩
    rcases inv.proceeds A capacity policy move with ⟨s', hs'⟩ | hf
    · exact .inl ⟨s', hs', inv.step A capacity policy move hs'⟩
    · exact .inr hf
  rcases run_rule _ Fault.Aborts hstep moves _ ⟨_, Callers.Inv.init capacity policy⟩ with ⟨s, hs, vs, inv⟩ | hf
  · exact .inl ⟨s, vs, hs, inv⟩
  · exact .inr hf

/-- Buffer `k` of the pool shows `xs`, as long as it is a shared buffer. -/
def ShowsWhileShared (p : Params) (buffers : BufferPool.State) (k : Nat) (xs : List UInt8) : Prop :=
  ∀ this, buffers.slots[k]? = some (.shared this) →
    this.asSlice p buffers.heap = .ok xs ∧ this.len p = xs.length

/-- **What a caller of `serialize` can rely on.** With nobody else around its value would get as far as it
    has, having written `t.out`: that is what the writer stores while it runs, and what the buffer that was
    returned shows for good. -/
def Serialization.GoesAlone (p : Params) (pool : State) (call : Serialization ε) : Prop :=
  ∃ t,
    match call.progress with
    | .running i rest => Runs p call.value call.start t rest ∧
        ∃ this writer, pool.serializers[i]? = some (.live this) ∧
          pool.buffers.slots[this.writer]? = some (.unique writer) ∧
          writer.asSlice p pool.buffers.heap = .ok t.out ∧ writer.len = t.out.length
    | .returned pos k =>
        Runs p call.value call.start t (.done (.ok pos)) ∧ ShowsWhileShared p pool.buffers k t.out
    | .failed failure => Runs p call.value call.start t (.done (.error failure))

/-- A call that follows its value alone goes alone. -/
theorem Serialization.Follows.goesAlone {pool : State} {vs : Values} {call : Serialization ε}
    (hr : Reads p pool.buffers vs) (h : call.Follows p pool vs) : call.GoesAlone p pool := by
  cases h with
  | @running value rest start t i this hruns hi his =>
      obtain ⟨writer, o, data, hslot, hs⟩ := hr.unique_of_value his.writer.value
      exact ⟨t, hruns, this, writer, hi, hslot, hs.asSlice_eq, hs.length_eq⟩
  | @returned value start t pos k hruns hk hshared =>
      refine ⟨t, hruns, fun this hslot => ?_⟩
      obtain ⟨xs, data, hv, hs⟩ := hr.shared hslot
      obtain rfl := hshared xs hv
      exact hs.asSlice_eq
  | @failed value start t failure hruns => exact ⟨t, hruns⟩

/-! ## Tables that start empty -/

/-- A new serializer has the oldest table of the queue. -/
theorem startOf_table {s s' : State} (inv : BuffersInv capacity policy p s)
    (hhandle : s.buffers.handle = true) (h : step A capacity policy s .get = .ok s') :
    (startOf p s' s.serializers.length).table = (take ∅ s.unify).1 := by
  obtain ⟨s₁, this, _, _, hs₁, -, -, hserializers, hthis, -⟩ := get_spec A capacity policy inv hhandle
  rw [h] at hs₁
  cases hs₁
  unfold startOf
  rw [hserializers, List.getElem?_concat_length, hthis]

theorem Inv.of_step {s s' : State} (inv : Inv capacity policy p s) {action : Action}
    (h : SerializerPool.step A capacity policy s action = .ok s') (hkeep : PutsBackEmpty capacity s action) :
    Inv capacity policy p s' := by
  rcases inv.step A capacity policy action hkeep with ⟨s₁, hs₁, inv₁⟩ | ⟨f, hf, -⟩
  · rw [h] at hs₁
    cases hs₁
    exact inv₁
  · rw [h] at hf
    cases hf

/-- No table in the queue has an entry, and no call started with one. -/
def Callers.AllEmpty (p : Params) (s : Callers ε) : Prop :=
  SerializerPool.Inv capacity policy p s.pool ∧ ∀ call ∈ s.calls, call.start.table = ∅

/-- **Every move** that puts no entry back. -/
theorem Callers.AllEmpty.step {s s' : Callers ε} (hs : AllEmpty capacity policy p s) (move : Move ε)
    (hkeep : Callers.PutsBackEmpty capacity s move) (h : Callers.step A capacity policy s move = .ok s') :
    AllEmpty capacity policy p s' := by
  obtain ⟨hpool, hcalls⟩ := hs
  cases move with
  | serialize value =>
      simp only [Callers.step] at h
      split at h
      · cases h
        exact ⟨hpool, hcalls⟩
      case isFalse hhandle =>
        obtain ⟨pool, hget, h⟩ := bind_eq_ok h
        cases h
        refine ⟨hpool.of_step A capacity policy hget trivial, fun call hcall => ?_⟩
        rcases List.mem_append.mp hcall with hcall | hcall
        · exact hcalls call hcall
        · -- the table of the new call is off the queue
          rw [List.mem_singleton.mp hcall]
          have htable := startOf_table A capacity policy hpool.1 (Bool.eq_true_of_not_eq_false hhandle) hget
          exact htable.trans (take_clean (P := fun map => map = ∅) rfl hpool.2).1
  | next c =>
      -- a step of a call leaves its start
      have hset : ∀ {value : Value ε} {start : Start} {progress progress' : Progress ε},
          s.calls[c]? = some ⟨value, start, progress⟩ →
          ∀ call ∈ s.calls.set c ⟨value, start, progress'⟩, call.start.table = ∅ := by
        intro value start progress progress' hc call hcall
        rcases List.mem_or_eq_of_mem_set hcall with hmem | rfl
        · exact hcalls call hmem
        · exact hcalls ⟨value, start, progress⟩ (List.mem_of_getElem? hc)
      simp only [Callers.step] at h
      split at h
      case h_2 =>
        cases h
        exact ⟨hpool, hcalls⟩
      case h_1 value start i rest hc =>
        unfold Callers.next at h
        split at h
        case h_2 =>
          cases h
          exact ⟨hpool, hcalls⟩
        case h_1 this hi =>
          split at h
          case h_1 request next =>
            cases request with
            | pos =>
                cases h
                exact ⟨hpool, hset hc⟩
            | write _ | pushAlloc _ | popAlloc _ _ | sharing _ =>
                obtain ⟨pool, hstep, h⟩ := bind_eq_ok h
                cases h
                exact ⟨hpool.of_step A capacity policy hstep trivial, hset hc⟩
          case h_2 | h_3 =>
            obtain ⟨pool, hstep, h⟩ := bind_eq_ok h
            cases h
            exact ⟨hpool.of_step A capacity policy hstep trivial, hset hc⟩
  | other action =>
      simp only [Callers.step] at h
      split at h
      · obtain ⟨pool, hstep, h⟩ := bind_eq_ok h
        cases h
        exact ⟨hpool.of_step A capacity policy hstep hkeep, hcalls⟩
      · cases h
        exact ⟨hpool, hcalls⟩

/-- **Tables start empty** in every run in which no table with entries is put back. -/
theorem Callers.runFrom_allEmpty {moves : List (Move ε)} {s : Callers ε}
    (h : Callers.runFrom A capacity policy moves = .ok s)
    (hkeep : Along (Callers.PutsBackEmpty capacity) (Callers.step A capacity policy)
      (Callers.init capacity policy) moves) : Callers.AllEmpty capacity policy p s := by
  have hstep : ∀ (s : Callers ε) (move : Move ε), Callers.AllEmpty capacity policy p s →
      Callers.PutsBackEmpty capacity s move →
      (∃ s', Callers.step A capacity policy s move = .ok s' ∧ Callers.AllEmpty capacity policy p s') ∨
        ∃ f, Callers.step A capacity policy s move = .error f ∧ True := by
    intro s move hs hmove
    cases hone : Callers.step A capacity policy s move with
    | ok s' => exact .inl ⟨s', rfl, hs.step A capacity policy move hmove hone⟩
    | error f => exact .inr ⟨f, rfl, trivial⟩
  have hinit : Callers.AllEmpty capacity policy p (Callers.init capacity policy : Callers ε) :=
    ⟨.init capacity policy, fun call hcall => by cases hcall⟩
  rcases run_rule_along _ _ _ hstep moves _ hinit hkeep with ⟨s', hr, hs'⟩ | ⟨f, hr, -⟩
  · rw [show Callers.runFrom A capacity policy moves = .ok s' from hr] at h
    cases h
    exact hs'
  · rw [show Callers.runFrom A capacity policy moves = .error f from hr] at h
    cases h

/-- **Serializations do not meet.** In every interleaving of calls of `serialize` with each other and with
    everything else that is done to the pool and its buffers, each call goes as its value would alone, from
    the storage and the table that the pool had for it, and the buffer it returns shows what the value has
    written. The table was empty, unless a table with entries has been put back. -/
theorem serializations_alone (moves : List (Move ε)) :
    match Callers.runFrom A capacity policy moves with
    | .ok s =>
        (∀ (c : Nat) (call : Serialization ε), s.calls[c]? = some call → call.GoesAlone p s.pool) ∧
        (Along (Callers.PutsBackEmpty capacity) (Callers.step A capacity policy) (Callers.init capacity policy)
          moves → ∀ call ∈ s.calls, call.start.table = ∅)
    | .error f => f.Aborts := by
  rcases Callers.run_follows A capacity policy moves with ⟨s, vs, hs, inv⟩ | ⟨f, hf, habort⟩
  · rw [hs]
    exact ⟨fun c call hc => (inv.follows c call hc).goesAlone inv.reads,
      fun hkeep => (Callers.runFrom_allEmpty A capacity policy hs hkeep).2⟩
  · rw [hf]
    exact habort

end SerializerPool

end RkyvUtils
