import RkyvUtils.AlignedBufferPool.SerializerRuns
import RkyvUtils.AlignedBufferPool.Values

/-!
# `AlignedBufferPool.SerializerBuffers` — the buffers under a `SerializerPool`

To the buffers a serializer pool is a caller like any other: each of its actions is a few actions of
`BufferPool` (`step_buffers`), so every run of it is a run of those (`runFrom_buffers`), and what holds of
every run of buffers holds under every serializer pool. An action names its handles; what all others show
stays (`Traces.other`), and no handle turns into a shared buffer (`Traces.shared`).
-/

namespace RkyvUtils

open Run

/-! ## What an action on values leaves alone -/

namespace BufferPool

variable {queues : Nat} {vs vs' : Values} {a : Action} {answer : Option Fault}

theorem Values.get_set_ne {i k : Nat} {v : Value} (hne : i ≠ k) :
    (vs.set i v).handles[k]? = vs.handles[k]? := List.getElem?_set_ne hne

theorem Values.get_add_lt {k : Nat} {v : Value} (hk : k < vs.handles.length) :
    (vs.add v).handles[k]? = vs.handles[k]? := List.getElem?_append_left hk

theorem Values.get_pad_lt {k n : Nat} (hk : k < vs.handles.length) :
    (vs.pad n).handles[k]? = vs.handles[k]? := List.getElem?_append_left hk

@[simp] theorem Values.length_set {i : Nat} {v : Value} : (vs.set i v).handles.length = vs.handles.length :=
  List.length_set

/-- **Other handles** keep their values. -/
theorem Does.other (h : Does queues vs a answer vs') {k : Nat} (hk : k < vs.handles.length)
    (hne : a.handle ≠ some k) : vs'.handles[k]? = vs.handles[k]? := by
  have hset : ∀ {i : Nat} {v : Value}, some i ≠ some k → (vs.set i v).handles[k]? = vs.handles[k]? :=
    fun hik => Values.get_set_ne fun he => hik (by rw [he])
  cases h with
  | new | withCapacity n | get hpool hq | clone hi => exact Values.get_add_lt hk
  | withCapacityPanics n | noPool hno | notUnique hi | read i | dropped hpool | idle ha hnot => rfl
  | mutate hi hop | empty hi hop | tryUniquePanics hi | drop hi htakes => exact hset hne
  | intoShared hi | tryUnique hi =>
      rw [Values.get_add_lt (by simpa using hk)]
      exact hset hne
  | advance i n => exact Values.get_pad_lt hk
  | returns n hi =>
      rw [Values.get_pad_lt (by simpa using hk)]
      exact hset hne
  | dropPool n hpool => exact Values.get_pad_lt hk

/-- Handles keep their places. -/
theorem Does.length_le (h : Does queues vs a answer vs') : vs.handles.length ≤ vs'.handles.length := by
  cases h with
  | withCapacityPanics n | noPool hno | notUnique hi | read i | dropped hpool | idle ha hnot =>
      exact Nat.le_refl _
  | _ => simp [Values.add, Values.pad, Values.set]

/-- **A shared buffer** shows at every later time what it showed at first: no handle becomes one. -/
theorem Does.shared (h : Does queues vs a answer vs') {k : Nat} {xs : List UInt8}
    (hk : k < vs.handles.length) (hxs : vs'.handles[k]? = some (.shared xs)) :
    vs.handles[k]? = some (.shared xs) := by
  have hset : ∀ {i : Nat} {v : Value}, (∀ ys, v ≠ .shared ys) →
      (vs.set i v).handles[k]? = some (.shared xs) → vs.handles[k]? = some (.shared xs) := by
    intro i v hv hget
    by_cases hik : i = k
    · subst hik
      rw [show (vs.set i v).handles[i]? = some v from List.getElem?_set_self hk] at hget
      exact absurd (Option.some.inj hget) (hv xs)
    · rwa [Values.get_set_ne hik] at hget
  cases h with
  | new | withCapacity n | get hpool hq | clone hi => rwa [Values.get_add_lt hk] at hxs
  | withCapacityPanics n | noPool hno | notUnique hi | read i | dropped hpool | idle ha hnot => exact hxs
  | mutate hi hop | empty hi hop | tryUniquePanics hi | drop hi htakes => exact hset (fun _ he => by cases he) hxs
  | intoShared hi | tryUnique hi =>
      rw [Values.get_add_lt (by simpa using hk)] at hxs
      exact hset (fun _ he => by cases he) hxs
  | advance i n => rwa [Values.get_pad_lt hk] at hxs
  | returns n hi =>
      rw [Values.get_pad_lt (by simpa using hk)] at hxs
      exact hset (fun _ he => by cases he) hxs
  | dropPool n hpool =>
      have hpad : ({ vs with pool := false }.pad n).handles[k]? = vs.handles[k]? :=
        List.getElem?_append_left hk
      rwa [hpad] at hxs

variable {log : List (Action × Option Fault)}

theorem Traces.other (h : Traces queues vs log vs') {k : Nat} (hk : k < vs.handles.length)
    (hne : ∀ entry ∈ log, entry.1.handle ≠ some k) : vs'.handles[k]? = vs.handles[k]? := by
  induction h with
  | nil vs => rfl
  | cons head tail ih =>
      rw [ih (Nat.lt_of_lt_of_le hk head.length_le) fun entry hmem => hne entry (List.mem_cons_of_mem _ hmem)]
      exact head.other hk (hne _ (List.mem_cons_self ..))

theorem Traces.length_le (h : Traces queues vs log vs') : vs.handles.length ≤ vs'.handles.length := by
  induction h with
  | nil vs => exact Nat.le_refl _
  | cons head tail ih => exact Nat.le_trans head.length_le ih

theorem Traces.shared (h : Traces queues vs log vs') {k : Nat} {xs : List UInt8}
    (hk : k < vs.handles.length) (hxs : vs'.handles[k]? = some (.shared xs)) :
    vs.handles[k]? = some (.shared xs) := by
  induction h with
  | nil vs => exact hxs
  | cons head tail ih => exact head.shared hk (ih (Nat.lt_of_lt_of_le hk head.length_le) hxs)

/-- The actions of a trace are those of the run. -/
theorem mem_trace {p : Params} (A : Allocator p.toTarget) {cfg : Config} {s : State} {as : List Action}
    {entry : Action × Option Fault} (h : entry ∈ trace A cfg s as) : entry.1 ∈ as := by
  induction as generalizing s with
  | nil => cases h
  | cons a as ih =>
      rcases List.mem_cons.mp h with rfl | h
      · exact List.mem_cons_self ..
      · cases hstep : step A cfg s a with
        | ok s' =>
            rw [hstep] at h
            exact List.mem_cons_of_mem _ (ih h)
        | error f =>
            rw [hstep] at h
            cases h

/-- Other handles, where they have their bytes included. -/
theorem run_others {p : Params} (A : Allocator p.toTarget) {cfg : Config} {s s' : State} {as : List Action}
    (h : run (step A cfg) s as = .ok s') {k : Nat} (hk : k < s.slots.length)
    (hne : ∀ a ∈ as, a.handle ≠ some k) : s'.slots[k]? = s.slots[k]? := by
  induction as generalizing s with
  | nil =>
      cases h
      rfl
  | cons a as ih =>
      cases hone : step A cfg s a with
      | error f =>
          rw [run_cons_error hone] at h
          cases h
      | ok s₁ =>
          rw [run_cons_ok hone] at h
          have hchanges := step_changes A hone
          rw [ih h (Nat.lt_of_lt_of_le hk hchanges.grows) fun b hmem => hne b (List.mem_cons_of_mem _ hmem)]
          exact hchanges.others k hk (hne a (List.mem_cons_self ..))

end BufferPool

/-! ## Serializers as callers -/

namespace SerializerPool

variable {p : Params} (A : Allocator p.toTarget) (capacity : Nat) (policy : Nat → Bool)

/-- What an action of a serializer pool does to the buffers. -/
def bufferActions (s : State) : Action → List BufferPool.Action
  | .get => if s.buffers.handle = false then [] else [.get 0, .get 1]
  | .write i bytes =>
      match s.serializers[i]? with
      | some (.live this) => [.mutate this.writer (.unique (.extendFromSlice bytes))]
      | _ => []
  | .pushAlloc i layout =>
      match s.serializers[i]? with
      | some (.live this) => [.mutate this.scratch (.pushAlloc layout)]
      | _ => []
  | .popAlloc i ptr layout =>
      match s.serializers[i]? with
      | some (.live this) => [.mutate this.scratch (.popAlloc ptr layout)]
      | _ => []
  | .intoBuffer i =>
      match s.serializers[i]? with
      | some (.live this) => [.intoShared this.writer, .drop this.scratch]
      | _ => []
  | .drop i =>
      match s.serializers[i]? with
      | some (.live this) => [.drop this.writer, .drop this.scratch]
      | _ => []
  | .sharing _ _ | .dropUnify _ => []
  | .buffers action => if allowed s action = true then [action] else []

variable {s s' : State}

/-- **One action** of the pool is a few of its buffers. -/
theorem step_buffers {action : Action} (h : step A capacity policy s action = .ok s') :
    run (BufferPool.step A (config capacity policy)) s.buffers (bufferActions s action)
      = .ok s'.buffers := by
  have hone : ∀ {a : BufferPool.Action} {buffers : BufferPool.State},
      BufferPool.step A (config capacity policy) s.buffers a = .ok buffers →
        run (BufferPool.step A (config capacity policy)) s.buffers [a] = .ok buffers := by
    intro a buffers ha
    rw [run_cons_ok ha]
    rfl
  have htwo : ∀ {a b : BufferPool.Action} {buffers₁ buffers₂ : BufferPool.State},
      BufferPool.step A (config capacity policy) s.buffers a = .ok buffers₁ →
      BufferPool.step A (config capacity policy) buffers₁ b = .ok buffers₂ →
        run (BufferPool.step A (config capacity policy)) s.buffers [a, b] = .ok buffers₂ := by
    intro a b buffers₁ buffers₂ ha hb
    rw [run_cons_ok ha, run_cons_ok hb]
    rfl
  cases action with
  | get =>
      simp only [step] at h
      simp only [bufferActions]
      split at h
      case isTrue hhandle =>
        cases h
        rw [if_pos hhandle]
        rfl
      case isFalse hhandle =>
        obtain ⟨writers, hw, h⟩ := bind_eq_ok h
        obtain ⟨buffers, hb, h⟩ := bind_eq_ok h
        cases h
        rw [if_neg hhandle]
        exact htwo hw hb
  | write i bytes | pushAlloc i layout | popAlloc i ptr layout =>
      simp only [step, mutate] at h
      simp only [bufferActions]
      rcases hi : s.serializers[i]? with _ | this | _ | _ <;> simp only [hi] at h ⊢
      case some.live =>
        obtain ⟨buffers, hstep, h⟩ := bind_eq_ok h
        cases h
        exact hone hstep
      all_goals
        cases h
        rfl
  | sharing i call =>
      simp only [step] at h
      split at h <;> cases h <;> rfl
  | intoBuffer i | drop i =>
      simp only [step, giveUp] at h
      simp only [bufferActions]
      rcases hi : s.serializers[i]? with _ | this | _ | _ <;> simp only [hi] at h ⊢
      case some.live =>
        obtain ⟨buffers₁, hstep₁, h⟩ := bind_eq_ok h
        obtain ⟨buffers₂, hstep₂, h⟩ := bind_eq_ok h
        cases h
        exact htwo hstep₁ hstep₂
      all_goals
        cases h
        rfl
  | dropUnify i =>
      simp only [step] at h
      split at h <;> cases h <;> rfl
  | buffers action =>
      simp only [step] at h
      simp only [bufferActions]
      split at h
      case isTrue hallowed =>
        obtain ⟨buffers, hstep, h⟩ := bind_eq_ok h
        cases h
        rw [if_pos hallowed]
        exact hone hstep
      case isFalse hnot =>
        cases h
        rw [if_neg hnot]
        rfl

/-- **Every run of a serializer pool is a run of its buffers.** -/
theorem run_buffers {actions : List Action} (h : run (step A capacity policy) s actions = .ok s') :
    ∃ as, run (BufferPool.step A (config capacity policy)) s.buffers as = .ok s'.buffers := by
  induction actions generalizing s with
  | nil =>
      cases h
      exact ⟨[], rfl⟩
  | cons action actions ih =>
      cases hone : step A capacity policy s action with
      | error f =>
          rw [run_cons_error hone] at h
          cases h
      | ok s₁ =>
          rw [run_cons_ok hone] at h
          obtain ⟨as, has⟩ := ih h
          exact ⟨bufferActions s action ++ as, by rw [run_append (step_buffers A capacity policy hone), has]⟩

theorem runFrom_buffers {actions : List Action} (h : runFrom A capacity policy actions = .ok s) :
    ∃ as, BufferPool.runFrom A (config capacity policy) as = .ok s.buffers :=
  run_buffers A capacity policy h

end SerializerPool

end RkyvUtils
