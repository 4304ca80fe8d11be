import Mathlib.Data.List.AList
import RkyvUtils.Lib.Recycle
import RkyvUtils.Lib.SlotTable

/-!
# `AlignedBufferPool.ValidatorPool` — the table of shared pointers is cleared before it is used again

`validator_pool/shared.rs` and `validator_pool.rs`. A `PooledValidator` has a table of the shared pointers
it has seen, which goes back to the pool when the validator is dropped. The system is the pool with all
validators ever handed out; the drop of a validator takes three steps (the upgrade of its weak reference,
the push, the drop of the upgraded reference), so drops and rentals interleave. Every validator keeps a
log of the calls made on it since it was handed out, with their answers.

What the archive validator of `rkyv` does is no part of it: its state is of any type `α`.
-/

namespace RkyvUtils

open Recycle SlotTable

/-! ## `SharedValidator` -/

/-- The states `start_shared` can report. -/
inductive ValidationState where
  | started
  | pending
  | finished
deriving DecidableEq, Repr

inductive SharedError (τ : Type) where
  | typeMismatch (previous current : τ)
  | notStarted
  | alreadyFinished
deriving DecidableEq, Repr

/-- The table from addresses to the type claimed there and whether its validation is finished. -/
structure SharedValidator (τ : Type) where
  shared : AList fun _ : Nat => τ × Bool
deriving DecidableEq

namespace SharedValidator

variable {τ : Type} [DecidableEq τ]

/-- `SharedValidator::default()`. -/
def default : SharedValidator τ := ⟨∅⟩

/-- `HashMap::clear` leaves nothing of the table. -/
def clear (_this : SharedValidator τ) : SharedValidator τ := ⟨∅⟩

def startShared (this : SharedValidator τ) (address : Nat) (typeId : τ) :
    SharedValidator τ × Except (SharedError τ) ValidationState :=
  match this.shared.lookup address with
  | none => (⟨this.shared.insert address (typeId, false)⟩, .ok .started)
  | some (previousTypeId, finished) =>
      if previousTypeId ≠ typeId then (this, .error (.typeMismatch previousTypeId typeId))
      else if ¬finished then (this, .ok .pending)
      else (this, .ok .finished)

def finishShared (this : SharedValidator τ) (address : Nat) (typeId : τ) :
    SharedValidator τ × Except (SharedError τ) Unit :=
  match this.shared.lookup address with
  | none => (this, .error .notStarted)
  | some (previousTypeId, finished) =>
      if previousTypeId ≠ typeId then (this, .error (.typeMismatch previousTypeId typeId))
      else if finished then (this, .error .alreadyFinished)
      else (⟨this.shared.insert address (previousTypeId, true)⟩, .ok ())

end SharedValidator

/-- A call on a validator as a `SharedContext`. -/
inductive SharedCall (τ : Type) where
  | startShared (address : Nat) (typeId : τ)
  | finishShared (address : Nat) (typeId : τ)
deriving DecidableEq, Repr

inductive SharedAnswer (τ : Type) where
  | started (result : Except (SharedError τ) ValidationState)
  | finished (result : Except (SharedError τ) Unit)

namespace SharedValidator

variable {τ : Type} [DecidableEq τ]

def call (this : SharedValidator τ) : SharedCall τ → SharedValidator τ × SharedAnswer τ
  | .startShared address typeId =>
      ((this.startShared address typeId).1, .started (this.startShared address typeId).2)
  | .finishShared address typeId =>
      ((this.finishShared address typeId).1, .finished (this.finishShared address typeId).2)

end SharedValidator

/-! ## The pool -/

/-- `PooledValidator { archive, shared }`; its weak reference is to the one pool there is. -/
structure PooledValidator (τ α : Type) where
  archive : α
  shared : SharedValidator τ

namespace ValidatorPool

variable {τ α : Type}

/-- A validator handed out: in use, or somewhere in its drop. -/
inductive Rental (τ α : Type) where
  | rented (this : PooledValidator τ α) (log : List (SharedCall τ × SharedAnswer τ))
  /-- the weak reference is upgraded; `clear` and `push` come next -/
  | pushing (shared : SharedValidator τ)
  /-- the upgraded reference is dropped next -/
  | unref
  | gone

structure State (τ α : Type) where
  /-- `Inner::shared` -/
  queue : List (SharedValidator τ)
  rentals : List (Rental τ α)
  /-- how many `ValidatorPool`s there are, and the strong count of their `Arc` -/
  handles : Nat
  strong : Nat

/-- `ValidatorPool::new`. -/
def State.init : State τ α := ⟨[], [], 1, 1⟩

inductive Action (τ α : Type) where
  /-- a `ValidatorPool` is cloned, or dropped -/
  | clone
  | dropPool
  /-- `validator_with_max_depth`; `validator` passes `None` -/
  | validatorWithMaxDepth (bytes : List UInt8) (maxDepth : Option Nat)
  | call (i : Nat) (call : SharedCall τ)
  /-- whatever the archive validator does -/
  | archive (i : Nat) (archive : α)
  /-- the drop of a validator starts -/
  | drop (i : Nat)
  /-- the next step of a validator that is being dropped -/
  | advance (i : Nat)

variable [DecidableEq τ] (capacity : Nat) (withMaxDepth : List UInt8 → Option Nat → α)

/-- The drop of one strong reference; with the last one goes the queue. -/
def releaseStrong (s : State τ α) : State τ α :=
  let s := { s with strong := s.strong - 1 }
  if s.strong = 0 then { s with queue := [] } else s

def setRental (s : State τ α) (i : Nat) (rental : Rental τ α) : State τ α :=
  { s with rentals := s.rentals.set i rental }

def step (s : State τ α) : Action τ α → State τ α
  | .clone => if s.handles = 0 then s else { s with handles := s.handles + 1, strong := s.strong + 1 }
  | .dropPool => if s.handles = 0 then s else releaseStrong { s with handles := s.handles - 1 }
  | .validatorWithMaxDepth bytes maxDepth =>
      if s.handles = 0 then s
      else
        let (shared, queue) := take SharedValidator.default s.queue
        { s with queue, rentals := s.rentals ++ [.rented ⟨withMaxDepth bytes maxDepth, shared⟩ []] }
  | .call i call =>
      match s.rentals[i]? with
      | some (.rented this log) =>
          let (shared, answer) := this.shared.call call
          setRental s i (.rented { this with shared } (log ++ [(call, answer)]))
      | _ => s
  | .archive i archive =>
      match s.rentals[i]? with
      | some (.rented this log) => setRental s i (.rented { this with archive } log)
      | _ => s
  | .drop i =>
      match s.rentals[i]? with
      | some (.rented this _) =>
          if s.strong = 0 then setRental s i .gone
          else setRental { s with strong := s.strong + 1 } i (.pushing this.shared)
      | _ => s
  | .advance i =>
      match s.rentals[i]? with
      | some (.pushing shared) =>
          setRental { s with queue := put capacity s.queue shared.clear } i .unref
      | some .unref => setRental (releaseStrong s) i .gone
      | _ => s

/-- Every state a pool can reach is the end of such a run. -/
def runFrom (actions : List (Action τ α)) : State τ α :=
  actions.foldl (step capacity withMaxDepth) State.init

/-! ## What is handed out -/

/-- The invariant: what is queued is empty, and every validator in use has come from the empty table by
    the calls of its log. -/
structure Inv (s : State τ α) : Prop where
  queue : ∀ shared ∈ s.queue, shared = SharedValidator.default
  rentals : ∀ (i : Nat) (this : PooledValidator τ α) (log : List (SharedCall τ × SharedAnswer τ)),
    s.rentals[i]? = some (.rented this log) →
      Explains SharedValidator.call SharedValidator.default log this.shared

theorem Inv.releaseStrong {s : State τ α} (inv : Inv s) : Inv (releaseStrong s) := by
  unfold ValidatorPool.releaseStrong
  dsimp only
  split
  · exact ⟨nofun, inv.rentals⟩
  · exact ⟨inv.queue, inv.rentals⟩

/-- One rental changes. -/
theorem Inv.setRental {s : State τ α} (inv : Inv s) {i : Nat} {rental rental' : Rental τ α}
    (hi : s.rentals[i]? = some rental)
    (hnew : ∀ this log, rental' = .rented this log →
      Explains SharedValidator.call SharedValidator.default log this.shared) :
    Inv (setRental s i rental') where
  queue := inv.queue
  rentals j this log hj := by
    rcases getElem?_set_cases hi hj with ⟨-, he⟩ | ⟨-, hj⟩
    · exact hnew this log he.symm
    · exact inv.rentals j this log hj

/-- **One step** keeps the queue clean and the logs right. -/
theorem Inv.step {s : State τ α} (inv : Inv s) (action : Action τ α) :
    Inv (step capacity withMaxDepth s action) := by
  cases action with
  | clone =>
      simp only [ValidatorPool.step]
      split
      · exact inv
      · exact ⟨inv.queue, inv.rentals⟩
  | dropPool =>
      simp only [ValidatorPool.step]
      split
      · exact inv
      · exact Inv.releaseStrong ⟨inv.queue, inv.rentals⟩
  | validatorWithMaxDepth bytes maxDepth =>
      simp only [ValidatorPool.step]
      split
      · exact inv
      · obtain ⟨hshared, hqueue⟩ :=
          take_clean (P := fun shared => shared = SharedValidator.default) rfl inv.queue
        refine ⟨hqueue, fun i this log hi => ?_⟩
        rcases getElem?_push_cases hi with hi | ⟨-, he⟩
        · exact inv.rentals i this log hi
        · cases he
          rw [hshared]
          exact .nil
  | call i call =>
      simp only [ValidatorPool.step]
      split
      case h_1 this log hi =>
        refine inv.setRental hi fun this' log' he => ?_
        cases he
        exact (inv.rentals i this log hi).snoc call
      case h_2 => exact inv
  | archive i archive =>
      simp only [ValidatorPool.step]
      split
      case h_1 this log hi =>
        refine inv.setRental hi fun this' log' he => ?_
        cases he
        exact inv.rentals i this log hi
      case h_2 => exact inv
  | drop i =>
      simp only [ValidatorPool.step]
      split
      case h_1 this log hi =>
        split
        · exact inv.setRental hi fun _ _ he => by cases he
        · have inv' : Inv { s with strong := s.strong + 1 } := ⟨inv.queue, inv.rentals⟩
          exact inv'.setRental hi fun _ _ he => by cases he
      case h_2 => exact inv
  | advance i =>
      simp only [ValidatorPool.step]
      split
      case h_1 shared hi =>
        have inv' : Inv { s with queue := put capacity s.queue shared.clear } :=
          ⟨put_clean inv.queue fun _ => rfl, inv.rentals⟩
        exact inv'.setRental hi fun _ _ he => by cases he
      case h_2 hi =>
        have hi' : (ValidatorPool.releaseStrong s).rentals[i]? = some .unref := by
          unfold ValidatorPool.releaseStrong
          dsimp only
          split <;> exact hi
        exact inv.releaseStrong.setRental hi' fun _ _ he => by cases he
      case h_3 => exact inv

/-- **Every run.** -/
theorem Inv.runFrom (actions : List (Action τ α)) : Inv (runFrom capacity withMaxDepth actions) := by
  refine List.foldlRecOn actions _ ⟨nofun, fun i _ _ hi => by simp [State.init] at hi⟩ ?_
  intro s inv action _
  exact inv.step capacity withMaxDepth action

/-- A `finish_shared` that returned `Ok`. -/
abbrev finishedOk (address : Nat) (typeId : τ) : SharedCall τ × SharedAnswer τ :=
  (.finishShared address typeId, .finished (.ok ()))

/-- A `start_shared` that returned `Ok(Finished)`. -/
abbrev reportedFinished (address : Nat) (typeId : τ) : SharedCall τ × SharedAnswer τ :=
  (.startShared address typeId, .started (.ok .finished))

/-- What the table of a validator and its log have to do with each other: an address is finished in the
    table, or was reported finished, only after `finish_shared` of that address returned `Ok`. -/
def FinishedInLog (log : List (SharedCall τ × SharedAnswer τ)) (shared : SharedValidator τ) : Prop :=
  (∀ address typeId, shared.shared.lookup address = some (typeId, true) →
    ∃ j : Nat, log[j]? = some (finishedOk address typeId)) ∧
  ∀ (k : Nat) address typeId, log[k]? = some (reportedFinished address typeId) →
    ∃ j, j < k ∧ log[j]? = some (finishedOk address typeId)

/-- An earlier entry is still there after one more. -/
theorem getElem?_snoc {β : Type} {log : List β} {entry entry' : β} {j : Nat}
    (hj : log[j]? = some entry) : (log ++ [entry'])[j]? = some entry := by
  rw [List.getElem?_append_left (List.getElem?_eq_some_iff.mp hj).1]
  exact hj

/-- **One call**, whatever its answer. -/
theorem FinishedInLog.call {log : List (SharedCall τ × SharedAnswer τ)} {shared : SharedValidator τ}
    (h : FinishedInLog log shared) (call : SharedCall τ) :
    FinishedInLog (log ++ [(call, (shared.call call).2)]) (shared.call call).1 := by
  obtain ⟨htable, hlog⟩ := h
  -- an address that was finished before the call
  have hold : ∀ address typeId, shared.shared.lookup address = some (typeId, true) →
      ∃ j, j < log.length ∧ (log ++ [(call, (shared.call call).2)])[j]?
        = some (finishedOk address typeId) := by
    intro address typeId hlookup
    obtain ⟨j, hj⟩ := htable address typeId hlookup
    exact ⟨j, (List.getElem?_eq_some_iff.mp hj).1, getElem?_snoc hj⟩
  constructor
  · intro address typeId hlookup
    cases call with
    | startShared address' typeId' =>
        have hbefore : shared.shared.lookup address = some (typeId, true) := by
          simp only [SharedValidator.call, SharedValidator.startShared] at hlookup
          split at hlookup
          · by_cases he : address = address'
            · subst he
              rw [AList.lookup_insert] at hlookup
              cases hlookup
            · rwa [AList.lookup_insert_ne he] at hlookup
          · split at hlookup
            · exact hlookup
            · split at hlookup <;> exact hlookup
        obtain ⟨j, -, hj⟩ := hold address typeId hbefore
        exact ⟨j, hj⟩
    | finishShared address' typeId' =>
        by_cases hbefore : shared.shared.lookup address = some (typeId, true)
        · obtain ⟨j, -, hj⟩ := hold address typeId hbefore
          exact ⟨j, hj⟩
        · -- the call has finished the address
          refine ⟨log.length, ?_⟩
          rw [List.getElem?_concat_length]
          simp only [SharedValidator.call, SharedValidator.finishShared] at hlookup ⊢
          split at hlookup
          · exact absurd hlookup hbefore
          · rename_i previousTypeId finished hprevious
            split at hlookup
            · exact absurd hlookup hbefore
            · rename_i htype
              split at hlookup
              · exact absurd hlookup hbefore
              · rename_i hfinished
                by_cases he : address = address'
                · subst he
                  rw [AList.lookup_insert] at hlookup
                  cases hlookup
                  obtain rfl := not_ne_iff.mp htype
                  simp only [if_neg htype, if_neg hfinished]
                · rw [AList.lookup_insert_ne he] at hlookup
                  exact absurd hlookup hbefore
  · intro k address typeId hk
    rcases getElem?_push_cases hk with hk | ⟨rfl, he⟩
    · obtain ⟨j, hjk, hj⟩ := hlog k address typeId hk
      exact ⟨j, hjk, getElem?_snoc hj⟩
    · -- the call itself reports the address finished, so the table said so
      obtain ⟨rfl, hanswer⟩ := Prod.mk.inj he
      refine hold address typeId ?_
      simp only [SharedValidator.call, SharedValidator.startShared] at hanswer
      split at hanswer
      · cases hanswer
      · rename_i previousTypeId finished hprevious
        split at hanswer
        · cases hanswer
        · rename_i htype
          split at hanswer
          · cases hanswer
          · rename_i hfinished
            rw [hprevious, not_ne_iff.mp htype, not_not.mp hfinished]

/-- **What a pool promises about the validators it hands out**, in one state. -/
structure StartsClean (withMaxDepth : List UInt8 → Option Nat → α) (capacity : Nat) (s : State τ α) :
    Prop where
  /-- the next validator is the one a new pool would hand out, with an empty table -/
  next : ∀ bytes maxDepth, s.handles ≠ 0 →
    (step capacity withMaxDepth s (.validatorWithMaxDepth bytes maxDepth)).rentals[s.rentals.length]?
      = (step capacity withMaxDepth State.init (.validatorWithMaxDepth bytes maxDepth)).rentals[0]? ∧
    (step capacity withMaxDepth s (.validatorWithMaxDepth bytes maxDepth)).rentals[s.rentals.length]?
      = some (.rented ⟨withMaxDepth bytes maxDepth, ⟨∅⟩⟩ [])
  /-- every validator in use has answered its calls as one with an empty table does -/
  answers : ∀ (i : Nat) (this : PooledValidator τ α) (log : List (SharedCall τ × SharedAnswer τ)),
    s.rentals[i]? = some (.rented this log) →
      calls SharedValidator.call ⟨∅⟩ (log.map Prod.fst) = (this.shared, log.map Prod.snd)
  /-- it has reported an address finished only if that address was finished on it before -/
  finished : ∀ (i : Nat) (this : PooledValidator τ α) (log : List (SharedCall τ × SharedAnswer τ))
    (k address : Nat) (typeId : τ), s.rentals[i]? = some (.rented this log) →
      log[k]? = some (reportedFinished address typeId) →
        ∃ j, j < k ∧ log[j]? = some (finishedOk address typeId)

/-- **Every validator starts with an empty table**, whatever the validators before it were used for and
    in whatever state they were dropped: it answers every sequence of calls as a validator of a new pool
    does, and reports an address finished only if it was finished in the same rental. -/
theorem validators_start_clean (actions : List (Action τ α)) :
    StartsClean withMaxDepth capacity (runFrom capacity withMaxDepth actions) := by
  have inv := Inv.runFrom capacity withMaxDepth actions
  generalize runFrom capacity withMaxDepth actions = s at inv
  refine ⟨fun bytes maxDepth hhandles => ?_, inv.rentals, fun i this log k address typeId hi hk => ?_⟩
  · have hnext : (step capacity withMaxDepth s
        (.validatorWithMaxDepth bytes maxDepth)).rentals[s.rentals.length]?
        = some (.rented ⟨withMaxDepth bytes maxDepth, ⟨∅⟩⟩ []) := by
      obtain ⟨hshared, -⟩ := take_clean (P := fun shared => shared = SharedValidator.default) rfl inv.queue
      simp only [step]
      rw [if_neg hhandles]
      dsimp only
      rw [List.getElem?_concat_length, hshared]
      rfl
    exact ⟨hnext.trans rfl, hnext⟩
  · have hempty : FinishedInLog [] (SharedValidator.default : SharedValidator τ) := by
      refine ⟨fun address typeId h => ?_, fun k address typeId h => ?_⟩
      · cases (AList.lookup_empty address).symm.trans h
      · cases h
    have hfinished := (inv.rentals i this log hi).induct (Q := FinishedInLog) hempty
      fun log shared call h => h.call call
    exact hfinished.2 k address typeId hk

end ValidatorPool

end RkyvUtils
