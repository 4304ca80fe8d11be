import RkyvUtils.Lib.Program
import RkyvUtils.AlignedBuffer.Layout
import RkyvUtils.AlignedBufferPool.ValidatorPool

/-!
# `AlignedBufferPool.Access` — every access goes as its check would alone

`ValidatorPool::access` takes a validator from the pool, lets the check of a type run on it, and drops it;
`PooledValidator::access` lets the check run on a validator that its caller keeps. A check is any client of
the traits of `rkyv::validation` (`Program`): it chooses each call by the answers to the ones before. Any
number of accesses are under way at a time, and everything else that can be done to the pool goes on around
them.

The archive validator of `rkyv` is not part of this repository: it is whatever its methods answer
(`ArchiveValidator`). `accesses_alone` says that each access comes to an end, with the result that its check
has alone on the validator as it was when the access began. An access of the pool begins with a new one; what
a validator that is kept was left with by one access, the next finds there.
-/

namespace RkyvUtils

open Recycle SlotTable

/-! ## Validation contexts -/

/-- A call of a method of `ArchiveContext`. -/
inductive ArchiveCall where
  | checkSubtreePtr (ptr : Nat) (layout : Layout)
  | pushSubtreeRange (root end' : Nat)
  | popSubtreeRange (range : Nat × Nat)
deriving DecidableEq, Repr

inductive ArchiveAnswer (ε : Type) where
  | checked (result : Except ε Unit)
  | pushed (result : Except ε (Nat × Nat))
  | popped (result : Except ε Unit)

/-- `ArchiveValidator` of `rkyv`: its constructor, and its `ArchiveContext`. -/
structure ArchiveValidator (α ε : Type) where
  withMaxDepth : List UInt8 → Option Nat → α
  call : α → ArchiveCall → α × ArchiveAnswer ε

/-- A call that the check of a type makes on its context. -/
inductive ContextCall (τ : Type) where
  | archive (call : ArchiveCall)
  | shared (call : SharedCall τ)

inductive ContextAnswer (τ ε : Type) where
  | archive (answer : ArchiveAnswer ε)
  | shared (answer : SharedAnswer τ)

/-- What `access_with_context` and `access_pos_with_context` run on their context; a panic is a result. -/
abbrev Check (τ ε ρ : Type) := Program (ContextCall τ) (ContextAnswer τ ε) ρ

variable {τ α ε ρ : Type} [DecidableEq τ] (V : ArchiveValidator α ε)

/-- `ArchiveContext` and `SharedContext` for `PooledValidator`. -/
def PooledValidator.call (this : PooledValidator τ α) :
    ContextCall τ → PooledValidator τ α × ContextAnswer τ ε
  | .archive call =>
      ({ this with archive := (V.call this.archive call).1 }, .archive (V.call this.archive call).2)
  | .shared call => ({ this with shared := (this.shared.call call).1 }, .shared (this.shared.call call).2)

namespace ValidatorPool

/-- The action of validator `i` behind a call. -/
def action (this : PooledValidator τ α) (i : Nat) : ContextCall τ → Action τ α
  | .archive call => .archive i (V.call this.archive call).1
  | .shared call => .call i call

/-- The validator an action is about. -/
def Action.validator? : Action τ α → Option Nat
  | .call i _ | .archive i _ | .drop i | .advance i => some i
  | .clone | .dropPool | .validatorWithMaxDepth _ _ => none

/-! ## Accesses -/

inductive Progress (τ ε ρ : Type) where
  /-- the check runs on validator `i`, with `rest` left -/
  | running (i : Nat) (rest : Check τ ε ρ)
  /-- validator `i`, a temporary, is being dropped -/
  | dropping (i : Nat) (result : ρ)
  | returned (result : ρ)

structure Access (τ α ε ρ : Type) where
  /-- the bytes, for an access of the pool; an access of a validator has none -/
  bytes? : Option (List UInt8)
  /-- the validator when the access began -/
  first : PooledValidator τ α
  check : Check τ ε ρ
  progress : Progress τ ε ρ

/-- The pool, and every access ever begun. -/
structure Accesses (τ α ε ρ : Type) where
  pool : State τ α
  calls : List (Access τ α ε ρ)

inductive Move (τ α ε ρ : Type) where
  /-- `ValidatorPool::access` or `access_pos` -/
  | access (bytes : List UInt8) (check : Check τ ε ρ)
  /-- `PooledValidator::access` or `access_pos` -/
  | accessWith (i : Nat) (check : Check τ ε ρ)
  /-- the next step of access `c` -/
  | next (c : Nat)
  /-- anything else that is done to the pool -/
  | other (action : Action τ α)

/-- Validator `i` is borrowed by the access. -/
def Access.borrows (i : Nat) (access : Access τ α ε ρ) : Bool :=
  match access.progress with
  | .running j _ | .dropping j _ => j = i
  | .returned _ => false

/-- The result of the check alone, from the validator as it was when the access began. -/
def Access.alone (access : Access τ α ε ρ) : ρ := (access.check.eval (PooledValidator.call V) access.first).2

namespace Accesses

variable (capacity : Nat)

def init : Accesses τ α ε ρ := ⟨State.init, []⟩

/-- Nobody borrows validator `i`. -/
def free (s : Accesses τ α ε ρ) (i : Nat) : Bool := s.calls.all fun access => !access.borrows i

/-- The next step of `access`, which is access `c`. -/
def next (s : Accesses τ α ε ρ) (c : Nat) (access : Access τ α ε ρ) : Accesses τ α ε ρ :=
  match access.progress with
  | .running i (.ask request next) =>
      match s.pool.rentals[i]? with
      | some (.rented this _) =>
          let pool := ValidatorPool.step capacity V.withMaxDepth s.pool (action V this i request)
          let progress := .running i (next (this.call V request).2)
          ⟨pool, s.calls.set c { access with progress }⟩
      | _ => s
  | .running i (.done result) =>
      if access.bytes?.isSome then
        let pool := ValidatorPool.step capacity V.withMaxDepth s.pool (.drop i)
        ⟨pool, s.calls.set c { access with progress := .dropping i result }⟩
      else { s with calls := s.calls.set c { access with progress := .returned result } }
  | .dropping i result =>
      match s.pool.rentals[i]? with
      | some .gone => { s with calls := s.calls.set c { access with progress := .returned result } }
      | _ => { s with pool := ValidatorPool.step capacity V.withMaxDepth s.pool (.advance i) }
  | .returned _ => s

def step (s : Accesses τ α ε ρ) : Move τ α ε ρ → Accesses τ α ε ρ
  | .access bytes check =>
      if s.pool.handles = 0 then s
      else
        let pool := ValidatorPool.step capacity V.withMaxDepth s.pool (.validatorWithMaxDepth bytes none)
        match pool.rentals[s.pool.rentals.length]? with
        | some (.rented this _) =>
            ⟨pool, s.calls ++ [⟨some bytes, this, check, .running s.pool.rentals.length check⟩]⟩
        | _ => s
  | .accessWith i check =>
      match s.pool.rentals[i]? with
      | some (.rented this _) =>
          if s.free i = true then { s with calls := s.calls ++ [⟨none, this, check, .running i check⟩] }
          else s
      | _ => s
  | .next c =>
      match s.calls[c]? with
      | some access => next V capacity s c access
      | none => s
  | .other action =>
      match action.validator? with
      | some i =>
          if s.free i = true then { s with pool := ValidatorPool.step capacity V.withMaxDepth s.pool action }
          else s
      | none => { s with pool := ValidatorPool.step capacity V.withMaxDepth s.pool action }

/-- Moves one after the other. -/
def run (s : Accesses τ α ε ρ) (moves : List (Move τ α ε ρ)) : Accesses τ α ε ρ :=
  moves.foldl (step V capacity) s

/-- Every state that a new pool and its callers can reach is the end of such a run. -/
def runFrom (moves : List (Move τ α ε ρ)) : Accesses τ α ε ρ := run V capacity init moves

end Accesses

/-! ## What an action leaves to the other validators -/

section

variable (capacity : Nat) (withMaxDepth : List UInt8 → Option Nat → α) {s : State τ α}

omit [DecidableEq τ] in
@[simp] theorem rentals_releaseStrong : (releaseStrong s).rentals = s.rentals := by
  unfold releaseStrong
  dsimp only
  split <;> rfl

omit [DecidableEq τ] in
theorem rentals_setRental_ne {i j : Nat} {rental : Rental τ α} (hne : i ≠ j) :
    (setRental s i rental).rentals[j]? = s.rentals[j]? := List.getElem?_set_ne hne

omit [DecidableEq τ] in
theorem rentals_setRental {i : Nat} {rental : Rental τ α} (hi : i < s.rentals.length) :
    (setRental s i rental).rentals[i]? = some rental := List.getElem?_set_self hi

/-- **An action** leaves the validators alone that it is not about. -/
theorem rentals_kept (action : Action τ α) {j : Nat} {rental : Rental τ α} (hne : action.validator? ≠ some j)
    (hj : s.rentals[j]? = some rental) : (step capacity withMaxDepth s action).rentals[j]? = some rental := by
  have hother {i : Nat} (h : (some i : Option Nat) ≠ some j) : i ≠ j := fun he => h (congrArg some he)
  cases action with
  | clone =>
      simp only [step]
      split <;> exact hj
  | dropPool =>
      simp only [step]
      split
      · exact hj
      · rw [rentals_releaseStrong]
        exact hj
  | validatorWithMaxDepth bytes maxDepth =>
      simp only [step]
      split
      · exact hj
      · -- the new validator goes behind the others
        obtain ⟨hlt, -⟩ := List.getElem?_eq_some_iff.mp hj
        dsimp only
        rw [List.getElem?_append_left hlt, hj]
  | call i call =>
      simp only [step]
      split
      · rw [rentals_setRental_ne (hother hne), hj]
      · exact hj
  | archive i archive =>
      simp only [step]
      split
      · rw [rentals_setRental_ne (hother hne), hj]
      · exact hj
  | drop i =>
      simp only [step]
      split
      · split
        · rw [rentals_setRental_ne (hother hne), hj]
        · rw [rentals_setRental_ne (hother hne), hj]
      · exact hj
  | advance i =>
      simp only [step]
      split
      · rw [rentals_setRental_ne (hother hne), hj]
      · rw [rentals_setRental_ne (hother hne), rentals_releaseStrong, hj]
      · exact hj

/-- The check that runs on validator `i` makes a call: the validator answers it. -/
theorem rentals_action {this : PooledValidator τ α} {log : List (SharedCall τ × SharedAnswer τ)} {i : Nat}
    (hi : s.rentals[i]? = some (.rented this log)) (request : ContextCall τ) :
    ∃ log', (step capacity withMaxDepth s (action V this i request)).rentals[i]?
      = some (.rented (this.call V request).1 log') := by
  obtain ⟨hlt, -⟩ := List.getElem?_eq_some_iff.mp hi
  cases request with
  | archive call =>
      simp only [action, step, hi]
      exact ⟨log, rentals_setRental hlt⟩
  | shared call =>
      simp only [action, step, hi]
      exact ⟨_, rentals_setRental hlt⟩

omit [DecidableEq τ] in
theorem validator?_action (this : PooledValidator τ α) (i : Nat) (request : ContextCall τ) :
    (action V this i request).validator? = some i := by
  cases request <;> rfl

/-- **A new validator** has an empty table. -/
theorem rentals_validator (inv : Inv s) (hhandles : s.handles ≠ 0) (bytes : List UInt8)
    (maxDepth : Option Nat) :
    (step capacity withMaxDepth s (.validatorWithMaxDepth bytes maxDepth)).rentals[s.rentals.length]?
      = some (.rented ⟨withMaxDepth bytes maxDepth, .default⟩ []) := by
  obtain ⟨hshared, -⟩ := take_clean (P := fun shared => shared = SharedValidator.default) rfl inv.queue
  simp only [step]
  rw [if_neg hhandles]
  dsimp only
  rw [List.getElem?_concat_length, hshared]

/-! ## The drop of a temporary -/

/-- A validator whose drop has begun. -/
inductive Dropped : Rental τ α → Prop
  | pushing (shared : SharedValidator τ) : Dropped (.pushing shared)
  | unref : Dropped .unref
  | gone : Dropped .gone

theorem rentals_drop {this : PooledValidator τ α} {log : List (SharedCall τ × SharedAnswer τ)} {i : Nat}
    (hi : s.rentals[i]? = some (.rented this log)) :
    ∃ rental, (step capacity withMaxDepth s (.drop i)).rentals[i]? = some rental ∧ Dropped rental := by
  obtain ⟨hlt, -⟩ := List.getElem?_eq_some_iff.mp hi
  simp only [step, hi]
  split
  · exact ⟨.gone, rentals_setRental hlt, .gone⟩
  · exact ⟨.pushing this.shared, rentals_setRental hlt, .pushing _⟩

theorem rentals_advance {i : Nat} {rental : Rental τ α} (hi : s.rentals[i]? = some rental)
    (hd : Dropped rental) :
    ∃ rental', (step capacity withMaxDepth s (.advance i)).rentals[i]? = some rental' ∧ Dropped rental' := by
  obtain ⟨hlt, -⟩ := List.getElem?_eq_some_iff.mp hi
  cases hd with
  | pushing shared =>
      simp only [step, hi]
      exact ⟨.unref, rentals_setRental hlt, .unref⟩
  | unref =>
      simp only [step, hi]
      exact ⟨.gone, rentals_setRental (by rw [rentals_releaseStrong]; exact hlt), .gone⟩
  | gone =>
      simp only [step, hi]
      exact ⟨.gone, rfl, .gone⟩

end

/-! ## The invariant -/

/-- An access is on its way to the result it would have alone. -/
inductive Access.Follows (pool : State τ α) (access : Access τ α ε ρ) : Prop
  | running {i : Nat} {rest : Check τ ε ρ} {this : PooledValidator τ α}
      {log : List (SharedCall τ × SharedAnswer τ)}
      (progress : access.progress = .running i rest) (rented : pool.rentals[i]? = some (.rented this log))
      (rest_eq : (rest.eval (PooledValidator.call V) this).2 = access.alone V)
  | dropping {i : Nat} {rental : Rental τ α} (progress : access.progress = .dropping i (access.alone V))
      (rental_eq : pool.rentals[i]? = some rental) (dropped : Dropped rental)
  | returned (progress : access.progress = .returned (access.alone V))

/-- The invariant: no validator is borrowed twice, an access of the pool began with a new validator, and every
    access follows its check alone. -/
structure Accesses.Inv (s : Accesses τ α ε ρ) : Prop where
  pool : ValidatorPool.Inv s.pool
  new : ∀ (c : Nat) (access : Access τ α ε ρ), s.calls[c]? = some access →
    ∀ bytes, access.bytes? = some bytes → access.first = ⟨V.withMaxDepth bytes none, .default⟩
  follows : ∀ (c : Nat) (access : Access τ α ε ρ), s.calls[c]? = some access → access.Follows V s.pool
  apart : ∀ (c d i : Nat) (access access' : Access τ α ε ρ), s.calls[c]? = some access →
    s.calls[d]? = some access' → access.borrows i = true → access'.borrows i = true → c = d

variable {V} {capacity : Nat} {s : Accesses τ α ε ρ}

/-- An action on a validator that the access does not borrow. -/
theorem Access.Follows.kept {pool : State τ α} {access : Access τ α ε ρ} (hf : access.Follows V pool)
    (action : Action τ α) (hfree : ∀ i, action.validator? = some i → access.borrows i = false) :
    access.Follows V (ValidatorPool.step capacity V.withMaxDepth pool action) := by
  have hborrows {i : Nat} (hb : access.borrows i = true) : action.validator? ≠ some i := by
    intro he
    rw [hfree i he] at hb
    cases hb
  cases hf with
  | @running i rest this log hprogress hi hrest =>
      have hb : access.borrows i = true := by simp [Access.borrows, hprogress]
      exact .running hprogress (rentals_kept capacity V.withMaxDepth action (hborrows hb) hi) hrest
  | @dropping i rental hprogress hi hd =>
      have hb : access.borrows i = true := by simp [Access.borrows, hprogress]
      exact .dropping hprogress (rentals_kept capacity V.withMaxDepth action (hborrows hb) hi) hd
  | returned hprogress => exact .returned hprogress

namespace Accesses

/-- **Access `c` takes a step**, with an action of the validator that it borrows, or none. -/
theorem Inv.set (inv : Inv V s) {c : Nat} {access : Access τ α ε ρ} (hc : s.calls[c]? = some access)
    {pool : State τ α} {progress : Progress τ ε ρ} (hpool : ValidatorPool.Inv pool)
    (hothers : ∀ other : Access τ α ε ρ, (∀ i, access.borrows i = true → other.borrows i = false) →
      other.Follows V s.pool → other.Follows V pool)
    (hfollows : Access.Follows V pool { access with progress })
    (hborrows : ∀ i, Access.borrows i { access with progress } = true → access.borrows i = true) :
    Inv V ⟨pool, s.calls.set c { access with progress }⟩ where
  pool := hpool
  new d other hd := by
    rcases getElem?_set_cases hc hd with ⟨-, rfl⟩ | ⟨-, hd⟩
    · exact inv.new c access hc
    · exact inv.new d other hd
  follows d other hd := by
    rcases getElem?_set_cases hc hd with ⟨-, rfl⟩ | ⟨hne, hd⟩
    · exact hfollows
    · -- no other access borrows what access `c` borrows
      refine hothers other (fun i hi => Bool.eq_false_iff.mpr fun hi' => hne ?_) (inv.follows d other hd)
      exact inv.apart d c i _ _ hd hc hi' hi
  apart d e i other other' hd he hi hi' := by
    rcases getElem?_set_cases hc hd with ⟨rfl, rfl⟩ | ⟨-, hd'⟩ <;>
      rcases getElem?_set_cases hc he with ⟨rfl, rfl⟩ | ⟨-, he'⟩
    · rfl
    · exact inv.apart _ e i _ _ hc he' (hborrows i hi) hi'
    · exact inv.apart d _ i _ _ hd' hc hi (hborrows i hi')
    · exact inv.apart d e i _ _ hd' he' hi hi'

/-- The action is about the validator that the access borrows. -/
theorem Inv.kept {pool : State τ α} {access other : Access τ α ε ρ} {i : Nat} {action : Action τ α}
    (haction : action.validator? = some i) (hi : access.borrows i = true)
    (hapart : ∀ i, access.borrows i = true → other.borrows i = false) (hf : other.Follows V pool) :
    other.Follows V (ValidatorPool.step capacity V.withMaxDepth pool action) := by
  refine hf.kept action ?_
  intro j hj
  rw [haction] at hj
  cases hj
  exact hapart i hi

/-- **The next step** of an access. -/
theorem Inv.next (inv : Inv V s) {c : Nat} {access : Access τ α ε ρ} (hc : s.calls[c]? = some access) :
    Inv V (next V capacity s c access) := by
  have hfollows := inv.follows c access hc
  cases hfollows with
  | @running i rest this log hprogress hi hrest =>
      have hb : access.borrows i = true := by simp [Access.borrows, hprogress]
      unfold Accesses.next
      rw [hprogress]
      cases rest with
      | ask request next =>
          dsimp only
          rw [hi]
          have haction := validator?_action V this i request
          obtain ⟨log', hi'⟩ := rentals_action V capacity V.withMaxDepth hi request
          refine inv.set hc (inv.pool.step capacity V.withMaxDepth _)
            (fun other hapart hf => Inv.kept haction hb hapart hf) ?_ ?_
          · -- one call less is left, and the validator has moved as `eval` does
            exact .running rfl hi' hrest
          · intro j hj
            simpa [Access.borrows, hprogress] using hj
      | done result =>
          -- nothing is left to evaluate, so this is the result of the check alone
          obtain rfl : result = access.alone V := hrest
          dsimp only
          split
          · -- the validator is a temporary of `ValidatorPool::access`, and its drop begins
            obtain ⟨rental, hi', hd⟩ := rentals_drop capacity V.withMaxDepth hi
            refine inv.set hc (inv.pool.step capacity V.withMaxDepth _)
              (fun other hapart hf => Inv.kept rfl hb hapart hf) ?_ ?_
            · exact .dropping rfl hi' hd
            · intro j hj
              simpa [Access.borrows, hprogress] using hj
          · -- the validator is its caller's, who has it back
            refine inv.set hc inv.pool (fun _ _ hf => hf) (.returned rfl) ?_
            intro j hj
            cases hj
  | @dropping i rental hprogress hi hd =>
      have hb : access.borrows i = true := by simp [Access.borrows, hprogress]
      unfold Accesses.next
      rw [hprogress]
      dsimp only
      split
      · refine inv.set hc inv.pool (fun _ _ hf => hf) (.returned rfl) ?_
        intro j hj
        cases hj
      · -- the calls stay as they are while the temporary is dropped
        obtain ⟨rental', hi', hd'⟩ := rentals_advance capacity V.withMaxDepth hi hd
        refine ⟨inv.pool.step capacity V.withMaxDepth (.advance i), inv.new, ?_, inv.apart⟩
        intro d other hother
        by_cases hdc : d = c
        · obtain rfl := hdc
          cases hc.symm.trans hother
          exact .dropping hprogress hi' hd'
        · have haction : (Action.advance i : Action τ α).validator? = some i := rfl
          refine Inv.kept haction hb (fun j hj => Bool.eq_false_iff.mpr fun hj' => hdc ?_)
            (inv.follows d other hother)
          exact inv.apart d c j _ _ hother hc hj' hj
  | returned hprogress =>
      unfold Accesses.next
      rw [hprogress]
      exact inv

/-- A validator that is not there yet. -/
theorem Inv.free_length (inv : Inv V s) : s.free s.pool.rentals.length = true := by
  simp only [free, List.all_eq_true, Bool.not_eq_true']
  intro access hmem
  obtain ⟨c, hc⟩ := List.mem_iff_getElem?.mp hmem
  have hlt : ∀ {i : Nat} {rental : Rental τ α}, s.pool.rentals[i]? = some rental →
      i ≠ s.pool.rentals.length := fun hi => Nat.ne_of_lt (List.getElem?_eq_some_iff.mp hi).1
  cases inv.follows c access hc with
  | running hprogress hi hrest => simp [Access.borrows, hprogress, hlt hi]
  | dropping hprogress hi hd => simp [Access.borrows, hprogress, hlt hi]
  | returned hprogress => simp [Access.borrows, hprogress]

/-- **A new access** borrows a validator that is free. -/
theorem Inv.begin (inv : Inv V s) {pool : State τ α} {bytes? : Option (List UInt8)}
    {this : PooledValidator τ α} {log : List (SharedCall τ × SharedAnswer τ)} {i : Nat} (check : Check τ ε ρ)
    (hpool : ValidatorPool.Inv pool)
    (hi : pool.rentals[i]? = some (.rented this log)) (hfree : s.free i = true)
    (hnew : ∀ bytes, bytes? = some bytes → this = ⟨V.withMaxDepth bytes none, .default⟩)
    (hothers : ∀ other : Access τ α ε ρ, other.Follows V s.pool → other.Follows V pool) :
    Inv V ⟨pool, s.calls ++ [⟨bytes?, this, check, .running i check⟩]⟩ where
  pool := hpool
  new d other hd := by
    rcases getElem?_push_cases hd with hd | ⟨-, rfl⟩
    · exact inv.new d other hd
    · exact hnew
  follows d other hd := by
    rcases getElem?_push_cases hd with hd | ⟨-, rfl⟩
    · exact hothers other (inv.follows d other hd)
    · exact .running rfl hi rfl
  apart d e j other other' hd he hj hj' := by
    -- a free validator is borrowed by no access that was there before
    have hunused : ∀ {d : Nat} {other : Access τ α ε ρ}, s.calls[d]? = some other →
        other.borrows j = true → i ≠ j := by
      rintro d other hd hj rfl
      simp only [free, List.all_eq_true] at hfree
      have := hfree other (List.mem_of_getElem? hd)
      simp [hj] at this
    rcases getElem?_push_cases hd with hd | ⟨rfl, rfl⟩ <;>
      rcases getElem?_push_cases he with he | ⟨rfl, rfl⟩
    · exact inv.apart d e j _ _ hd he hj hj'
    · exact absurd (of_decide_eq_true hj') (hunused hd hj)
    · exact absurd (of_decide_eq_true hj) (hunused he hj')
    · rfl

/-- **Every move.** -/
theorem Inv.step (inv : Inv V s) (move : Move τ α ε ρ) : Inv V (step V capacity s move) := by
  cases move with
  | access bytes check =>
      simp only [Accesses.step]
      split
      · exact inv
      case isFalse hhandles =>
        have hnew := rentals_validator capacity V.withMaxDepth inv.pool hhandles bytes none
        rw [hnew]
        refine inv.begin check (inv.pool.step capacity V.withMaxDepth _) hnew inv.free_length ?_ ?_
        · intro bytes' he
          cases he
          rfl
        · -- a rental is about no validator that is there already
          intro other hf
          exact hf.kept _ fun _ he => by cases he
  | accessWith i check =>
      simp only [Accesses.step]
      split
      case h_1 this log hi =>
        split
        case isTrue hfree => exact inv.begin check inv.pool hi hfree nofun fun _ hf => hf
        case isFalse => exact inv
      case h_2 => exact inv
  | next c =>
      simp only [Accesses.step]
      split
      case h_1 access hc => exact inv.next hc
      case h_2 => exact inv
  | other action =>
      simp only [Accesses.step]
      split
      case h_1 i hi =>
        split
        case isTrue hfree =>
          refine ⟨inv.pool.step capacity V.withMaxDepth action, inv.new, ?_, inv.apart⟩
          intro c access hc
          refine (inv.follows c access hc).kept action ?_
          intro j hj
          rw [hi] at hj
          cases hj
          simp only [free, List.all_eq_true] at hfree
          simpa using hfree access (List.mem_of_getElem? hc)
        case isFalse => exact inv
      case h_2 hnone =>
        refine ⟨inv.pool.step capacity V.withMaxDepth action, inv.new, ?_, inv.apart⟩
        intro c access hc
        refine (inv.follows c access hc).kept action ?_
        intro j hj
        rw [hnone] at hj
        cases hj

theorem Inv.init : Inv V (init : Accesses τ α ε ρ) where
  pool := .runFrom 0 V.withMaxDepth []
  new c access hc := by cases hc
  follows c access hc := by cases hc
  apart c d i access access' hc := by cases hc

/-- **Every run.** -/
theorem Inv.run (inv : Inv V s) (moves : List (Move τ α ε ρ)) : Inv V (run V capacity s moves) := by
  refine List.foldlRecOn moves _ inv ?_
  intro s inv move _
  exact inv.step move

/-! ## The end of an access -/

/-- Access `c` has come to its end in `s'`. -/
def Ended (V : ArchiveValidator α ε) (c : Nat) (access : Access τ α ε ρ) (s' : Accesses τ α ε ρ) : Prop :=
  s'.calls[c]? = some { access with progress := .returned (access.alone V) }

/-- After `n` steps of access `c`, and nothing else. -/
def turns (V : ArchiveValidator α ε) (capacity : Nat) (s : Accesses τ α ε ρ) (c n : Nat) : Accesses τ α ε ρ :=
  run V capacity s (List.replicate n (.next c))

theorem turns_succ {c n : Nat} {access : Access τ α ε ρ} (hc : s.calls[c]? = some access) :
    turns V capacity s c (n + 1) = turns V capacity (next V capacity s c access) c n := by
  unfold turns run
  rw [List.replicate_succ, List.foldl_cons]
  simp only [Accesses.step, hc]

/-- The last step of an access. -/
theorem ended_of_returns {c : Nat} {access : Access τ α ε ρ} (hc : s.calls[c]? = some access) :
    (s.calls.set c { access with progress := .returned (access.alone V) })[c]?
      = some { access with progress := .returned (access.alone V) } :=
  List.getElem?_set_self (List.getElem?_eq_some_iff.mp hc).1

/-- **A temporary** is dropped in at most three steps. -/
theorem Inv.dropping_ends {c i : Nat} {access : Access τ α ε ρ} {rental : Rental τ α}
    (hc : s.calls[c]? = some access) (hprogress : access.progress = .dropping i (access.alone V))
    (hi : s.pool.rentals[i]? = some rental) (hd : Dropped rental) :
    ∃ n, Ended V c access (turns V capacity s c n) := by
  -- from the last state of the drop backwards, each needs one step more
  have hgone {pool : State τ α} (hi : pool.rentals[i]? = some .gone) :
      ∃ n, Ended V c access (turns V capacity ⟨pool, s.calls⟩ c n) := by
    refine ⟨1, ?_⟩
    rw [turns_succ (show (Accesses.mk pool s.calls).calls[c]? = some access from hc)]
    unfold Accesses.next
    rw [hprogress]
    dsimp only
    rw [hi]
    exact ended_of_returns hc
  have hunref {pool : State τ α} (hi : pool.rentals[i]? = some .unref) :
      ∃ n, Ended V c access (turns V capacity ⟨pool, s.calls⟩ c n) := by
    obtain ⟨hlt, -⟩ := List.getElem?_eq_some_iff.mp hi
    have hnext : Accesses.next V capacity ⟨pool, s.calls⟩ c access
        = ⟨setRental (releaseStrong pool) i .gone, s.calls⟩ := by
      simp only [Accesses.next, hprogress, hi, ValidatorPool.step]
    have hlast : (setRental (releaseStrong pool) i .gone).rentals[i]? = some .gone :=
      rentals_setRental (by rw [rentals_releaseStrong]; exact hlt)
    obtain ⟨n, hn⟩ := hgone hlast
    refine ⟨n + 1, ?_⟩
    rw [turns_succ (show (Accesses.mk pool s.calls).calls[c]? = some access from hc), hnext]
    exact hn
  cases hd with
  | pushing shared =>
      obtain ⟨hlt, -⟩ := List.getElem?_eq_some_iff.mp hi
      let pushed : State τ α := { s.pool with queue := put capacity s.pool.queue shared.clear }
      have hnext : Accesses.next V capacity s c access = ⟨setRental pushed i .unref, s.calls⟩ := by
        simp only [Accesses.next, hprogress, hi, ValidatorPool.step, pushed]
      have hlast : (setRental pushed i .unref).rentals[i]? = some .unref := rentals_setRental hlt
      obtain ⟨n, hn⟩ := hunref hlast
      refine ⟨n + 1, ?_⟩
      rw [turns_succ hc, hnext]
      exact hn
  | unref => exact hunref hi
  | gone => exact hgone hi

theorem Inv.rented (inv : Inv V s) {c i : Nat} {rest : Check τ ε ρ} {access : Access τ α ε ρ}
    (hc : s.calls[c]? = some access) (hprogress : access.progress = .running i rest) :
    ∃ this log, s.pool.rentals[i]? = some (.rented this log) ∧
      (rest.eval (PooledValidator.call V) this).2 = access.alone V := by
  cases inv.follows c access hc with
  | running hprogress' hi hrest =>
      cases hprogress.symm.trans hprogress'
      exact ⟨_, _, hi, hrest⟩
  | dropping hprogress' => cases hprogress.symm.trans hprogress'
  | returned hprogress' => cases hprogress.symm.trans hprogress'

/-- **A check ends**, and with it the access. -/
theorem Inv.running_ends {c i : Nat} (rest : Check τ ε ρ) (inv : Inv V s) {access : Access τ α ε ρ}
    (hc : s.calls[c]? = some access) (hprogress : access.progress = .running i rest) :
    ∃ n, Ended V c access (turns V capacity s c n) := by
  -- over what is left of the check; each call of it is one step
  induction rest generalizing s access with
  | ask request next ih =>
      obtain ⟨this, log, hi, -⟩ := inv.rented hc hprogress
      have hnext : Accesses.next V capacity s c access
          = ⟨ValidatorPool.step capacity V.withMaxDepth s.pool (action V this i request),
            s.calls.set c { access with progress := .running i (next (this.call V request).2) }⟩ := by
        simp only [Accesses.next, hprogress, hi]
      have inv' : Inv V (Accesses.next V capacity s c access) := inv.next hc
      rw [hnext] at inv'
      obtain ⟨n, hn⟩ := ih _ inv' (List.getElem?_set_self (List.getElem?_eq_some_iff.mp hc).1) rfl
      refine ⟨n + 1, ?_⟩
      rw [turns_succ hc, hnext]
      exact hn
  | done result =>
      obtain ⟨this, log, hi, rfl⟩ := inv.rented hc hprogress
      cases hbytes : access.bytes?.isSome with
      | true =>
          obtain ⟨rental, hi', hd⟩ := rentals_drop capacity V.withMaxDepth hi
          have hnext : Accesses.next V capacity s c access
              = ⟨ValidatorPool.step capacity V.withMaxDepth s.pool (.drop i),
                s.calls.set c { access with progress := .dropping i (access.alone V) }⟩ := by
            unfold Accesses.next
            rw [hprogress]
            dsimp only
            rw [if_pos hbytes]
          let access' : Access τ α ε ρ := { access with progress := .dropping i (access.alone V) }
          have hc' : (s.calls.set c access')[c]? = some access' :=
            List.getElem?_set_self (List.getElem?_eq_some_iff.mp hc).1
          obtain ⟨n, hn⟩ : ∃ n, Ended V c access' (turns V capacity ⟨_, s.calls.set c access'⟩ c n) :=
            Inv.dropping_ends hc' rfl hi' hd
          refine ⟨n + 1, ?_⟩
          rw [turns_succ hc, hnext]
          exact hn
      | false =>
          refine ⟨1, ?_⟩
          rw [turns_succ hc]
          unfold Accesses.next
          rw [hprogress]
          dsimp only
          rw [if_neg (by simp [hbytes])]
          exact ended_of_returns hc

/-- **An access ends** if it is given its turns. -/
theorem Inv.ends (inv : Inv V s) {c : Nat} {access : Access τ α ε ρ} (hc : s.calls[c]? = some access) :
    ∃ n, Ended V c access (turns V capacity s c n) := by
  cases inv.follows c access hc with
  | running hprogress hi hrest => exact inv.running_ends _ hc hprogress
  | dropping hprogress hi hd => exact Inv.dropping_ends hc hprogress hi hd
  | returned hprogress =>
      refine ⟨0, ?_⟩
      show s.calls[c]? = some { access with progress := .returned (access.alone V) }
      rw [← hprogress]
      exact hc

/-- **What a caller of `access` can rely on.** Its validator is a new one, if it is the pool that is asked;
    what it returns is the result of the check from the validator as it was at first, with nobody else around;
    and whatever was done to the pool before, it returns after some steps of its own. -/
structure GoesAlone (V : ArchiveValidator α ε) (capacity : Nat) (s : Accesses τ α ε ρ) (c : Nat)
    (access : Access τ α ε ρ) : Prop where
  new : ∀ bytes, access.bytes? = some bytes → access.first = ⟨V.withMaxDepth bytes none, .default⟩
  result : ∀ result, access.progress = .returned result → result = access.alone V
  ends : ∃ n, Ended V c access (turns V capacity s c n)

theorem Inv.goesAlone (inv : Inv V s) {c : Nat} {access : Access τ α ε ρ} (hc : s.calls[c]? = some access) :
    GoesAlone V capacity s c access := by
  refine ⟨inv.new c access hc, ?_, inv.ends hc⟩
  intro result hresult
  cases inv.follows c access hc with
  | running hprogress => cases hresult.symm.trans hprogress
  | dropping hprogress => cases hresult.symm.trans hprogress
  | returned hprogress =>
      cases hresult.symm.trans hprogress
      rfl

end Accesses

end ValidatorPool

end RkyvUtils
