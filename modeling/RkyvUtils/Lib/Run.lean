import Mathlib.Logic.Basic
import RkyvUtils.Lib.SlotTable

/-!
# `Lib.Run` — runs of a step function that can fail

A system is a step function `step : σ → α → Except ε σ`: the action `α` names who moves and what the
environment answers, `ε` is what stops a run. A run takes a list of actions, so a statement about every
list is one about every order of steps. The rules are the ones safety proofs use: an invariant that each
step keeps holds after every run, an abstract system that matches each step matches every run, and what
steps keep under a condition on them is kept by every run of such steps.
-/

namespace Run

variable {σ τ α ε : Type}

/-- Take the actions of a list one after the other; the first failure ends the run. -/
def run (step : σ → α → Except ε σ) : σ → List α → Except ε σ
  | s, [] => .ok s
  | s, a :: as =>
      match step s a with
      | .ok s' => run step s' as
      | .error e => .error e

variable {step : σ → α → Except ε σ}

theorem run_cons_ok {s s' : σ} {a : α} {as : List α} (h : step s a = .ok s') :
    run step s (a :: as) = run step s' as := by
  simp only [run, h]

theorem run_cons_error {s : σ} {a : α} {as : List α} {e : ε} (h : step s a = .error e) :
    run step s (a :: as) = .error e := by
  simp only [run, h]

/-- A run in two parts. -/
theorem run_append {s s' : σ} {as bs : List α} (h : run step s as = .ok s') :
    run step s (as ++ bs) = run step s' bs := by
  induction as generalizing s with
  | nil =>
      cases h
      rfl
  | cons a as ih =>
      cases hone : step s a with
      | error e =>
          rw [run_cons_error hone] at h
          cases h
      | ok s₁ =>
          rw [run_cons_ok hone] at h
          rw [List.cons_append, run_cons_ok hone]
          exact ih h

/-- A run that fails got through the steps in front of the one that fails. -/
theorem run_error {s : σ} {as : List α} {e : ε} (h : run step s as = .error e) :
    ∃ done a rest s', as = done ++ a :: rest ∧ run step s done = .ok s' ∧ step s' a = .error e := by
  induction as generalizing s with
  | nil => cases h
  | cons a as ih =>
      cases hone : step s a with
      | error e' =>
          rw [run_cons_error hone] at h
          exact ⟨[], a, as, s, rfl, rfl, by rw [hone, h]⟩
      | ok s₁ =>
          rw [run_cons_ok hone] at h
          obtain ⟨done, b, rest, s', rfl, hdone, hb⟩ := ih h
          exact ⟨a :: done, b, rest, s', rfl, by rw [run_cons_ok hone]; exact hdone, hb⟩

/-- **The run rule.** If every step from a state in `Inv` either stays in `Inv` or fails with an error
    that `Stop` allows, then so does every run. -/
theorem run_rule (Inv : σ → Prop) (Stop : ε → Prop)
    (hstep : ∀ s a, Inv s → (∃ s', step s a = .ok s' ∧ Inv s') ∨ ∃ e, step s a = .error e ∧ Stop e)
    (as : List α) (s : σ) (hs : Inv s) :
    (∃ s', run step s as = .ok s' ∧ Inv s') ∨ ∃ e, run step s as = .error e ∧ Stop e := by
  induction as generalizing s with
  | nil => exact Or.inl ⟨s, rfl, hs⟩
  | cons a as ih =>
      rcases hstep s a hs with ⟨s', hs', hinv⟩ | ⟨e, he, hstop⟩
      · rw [run_cons_ok hs']; exact ih s' hinv
      · exact Or.inr ⟨e, run_cons_error he, hstop⟩

/-- **The simulation rule**: if every step is matched by the abstract step `abs`, or fails with an error
    that `Stop` allows, then every run is matched by the abstract run, or fails so. -/
theorem run_simulation (abs : τ → α → τ) (R : σ → τ → Prop) (Stop : ε → Prop)
    (hstep : ∀ s t a, R s t →
      (∃ s', step s a = .ok s' ∧ R s' (abs t a)) ∨ ∃ e, step s a = .error e ∧ Stop e)
    (as : List α) (s : σ) (t : τ) (hR : R s t) :
    (∃ s', run step s as = .ok s' ∧ R s' (as.foldl abs t)) ∨ ∃ e, run step s as = .error e ∧ Stop e := by
  induction as generalizing s t with
  | nil => exact Or.inl ⟨s, rfl, hR⟩
  | cons a as ih =>
      rcases hstep s t a hR with ⟨s', hs', hR'⟩ | ⟨e, he, hstop⟩
      · rw [run_cons_ok hs']; exact ih s' (abs t a) hR'
      · exact Or.inr ⟨e, run_cons_error he, hstop⟩

/-! ## Runs under a condition -/

/-- Every step of the run, up to a failure, is taken in a state where `C` allows it. -/
def Along (C : σ → α → Prop) (step : σ → α → Except ε σ) : σ → List α → Prop
  | _, [] => True
  | s, a :: as => C s a ∧
      match step s a with
      | .ok s' => Along C step s' as
      | .error _ => True

instance Along.decidable {C : σ → α → Prop} [∀ s a, Decidable (C s a)] {step : σ → α → Except ε σ} :
    ∀ (s : σ) (as : List α), Decidable (Along C step s as)
  | _, [] => inferInstanceAs (Decidable True)
  | s, a :: as =>
      match h : step s a with
      | .ok s' =>
          have : Decidable (Along C step s' as) := Along.decidable s' as
          decidable_of_iff (C s a ∧ Along C step s' as) (by simp only [Along, h])
      | .error _ => decidable_of_iff (C s a) (by simp only [Along, h, and_true])

/-- A run in two parts, both under the condition. -/
theorem Along.append {C : σ → α → Prop} {s : σ} {as bs : List α} (h : Along C step s (as ++ bs)) :
    Along C step s as ∧ ∀ s', run step s as = .ok s' → Along C step s' bs := by
  induction as generalizing s with
  | nil =>
      refine ⟨trivial, fun s' hs' => ?_⟩
      cases hs'
      exact h
  | cons a as ih =>
      obtain ⟨ha, has⟩ := h
      cases hone : step s a with
      | error e =>
          refine ⟨⟨ha, by rw [hone]; trivial⟩, fun s' hs' => ?_⟩
          rw [run_cons_error hone] at hs'
          cases hs'
      | ok s₁ =>
          rw [hone] at has
          obtain ⟨hfirst, hsecond⟩ := ih has
          refine ⟨⟨ha, by rw [hone]; exact hfirst⟩, fun s' hs' => ?_⟩
          rw [run_cons_ok hone] at hs'
          exact hsecond s' hs'

/-- **The run rule under a condition**: steps that `C` allows keep the invariant or fail with an error
    that `Stop` allows, and so does every run of such steps. -/
theorem run_rule_along (C : σ → α → Prop) (Inv : σ → Prop) (Stop : ε → Prop)
    (hstep : ∀ s a, Inv s → C s a →
      (∃ s', step s a = .ok s' ∧ Inv s') ∨ ∃ e, step s a = .error e ∧ Stop e)
    (as : List α) (s : σ) (hs : Inv s) (hC : Along C step s as) :
    (∃ s', run step s as = .ok s' ∧ Inv s') ∨ ∃ e, run step s as = .error e ∧ Stop e := by
  induction as generalizing s with
  | nil => exact Or.inl ⟨s, rfl, hs⟩
  | cons a as ih =>
      obtain ⟨ha, has⟩ := hC
      rcases hstep s a hs ha with ⟨s', hs', hinv⟩ | ⟨e, he, hstop⟩
      · rw [run_cons_ok hs']
        rw [hs'] at has
        exact ih s' hinv has
      · exact Or.inr ⟨e, run_cons_error he, hstop⟩

/-! ## Adding up along a run -/

/-- The sum of a cost of the steps of a run, up to a failure. -/
def tally (cost : σ → α → Nat) (step : σ → α → Except ε σ) : σ → List α → Nat
  | _, [] => 0
  | s, a :: as => cost s a +
      match step s a with
      | .ok s' => tally cost step s' as
      | .error _ => 0

/-- Nothing adds up exactly when no step costs anything. -/
theorem tally_eq_zero {cost : σ → α → Nat} {s : σ} {as : List α} :
    tally cost step s as = 0 ↔ Along (fun s a => cost s a = 0) step s as := by
  induction as generalizing s with
  | nil => exact ⟨fun _ => trivial, fun _ => rfl⟩
  | cons a as ih =>
      simp only [tally, Along, Nat.add_eq_zero_iff]
      cases step s a with
      | ok s' => rw [ih]
      | error e => simp

/-- **The balance rule**: if every step from a state in `Inv` moves `out` and `owed` by the same amount up
    to its cost, then a run moves them by the same amount up to the sum of the costs. -/
theorem run_balance (Inv : σ → Prop) (out owed : σ → Nat) (cost : σ → α → Nat)
    (hstep : ∀ s a s', Inv s → step s a = .ok s' →
      Inv s' ∧ out s' + owed s = out s + owed s' + cost s a)
    (as : List α) (s s' : σ) (hs : Inv s) (hrun : run step s as = .ok s') :
    out s' + owed s = out s + owed s' + tally cost step s as := by
  induction as generalizing s with
  | nil =>
      cases hrun
      rfl
  | cons a as ih =>
      cases hone : step s a with
      | error e =>
          rw [run_cons_error hone] at hrun
          cases hrun
      | ok s₁ =>
          rw [run_cons_ok hone] at hrun
          obtain ⟨hs₁, hcost⟩ := hstep s a s₁ hs hone
          have hrest := ih s₁ hs₁ hrun
          simp only [tally, hone]
          omega

/-- **The potential rule**: if every step from a state in `Inv` costs no more than the potential goes down,
    up to what the action pays in, then a run costs no more than the potential it starts with and all that
    is paid in. -/
theorem run_potential (Inv : σ → Prop) (potential : σ → Nat) (cost : σ → α → Nat) (pay : α → Nat)
    (hok : ∀ s a s', Inv s → step s a = .ok s' → Inv s' ∧ cost s a + potential s' ≤ potential s + pay a)
    (herror : ∀ s a e, Inv s → step s a = .error e → cost s a ≤ potential s + pay a)
    (as : List α) (s : σ) (hs : Inv s) :
    tally cost step s as ≤ potential s + SlotTable.total pay as := by
  induction as generalizing s with
  | nil => exact Nat.zero_le _
  | cons a as ih =>
      simp only [tally, SlotTable.total_cons]
      cases hone : step s a with
      | error e =>
          have hcost := herror s a e hs hone
          dsimp only
          omega
      | ok s₁ =>
          obtain ⟨hs₁, hcost⟩ := hok s a s₁ hs hone
          have hrest := ih s₁ hs₁
          dsimp only
          omega

/-- **The settling rule**: if from every state in `Inv` that is not `Done` some step goes to one in `Inv` and
    of a smaller measure, then some run of such steps ends in one that is, and is no longer than the measure. -/
theorem run_settles (Inv Done : σ → Prop) (measure : σ → Nat)
    (hstep : ∀ s, Inv s → Done s ∨ ∃ a s', step s a = .ok s' ∧ Inv s' ∧ measure s' < measure s)
    (s : σ) (hs : Inv s) :
    ∃ as s', as.length ≤ measure s ∧ run step s as = .ok s' ∧ Inv s' ∧ Done s' := by
  induction hm : measure s using Nat.strongRecOn generalizing s with
  | _ n ih =>
      rcases hstep s hs with hdone | ⟨a, s₁, hone, hs₁, hless⟩
      · exact ⟨[], s, Nat.zero_le _, rfl, hs, hdone⟩
      · obtain ⟨as, s', hlength, hrun, hrest⟩ := ih (measure s₁) (by omega) s₁ hs₁ rfl
        refine ⟨a :: as, s', ?_, by rw [run_cons_ok hone]; exact hrun, hrest⟩
        rw [List.length_cons]
        omega

end Run
