import Mathlib.Logic.Basic

/-!
# `Lib.Loop` — `while` loops whose body can fail

A loop is a condition and a body on a state. `whileLoop` runs it with a bound on how often the condition is
tested; `Turns` is the relation to the states in which it is tested. The rule for total correctness asks for
an invariant and a measure that each turn makes smaller, and says in which state a turn failed.
-/

namespace Loop

variable {σ ε : Type}

/-- `while cond { body }`: the state in which the condition no longer holds, or the error of a turn;
    `none` when the condition would be tested more than `fuel` times. -/
def whileLoop (cond : σ → Bool) (body : σ → Except ε σ) : Nat → σ → Option (Except ε σ)
  | 0, _ => none
  | fuel + 1, s =>
      if cond s then
        match body s with
        | .ok s' => whileLoop cond body fuel s'
        | .error e => some (.error e)
      else some (.ok s)

/-- The states in which the condition is tested. -/
inductive Turns (cond : σ → Bool) (body : σ → Except ε σ) (s : σ) : σ → Prop
  | start : Turns cond body s s
  | turn {s₁ s₂ : σ} (reached : Turns cond body s s₁) (holds : cond s₁ = true)
      (returns : body s₁ = .ok s₂) : Turns cond body s s₂

variable {cond : σ → Bool} {body : σ → Except ε σ}

/-- One turn more at the beginning. -/
theorem Turns.head {s s₁ s' : σ} (holds : cond s = true) (returns : body s = .ok s₁)
    (reached : Turns cond body s₁ s') : Turns cond body s s' := by
  induction reached with
  | start => exact .turn .start holds returns
  | turn _ holds returns ih => exact .turn ih holds returns

variable (Inv : σ → Prop) (measure : σ → Nat) (Stop : σ → ε → Prop)

variable {Inv measure Stop}

end Loop
