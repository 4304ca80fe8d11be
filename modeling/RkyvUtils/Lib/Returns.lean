import RkyvUtils.Lib.Run

/-!
# `Lib.Returns` — what holds when a call returns

Partial correctness for calls that can fail: a failure promises nothing. The rules follow the constructs of a
`do` block, so a property of states that every primitive keeps is carried through a function by going down
its body.
-/

variable {α β ε : Type}

/-- If the call returns, its result satisfies `Q`. -/
def Returns (Q : α → Prop) (x : Except ε α) : Prop := ∀ a, x = .ok a → Q a

namespace Returns

variable {Q : α → Prop} {R : β → Prop} {x : Except ε α} {f : α → Except ε β}

theorem ok {a : α} (h : Q a) : Returns Q (.ok a : Except ε α) := by
  intro b hb
  cases hb
  exact h

theorem error {e : ε} : Returns Q (.error e) := nofun

theorem of_eq {a : α} (h : Returns Q x) (hx : x = .ok a) : Q a := h a hx

/-- The rule for `let a ← x`. -/
theorem bind (hx : Returns Q x) (hf : ∀ a, Q a → Returns R (f a)) : Returns R (x >>= f) := by
  intro b hb
  cases x with
  | error e => cases hb
  | ok a => exact hf a (hx a rfl) b hb

/-- A call whose result does not matter. -/
theorem step (hf : ∀ a, Returns R (f a)) : Returns R (x >>= f) :=
  bind (Q := fun _ => True) (fun _ _ => trivial) fun a _ => hf a

theorem ite {c : Prop} [Decidable c] {y : Except ε α} (hx : Returns Q x) (hy : Returns Q y) :
    Returns Q (if c then x else y) := by
  split
  · exact hx
  · exact hy

/-- What every step keeps holds after a run that returns. -/
theorem run {σ : Type} {step : σ → α → Except ε σ} {Inv : σ → Prop}
    (hstep : ∀ s a, Inv s → Returns Inv (step s a)) {s : σ} (hs : Inv s) (as : List α) :
    Returns Inv (Run.run step s as) := by
  induction as generalizing s with
  | nil => exact .ok hs
  | cons a as ih =>
      cases hone : step s a with
      | error e =>
          rw [Run.run_cons_error hone]
          exact .error
      | ok s' =>
          rw [Run.run_cons_ok hone]
          exact ih ((hstep s a hs).of_eq hone)

end Returns
