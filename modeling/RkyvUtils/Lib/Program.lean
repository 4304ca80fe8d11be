import Mathlib.Logic.Basic

/-!
# `Lib.Program` — clients of an interface

A client makes requests one after the other and chooses each by the answers so far: it is a tree, a
`Program`. What serves it is a relation between states; a request may stay unanswered, and then the client
ends with `crash`. `Goes` is a client alone with its server. A system in which many clients take turns is
understood by giving each a server of its own that answers as the system does. Where the server is a function,
`eval` is where a client comes with it.
-/

/-- A client: it ends with a result, or makes a request and goes on with the answer. -/
inductive Program (Q R ρ : Type) where
  | done (result : ρ)
  | ask (request : Q) (next : R → Program Q R ρ)

namespace Program

variable {Q R ρ σ : Type}

/-- What is left of a client once its request is answered, or is not. -/
def resume (crash : ρ) (next : R → Program Q R ρ) : Option R → Program Q R ρ
  | some answer => next answer
  | none => .done crash

variable {serves : σ → Q → Option R → σ → Prop} {crash : ρ} {t t' : σ} {program program' : Program Q R ρ}

/-- From state `t` of its server, client `program` comes to state `t'` with `program'` left. -/
inductive Goes (serves : σ → Q → Option R → σ → Prop) (crash : ρ) (t : σ) (program : Program Q R ρ) :
    σ → Program Q R ρ → Prop
  | refl : Goes serves crash t program t program
  | step {t₁ t₂ : σ} {request : Q} {next : R → Program Q R ρ} {answer : Option R}
      (before : Goes serves crash t program t₁ (.ask request next)) (served : serves t₁ request answer t₂) :
      Goes serves crash t program t₂ (resume crash next answer)

/-- What every service keeps, the client keeps. -/
theorem Goes.keeps {P : σ → Prop} (hserves : ∀ t request answer t', P t → serves t request answer t' → P t')
    (h : Goes serves crash t program t' program') (ht : P t) : P t' := by
  induction h with
  | refl => exact ht
  | step _ served ih => exact hserves _ _ _ _ ih served

/-- **The first request** of a client that goes somewhere. -/
theorem Goes.head {request : Q} {next : R → Program Q R ρ}
    (h : Goes serves crash t (.ask request next) t' program') :
    (t' = t ∧ program' = .ask request next) ∨
      ∃ answer t₁, serves t request answer t₁ ∧ Goes serves crash t₁ (resume crash next answer) t' program' := by
  induction h with
  | refl => exact .inl ⟨rfl, rfl⟩
  | step before served ih =>
      right
      rcases ih with ⟨rfl, he⟩ | ⟨answer, t₁, hserved, hgoes⟩
      · cases he
        exact ⟨_, _, served, .refl⟩
      · exact ⟨answer, t₁, hserved, hgoes.step served⟩

/-- A client that has ended stays where it is. -/
theorem Goes.of_done {result : ρ} (h : Goes serves crash t (.done result) t' program') :
    t' = t ∧ program' = .done result := by
  induction h with
  | refl => exact ⟨rfl, rfl⟩
  | step _ _ ih => cases ih.2

/-! ## A server that is a function -/

/-- A client alone with a server: what the server is in the end, and the result. -/
def eval (act : σ → Q → σ × R) : σ → Program Q R ρ → σ × ρ
  | s, .done result => (s, result)
  | s, .ask request next => eval act (act s request).1 (next (act s request).2)

end Program
