import Mathlib.Logic.Function.Basic
import RkyvUtils.Lib.Recycle

/-!
# `Lib.Keyed` — a table that keeps one machine for each key

A resource whose calls name a key can be specified as one small machine `act` per key: `keyed` is their
product. `calls_simulation` shows that a concrete table follows it, call by call, under a condition on
the calls. `calls_keyed_at` then says that each key sees its own calls only.
-/

namespace Recycle

variable {ρ τ κ ω β : Type}

/-- **The simulation rule for calls**: a resource that matches the abstract one at every call that `C`
    allows gives the same answers to every sequence of such calls. -/
theorem calls_simulation {act : ρ → ω → ρ × β} {abs : τ → ω → τ × β} (C : ω → Prop) (R : ρ → τ → Prop)
    (hcall : ∀ r t c, C c → R r t → R (act r c).1 (abs t c).1 ∧ (act r c).2 = (abs t c).2)
    {cs : List ω} (hC : ∀ c ∈ cs, C c) {r : ρ} {t : τ} (hR : R r t) :
    R (calls act r cs).1 (calls abs t cs).1 ∧ (calls act r cs).2 = (calls abs t cs).2 := by
  induction cs generalizing r t with
  | nil => exact ⟨hR, rfl⟩
  | cons c cs ih =>
      obtain ⟨hR', hanswer⟩ := hcall r t c (hC c (List.mem_cons_self ..)) hR
      obtain ⟨hrest, hanswers⟩ := ih (fun c' hc' => hC c' (List.mem_cons_of_mem _ hc')) hR'
      refine ⟨hrest, ?_⟩
      simp only [calls]
      rw [hanswer, hanswers]

/-! ## One machine for each key -/

variable [DecidableEq κ] (key : ω → κ) (act : τ → ω → τ × β)

/-- A call goes to the machine of its key. -/
def keyed (f : κ → τ) (c : ω) : (κ → τ) × β :=
  (Function.update f (key c) (act (f (key c)) c).1, (act (f (key c)) c).2)

/-- The calls for one key. -/
def callsAt (k : κ) (cs : List ω) : List ω := cs.filter fun c => key c = k

/-- The answers to the calls for one key. -/
def answersAt (k : κ) (cs : List ω) (answers : List β) : List β :=
  ((cs.zip answers).filter fun entry => key entry.1 = k).map Prod.snd

/-- **A key sees its own calls only**: its machine and its answers are those of a run with the calls for
    the other keys left out. -/
theorem calls_keyed_at (f : κ → τ) (cs : List ω) (k : κ) :
    (calls (keyed key act) f cs).1 k = (calls act (f k) (callsAt key k cs)).1 ∧
      answersAt key k cs (calls (keyed key act) f cs).2 = (calls act (f k) (callsAt key k cs)).2 := by
  induction cs generalizing f with
  | nil => exact ⟨rfl, rfl⟩
  | cons c cs ih =>
      obtain ⟨hstate, hanswers⟩ := ih (keyed key act f c).1
      unfold answersAt callsAt at hanswers ⊢
      unfold callsAt at hstate
      by_cases hk : key c = k
      · subst hk
        have hself : (keyed key act f c).1 (key c) = (act (f (key c)) c).1 := Function.update_self ..
        rw [hself] at hstate hanswers
        simp only [calls, List.zip_cons_cons, List.filter_cons, decide_true, if_true, List.map_cons]
        exact ⟨hstate, by rw [hanswers]; rfl⟩
      · have hother : (keyed key act f c).1 k = f k := Function.update_of_ne (Ne.symm hk) ..
        rw [hother] at hstate hanswers
        simp only [calls, List.zip_cons_cons, List.filter_cons, hk, decide_false, Bool.false_eq_true,
          if_false]
        exact ⟨hstate, hanswers⟩

end Recycle
