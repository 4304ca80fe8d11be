import Mathlib.Tactic.Ring
import RkyvUtils.Lib.SlotTable

/-!
# `Lib.Doubling` — a capacity that at least doubles whenever it is raised

The capacity of a growable array is raised when something does not fit, and then at least to twice its size
and to some floor. `Climbs` is a sequence of such raises, under a bound on what was ever asked for. However
they come, there are few of them (`Climbs.count_le`), and all the capacities that were left behind together
are no more than twice what was asked for (`Climbs.left_le`).
-/

namespace Doubling

open SlotTable (total)

/-- Raises from capacity `c` over the capacities `cs` to `c'`, each one made because less than `top` was there. -/
inductive Climbs (floor top : Nat) : Nat → List Nat → Nat → Prop
  | stay (c : Nat) : Climbs floor top c [] c
  | up {c c₁ c' : Nat} {cs : List Nat} (below : c < top) (double : 2 * c ≤ c₁) (reaches : floor ≤ c₁)
      (rest : Climbs floor top c₁ cs c') : Climbs floor top c (c₁ :: cs) c'

namespace Climbs

variable {floor top top' c c' c'' : Nat} {cs cs' : List Nat}

theorem single (below : c < top) (double : 2 * c ≤ c') (reaches : floor ≤ c') :
    Climbs floor top c [c'] c' :=
  .up below double reaches (.stay c')

/-- Raises one after the other. -/
theorem trans (h : Climbs floor top c cs c') (h' : Climbs floor top c' cs' c'') :
    Climbs floor top c (cs ++ cs') c'' := by
  induction h with
  | stay c => exact h'
  | up below double reaches _ ih => exact .up below double reaches (ih h')

theorem mono (h : Climbs floor top c cs c') (hle : top ≤ top') : Climbs floor top' c cs c' := by
  induction h with
  | stay c => exact .stay c
  | up below double reaches _ ih => exact .up (Nat.lt_of_lt_of_le below hle) double reaches ih

/-- **What is left behind** adds up to no more than twice the bound: the sum is geometric, and its last term
    was below the bound. -/
theorem left_le (h : Climbs floor top c cs c') : total id (c :: cs).dropLast ≤ 2 * top := by
  -- with `c` once more on the left the sum is kept by the induction: `c` twice is at most `c₁`
  have hleft : cs = [] ∨ c + total id (c :: cs).dropLast ≤ 2 * top := by
    induction h with
    | stay c => exact Or.inl rfl
    | @up c c₁ c' cs below double reaches rest ih =>
        right
        rcases ih with rfl | ih
        · simp
          omega
        · rw [List.dropLast_cons_cons, SlotTable.total_cons, id_eq]
          omega
  rcases hleft with rfl | hleft
  · simp
  · omega

/-- From a capacity on, the raises multiply. -/
theorem mul_two_pow_le (h : Climbs floor top c cs c') : cs = [] ∨ c * 2 ^ cs.length ≤ 2 * top := by
  induction h with
  | stay c => exact Or.inl rfl
  | @up c c₁ c' cs below double reaches rest ih =>
      right
      rw [List.length_cons, Nat.pow_succ']
      rcases ih with rfl | ih
      · simp
        omega
      · calc c * (2 * 2 ^ cs.length) = 2 * c * 2 ^ cs.length := by ring
          _ ≤ c₁ * 2 ^ cs.length := Nat.mul_le_mul_right _ double
          _ ≤ 2 * top := ih

/-- **There are few raises**: their number is logarithmic in what was asked for. -/
theorem count_le (h : Climbs floor top c cs c') :
    floor * 2 ^ cs.length ≤ max (2 * floor) (4 * top) := by
  cases h with
  | stay c => simp; omega
  | @up c c₁ c' cs below double reaches rest =>
      rw [List.length_cons, Nat.pow_succ']
      rcases rest.mul_two_pow_le with rfl | hle
      · simp
        omega
      · calc floor * (2 * 2 ^ cs.length) = 2 * (floor * 2 ^ cs.length) := by ring
          _ ≤ 2 * (c₁ * 2 ^ cs.length) := Nat.mul_le_mul_left _ (Nat.mul_le_mul_right _ reaches)
          _ ≤ max (2 * floor) (4 * top) := by omega

end Climbs

end Doubling
