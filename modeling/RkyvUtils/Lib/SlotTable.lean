import Mathlib.Algebra.BigOperators.Group.List.Basic
import Mathlib.Algebra.Ring.Nat

/-!
# `Lib.SlotTable` — append-only tables and weighted counts over them

A table is a `List`: an entry is named by its position, new entries go to the end, an entry is changed
with `List.set` and its position is never used again. A *count* over a table is the sum of a weight
over its entries (`total`); the lemmas say how a count moves when one entry changes, in the additive form
that `omega` can use. Ownership and reference counting are stated with such counts.
-/

namespace SlotTable

variable {α : Type}

/-- The sum of the weight `f` over a table. -/
def total (f : α → Nat) (l : List α) : Nat := (l.map f).sum

variable {f : α → Nat} {l : List α} {i j : Nat} {x y : α}

@[simp] theorem total_nil : total f [] = 0 := rfl

@[simp] theorem total_cons : total f (x :: l) = f x + total f l := rfl

@[simp] theorem total_append {l' : List α} : total f (l ++ l') = total f l + total f l' := by
  simp [total]

theorem total_singleton : total f [x] = f x := by simp

/-- A count over an image is a count over the table. -/
theorem total_map {β : Type} {g : β → α} {m : List β} : total f (m.map g) = total (fun y => f (g y)) m := by
  simp [total, Function.comp_def]

/-- A count over a table of tables. -/
theorem total_flatten {ls : List (List α)} : total f ls.flatten = total (total f) ls := by
  induction ls with
  | nil => rfl
  | cons l ls ih => rw [List.flatten_cons, total_append, total_cons, ih]

/-- **Changing one entry** moves a count by the difference of the two weights. -/
theorem total_set (h : l[i]? = some x) (y : α) : total f (l.set i y) + f x = total f l + f y := by
  induction l generalizing i with
  | nil => simp at h
  | cons a l ih =>
      cases i with
      | zero =>
          simp only [List.getElem?_cons_zero, Option.some.injEq] at h
          subst h
          simp only [List.set_cons_zero, total_cons]; omega
      | succ i =>
          simp only [List.getElem?_cons_succ] at h
          have := ih h
          simp only [List.set_cons_succ, total_cons]; omega

/-- An entry weighs no more than the table. -/
theorem le_total (h : l[i]? = some x) : f x ≤ total f l := by
  induction l generalizing i with
  | nil => simp at h
  | cons a l ih =>
      cases i with
      | zero =>
          simp only [List.getElem?_cons_zero, Option.some.injEq] at h
          subst h; simp
      | succ i =>
          simp only [List.getElem?_cons_succ] at h
          have := ih h
          simp only [total_cons]; omega

/-- Two entries at different positions weigh together no more than the table. -/
theorem add_le_total (hij : i ≠ j) (hi : l[i]? = some x) (hj : l[j]? = some y) :
    f x + f y ≤ total f l := by
  induction l generalizing i j with
  | nil => simp at hi
  | cons a l ih =>
      cases i with
      | zero =>
          obtain ⟨j, rfl⟩ := Nat.exists_eq_succ_of_ne_zero (Ne.symm hij)
          simp only [List.getElem?_cons_zero, Option.some.injEq] at hi
          simp only [List.getElem?_cons_succ] at hj
          have := le_total (f := f) hj
          subst hi; simp only [total_cons]; omega
      | succ i =>
          simp only [List.getElem?_cons_succ] at hi
          cases j with
          | zero =>
              simp only [List.getElem?_cons_zero, Option.some.injEq] at hj
              have := le_total (f := f) hi
              subst hj; simp only [total_cons]; omega
          | succ j =>
              simp only [List.getElem?_cons_succ] at hj
              have := ih (by omega) hi hj
              simp only [total_cons]; omega

/-- A weight below the sum of two others. -/
theorem total_le_add {g k : α → Nat} (h : ∀ x, f x ≤ g x + k x) : total f l ≤ total g l + total k l := by
  induction l with
  | nil => simp
  | cons a l ih =>
      have := h a
      simp only [total_cons]; omega

/-- A smaller weight. -/
theorem total_mono {g : α → Nat} (h : ∀ x, f x ≤ g x) : total f l ≤ total g l := by
  induction l with
  | nil => exact Nat.le_refl _
  | cons a l ih =>
      have := h a
      simp only [total_cons]; omega

/-- No entry weighs more than `c`. -/
theorem total_le_mul {c : Nat} (h : ∀ x ∈ l, f x ≤ c) : total f l ≤ c * l.length := by
  induction l with
  | nil => exact Nat.le_refl _
  | cons a l ih =>
      have ha := h a (List.mem_cons_self ..)
      have hl := ih fun x hx => h x (List.mem_cons_of_mem _ hx)
      rw [total_cons, List.length_cons, Nat.mul_succ]; omega

/-- Two weights together. -/
theorem total_add {g : α → Nat} : total (fun x => f x + g x) l = total f l + total g l := List.sum_map_add

/-- The same weight for all. -/
theorem total_const {c : Nat} (h : ∀ x, f x = c) : total f l = c * l.length := by
  induction l with
  | nil => rfl
  | cons a l ih =>
      rw [total_cons, ih, h, List.length_cons, Nat.mul_succ]; omega

/-- The same weight for those that `q` holds of. -/
theorem total_ite {q : α → Bool} {c : Nat} : total (fun x => if q x then c else 0) l = c * l.countP q := by
  induction l with
  | nil => rfl
  | cons a l ih =>
      rw [total_cons, ih, List.countP_cons, Nat.mul_add]
      split <;> omega

/-- A positive count has a witness in the table. -/
theorem exists_of_total_pos (h : 0 < total f l) : ∃ (i : Nat) (x : α), l[i]? = some x ∧ 0 < f x := by
  induction l with
  | nil => simp at h
  | cons a l ih =>
      by_cases ha : 0 < f a
      · exact ⟨0, a, rfl, ha⟩
      · obtain ⟨i, x, hi, hx⟩ := ih (by simp only [total_cons] at h; omega)
        exact ⟨i + 1, x, hi, hx⟩

/-- A count is 0 exactly when every entry weighs 0. -/
theorem total_eq_zero : total f l = 0 ↔ ∀ (i : Nat) (x : α), l[i]? = some x → f x = 0 := by
  constructor
  · intro h i x hi
    have := le_total (f := f) hi
    omega
  · intro h
    by_contra hne
    obtain ⟨i, x, hi, hx⟩ := exists_of_total_pos (f := f) (l := l) (by omega)
    have := h i x hi
    omega

/-- Entries read after a change: the changed one, and the others as before. -/
theorem getElem?_set_cases {l : List α} {i j : Nat} {x y z : α} (h : l[i]? = some x)
    (hj : (l.set i y)[j]? = some z) : (j = i ∧ z = y) ∨ (j ≠ i ∧ l[j]? = some z) := by
  by_cases hij : j = i
  · subst hij
    have hlt : j < l.length := (List.getElem?_eq_some_iff.mp h).1
    rw [List.getElem?_set_self hlt] at hj
    exact Or.inl ⟨rfl, (Option.some.inj hj).symm⟩
  · rw [List.getElem?_set_ne (Ne.symm hij)] at hj
    exact Or.inr ⟨hij, hj⟩

/-- Entries read after an addition: an old one at an old position, or the new one. -/
theorem getElem?_push_cases {l : List α} {j : Nat} {y z : α} (hj : (l ++ [y])[j]? = some z) :
    l[j]? = some z ∨ (j = l.length ∧ z = y) := by
  rcases Nat.lt_trichotomy j l.length with h | h | h
  · rw [List.getElem?_append_left h] at hj; exact Or.inl hj
  · subst h; simp at hj; exact Or.inr ⟨rfl, hj.symm⟩
  · rw [List.getElem?_eq_none (by simp; omega)] at hj; cases hj

end SlotTable
