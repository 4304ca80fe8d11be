import Mathlib.Algebra.BigOperators.Group.Finset.Piecewise
import Mathlib.Algebra.Order.BigOperators.Group.Finset
import Mathlib.Tactic.ByContra
import RkyvUtils.Lib.SlotTable

/-!
# `Lib.Ownership` — the frame rule of an operation that owns one block of an arena

An arena is an append-only `List` of blocks, some of which are `live`. An operation that holds the block
`o` (or none) may change that block, add blocks, and end up holding `o'`. `Confined` says that it does
nothing else: every other block is untouched, and of the blocks it could change or add the only live one
left is the one it holds at the end. The relation composes, so it is proved for the primitive operations
and holds of every sequence of them.
-/

namespace Ownership

variable {β : Type} {live : β → Prop} {l l' l'' : List β} {o o' o'' : Option Nat}

/-- What the holder of block `o` of the arena `l` may do, ending with the arena `l'` and block `o'`. -/
structure Confined (live : β → Prop) (l l' : List β) (o o' : Option Nat) : Prop where
  length_le : l.length ≤ l'.length
  frame : ∀ b, b < l.length → o ≠ some b → l'[b]? = l[b]?
  handed : ∀ b blk, l'[b]? = some blk → live blk → (o = some b ∨ l.length ≤ b) → o' = some b
  source : ∀ b, o' = some b → o = some b ∨ l.length ≤ b

/-- Doing nothing is confined. -/
theorem Confined.refl : Confined live l l o o where
  length_le := Nat.le_refl _
  frame _ _ _ := rfl
  handed b blk hb _ h := by
    rcases h with h | h
    · exact h
    · rw [List.getElem?_eq_none h] at hb; cases hb
  source _ h := Or.inl h

/-- **Confined operations compose.** -/
theorem Confined.trans (h : Confined live l l' o o') (h' : Confined live l' l'' o' o'') :
    Confined live l l'' o o'' where
  length_le := Nat.le_trans h.length_le h'.length_le
  frame b hb ho := by
    have ho' : o' ≠ some b := by
      intro he
      rcases h.source b he with hs | hs
      · exact ho hs
      · omega
    rw [h'.frame b (Nat.lt_of_lt_of_le hb h.length_le) ho', h.frame b hb ho]
  handed b blk hb hl hor := by
    refine h'.handed b blk hb hl ?_
    by_cases hlen : b < l'.length
    · left
      by_contra ho'
      rw [h'.frame b hlen ho'] at hb
      exact ho' (h.handed b blk hb hl hor)
    · exact Or.inr (by omega)
  source b he := by
    rcases h'.source b he with hs | hs
    · exact h.source b hs
    · exact Or.inr (Nat.le_trans h.length_le hs)

/-- Confinement for a weaker notion of being live. -/
theorem Confined.mono {live' : β → Prop} (h : Confined live l l' o o')
    (hle : ∀ blk, live' blk → live blk) : Confined live' l l' o o' where
  length_le := h.length_le
  frame := h.frame
  handed b blk hb hl hor := h.handed b blk hb (hle blk hl) hor
  source := h.source

/-- Changing the held block and keeping it. -/
theorem Confined.set_self {b : Nat} (blk : β) : Confined live l (l.set b blk) (some b) (some b) where
  length_le := by simp
  frame c _ hc := List.getElem?_set_ne (fun he => hc (by rw [he]))
  handed c blk' hc _ h := by
    rcases h with h | h
    · exact h
    · rw [List.getElem?_eq_none (by simpa using h)] at hc; cases hc
  source c h := Or.inl h

/-- Adding a block and holding it, after giving up the held one (if any). -/
theorem Confined.push {blk : β} (hdead : ∀ b blk', o = some b → l[b]? = some blk' → ¬live blk') :
    Confined live l (l ++ [blk]) o (some l.length) where
  length_le := by simp
  frame c hc _ := List.getElem?_append_left hc
  handed c blk' hc hl h := by
    by_cases hlt : c < l.length
    · rw [List.getElem?_append_left hlt] at hc
      rcases h with h | h
      · exact absurd hl (hdead c blk' h hc)
      · omega
    · by_cases he : c = l.length
      · rw [he]
      · rw [List.getElem?_eq_none (by simp; omega)] at hc; cases hc
  source c h := Or.inr (by cases h; exact Nat.le_refl _)

/-- Giving up the held block. -/
theorem Confined.release {b : Nat} {blk : β} (hdead : ¬live blk) :
    Confined live l (l.set b blk) (some b) none where
  length_le := by simp
  frame c _ hc := List.getElem?_set_ne (fun he => hc (by rw [he]))
  handed c blk' hc hl h := by
    rcases h with h | h
    · cases h
      by_cases hb : b < l.length
      · rw [List.getElem?_set_self hb, Option.some.injEq] at hc
        exact absurd hl (hc ▸ hdead)
      · rw [List.getElem?_eq_none (by simpa using hb)] at hc; cases hc
    · rw [List.getElem?_eq_none (by simpa using h)] at hc; cases hc
  source c h := by cases h

/-! ## Counting owners -/

/-- 1 for the block that is held, 0 for every other. -/
def hit (o : Option Nat) (b : Nat) : Nat := if o = some b then 1 else 0

@[simp] theorem hit_none (b : Nat) : hit none b = 0 := rfl

@[simp] theorem hit_self (b : Nat) : hit (some b) b = 1 := if_pos rfl

theorem hit_ne {b c : Nat} (h : c ≠ b) : hit (some c) b = 0 := if_neg (fun he => h (Option.some.inj he))

theorem hit_pos {b : Nat} : 0 < hit o b ↔ o = some b := by
  unfold hit
  split
  · exact ⟨fun _ => ‹_›, fun _ => Nat.one_pos⟩
  · exact ⟨fun h => absurd h (Nat.lt_irrefl 0), fun h => absurd h ‹_›⟩

/-- 1 for a block of the arena that satisfies `P`, 0 for every other place. -/
def mark (P : β → Prop) [DecidablePred P] (l : List β) (b : Nat) : Nat :=
  match l[b]? with
  | some blk => if P blk then 1 else 0
  | none => 0

variable {P : β → Prop} [DecidablePred P]

theorem mark_le_one (l : List β) (b : Nat) : mark P l b ≤ 1 := by
  unfold mark
  split
  · split <;> omega
  · omega

theorem mark_of_some {b : Nat} {blk : β} (hb : l[b]? = some blk) :
    mark P l b = if P blk then 1 else 0 := by
  unfold mark
  rw [hb]

theorem mark_eq_one {b : Nat} : mark P l b = 1 ↔ ∃ blk, l[b]? = some blk ∧ P blk := by
  unfold mark
  cases l[b]? with
  | none => simp
  | some blk => by_cases h : P blk <;> simp [h]

theorem mark_congr {b : Nat} (h : l'[b]? = l[b]?) : mark P l' b = mark P l b := by
  unfold mark
  rw [h]

/-- A marked place is inside the arena. -/
theorem lt_of_mark_pos {b : Nat} (h : 0 < mark P l b) : b < l.length := by
  have hle := mark_le_one (P := P) l b
  obtain ⟨blk, hb, -⟩ := mark_eq_one.mp (show mark P l b = 1 by omega)
  exact (List.getElem?_eq_some_iff.mp hb).1

/-- Places an operation could change or add, but does not hold at the end, are not live. -/
theorem Confined.mark_eq_zero (h : Confined live l l' o o') (hlive : ∀ blk, P blk → live blk) {b : Nat}
    (hor : o = some b ∨ l.length ≤ b) (ho' : o' ≠ some b) : mark P l' b = 0 := by
  by_contra hne
  have hle := mark_le_one (P := P) l' b
  obtain ⟨blk, hb, hP⟩ := mark_eq_one.mp (show mark P l' b = 1 by omega)
  exact ho' (h.handed b blk hb (hlive blk hP) hor)

/-- **The balance of a confined operation**: it gives up one live block (the one it held) and ends up
    with one (the one it holds), and every other place is live or not as before. -/
theorem Confined.balance (h : Confined live l l' o o') (hlive : ∀ blk, P blk → live blk)
    (ho : ∀ b, o = some b → mark P l b = 1) (ho' : ∀ b, o' = some b → mark P l' b = 1) (b : Nat) :
    mark P l' b + hit o b = mark P l b + hit o' b := by
  by_cases heq : o = some b
  · rw [heq, hit_self, ho b heq]
    by_cases heq' : o' = some b
    · rw [heq', hit_self, ho' b heq']
    · rw [h.mark_eq_zero hlive (Or.inl heq) heq', hit, if_neg heq']
  · have hz : hit o b = 0 := if_neg heq
    by_cases hlt : b < l.length
    · have hz' : hit o' b = 0 := by
        refine if_neg (fun he => ?_)
        rcases h.source b he with hs | hs
        · exact heq hs
        · omega
      rw [hz, hz', mark_congr (h.frame b hlt heq)]
    · have hold : mark P l b = 0 := by
        unfold mark
        rw [List.getElem?_eq_none (by omega)]
      by_cases heq' : o' = some b
      · rw [hz, hold, heq', hit_self, ho' b heq']
      · rw [hz, hold, h.mark_eq_zero hlive (Or.inr (by omega)) heq', hit, if_neg heq']

/-- A mark that neither the block given up nor the block taken has is nowhere changed. -/
theorem Confined.mark_unchanged (h : Confined live l l' o o') (hlive : ∀ blk, P blk → live blk)
    (ho : ∀ b, o = some b → mark P l b = 0) (ho' : ∀ b, o' = some b → mark P l' b = 0) (b : Nat) :
    mark P l' b = mark P l b := by
  by_cases heq : o = some b
  · rw [ho b heq]
    by_cases heq' : o' = some b
    · exact ho' b heq'
    · exact h.mark_eq_zero hlive (Or.inl heq) heq'
  · by_cases hlt : b < l.length
    · exact mark_congr (h.frame b hlt heq)
    · have hold : mark P l b = 0 := by
        unfold mark
        rw [List.getElem?_eq_none (by omega)]
      rw [hold]
      by_cases heq' : o' = some b
      · exact ho' b heq'
      · exact h.mark_eq_zero hlive (Or.inr (by omega)) heq'

/-! ## Weighing the owned blocks -/

section

open SlotTable

variable {α : Type} {key : α → Option Nat} {v : Nat → Nat} {n : Nat}

/-- The weight of an arena, place by place. -/
theorem total_eq_sum {f : β → Nat} : total f l = ∑ b ∈ Finset.range l.length, l[b]?.elim 0 f := by
  induction l with
  | nil => rfl
  | cons blk l ih =>
      rw [total_cons, ih, List.length_cons, Finset.sum_range_succ']
      simp only [List.getElem?_cons_succ, List.getElem?_cons_zero, Option.elim_some]
      omega

/-- One holder is counted for its own block only. -/
theorem sum_hit_le : ∑ b ∈ Finset.range n, hit o b * v b ≤ o.elim 0 v := by
  cases o with
  | none => simp
  | some c =>
      simp only [hit, Option.some.injEq, ite_mul, one_mul, zero_mul, Finset.sum_ite_eq, Option.elim_some]
      split <;> omega

/-- Holders counted block by block weigh no more than block for holder. -/
theorem sum_total_hit_le {m : List α} :
    ∑ b ∈ Finset.range n, total (fun x => hit (key x) b) m * v b ≤ total (fun x => (key x).elim 0 v) m := by
  induction m with
  | nil => simp
  | cons x m ih =>
      simp only [total_cons, Nat.add_mul, Finset.sum_add_distrib]
      exact Nat.add_le_add sum_hit_le ih

end

end Ownership
