import Mathlib.Data.List.Basic

/-!
# `Lib.Nest` — a stack of blocks in a region

Blocks are intervals, given by start and size. They are stacked in a region from `lo` to `hi` when each
starts at or behind the end of those below it and the topmost ends inside the region. What a stack
allocator needs to know of its live blocks is this and nothing else: they lie in the region, no two
overlap, and when the topmost is given back the rest are stacked below where it started.
-/

namespace Nest

/-- The latest block first. -/
def Nested (lo : Nat) : Nat → List (Nat × Nat) → Prop
  | _, [] => True
  | hi, (start, size) :: rest => 0 < size ∧ lo ≤ start ∧ start + size ≤ hi ∧ Nested lo start rest

variable {lo hi hi' start size : Nat} {blocks : List (Nat × Nat)}

/-- There is room behind. -/
theorem Nested.mono (h : Nested lo hi blocks) (hle : hi ≤ hi') : Nested lo hi' blocks := by
  cases blocks with
  | nil => trivial
  | cons block rest =>
      obtain ⟨hpos, hlo, hhi, hrest⟩ := h
      exact ⟨hpos, hlo, Nat.le_trans hhi hle, hrest⟩

/-- A block behind all others. -/
theorem Nested.push (h : Nested lo hi blocks) (hlo : lo ≤ hi) (hpos : 0 < size) (hstart : hi ≤ start) :
    Nested lo (start + size) ((start, size) :: blocks) :=
  ⟨hpos, Nat.le_trans hlo hstart, Nat.le_refl _, h.mono hstart⟩

/-- Every block lies in the region. -/
theorem Nested.inside (h : Nested lo hi blocks) :
    ∀ block ∈ blocks, lo ≤ block.1 ∧ block.1 + block.2 ≤ hi := by
  induction blocks generalizing hi with
  | nil => intro block hmem; cases hmem
  | cons top rest ih =>
      obtain ⟨-, hlo, hhi, hrest⟩ := h
      intro block hmem
      rcases List.mem_cons.mp hmem with rfl | hmem
      · exact ⟨hlo, hhi⟩
      · obtain ⟨hlo', hhi'⟩ := ih hrest block hmem
        exact ⟨hlo', by omega⟩

/-- No two blocks overlap: the later one starts behind the earlier. -/
theorem Nested.apart (h : Nested lo hi blocks) :
    blocks.Pairwise fun later earlier => earlier.1 + earlier.2 ≤ later.1 := by
  induction blocks generalizing hi with
  | nil => exact .nil
  | cons top rest ih =>
      obtain ⟨-, -, -, hrest⟩ := h
      exact .cons (fun block hmem => (hrest.inside block hmem).2) (ih hrest)

/-! ## Words whose brackets match -/

/-- An opening bracket carries what is asked for; a closing one is for the latest that is still open. -/
inductive Bracket (β : Type) where
  | push (b : β)
  | pop
deriving DecidableEq, Repr

inductive Balanced {β : Type} : List (Bracket β) → Prop
  | nil : Balanced []
  | bracket (b : β) {inner rest : List (Bracket β)} (hinner : Balanced inner) (hrest : Balanced rest) :
      Balanced (.push b :: (inner ++ .pop :: rest))

end Nest
