import RkyvUtils.Lib.Word

/-!
# `Lib.Placement` — positioned writers, and aligned placement one after the other

A writer appends symbols, knows its position and can pad up to a multiple of an alignment. Nothing is
assumed about how it stores what it has written: `Contents s xs` says that state `s` has written `xs`, and
`Lawful` says what the three operations do to that. `placeAll` puts items one after the other, each at a
multiple of its own alignment; `Placed` is where they end up.
-/

namespace Placement

open Word

/-- The operations of a writer of symbols `β`: its position, appending, padding to an alignment. -/
structure Writer (β σ ε : Type) where
  pos : σ → Nat
  write : σ → List β → Except ε σ
  align : σ → Nat → Except ε σ

namespace Writer

variable {β σ ε : Type}

/-- What is asked of `align`: where it returns it has padded to the next multiple. -/
def Pads (Contents : σ → List β → Prop) (align : σ → Nat → Except ε σ) : Prop :=
  ∀ s xs a s', Contents s xs → a.isPowerOfTwo → align s a = .ok s' →
    ∃ pad, pad.length = padding xs.length a ∧ Contents s' (xs ++ pad)

/-- What the operations do to the symbols written so far. An operation may also fail. -/
structure Lawful (w : Writer β σ ε) (Contents : σ → List β → Prop) : Prop where
  pos_eq : ∀ s xs, Contents s xs → w.pos s = xs.length
  write : ∀ s xs bs s', Contents s xs → w.write s bs = .ok s' → Contents s' (xs ++ bs)
  align : Pads Contents w.align

/-- Padding with a fixed symbol, from a supply of fewer than `supply` of them. -/
def padFrom (supply : Nat) (exhausted : ε) (pos : σ → Nat) (write : σ → List β → Except ε σ) (zero : β)
    (s : σ) (a : Nat) : Except ε σ :=
  if padding (pos s) a < supply then write s (List.replicate (padding (pos s) a) zero)
  else .error exhausted

/-- Such padding is padding where appending is lawful. -/
theorem padFrom_pads {supply : Nat} {exhausted : ε} {pos : σ → Nat} {write : σ → List β → Except ε σ}
    {zero : β} {Contents : σ → List β → Prop} (hpos : ∀ s xs, Contents s xs → pos s = xs.length)
    (hwrite : ∀ s xs bs s', Contents s xs → write s bs = .ok s' → Contents s' (xs ++ bs)) :
    Pads Contents (padFrom supply exhausted pos write zero) := by
  intro s xs a s' hs _ h
  unfold padFrom at h
  rw [hpos s xs hs] at h
  by_cases hlt : padding xs.length a < supply
  · rw [if_pos hlt] at h
    exact ⟨_, List.length_replicate, hwrite s xs _ s' hs h⟩
  · rw [if_neg hlt] at h
    cases h

/-! ## Placing items -/

/-- Pad, note the position, write. -/
def place (w : Writer β σ ε) (s : σ) (a : Nat) (bs : List β) : Except ε (σ × Nat) := do
  let s ← w.align s a
  let pos := w.pos s
  let s ← w.write s bs
  return (s, pos)

/-- Items with their alignments, one after the other, and the positions noted. -/
def placeAll (w : Writer β σ ε) : σ → List (Nat × List β) → Except ε (σ × List Nat)
  | s, [] => return (s, [])
  | s, item :: items => do
      let (s, pos) ← w.place s item.1 item.2
      let (s, rest) ← placeAll w s items
      return (s, pos :: rest)

/-- `align` or `write` fails for an item. -/
def Fails (w : Writer β σ ε) (s : σ) (a : Nat) (bs : List β) (e : ε) : Prop :=
  w.align s a = .error e ∨ ∃ s₁, w.align s a = .ok s₁ ∧ w.write s₁ bs = .error e

/-- **An item is placed** unless one of its two operations fails. -/
theorem place_error {w : Writer β σ ε} {s : σ} {a : Nat} {bs : List β} {e : ε}
    (h : w.place s a bs = .error e) : w.Fails s a bs e := by
  unfold place at h
  cases halign : w.align s a with
  | error e' =>
      rw [halign] at h
      cases h
      exact Or.inl halign
  | ok s₁ =>
      simp only [bind, Except.bind, halign] at h
      cases hwrite : w.write s₁ bs with
      | error e' =>
          rw [hwrite] at h
          cases h
          exact Or.inr ⟨s₁, halign, hwrite⟩
      | ok s₂ =>
          rw [hwrite] at h
          cases h

/-- The items stand in `ys`, in order and from `start` on, each at a multiple of its alignment. -/
inductive Placed (ys : List β) : Nat → List (Nat × List β) → List Nat → Prop
  | nil {start : Nat} (le : start ≤ ys.length) : Placed ys start [] []
  | cons {start a pos : Nat} {bs : List β} {items : List (Nat × List β)} {rest : List Nat}
      (start_le : start ≤ pos) (dvd : a ∣ pos) (stored : (ys.drop pos).take bs.length = bs)
      (tail : Placed ys (pos + bs.length) items rest) : Placed ys start ((a, bs) :: items) (pos :: rest)

variable {ys : List β} {start : Nat} {items : List (Nat × List β)} {positions : List Nat}

theorem Placed.start_le_length (h : Placed ys start items positions) : start ≤ ys.length := by
  induction h with
  | nil le => exact le
  | cons start_le _ _ _ ih => omega

theorem Placed.length_eq (h : Placed ys start items positions) : positions.length = items.length := by
  induction h with
  | nil => rfl
  | cons _ _ _ _ ih => rw [List.length_cons, List.length_cons, ih]

/-- **One item**: its position is behind the start, a multiple of its alignment, and the item is there. -/
theorem Placed.get (h : Placed ys start items positions) {i a pos : Nat} {bs : List β}
    (hi : items[i]? = some (a, bs)) (hpos : positions[i]? = some pos) :
    start ≤ pos ∧ a ∣ pos ∧ (ys.drop pos).take bs.length = bs ∧ pos + bs.length ≤ ys.length := by
  induction h generalizing i with
  | nil => cases hi
  | cons start_le dvd stored tail ih =>
      cases i with
      | zero =>
          cases hi
          cases hpos
          exact ⟨start_le, dvd, stored, tail.start_le_length⟩
      | succ i =>
          obtain ⟨hle, hrest⟩ := ih hi hpos
          exact ⟨by omega, hrest⟩

/-- **Two items**: the earlier one ends before the later one begins. -/
theorem Placed.ordered (h : Placed ys start items positions) {i j pos pos' : Nat}
    {item item' : Nat × List β} (hij : i < j) (hi : items[i]? = some item)
    (hj : items[j]? = some item') (hpos : positions[i]? = some pos) (hpos' : positions[j]? = some pos') :
    pos + item.2.length ≤ pos' := by
  induction h generalizing i j with
  | nil => cases hi
  | cons start_le dvd stored tail ih =>
      obtain ⟨j, rfl⟩ := Nat.exists_eq_succ_of_ne_zero (show j ≠ 0 by omega)
      cases i with
      | zero =>
          cases hi
          cases hpos
          exact (tail.get hj hpos').1
      | succ i => exact ih (by omega) hi hj hpos hpos'

/-! ## What placing items does -/

variable {w : Writer β σ ε} {Contents : σ → List β → Prop} {s s' : σ} {xs : List β}

/-- **One item**: the old symbols stay, and behind them comes the item at the next multiple. -/
theorem Lawful.place (law : w.Lawful Contents) {a pos : Nat} {bs : List β} (hs : Contents s xs)
    (ha : a.isPowerOfTwo) (h : w.place s a bs = .ok (s', pos)) :
    ∃ pad, pos = (xs ++ pad).length ∧ a ∣ pos ∧ Contents s' (xs ++ pad ++ bs) := by
  unfold Writer.place at h
  cases halign : w.align s a with
  | error e =>
      rw [halign] at h
      cases h
  | ok s₁ =>
      rw [halign] at h
      obtain ⟨pad, hpad, hs₁⟩ := law.align s xs a s₁ hs ha halign
      cases hwrite : w.write s₁ bs with
      | error e =>
          simp only [bind, Except.bind, hwrite] at h
          cases h
      | ok s₂ =>
          simp only [bind, Except.bind, hwrite] at h
          cases h
          have hpos := law.pos_eq s₁ _ hs₁
          refine ⟨pad, hpos, ?_, law.write s₁ _ bs s' hs₁ hwrite⟩
          rw [hpos, List.length_append, hpad]
          exact dvd_roundUp _ (Nat.pos_of_isPowerOfTwo ha)

/-- **Items one after the other.** -/
theorem Lawful.placeAll (law : w.Lawful Contents) (hs : Contents s xs)
    (ha : ∀ item ∈ items, item.1.isPowerOfTwo) (h : w.placeAll s items = .ok (s', positions)) :
    ∃ ys, Contents s' ys ∧ xs <+: ys ∧ Placed ys xs.length items positions := by
  -- along the items; what is written so far is a prefix of what is written in the end
  induction items generalizing s xs positions with
  | nil =>
      cases h
      exact ⟨xs, hs, List.prefix_rfl, .nil (Nat.le_refl _)⟩
  | cons item items ih =>
      obtain ⟨a, bs⟩ := item
      unfold Writer.placeAll at h
      cases hone : w.place s a bs with
      | error e =>
          simp only [bind, Except.bind, hone] at h
          cases h
      | ok r =>
          obtain ⟨s₁, pos⟩ := r
          simp only [bind, Except.bind, hone] at h
          obtain ⟨pad, hpos, hdvd, hs₁⟩ := law.place hs (ha _ (List.mem_cons_self ..)) hone
          cases hrest : w.placeAll s₁ items with
          | error e =>
              rw [hrest] at h
              cases h
          | ok r =>
              obtain ⟨s₂, rest⟩ := r
              rw [hrest] at h
              cases h
              obtain ⟨ys, hs', hprefix, hplaced⟩ :=
                ih hs₁ (fun item hmem => ha item (List.mem_cons_of_mem _ hmem)) hrest
              have hend : (xs ++ pad ++ bs).length = pos + bs.length := by rw [List.length_append, hpos]
              rw [hend] at hplaced
              refine ⟨ys, hs', ?_, .cons ?_ hdvd ?_ hplaced⟩
              · rw [List.append_assoc] at hprefix
                exact (List.prefix_append xs _).trans hprefix
              · rw [hpos, List.length_append]
                exact Nat.le_add_right _ _
              · obtain ⟨more, rfl⟩ := hprefix
                rw [hpos, List.append_assoc (xs ++ pad), List.drop_left, List.take_left]

end Writer

end Placement
