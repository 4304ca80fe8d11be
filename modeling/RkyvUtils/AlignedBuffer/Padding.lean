import Mathlib.Order.Bounds.Defs
import RkyvUtils.AlignedBuffer.Layout

/-!
# `AlignedBuffer.Padding` — `LayoutHelper` at every word size

`padding_needed_for` and `extend` of `raw/layout.rs` once more, on words of any width `w` and with the
three panics of `extend` told apart. At the width of a target they are the functions that `BUFFER_OFFSET`
is computed with (`paddingNeededFor_at`, `extend_at`). The mask formula may wrap, but then the padded
length is `2 ^ w` exactly, which `checked_add` refuses.
-/

namespace RkyvUtils

open Word

namespace LayoutHelper

variable (w : Nat)

def paddingNeededForAt (self : Layout) (align : Nat) : Nat :=
  let len := self.size
  let lenRoundedUp :=
    wrappingSub w (wrappingAdd w len align) 1 &&& bitNot w (wrappingSub w align 1)
  wrappingSub w lenRoundedUp len

/-- The messages that `extend` panics with. -/
inductive ExtendPanic where
  /-- "Invalid layout: offset overflow" -/
  | offsetOverflow
  /-- "Invalid layout: size overflow" -/
  | sizeOverflow
  /-- "Invalid layout", from `from_size_alignment` -/
  | invalidLayout
deriving DecidableEq, Repr

/-- `from_size_alignment`, with the `isize::MAX` of the width. -/
def fromSizeAlignmentAt (size alignment : Nat) : Except ExtendPanic Layout :=
  if alignment.isPowerOfTwo ∧ size + alignment ≤ 2 ^ (w - 1) then .ok ⟨size, alignment⟩
  else .error .invalidLayout

def extendAt (self next : Layout) : Except ExtendPanic (Layout × Nat) :=
  let newAlign := if self.align < next.align then next.align else self.align
  let pad := paddingNeededForAt w self next.align
  match checkedAdd w self.size pad with
  | none => .error .offsetOverflow
  | some offset =>
      match checkedAdd w offset next.size with
      | none => .error .sizeOverflow
      | some newSize =>
          match fromSizeAlignmentAt w newSize newAlign with
          | .error panic => .error panic
          | .ok layout => .ok (layout, offset)

/-! ## The functions of a target -/

theorem paddingNeededFor_at (t : Target) (self : Layout) (align : Nat) :
    paddingNeededFor t self align = paddingNeededForAt t.bits self align := rfl

theorem fromSizeAlignment_at (t : Target) (size alignment : Nat) :
    fromSizeAlignment t size alignment = (fromSizeAlignmentAt t.bits size alignment).toOption := by
  unfold fromSizeAlignment Layout.fromSizeAlign fromSizeAlignmentAt
  by_cases hvalid : Layout.Valid t ⟨size, alignment⟩
  · have hbounds : alignment.isPowerOfTwo ∧ size + alignment ≤ 2 ^ (t.bits - 1) := hvalid
    rw [if_pos hvalid, if_pos hbounds]
    rfl
  · have hbounds : ¬(alignment.isPowerOfTwo ∧ size + alignment ≤ 2 ^ (t.bits - 1)) := hvalid
    rw [if_neg hvalid, if_neg hbounds]
    rfl

theorem extend_at (t : Target) (self next : Layout) :
    extend t self next = (extendAt t.bits self next).toOption := by
  unfold extend extendAt
  dsimp only
  rw [← paddingNeededFor_at]
  cases checkedAdd t.bits self.size (paddingNeededFor t self next.align) with
  | none => rfl
  | some offset =>
      simp only [Option.bind_eq_bind, Option.bind_some]
      cases checkedAdd t.bits offset next.size with
      | none => rfl
      | some newSize =>
          simp only [Option.bind_some]
          rw [fromSizeAlignment_at]
          cases fromSizeAlignmentAt t.bits newSize _ with
          | error e => rfl
          | ok layout => rfl

/-! ## The padding -/

variable {w} {self next : Layout} {align : Nat}

/-- The mask formula is the padding. -/
theorem paddingNeededForAt_eq (hlen : self.size < 2 ^ w) (hpow : align.isPowerOfTwo)
    (halign : align < 2 ^ w) : paddingNeededForAt w self align = padding self.size align := by
  obtain ⟨k, rfl⟩ := hpow
  exact masked_padding ((Nat.pow_lt_pow_iff_right (by norm_num)).mp halign) hlen

/-- A power of two below `2 ^ w` divides it. -/
theorem dvd_two_pow (hpow : align.isPowerOfTwo) (halign : align < 2 ^ w) : align ∣ 2 ^ w := by
  obtain ⟨k, rfl⟩ := hpow
  exact Nat.pow_dvd_pow 2 ((Nat.pow_lt_pow_iff_right (by norm_num)).mp halign).le

/-- A word is a multiple of a divisor of `2 ^ w` when the number it is the rest of is. -/
theorem dvd_mod_two_pow (hdvd : align ∣ 2 ^ w) (n : Nat) : align ∣ n % 2 ^ w ↔ align ∣ n := by
  rw [Nat.dvd_iff_mod_eq_zero, Nat.mod_mod_of_dvd n hdvd, ← Nat.dvd_iff_mod_eq_zero]

/-- **Where `extend` ends**, in terms of the exact sums. -/
theorem extendAt_cases (hlen : self.size < 2 ^ w) (hpow : next.align.isPowerOfTwo)
    (halign : next.align < 2 ^ w) :
    (extendAt w self next = .error .offsetOverflow ↔ 2 ^ w ≤ roundUp self.size next.align) ∧
      (extendAt w self next = .error .sizeOverflow ↔
        roundUp self.size next.align < 2 ^ w ∧ 2 ^ w ≤ roundUp self.size next.align + next.size) ∧
      ∀ layout offset, extendAt w self next = .ok (layout, offset) →
        offset = roundUp self.size next.align ∧ layout.size = offset + next.size ∧
          layout.size < 2 ^ w := by
  unfold extendAt
  dsimp only
  rw [paddingNeededForAt_eq hlen hpow halign]
  cases hoffset : checkedAdd w self.size (padding self.size next.align) with
  | none =>
      have hover : 2 ^ w ≤ roundUp self.size next.align := by
        by_contra hfit
        rw [checkedAdd_eq_some.mpr ⟨rfl, Nat.lt_of_not_le hfit⟩] at hoffset
        cases hoffset
      dsimp only
      refine ⟨⟨fun _ => hover, fun _ => rfl⟩, ⟨nofun, ?_⟩, nofun⟩
      rintro ⟨hfit, -⟩
      omega
  | some offset =>
      obtain ⟨rfl, hfit⟩ := checkedAdd_eq_some.mp hoffset
      have hround : self.size + padding self.size next.align = roundUp self.size next.align := rfl
      rw [hround] at hfit ⊢
      dsimp only
      cases hsize : checkedAdd w (roundUp self.size next.align) next.size with
      | none =>
          have hover : 2 ^ w ≤ roundUp self.size next.align + next.size := by
            by_contra hfits
            rw [checkedAdd_eq_some.mpr ⟨rfl, Nat.lt_of_not_le hfits⟩] at hsize
            cases hsize
          dsimp only
          refine ⟨⟨nofun, fun hle => ?_⟩, ⟨fun _ => ⟨hfit, hover⟩, fun _ => rfl⟩, nofun⟩
          omega
      | some newSize =>
          obtain ⟨rfl, hfits⟩ := checkedAdd_eq_some.mp hsize
          dsimp only
          generalize (if self.align < next.align then next.align else self.align) = newAlign
          unfold fromSizeAlignmentAt
          by_cases hvalid : newAlign.isPowerOfTwo ∧
              roundUp self.size next.align + next.size + newAlign ≤ 2 ^ (w - 1)
          · rw [if_pos hvalid]
            refine ⟨⟨nofun, fun hle => ?_⟩, ⟨nofun, ?_⟩, ?_⟩
            · omega
            · rintro ⟨-, hle⟩
              omega
            · intro layout offset hok
              cases hok
              exact ⟨rfl, rfl, hfits⟩
          · rw [if_neg hvalid]
            refine ⟨⟨nofun, fun hle => ?_⟩, ⟨nofun, ?_⟩, nofun⟩
            · omega
            · rintro ⟨-, hle⟩
              omega

/-- **`padding_needed_for` is right at every word size**, for every length and every power of two below
    `2 ^ w`: the pad is less than the alignment, it is the least that completes the length to a multiple
    modulo `2 ^ w`, and the sum is the length rounded up, or `2 ^ w` itself. So the checked additions of
    `extend` refuse exactly the layouts whose exact offset or size does not fit, and what it returns is
    exact. -/
theorem padding_at_every_width (w : Nat) (self : Layout) (align : Nat) (hlen : self.size < 2 ^ w)
    (hpow : align.isPowerOfTwo) (halign : align < 2 ^ w) :
    paddingNeededForAt w self align < align ∧
      IsLeast {pad | align ∣ (self.size + pad) % 2 ^ w} (paddingNeededForAt w self align) ∧
      ((self.size + paddingNeededForAt w self align < 2 ^ w ∧
          IsLeast {n | self.size ≤ n ∧ align ∣ n} (self.size + paddingNeededForAt w self align)) ∨
        (self.size + paddingNeededForAt w self align = 2 ^ w ∧
          wrappingAdd w self.size (paddingNeededForAt w self align) = 0)) ∧
      ∀ next : Layout, next.align = align →
        (extendAt w self next = .error .offsetOverflow ↔
          2 ^ w ≤ self.size + paddingNeededForAt w self align) ∧
        (extendAt w self next = .error .sizeOverflow ↔
          self.size + paddingNeededForAt w self align < 2 ^ w ∧
            2 ^ w ≤ self.size + paddingNeededForAt w self align + next.size) ∧
        ∀ layout offset, extendAt w self next = .ok (layout, offset) →
          offset = self.size + paddingNeededForAt w self align ∧ layout.size = offset + next.size ∧
            layout.size < 2 ^ w := by
  have hpos : 0 < align := Nat.pos_of_isPowerOfTwo hpow
  have hdvd := dvd_two_pow hpow halign
  have hround := dvd_roundUp self.size hpos
  have hle : roundUp self.size align ≤ 2 ^ w := roundUp_le hpos hdvd hlen.le
  rw [paddingNeededForAt_eq hlen hpow halign]
  refine ⟨padding_lt _ hpos, ⟨?_, ?_⟩, ?_, ?_⟩
  · exact (dvd_mod_two_pow hdvd _).mpr hround
  · intro pad hpad
    exact padding_le hpos ((dvd_mod_two_pow hdvd _).mp hpad)
  · rcases hle.lt_or_eq with hfit | hover
    · refine Or.inl ⟨hfit, ⟨le_roundUp _ _, hround⟩, ?_⟩
      rintro n ⟨hn, hna⟩
      exact roundUp_le hpos hna hn
    · refine Or.inr ⟨hover, ?_⟩
      unfold roundUp at hover
      unfold wrappingAdd
      rw [hover, Nat.mod_self]
  · rintro next rfl
    exact extendAt_cases hlen hpow halign

/-- On 8-bit words, 255 bytes padded to 16 end at 256, and `extend` panics. -/
theorem padding_at_every_width_wraps :
    255 + paddingNeededForAt 8 ⟨255, 1⟩ 16 = 2 ^ 8 ∧
      extendAt 8 ⟨255, 1⟩ ⟨0, 16⟩ = .error .offsetOverflow := by
  obtain ⟨-, -, hends, hextend⟩ := padding_at_every_width 8 ⟨255, 1⟩ 16 (by decide) ⟨4, rfl⟩ (by decide)
  have hover : 255 + paddingNeededForAt 8 ⟨255, 1⟩ 16 = 2 ^ 8 := by
    rcases hends with ⟨hfit, -⟩ | ⟨hover, -⟩
    · exact absurd hfit (by decide)
    · exact hover
  exact ⟨hover, (hextend ⟨0, 16⟩ rfl).1.mpr hover.ge⟩

end LayoutHelper

end RkyvUtils
