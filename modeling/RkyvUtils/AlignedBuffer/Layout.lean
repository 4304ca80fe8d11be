import RkyvUtils.AlignedBuffer.Cap

/-!
# `AlignedBuffer.Layout` — allocation layouts and the offset of the data behind the header

The block of a buffer is a `Header` followed by the data. Its layout is computed twice in the source: at
compile time by the `const` reimplementation `LayoutHelper` (`raw/layout.rs`), which gives
`BUFFER_OFFSET`, and at run time by `std`'s `Layout::extend` inside `RawAlignedBuffer::layout`
(`raw.rs`). Both are here; `layout_eq` says what the second computes, in terms of the first.
-/

namespace RkyvUtils

open Word

/-- `std::alloc::Layout`. -/
structure Layout where
  size : Nat
  align : Nat
deriving DecidableEq, Repr

namespace Layout

variable (t : Target)

/-- `Layout::is_size_align_valid`: the alignment is a power of two and the size, rounded up to it, does
    not exceed `isize::MAX`. -/
def Valid (l : Layout) : Prop := l.align.isPowerOfTwo ∧ l.size + l.align ≤ t.half

instance (l : Layout) : Decidable (l.Valid t) := inferInstanceAs (Decidable (_ ∧ _))

def fromSizeAlign (size align : Nat) : Option Layout :=
  if Valid t ⟨size, align⟩ then some ⟨size, align⟩ else none

/-- `Layout::from_size_align_unchecked` stores its arguments. -/
def fromSizeAlignUnchecked (size align : Nat) : Layout := ⟨size, align⟩

/-- `std`'s `Layout::extend`: the layout of `self` followed by `next`, and the offset of `next` in it;
    `none` is `LayoutError`. -/
def extend (self next : Layout) : Option (Layout × Nat) := do
  let newAlign := max self.align next.align
  let pad := padding self.size next.align
  let offset ← checkedAdd t.bits self.size pad
  let newSize ← checkedAdd t.bits offset next.size
  let layout ← fromSizeAlign t newSize newAlign
  return (layout, offset)

end Layout

/-! ## `LayoutHelper`, the `const` reimplementation (`none` is a compile-time panic) -/

namespace LayoutHelper

variable (t : Target)

def fromSizeAlignment (size alignment : Nat) : Option Layout := Layout.fromSizeAlign t size alignment

def paddingNeededFor (self : Layout) (align : Nat) : Nat :=
  let len := self.size
  let lenRoundedUp :=
    wrappingSub t.bits (wrappingAdd t.bits len align) 1 &&& bitNot t.bits (wrappingSub t.bits align 1)
  wrappingSub t.bits lenRoundedUp len

def extend (self next : Layout) : Option (Layout × Nat) := do
  let newAlign := if self.align < next.align then next.align else self.align
  let pad := paddingNeededFor t self next.align
  let offset ← checkedAdd t.bits self.size pad
  let newSize ← checkedAdd t.bits offset next.size
  let layout ← fromSizeAlignment t newSize newAlign
  return (layout, offset)

/-- **The masked formula is the padding**, for every length and every power of two below `2^bits`. -/
theorem paddingNeededFor_eq {self : Layout} {k : Nat} (hs : self.size < 2 ^ t.bits) (hk : k < t.bits) :
    paddingNeededFor t self (2 ^ k) = padding self.size (2 ^ k) :=
  masked_padding hk hs

end LayoutHelper

/-- The `const BUFFER_OFFSET` of a header layout and an `ALIGNMENT`; `none` when the constant does not
    compile. -/
def bufferOffset? (t : Target) (header : Layout) (alignment : Nat) : Option Nat := do
  let bufferLayout ← LayoutHelper.fromSizeAlignment t 0 alignment
  let (_, offset) ← LayoutHelper.extend t header bufferLayout
  return offset

/-- An instance of the crate: the target, the layout of `Header` on it, and the const generic
    `ALIGNMENT`, for which `BUFFER_OFFSET` compiles. -/
structure Params extends Target where
  /-- `Layout::new::<Header>()` -/
  header : Layout
  /-- `ALIGNMENT` -/
  alignment : Nat
  header_valid : header.Valid toTarget
  offset_defined : (bufferOffset? toTarget header alignment).isSome = true

/-- The crate on a 64-bit target whose cache lines are padded to 128 bytes, at the default alignment. -/
def Params.x86_64 (debug : Bool) : Params where
  bits := 64
  debug := debug
  bits_ge := by omega
  header := ⟨256, 128⟩
  alignment := 64
  header_valid := ⟨⟨7, rfl⟩, by simp [Target.half]⟩
  offset_defined := by cases debug <;> decide

inductive RawBufferError where
  | capacityOverflow
  | allocError (layout : Layout)
deriving DecidableEq, Repr

namespace Params

variable (p : Params)

def bufferOffset : Nat := (bufferOffset? p.toTarget p.header p.alignment).get p.offset_defined

def minNonZeroCap : Nat := 8

def maxCapacity : Nat := TaggedCap.maxValue p.toTarget - p.bufferOffset - 64

/-- `RawAlignedBuffer::layout`: the layout of a block with `size` data bytes. -/
def layout (size : Nat) : Except Fault (Except RawBufferError Layout) :=
  let bufferLayout := Layout.fromSizeAlignUnchecked size p.alignment
  match p.header.extend p.toTarget bufferLayout with
  | none => return .error .capacityOverflow
  | some (layout, offset) => do
      p.debugAssert (offset = p.bufferOffset)
      return .ok layout

/-- `RawAlignedBuffer::alloc_guard`. -/
def allocGuard (allocSize : Nat) : Except RawBufferError Unit :=
  if p.bits < 64 ∧ p.maxCapacity < allocSize - p.header.size then .error .capacityOverflow
  else .ok ()

/-- The alignment of every block: the larger of the header's and `ALIGNMENT`. -/
def blockAlign : Nat := max p.header.align p.alignment

/-! ## What the compile-time constants satisfy -/

theorem fromSizeAlign_eq_some {t : Target} {size align : Nat} {l : Layout} :
    Layout.fromSizeAlign t size align = some l ↔ Layout.Valid t ⟨size, align⟩ ∧ l = ⟨size, align⟩ := by
  unfold Layout.fromSizeAlign
  split
  · exact ⟨fun h => ⟨‹_›, (Option.some.inj h).symm⟩, fun h => by rw [h.2]⟩
  · exact ⟨fun h => absurd h (by simp), fun h => absurd h.1 ‹_›⟩

/-- A valid alignment is a power of two below the sign bit or the sign bit itself. -/
theorem exists_log_of_valid {t : Target} {l : Layout} (h : l.Valid t) :
    ∃ k, l.align = 2 ^ k ∧ k < t.bits := by
  obtain ⟨⟨k, hk⟩, hle⟩ := h
  refine ⟨k, hk, ?_⟩
  have hbits := t.bits_ge
  have : 2 ^ k ≤ 2 ^ (t.bits - 1) := by rw [← hk]; unfold Target.half at hle; omega
  have := (Nat.pow_le_pow_iff_right (by norm_num : 1 < 2)).mp this
  omega

theorem size_lt_of_valid {t : Target} {l : Layout} (h : l.Valid t) : l.size < 2 ^ t.bits := by
  have := h.2; have := t.half_add_half; have := t.half_pos; omega

/-- What it means that `BUFFER_OFFSET` compiles: `ALIGNMENT` is a power of two, and the header rounded
    up to it is a valid layout. -/
theorem constants : p.alignment.isPowerOfTwo ∧ p.bufferOffset = roundUp p.header.size p.alignment ∧
    p.bufferOffset + p.blockAlign ≤ p.half := by
  have hdef : bufferOffset? p.toTarget p.header p.alignment = some p.bufferOffset :=
    (Option.some_get p.offset_defined).symm
  unfold bufferOffset? LayoutHelper.fromSizeAlignment LayoutHelper.extend at hdef
  simp only [Option.bind_eq_bind, Option.bind_eq_some_iff, fromSizeAlign_eq_some] at hdef
  obtain ⟨_, ⟨hvalid, rfl⟩, ⟨_, _⟩, ⟨offset, hoff, size, hsize, layout, hlay, hpair⟩, hres⟩ := hdef
  have hle := (fromSizeAlign_eq_some.mp hlay).1.2
  obtain ⟨k, hk, hkb⟩ := exists_log_of_valid hvalid
  dsimp only at hk
  have hpad : LayoutHelper.paddingNeededFor p.toTarget p.header p.alignment
      = padding p.header.size p.alignment := by
    rw [hk]; exact LayoutHelper.paddingNeededFor_eq _ (size_lt_of_valid p.header_valid) hkb
  rw [hpad] at hoff
  obtain ⟨rfl, -⟩ := checkedAdd_eq_some.mp hoff
  obtain ⟨rfl, -⟩ := checkedAdd_eq_some.mp hsize
  simp only [pure, Option.some.injEq, Prod.mk.injEq] at hpair hres
  obtain ⟨-, rfl⟩ := hpair
  refine ⟨⟨k, hk⟩, hres.symm, ?_⟩
  unfold blockAlign
  rw [← hres]
  dsimp only at hle
  split at hle <;> omega

theorem alignment_isPowerOfTwo : p.alignment.isPowerOfTwo := p.constants.1

theorem bufferOffset_eq : p.bufferOffset = roundUp p.header.size p.alignment := p.constants.2.1

theorem bufferOffset_add_blockAlign_le : p.bufferOffset + p.blockAlign ≤ p.half := p.constants.2.2

/-- The header ends where the data starts, or before. -/
theorem header_size_le_bufferOffset : p.header.size ≤ p.bufferOffset := by
  rw [bufferOffset_eq]
  exact le_roundUp _ _

theorem alignment_pos : 0 < p.alignment := Nat.pos_of_isPowerOfTwo p.alignment_isPowerOfTwo

theorem alignment_dvd_bufferOffset : p.alignment ∣ p.bufferOffset := by
  rw [bufferOffset_eq]; exact dvd_roundUp _ p.alignment_pos

/-- Powers of two are ordered by divisibility. -/
theorem dvd_max_of_isPowerOfTwo {a b : Nat} (ha : a.isPowerOfTwo) (hb : b.isPowerOfTwo) :
    a ∣ max a b ∧ b ∣ max a b ∧ (max a b).isPowerOfTwo := by
  obtain ⟨i, rfl⟩ := ha
  obtain ⟨j, rfl⟩ := hb
  rcases le_total i j with h | h
  · have hle : 2 ^ i ≤ 2 ^ j := Nat.pow_le_pow_right (by norm_num) h
    rw [max_eq_right hle]
    exact ⟨Nat.pow_dvd_pow 2 h, dvd_rfl, j, rfl⟩
  · have hle : 2 ^ j ≤ 2 ^ i := Nat.pow_le_pow_right (by norm_num) h
    rw [max_eq_left hle]
    exact ⟨dvd_rfl, Nat.pow_dvd_pow 2 h, i, rfl⟩

theorem alignment_dvd_blockAlign : p.alignment ∣ p.blockAlign :=
  (dvd_max_of_isPowerOfTwo p.header_valid.1 p.alignment_isPowerOfTwo).2.1

theorem header_align_dvd_blockAlign : p.header.align ∣ p.blockAlign :=
  (dvd_max_of_isPowerOfTwo p.header_valid.1 p.alignment_isPowerOfTwo).1

theorem blockAlign_isPowerOfTwo : p.blockAlign.isPowerOfTwo :=
  (dvd_max_of_isPowerOfTwo p.header_valid.1 p.alignment_isPowerOfTwo).2.2

theorem blockAlign_pos : 0 < p.blockAlign := Nat.pos_of_isPowerOfTwo p.blockAlign_isPowerOfTwo

/-- **`Layout::extend` on the header**: the data starts at `BUFFER_OFFSET`, whatever its size. -/
theorem extend_header_eq (size : Nat) :
    p.header.extend p.toTarget (Layout.fromSizeAlignUnchecked size p.alignment) =
      if p.bufferOffset + size + p.blockAlign ≤ p.half
        then some (⟨p.bufferOffset + size, p.blockAlign⟩, p.bufferOffset) else none := by
  have hoff : p.header.size + padding p.header.size p.alignment = p.bufferOffset :=
    p.bufferOffset_eq.symm
  have hhalf := p.half_add_half
  have hpos := p.blockAlign_pos
  have hbound := p.bufferOffset_add_blockAlign_le
  unfold Layout.extend Layout.fromSizeAlignUnchecked
  dsimp only
  rw [show checkedAdd p.bits p.header.size (padding p.header.size p.alignment)
    = some p.bufferOffset from checkedAdd_eq_some.mpr ⟨hoff.symm, by omega⟩]
  simp only [Option.bind_eq_bind, Option.bind_some]
  by_cases hfit : p.bufferOffset + size + p.blockAlign ≤ p.half
  · have hvalid : Layout.Valid p.toTarget ⟨p.bufferOffset + size, p.blockAlign⟩ :=
      ⟨p.blockAlign_isPowerOfTwo, hfit⟩
    rw [if_pos hfit, show checkedAdd p.bits p.bufferOffset size = some (p.bufferOffset + size) from
      checkedAdd_eq_some.mpr ⟨rfl, by omega⟩, Option.bind_some,
      show Layout.fromSizeAlign p.toTarget (p.bufferOffset + size) (max p.header.align p.alignment)
        = some ⟨p.bufferOffset + size, p.blockAlign⟩ from fromSizeAlign_eq_some.mpr ⟨hvalid, rfl⟩]
    rfl
  · rw [if_neg hfit]
    cases hsum : checkedAdd p.bits p.bufferOffset size with
    | none => rfl
    | some total =>
        obtain ⟨rfl, -⟩ := checkedAdd_eq_some.mp hsum
        have hnone : Layout.fromSizeAlign p.toTarget (p.bufferOffset + size)
            (max p.header.align p.alignment) = none := by
          unfold Layout.fromSizeAlign
          rw [if_neg (fun h => hfit h.2)]
        rw [Option.bind_some, hnone]
        rfl

/-- **`RawAlignedBuffer::layout`**: the run-time offset is the compile-time one, so its assertion never
    fails; the layout is `BUFFER_OFFSET + size` bytes at the block alignment, and a size past the
    `isize::MAX` bound is a `CapacityOverflow`. -/
theorem layout_eq (size : Nat) :
    p.layout size = .ok (if p.bufferOffset + size + p.blockAlign ≤ p.half
      then .ok ⟨p.bufferOffset + size, p.blockAlign⟩ else .error .capacityOverflow) := by
  unfold layout
  dsimp only
  rw [extend_header_eq]
  by_cases hfit : p.bufferOffset + size + p.blockAlign ≤ p.half
  · simp only [if_pos hfit]
    rw [Target.debugAssert_ok trivial]
    rfl
  · simp only [if_neg hfit]
    rfl

end Params

end RkyvUtils
