import RkyvUtils.AlignedBuffer.Target

/-!
# `AlignedBuffer.Cap` — `TaggedCap`, a capacity or length packed with the "allocated" bit

`raw/cap.rs`: the top bit of a `usize` says whether the buffer has an allocation, the other bits hold the
capacity (unique buffer) or the length (shared buffer). `pack` is the arithmetic reading of the packed
word; every later proof goes through it and never looks at the masks again.
-/

namespace RkyvUtils

open Word

/-- The packed word. -/
structure TaggedCap where
  word : Nat
deriving DecidableEq, Repr

namespace TaggedCap

variable (t : Target)

def tag : Nat := bitNot t.bits (Word.maxValue t.bits >>> 1)

def tagMask : Nat := tag t

/-- All bits but the tag. -/
def valueMask : Nat := bitNot t.bits (tagMask t)

/-- The largest capacity or length that fits beside the tag. -/
def maxValue : Nat := valueMask t

def zero : TaggedCap := ⟨0⟩

def value (c : TaggedCap) : Nat := c.word &&& valueMask t

def isAllocated (c : TaggedCap) : Bool := c.word &&& tagMask t ≠ 0

/-- `with_value`: another value under the same tag. -/
def withValue (c : TaggedCap) (value : Nat) : Except Fault TaggedCap := do
  t.debugAssert (value ≤ valueMask t)
  return ⟨(c.word &&& tagMask t) ||| (value &&& valueMask t)⟩

/-- `with_allocated`: adding the flag to all ones below the tag carries into it. -/
def withAllocated (c : TaggedCap) (allocated : Bool) : TaggedCap :=
  let valuePart := c.word &&& valueMask t
  let tagPart := ((tag t - 1) + allocated.toNat) &&& tagMask t
  ⟨valuePart ||| tagPart⟩

/-- `TaggedCap::new(value, tag)`. -/
def new (value : Nat) (tag : Bool) : Except Fault TaggedCap := do
  let c ← zero.withValue t value
  return c.withAllocated t tag

/-! ## The masks are the top bit and the rest -/

/-- The tag is the top bit. -/
theorem tag_eq : tag t = t.half := by
  have hb := t.bits_ge
  have h2 := t.half_add_half
  unfold tag bitNot Word.maxValue
  rw [Nat.shiftRight_one, ← h2]
  omega

/-- The rest of the word. -/
theorem valueMask_eq : valueMask t = t.half - 1 := by
  have h2 := t.half_add_half
  unfold valueMask tagMask bitNot Word.maxValue
  rw [tag_eq, ← h2]; omega

/-- The arithmetic reading of a packed word: the value below the top bit, the tag in it. -/
def pack (value : Nat) (b : Bool) : TaggedCap := ⟨value + if b then t.half else 0⟩

theorem zero_eq_pack : zero = pack t 0 false := rfl

/-- Masking the value takes the remainder. -/
theorem and_valueMask (x : Nat) : x &&& valueMask t = x % t.half := by
  rw [valueMask_eq]
  exact Nat.and_two_pow_sub_one_eq_mod x (t.bits - 1)

/-- The top bit of a word `value + b · 2^(bits-1)`. -/
theorem and_tagMask {v : Nat} (hv : v < t.half) (b : Bool) :
    (v + if b then t.half else 0) &&& tagMask t = if b then t.half else 0 := by
  unfold tagMask
  rw [tag_eq]
  unfold Target.half at hv ⊢
  rw [Nat.and_two_pow]
  cases b with
  | false =>
      have : v.testBit (t.bits - 1) = false := Nat.testBit_lt_two_pow hv
      simp [this]
  | true =>
      have : (v + 2 ^ (t.bits - 1)).testBit (t.bits - 1) = true := by
        rw [Nat.add_comm, Nat.testBit_two_pow_add_eq, Nat.testBit_lt_two_pow hv]; rfl
      simp [this]

/-- A value and a tag bit overlap nowhere, so `|` is `+`. -/
theorem or_tag {v : Nat} (hv : v < t.half) (b : Bool) :
    v ||| (if b then t.half else 0) = v + if b then t.half else 0 := by
  cases b with
  | false => simp
  | true =>
      unfold Target.half at hv ⊢
      simp only [if_true]
      rw [Nat.add_comm, Nat.or_comm]
      simpa using (Nat.two_pow_add_eq_or_of_lt hv 1).symm

variable {t}

/-- The value of a packed word is what was packed. -/
@[simp] theorem value_pack {v : Nat} (hv : v < t.half) (b : Bool) :
    (pack t v b).value t = v := by
  unfold value pack
  rw [and_valueMask]
  cases b with
  | false => simpa using Nat.mod_eq_of_lt hv
  | true => simp only [if_true, Nat.add_mod_right]; exact Nat.mod_eq_of_lt hv

/-- So is its tag. -/
@[simp] theorem isAllocated_pack {v : Nat} (hv : v < t.half) (b : Bool) :
    (pack t v b).isAllocated t = b := by
  unfold isAllocated pack
  rw [and_tagMask t hv]
  have := t.half_pos
  cases b <;> simp; omega

@[simp] theorem value_zero : zero.value t = 0 := by simp [value, zero]

@[simp] theorem isAllocated_zero : zero.isAllocated t = false := by simp [isAllocated, zero]

/-- **`with_value` on a packed word** replaces the value and keeps the tag. -/
theorem withValue_pack {v v' : Nat} (hv : v < t.half) (hv' : v' < t.half) (b : Bool) :
    (pack t v b).withValue t v' = .ok (pack t v' b) := by
  unfold withValue
  rw [Target.debugAssert_ok (by rw [valueMask_eq]; omega)]
  show Except.ok _ = _
  unfold pack
  dsimp only
  rw [and_tagMask t hv, and_valueMask, Nat.mod_eq_of_lt hv', Nat.or_comm, or_tag t hv']

/-- **`with_allocated` on a packed word** replaces the tag and keeps the value. -/
theorem withAllocated_pack {v : Nat} (hv : v < t.half) (b b' : Bool) :
    (pack t v b).withAllocated t b' = pack t v b' := by
  have hval := value_pack hv b
  unfold value at hval
  have hhalf := t.half_pos
  have htag : ((tag t - 1) + b'.toNat) &&& tagMask t = if b' then t.half else 0 := by
    rw [tag_eq]
    cases b' with
    | false =>
        have := and_tagMask t (show t.half - 1 < t.half by omega) false
        simpa using this
    | true =>
        have := and_tagMask t hhalf true
        rw [show t.half - 1 + true.toNat = 0 + t.half by simp; omega]
        simpa using this
  unfold withAllocated
  dsimp only
  rw [htag, hval, or_tag t hv]
  rfl

/-- **`TaggedCap::new` packs**: for a value that fits, no assertion fails and nothing is masked away. -/
theorem new_eq {v : Nat} (hv : v < t.half) (b : Bool) : new t v b = .ok (pack t v b) := by
  unfold new
  rw [zero_eq_pack t, withValue_pack t.half_pos hv]
  show Except.ok _ = _
  rw [withAllocated_pack hv]

end TaggedCap

end RkyvUtils
