import Mathlib.Data.Nat.Bitwise
import Mathlib.Tactic.Ring
import Mathlib.Tactic.NormNum

/-!
# `Lib.Word` — unsigned machine words of any width, and rounding up to a power of two

A word of width `w` is a `Nat` below `2 ^ w`. The wrapping and checked operations and the bitwise
complement are stated once for every width, and the mask formulas that allocation code is full of
(`x & !(align - 1)`, `(len + align - 1) & !(align - 1)`, `0 - addr % align`) are proved equal to
arithmetic ones. Nothing here names a program.
-/

namespace Word

/-- The largest word of width `w`. -/
def maxValue (w : Nat) : Nat := 2 ^ w - 1

/-- The largest *signed* word of width `w` (`isize::MAX`). -/
def maxSigned (w : Nat) : Nat := 2 ^ (w - 1) - 1

/-- Addition modulo `2 ^ w`. -/
def wrappingAdd (w a b : Nat) : Nat := (a + b) % 2 ^ w

/-- Subtraction modulo `2 ^ w`. -/
def wrappingSub (w a b : Nat) : Nat := (a + (2 ^ w - b)) % 2 ^ w

/-- Bitwise complement of a word. -/
def bitNot (w a : Nat) : Nat := maxValue w - a

/-- Addition that reports overflow. -/
def checkedAdd (w a b : Nat) : Option Nat := if a + b < 2 ^ w then some (a + b) else none

/-! ## The wrapping operations inside and outside their range -/

theorem wrappingSub_of_le {w a b : Nat} (hb : b ≤ a) (ha : a < 2 ^ w) :
    wrappingSub w a b = a - b := by
  unfold wrappingSub
  rw [show a + (2 ^ w - b) = (a - b) + 2 ^ w by omega, Nat.add_mod_right,
    Nat.mod_eq_of_lt (by omega)]

theorem wrappingSub_of_lt {w a b : Nat} (hab : a < b) (hb : b < 2 ^ w) :
    wrappingSub w a b = 2 ^ w - (b - a) := by
  unfold wrappingSub
  rw [Nat.mod_eq_of_lt (by omega)]
  omega

theorem wrappingAdd_of_lt {w a b : Nat} (h : a + b < 2 ^ w) : wrappingAdd w a b = a + b :=
  Nat.mod_eq_of_lt h

theorem wrappingAdd_of_ge {w a b : Nat} (ha : a < 2 ^ w) (hb : b < 2 ^ w) (h : 2 ^ w ≤ a + b) :
    wrappingAdd w a b = a + b - 2 ^ w := by
  unfold wrappingAdd
  rw [Nat.mod_eq_sub_mod h, Nat.mod_eq_of_lt (by omega)]

theorem checkedAdd_eq_some {w a b c : Nat} :
    checkedAdd w a b = some c ↔ c = a + b ∧ a + b < 2 ^ w := by
  unfold checkedAdd
  split
  · exact ⟨fun h => ⟨(Option.some.inj h).symm, ‹_›⟩, fun h => by rw [h.1]⟩
  · exact ⟨fun h => absurd h (by simp), fun h => absurd h.2 ‹_›⟩

/-! ## Masks -/

/-- **Clearing the low bits.** `x & !(2 ^ k - 1)` rounds `x` down to a multiple of `2 ^ k`. -/
theorem and_bitNot_mask {w k x : Nat} (hk : k ≤ w) (hx : x < 2 ^ w) :
    x &&& bitNot w (2 ^ k - 1) = x - x % 2 ^ k := by
  have hdecomp : x &&& bitNot w (2 ^ k - 1) = 2 ^ k * (x / 2 ^ k) := by
    apply Nat.eq_of_testBit_eq
    intro i
    have hmask : bitNot w (2 ^ k - 1) = 2 ^ k * (2 ^ (w - k) - 1) := by
      have hpow : 2 ^ w = 2 ^ k * 2 ^ (w - k) := by rw [← Nat.pow_add]; congr 1; omega
      have hpos := Nat.two_pow_pos k
      have hpos' := Nat.two_pow_pos (w - k)
      unfold bitNot maxValue
      rw [hpow, Nat.mul_sub_one]
      have : 2 ^ k ≤ 2 ^ k * 2 ^ (w - k) := Nat.le_mul_of_pos_right _ hpos'
      omega
    rw [Nat.testBit_and, hmask, Nat.testBit_two_pow_mul, Nat.testBit_two_pow_sub_one,
      Nat.testBit_two_pow_mul, Nat.testBit_div_two_pow]
    by_cases hik : k ≤ i
    · have hsub : i - k + k = i := by omega
      by_cases hiw : i < w
      · simp [hik, hsub, show i - k < w - k by omega]
      · have hxi : x.testBit i = false :=
          Nat.testBit_lt_two_pow (lt_of_lt_of_le hx (Nat.pow_le_pow_right (by omega) (by omega)))
        simp [hik, hsub, hxi]
    · simp [hik]
  rw [hdecomp]
  have := Nat.div_add_mod x (2 ^ k)
  omega

/-! ## Rounding up -/

/-- The least number to add to `n` to reach a multiple of `a`. -/
def padding (n a : Nat) : Nat := (a - n % a) % a

/-- The least multiple of `a` that is at least `n`. -/
def roundUp (n a : Nat) : Nat := n + padding n a

theorem padding_lt (n : Nat) {a : Nat} (ha : 0 < a) : padding n a < a := Nat.mod_lt _ ha

/-- **`roundUp` reaches a multiple.** -/
theorem dvd_roundUp (n : Nat) {a : Nat} (ha : 0 < a) : a ∣ roundUp n a := by
  have hr := Nat.mod_lt n ha
  have hn := Nat.div_add_mod n a
  unfold roundUp padding
  by_cases hz : n % a = 0
  · rw [hz, Nat.sub_zero, Nat.mod_self, Nat.add_zero]
    exact Nat.dvd_of_mod_eq_zero hz
  · rw [Nat.mod_eq_of_lt (by omega : a - n % a < a)]
    refine ⟨n / a + 1, ?_⟩
    rw [Nat.mul_add, Nat.mul_one]; omega

theorem le_roundUp (n a : Nat) : n ≤ roundUp n a := Nat.le_add_right _ _

/-- **The padding is determined**: any number below `a` that completes `n` to a multiple is it. -/
theorem padding_unique {n a m : Nat} (hm : m < a) (h : a ∣ n + m) : m = padding n a := by
  have ha : 0 < a := by omega
  have hp := padding_lt n ha
  have hd := dvd_roundUp n ha
  unfold roundUp at hd
  rcases le_total m (padding n a) with hle | hle
  · have := (Nat.dvd_add_right h).mp (show a ∣ n + m + (padding n a - m) by
      rw [show n + m + (padding n a - m) = n + padding n a by omega]; exact hd)
    have := Nat.eq_zero_of_dvd_of_lt this (by omega)
    omega
  · have := (Nat.dvd_add_right hd).mp (show a ∣ n + padding n a + (m - padding n a) by
      rw [show n + padding n a + (m - padding n a) = n + m by omega]; exact h)
    have := Nat.eq_zero_of_dvd_of_lt this (by omega)
    omega

/-- **The padding is the least** completion of `n` to a multiple. -/
theorem padding_le {n a q : Nat} (ha : 0 < a) (h : a ∣ n + q) : padding n a ≤ q := by
  have hmod : a ∣ n + q % a := by
    have hq := Nat.div_add_mod q a
    rw [← hq, ← Nat.add_assoc, Nat.add_right_comm] at h
    exact (Nat.dvd_add_left (Nat.dvd_mul_right _ _)).mp h
  rw [← padding_unique (Nat.mod_lt q ha) hmod]
  exact Nat.mod_le q a

/-- **`roundUp` is the least** multiple from `n` on. -/
theorem roundUp_le {n a m : Nat} (ha : 0 < a) (hm : a ∣ m) (hle : n ≤ m) : roundUp n a ≤ m := by
  have hpad : padding n a ≤ m - n := padding_le ha (by rwa [Nat.add_sub_cancel' hle])
  unfold roundUp
  omega

theorem roundUp_of_dvd {n a : Nat} (ha : 0 < a) (h : a ∣ n) : roundUp n a = n :=
  Nat.le_antisymm (roundUp_le ha h (Nat.le_refl n)) (le_roundUp n a)

/-- Rounding to a divisor first changes nothing. -/
theorem roundUp_roundUp_of_dvd {n a b : Nat} (hb : 0 < b) (hab : a ∣ b) :
    roundUp (roundUp n a) b = roundUp n b := by
  have ha : 0 < a := Nat.pos_of_dvd_of_pos hab hb
  apply Nat.le_antisymm
  · exact roundUp_le hb (dvd_roundUp n hb) (roundUp_le ha (hab.trans (dvd_roundUp n hb)) (le_roundUp n b))
  · exact roundUp_le hb (dvd_roundUp _ hb) ((le_roundUp n a).trans (le_roundUp _ b))

/-- **Roundings to powers of two do not add up**: two of them are one, to the larger. -/
theorem roundUp_roundUp (n : Nat) {a b : Nat} (ha : a.isPowerOfTwo) (hb : b.isPowerOfTwo) :
    roundUp (roundUp n a) b = roundUp n (max a b) := by
  have hapos := Nat.pos_of_isPowerOfTwo ha
  have hbpos := Nat.pos_of_isPowerOfTwo hb
  obtain ⟨i, rfl⟩ := ha
  obtain ⟨j, rfl⟩ := hb
  rcases le_total i j with h | h
  · rw [max_eq_right (Nat.pow_le_pow_right (by norm_num) h)]
    exact roundUp_roundUp_of_dvd hbpos (Nat.pow_dvd_pow 2 h)
  · rw [max_eq_left (Nat.pow_le_pow_right (by norm_num) h)]
    exact roundUp_of_dvd hbpos ((Nat.pow_dvd_pow 2 h).trans (dvd_roundUp n hapos))

/-- From a multiple of `a` on, the padding is that of the distance. -/
theorem padding_add_of_dvd {b n a : Nat} (h : a ∣ b) : padding (b + n) a = padding n a := by
  unfold padding
  rw [Nat.add_mod, Nat.mod_eq_zero_of_dvd h, Nat.zero_add, Nat.mod_mod]

/-! ## The two padding formulas of allocation code -/

/-- **The masked formula.** `((len + align - 1) & !(align - 1)) - len`, all modulo `2 ^ w`, is the
    padding to the next multiple of `align` for every power of two `align` below `2 ^ w`, also when the
    rounding itself overflows. -/
theorem masked_padding {w k len : Nat} (hk : k < w) (hlen : len < 2 ^ w) :
    wrappingSub w (wrappingSub w (wrappingAdd w len (2 ^ k)) 1 &&&
      bitNot w (wrappingSub w (2 ^ k) 1)) len = padding len (2 ^ k) := by
  have hkw : 2 ^ k < 2 ^ w := Nat.pow_lt_pow_right (by omega) hk
  have hkpos := Nat.two_pow_pos k
  have hdvd : 2 ^ k ∣ 2 ^ w := Nat.pow_dvd_pow 2 hk.le
  have hround := dvd_roundUp len hkpos
  have hpad := padding_lt len hkpos
  unfold roundUp at hround
  rw [wrappingSub_of_le hkpos hkw]
  rcases lt_or_ge (len + 2 ^ k - 1) (2 ^ w) with hfit | hover
  · -- the sum fits, so the mask rounds `len + align - 1` down to the rounding of `len`
    have hsum : wrappingSub w (wrappingAdd w len (2 ^ k)) 1 = len + 2 ^ k - 1 := by
      rcases lt_or_ge (len + 2 ^ k) (2 ^ w) with h | h
      · rw [wrappingAdd_of_lt h, wrappingSub_of_le (by omega) h]
      · rw [wrappingAdd_of_ge hlen hkw h, show len + 2 ^ k - 2 ^ w = 0 by omega,
          wrappingSub_of_lt (by omega) (by omega)]
        omega
    rw [hsum, and_bitNot_mask hk.le hfit]
    have hmod : (len + 2 ^ k - 1) % 2 ^ k = 2 ^ k - 1 - padding len (2 ^ k) := by
      obtain ⟨c, hc⟩ := hround
      rw [show len + 2 ^ k - 1 = (2 ^ k - 1 - padding len (2 ^ k)) + 2 ^ k * c by omega,
        Nat.add_mul_mod_self_left, Nat.mod_eq_of_lt (by omega)]
    rw [hmod, show len + 2 ^ k - 1 - (2 ^ k - 1 - padding len (2 ^ k)) = len + padding len (2 ^ k) by
      omega, wrappingSub_of_le (by omega) (by omega)]
    omega
  · -- the sum wraps below `align - 1`, the mask gives 0, and `0 - len` is the distance to `2 ^ w`
    have hsum : wrappingSub w (wrappingAdd w len (2 ^ k)) 1 = len + 2 ^ k - 1 - 2 ^ w := by
      rw [wrappingAdd_of_ge hlen hkw (by omega), wrappingSub_of_le (by omega) (by omega)]
      omega
    rw [hsum, and_bitNot_mask hk.le (by omega),
      Nat.mod_eq_of_lt (show len + 2 ^ k - 1 - 2 ^ w < 2 ^ k by omega), Nat.sub_self,
      wrappingSub_of_lt (by omega) hlen, Nat.sub_zero]
    exact padding_unique (by omega) (by rw [show len + (2 ^ w - len) = 2 ^ w by omega]; exact hdvd)

/-- **The negated-remainder formula.** `(0 - addr) % align`, modulo `2 ^ w`, is the padding of `addr`
    for every `align` that divides `2 ^ w`, also at the end of the address space. -/
theorem neg_mod_padding {w a addr : Nat} (ha : a ∣ 2 ^ w) (haddr : addr ≤ 2 ^ w) :
    wrappingSub w 0 addr % a = padding addr a := by
  have hapos : 0 < a := Nat.pos_of_dvd_of_pos ha (Nat.two_pow_pos w)
  refine padding_unique (Nat.mod_lt _ hapos) ?_
  unfold wrappingSub
  rw [Nat.zero_add, Nat.mod_mod_of_dvd _ ha, Nat.dvd_iff_mod_eq_zero, Nat.add_mod, Nat.mod_mod,
    ← Nat.add_mod, show addr + (2 ^ w - addr) = 2 ^ w by omega]
  exact Nat.mod_eq_zero_of_dvd ha

end Word
