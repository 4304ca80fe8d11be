import RkyvUtils.Lib.Word

/-!
# `AlignedBuffer.Target` — the machine the crates are compiled for, and how a call can end badly

A function of the source that can panic, abort or run into undefined behaviour is a Lean function into
`Except Fault`. Preconditions of the unsafe primitives (a pointer into allocated memory, the safety
section of an allocator method) are checked by the model of the primitive, which faults when they do not
hold; so "no fault" is "no undefined behaviour".
-/

namespace RkyvUtils

open Word

/-- Everything that can end a call other than by returning. -/
inductive Fault where
  /-- a `debug_assert!` failed (only in a build with debug assertions) -/
  | debugAssert
  /-- `panic!("capacity overflow")` -/
  | capacityOverflow
  /-- `handle_alloc_error`, which aborts -/
  | allocError
  /-- `abort()` on an excessive reference count -/
  | refcountAbort
  /-- a slice index out of range -/
  | indexOutOfBounds
  /-- `next()` of an iterator of the caller panicked -/
  | iteratorPanic
  /-- `assert!(cap <= self.cap_or_len())` of `shrink` -/
  | shrinkLarger
  /-- `unreachable!()` -/
  | unreachable
  /-- `expect("Invalid layout")` -/
  | invalidLayout
  /-- an access outside allocated or initialised memory -/
  | memory
  /-- a call of an allocator method outside its safety contract -/
  | contract
deriving DecidableEq, Repr

/-- A panic that the arguments of the call are to blame for. -/
def Fault.isCallers : Fault → Bool
  | .indexOutOfBounds | .iteratorPanic => true
  | _ => false

/-- The panics that the methods of a buffer raise on purpose. They unwind one thread; an abort ends the
    whole process. -/
def Fault.unwinds (f : Fault) : Bool := f.isCallers || f = .capacityOverflow

/-- What the compiler fixes: the width of `usize` and whether debug assertions are compiled in. -/
structure Target where
  /-- `usize::BITS` -/
  bits : Nat
  /-- `cfg!(debug_assertions)` -/
  debug : Bool
  bits_ge : 16 ≤ bits

namespace Target

variable (t : Target)

/-- One below the sign bit: `isize::MAX + 1`, the limit on the size of an allocation. -/
def half : Nat := 2 ^ (t.bits - 1)

theorem half_add_half : t.half + t.half = 2 ^ t.bits := by
  have := t.bits_ge
  unfold half
  rw [← Nat.two_mul, ← Nat.pow_succ']
  congr 1; omega

theorem half_pos : 0 < t.half := Nat.two_pow_pos _

/-- A word has room for the small constants of the crate. -/
theorem le_half : 32768 ≤ t.half := by
  have := t.bits_ge
  calc 32768 = 2 ^ 15 := by norm_num
    _ ≤ t.half := Nat.pow_le_pow_right (by norm_num) (by omega)

/-- `a + b` on `usize`: a panic where overflow is checked, a wrapped sum where it is not. -/
def usizeAdd {ε : Type} (overflow : ε) (a b : Nat) : Except ε Nat :=
  if a + b < 2 ^ t.bits then .ok (a + b)
  else if t.debug then .error overflow
  else .ok (wrappingAdd t.bits a b)

/-- `a - b` on `usize`, in the same way. -/
def usizeSub {ε : Type} (overflow : ε) (a b : Nat) : Except ε Nat :=
  if b ≤ a then .ok (a - b)
  else if t.debug then .error overflow
  else .ok (wrappingSub t.bits a b)

/-- `debug_assert!(c)`. -/
def debugAssert (c : Prop) [Decidable c] : Except Fault Unit :=
  if t.debug ∧ ¬c then .error .debugAssert else .ok ()

variable {t}

@[simp] theorem usizeAdd_of_lt {ε : Type} {overflow : ε} {a b : Nat} (h : a + b < 2 ^ t.bits) :
    t.usizeAdd overflow a b = .ok (a + b) := if_pos h

@[simp] theorem usizeSub_of_le {ε : Type} {overflow : ε} {a b : Nat} (h : b ≤ a) :
    t.usizeSub overflow a b = .ok (a - b) := if_pos h

/-- A debug assertion whose condition holds does nothing. -/
theorem debugAssert_ok {c : Prop} [Decidable c] (h : c) : t.debugAssert c = .ok () := by
  unfold debugAssert
  rw [if_neg (fun hc => hc.2 h)]

theorem debugAssert_error {c : Prop} [Decidable c] (hd : t.debug = true) (h : ¬c) :
    t.debugAssert c = .error .debugAssert := by
  unfold debugAssert
  rw [if_pos ⟨hd, h⟩]

end Target

end RkyvUtils
