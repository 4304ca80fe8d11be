import RkyvUtils.AlignedBuffer.UniqueSpec

/-!
# `AlignedBuffer.CheckedLayout` — the growing methods with the precondition of their layouts checked

`RawAlignedBuffer::layout` makes the layout of the data with `Layout::from_size_align_unchecked`, whose
safety section asks for a power of two and for a size that, rounded up to it, is at most `isize::MAX`. The
model of that function stores its arguments. Here the methods on the way to it are written once more with
the layout function as a parameter: at `Params.layout` they are the methods themselves (`by_layout`), at
`Params.layoutChecked` a call outside the precondition is the fault `contract`.
-/

namespace RkyvUtils

open Word

namespace Params

variable (p : Params)

/-- The safety precondition of `Layout::from_size_align_unchecked(size, ALIGNMENT)`. -/
def UncheckedSafe (size : Nat) : Prop :=
  p.alignment.isPowerOfTwo ∧ roundUp size p.alignment ≤ maxSigned p.bits

instance (size : Nat) : Decidable (p.UncheckedSafe size) := inferInstanceAs (Decidable (_ ∧ _))

/-- `RawAlignedBuffer::layout`, with the precondition of the unchecked constructor asked for. -/
def layoutChecked (size : Nat) : Except Fault (Except RawBufferError Layout) :=
  if p.UncheckedSafe size then p.layout size else .error .contract

end Params

namespace RawAlignedBuffer

variable {α : Type} {p : Params} (layout : Nat → Except Fault (Except RawBufferError Layout))
  (A : Allocator p.toTarget)

/-! ## The methods over a layout function -/

def allocBy (h : Heap) (this : RawAlignedBuffer α) (cap : Nat) : Except Fault (Reserved α) := do
  p.debugAssert (this.value p = 0)
  p.debugAssert (¬this.isAllocated p)
  match ← layout cap with
  | .error _ => return (h, this, .error .capacityOverflow)
  | .ok layout =>
    match p.allocGuard layout.size with
    | .error e => return (h, this, .error e)
    | .ok () =>
      match h.allocate A layout with
      | (h, none) => return (h, this, .error (.allocError layout))
      | (h, some (ptr, len)) =>
          let cap := len - p.bufferOffset
          let h ← h.setHeader ptr ⟨1, cap⟩
          let capOrLen ← TaggedCap.new p.toTarget cap true
          return (h, { this with buf := ptr.add p.bufferOffset, capOrLen }, .ok ())

def reallocBy (h : Heap) (this : RawAlignedBuffer α) (cap : Nat) : Except Fault (Reserved α) := do
  p.debugAssert (this.value p ≠ 0)
  p.debugAssert (this.isAllocated p)
  match ← layout cap with
  | .error e => return (h, this, .error e)
  | .ok newLayout =>
    match p.allocGuard newLayout.size with
    | .error e => return (h, this, .error e)
    | .ok () =>
      match ← layout (this.value p) with
      | .error _ => .error .unreachable
      | .ok oldLayout => do
          p.debugAssert (oldLayout.align = newLayout.align)
          let ptr := this.buf.sub p.bufferOffset
          if oldLayout.size = newLayout.size then return (h, this, .ok ())
          else if oldLayout.size < newLayout.size then
            reallocFinish p this newLayout (← h.grow A ptr oldLayout newLayout)
          else
            reallocFinish p this newLayout (← h.shrink A ptr oldLayout newLayout)

def growToBy (h : Heap) (this : RawAlignedBuffer α) (cap : Nat) : Except Fault (Reserved α) := do
  p.debugAssert (this.value p < cap)
  if ¬this.isAllocated p then allocBy layout A h this cap else reallocBy layout A h this cap

def growAmortizedBy (h : Heap) (this : RawAlignedBuffer α) (len additional : Nat) :
    Except Fault (Reserved α) := do
  p.debugAssert (0 < additional)
  match checkedAdd p.bits len additional with
  | none => return (h, this, .error .capacityOverflow)
  | some requiredCap =>
      let cap := max ((this.value p * 2) % 2 ^ p.bits) requiredCap
      let cap := max Params.minNonZeroCap cap
      growToBy layout A h this cap

def growExactBy (h : Heap) (this : RawAlignedBuffer α) (len additional : Nat) :
    Except Fault (Reserved α) :=
  match checkedAdd p.bits len additional with
  | none => return (h, this, .error .capacityOverflow)
  | some cap => growToBy layout A h this cap

def tryReserveBy (h : Heap) (this : RawAlignedBuffer α) (len additional : Nat) :
    Except Fault (Reserved α) :=
  if this.needsToGrow p len additional then growAmortizedBy layout A h this len additional
  else return (h, this, .ok ())

def tryReserveExactBy (h : Heap) (this : RawAlignedBuffer α) (len additional : Nat) :
    Except Fault (Reserved α) :=
  if this.needsToGrow p len additional then growExactBy layout A h this len additional
  else return (h, this, .ok ())

def reserveBy (h : Heap) (this : RawAlignedBuffer α) (len additional : Nat) :
    Except Fault (Heap × RawAlignedBuffer α) :=
  if this.needsToGrow p len additional then do
    let (h, this, result) ← growAmortizedBy layout A h this len additional
    handleReserve result
    return (h, this)
  else return (h, this)

def reserveExactBy (h : Heap) (this : RawAlignedBuffer α) (len additional : Nat) :
    Except Fault (Heap × RawAlignedBuffer α) := do
  let (h, this, result) ← tryReserveExactBy layout A h this len additional
  handleReserve result
  return (h, this)

def withCapacityInBy (h : Heap) (size : Nat) (alloc : α) :
    Except Fault (Heap × RawAlignedBuffer α) :=
  let buf := newIn alloc
  if size = 0 then return (h, buf)
  else do
    let (h, buf, result) ← allocBy layout A h buf size
    handleReserve result
    return (h, buf)

/-- **With `Params.layout` they are the methods of the source.** -/
theorem by_layout : tryReserveBy (α := α) p.layout A = tryReserve A ∧
    tryReserveExactBy (α := α) p.layout A = tryReserveExact A ∧
    reserveBy (α := α) p.layout A = reserve A ∧ reserveExactBy (α := α) p.layout A = reserveExact A ∧
    withCapacityInBy (α := α) p.layout A = withCapacityIn A := ⟨rfl, rfl, rfl, rfl, rfl⟩

/-! ## What the check finds -/

section

variable {h : Heap} {this : RawAlignedBuffer α} {o : Option BlockId} {data : List (Option UInt8)}
  {cap len additional : Nat}

/-- A size is inside the precondition when it is at most `isize::MAX + 1 - ALIGNMENT`. -/
theorem uncheckedSafe_iff : p.UncheckedSafe cap ↔ cap + p.alignment ≤ p.half := by
  have hpos := p.alignment_pos
  have hhalf := p.half_pos
  have hle : p.alignment ≤ p.half := by
    have := p.bufferOffset_add_blockAlign_le
    have : p.alignment ≤ p.blockAlign := Nat.le_max_right _ _
    omega
  have hround := dvd_roundUp cap hpos
  have hcap := le_roundUp cap p.alignment
  have hpad := padding_lt cap hpos
  -- both are powers of two
  have hdvd : p.alignment ∣ p.half := by
    obtain ⟨k, hk⟩ := p.alignment_isPowerOfTwo
    rw [hk] at hle ⊢
    exact Nat.pow_dvd_pow 2 ((Nat.pow_le_pow_iff_right (by norm_num)).mp hle)
  have hmax : maxSigned p.bits = p.half - 1 := rfl
  unfold Params.UncheckedSafe
  rw [hmax]
  constructor
  · rintro ⟨-, hsafe⟩
    have hlt : roundUp cap p.alignment + p.alignment ≤ p.half := by
      obtain ⟨q, hq⟩ := hround
      obtain ⟨r, hr⟩ := hdvd
      rw [hq] at hsafe ⊢
      rw [hr] at hsafe hhalf ⊢
      have hqr : q < r := Nat.lt_of_mul_lt_mul_left (show p.alignment * q < p.alignment * r by omega)
      calc p.alignment * q + p.alignment = p.alignment * (q + 1) := (Nat.mul_succ _ _).symm
        _ ≤ p.alignment * r := Nat.mul_le_mul_left _ hqr
    omega
  · intro hfits
    refine ⟨p.alignment_isPowerOfTwo, ?_⟩
    unfold roundUp
    omega

theorem uncheckedSafe_of_ok {blk : Block} (ok : blk.Ok p) : p.UncheckedSafe blk.data.length := by
  have hsize := ok.size_eq
  have hle := ok.size_le
  have halign : p.alignment ≤ p.blockAlign := Nat.le_max_right _ _
  rw [uncheckedSafe_iff]
  omega

theorem allocBy_checked (alloc : α) (cap : Nat) : allocBy p.layoutChecked A h (newIn alloc) cap =
    if p.UncheckedSafe cap then alloc' A h (newIn alloc) cap else .error .contract := by
  unfold allocBy Params.layoutChecked
  by_cases hsafe : p.UncheckedSafe cap
  · simp only [if_pos hsafe]
    rfl
  · simp only [if_neg hsafe]
    rw [value_newIn, isAllocated_newIn, Target.debugAssert_ok rfl, ok_bind,
      Target.debugAssert_ok (by simp), ok_bind]
    rfl

theorem reallocBy_checked (hh : Holds p h this o data) (hall : this.isAllocated p = true) (cap : Nat) :
    reallocBy p.layoutChecked A h this cap =
      if p.UncheckedSafe cap then realloc A h this cap else .error .contract := by
  by_cases hsafe : p.UncheckedSafe cap
  · have hnew : p.layoutChecked cap = p.layout cap := if_pos hsafe
    -- the capacity of a block was a valid request once
    have hold : p.layoutChecked (this.value p) = p.layout (this.value p) := by
      rw [hh.value_eq]
      cases hh with
      | empty alloc => simp at hall
      | block alloc hb ok header => exact if_pos (uncheckedSafe_of_ok ok)
    have hsame : reallocBy p.layoutChecked A h this cap = reallocBy p.layout A h this cap := by
      unfold reallocBy
      rw [hnew, hold]
    rw [if_pos hsafe]
    exact hsame
  · have hnew : p.layoutChecked cap = .error .contract := if_neg hsafe
    have hpos := hh.isAllocated_iff.mp hall
    rw [if_neg hsafe]
    unfold reallocBy
    rw [hh.value_eq, Target.debugAssert_ok hpos, ok_bind, Target.debugAssert_ok hall, ok_bind, hnew]
    rfl

/-- **`grow_to` under the check**: one call of the unchecked constructor may be outside its precondition,
    the one for the new capacity. -/
theorem growToBy_checked (hh : Holds p h this o data) (hcap : data.length < cap) :
    growToBy p.layoutChecked A h this cap =
      if p.UncheckedSafe cap then growTo A h this cap else .error .contract := by
  unfold growToBy growTo
  rw [hh.value_eq, Target.debugAssert_ok hcap, ok_bind, ok_bind]
  by_cases hall : this.isAllocated p = true
  · rw [if_neg (not_not.mpr hall), if_neg (not_not.mpr hall)]
    exact reallocBy_checked A hh hall cap
  · rw [if_pos hall, if_pos hall]
    cases hh with
    | empty alloc => exact allocBy_checked A alloc cap
    | block alloc hb ok header => exact absurd (TaggedCap.isAllocated_pack ok.data_lt _) hall

/-- The capacity that `grow_amortized` asks `grow_to` for. -/
def doubledCap (capacity requiredCap : Nat) : Nat :=
  max Params.minNonZeroCap (max (capacity * 2) requiredCap)

/-- The doubling does not wrap. -/
theorem Holds.doubledCap_eq (hh : Holds p h this o data) (requiredCap : Nat) :
    max Params.minNonZeroCap (max ((this.value p * 2) % 2 ^ p.bits) requiredCap)
      = doubledCap data.length requiredCap := by
  have hlt := hh.length_lt
  have hhalf := p.half_add_half
  rw [hh.value_eq, Nat.mod_eq_of_lt (by omega)]
  rfl

/-- **`grow_amortized`** is a checked sum and `grow_to`. -/
theorem growAmortizedBy_eq (hh : Holds p h this o data) (hgrow : 0 < additional) :
    growAmortizedBy layout A h this len additional =
      if len + additional < 2 ^ p.bits then
        growToBy layout A h this (doubledCap data.length (len + additional))
      else .ok (h, this, .error .capacityOverflow) := by
  unfold growAmortizedBy checkedAdd
  rw [Target.debugAssert_ok hgrow, ok_bind]
  by_cases hsum : len + additional < 2 ^ p.bits
  · simp only [if_pos hsum]
    rw [hh.doubledCap_eq]
  · simp only [if_neg hsum]
    rfl

theorem growExactBy_eq : growExactBy layout A h this len additional =
    if len + additional < 2 ^ p.bits then growToBy layout A h this (len + additional)
    else .ok (h, this, .error .capacityOverflow) := by
  unfold growExactBy checkedAdd
  by_cases hsum : len + additional < 2 ^ p.bits
  · simp only [if_pos hsum]
  · simp only [if_neg hsum]
    rfl

/-- `grow_to` behind the checked sum, under the check. -/
theorem growToBy_sum_checked (hh : Holds p h this o data) (hcap : data.length < cap) (sum : Nat) :
    (if sum < 2 ^ p.bits then growToBy p.layoutChecked A h this cap
      else .ok (h, this, .error .capacityOverflow)) =
      if sum < 2 ^ p.bits ∧ ¬p.UncheckedSafe cap then .error .contract
      else if sum < 2 ^ p.bits then growToBy p.layout A h this cap
        else .ok (h, this, .error .capacityOverflow) := by
  rw [growToBy_checked A hh hcap]
  by_cases hsum : sum < 2 ^ p.bits
  · by_cases hsafe : p.UncheckedSafe cap
    · rw [if_pos hsum, if_pos hsafe, if_neg (fun hc => hc.2 hsafe), if_pos hsum]
      rfl
    · rw [if_pos hsum, if_neg hsafe, if_pos ⟨hsum, hsafe⟩]
  · rw [if_neg hsum, if_neg (fun hc => hsum hc.1), if_neg hsum]

theorem growAmortizedBy_checked (hh : Holds p h this o data) (hgrow : data.length < len + additional)
    (hlen : len ≤ data.length) : growAmortizedBy p.layoutChecked A h this len additional =
      if len + additional < 2 ^ p.bits ∧ ¬p.UncheckedSafe (doubledCap data.length (len + additional))
      then .error .contract else growAmortized A h this len additional := by
  have hcap : data.length < doubledCap data.length (len + additional) := by
    unfold doubledCap
    omega
  have hsource : growAmortized A h this len additional = _ :=
    growAmortizedBy_eq p.layout A hh (show 0 < additional by omega)
  rw [hsource, growAmortizedBy_eq _ A hh (by omega)]
  exact growToBy_sum_checked A hh hcap _

theorem growExactBy_checked (hh : Holds p h this o data) (hgrow : data.length < len + additional) :
    growExactBy p.layoutChecked A h this len additional =
      if len + additional < 2 ^ p.bits ∧ ¬p.UncheckedSafe (len + additional)
      then .error .contract else growExact A h this len additional := by
  have hsource : growExact A h this len additional = _ := growExactBy_eq p.layout A
  rw [hsource, growExactBy_eq]
  exact growToBy_sum_checked A hh hgrow _

end

end RawAlignedBuffer

/-! ## Requests for capacity -/

/-- A call that asks for capacity. -/
inductive CapacityRequest where
  | withCapacity (capacity : Nat)
  | reserve (additional : Nat)
  | reserveExact (additional : Nat)
  | tryReserve (additional : Nat)
  | tryReserveExact (additional : Nat)

namespace CapacityRequest

open RawAlignedBuffer UniqueAlignedBuffer

variable {α : Type} {p : Params}

/-- How the call ends, for a method over a layout function: a panic or an abort, or the `Result`. -/
def answerBy (layout : Nat → Except Fault (Except RawBufferError Layout)) (A : Allocator p.toTarget)
    (h : Heap) (this : UniqueAlignedBuffer α) :
    CapacityRequest → Except Fault (Except RawBufferError Unit)
  | withCapacity capacity => (withCapacityInBy layout A h capacity this.buf.alloc).map fun _ => .ok ()
  | reserve additional => (reserveBy layout A h this.buf this.len additional).map fun _ => .ok ()
  | reserveExact additional =>
      (reserveExactBy layout A h this.buf this.len additional).map fun _ => .ok ()
  | tryReserve additional => (tryReserveBy layout A h this.buf this.len additional).map fun r => r.2.2
  | tryReserveExact additional =>
      (tryReserveExactBy layout A h this.buf this.len additional).map fun r => r.2.2

/-- The capacity that the call needs, as a number without a bound; `none` when it is there already. -/
def needed (p : Params) (this : UniqueAlignedBuffer α) : CapacityRequest → Option Nat
  | withCapacity capacity => if capacity = 0 then none else some capacity
  | reserve additional | tryReserve additional =>
      if this.len + additional ≤ this.capacity p then none
      else some (doubledCap (this.capacity p) (this.len + additional))
  | reserveExact additional | tryReserveExact additional =>
      if this.len + additional ≤ this.capacity p then none else some (this.len + additional)

/-- The sum that is checked for overflow first, if one is. -/
def checkedSum (this : UniqueAlignedBuffer α) : CapacityRequest → Option Nat
  | withCapacity _ => none
  | reserve additional | tryReserve additional => some (this.len + additional)
  | reserveExact additional | tryReserveExact additional => some (this.len + additional)

/-- The capacity needed, if any, stays `ALIGNMENT` below `isize::MAX + 1`, or the call ends with the
    overflow of its sum. -/
def Bounded (p : Params) (this : UniqueAlignedBuffer α) (request : CapacityRequest) : Prop :=
  ∀ cap, request.needed p this = some cap →
    cap + p.alignment ≤ p.half ∨ ∃ sum, request.checkedSum this = some sum ∧ 2 ^ p.bits ≤ sum

/-- `CapacityOverflow`, as a result or as a panic. -/
def Overflowed (answer : Except Fault (Except RawBufferError Unit)) : Prop :=
  answer = .ok (.error .capacityOverflow) ∨ answer = .error .capacityOverflow

/-- With the precondition of `from_size_align_unchecked` checked the call does not stop at it; and where the
    capacity that is needed is outside the precondition, the call of the source overflows. -/
structure KeepsPrecondition (A : Allocator p.toTarget) (h : Heap) (this : UniqueAlignedBuffer α)
    (request : CapacityRequest) : Prop where
  calls : request.answerBy p.layoutChecked A h this ≠ .error .contract
  tooLarge : ∀ cap, request.needed p this = some cap → ¬p.UncheckedSafe cap →
    Overflowed (request.answerBy p.layout A h this)

variable (A : Allocator p.toTarget) {h : Heap} {this : UniqueAlignedBuffer α} {o : Option BlockId}
  {xs : List UInt8} {data : List (Option UInt8)}

/-- No call of the source ends with `contract`. -/
theorem answerBy_layout_ne (hs : Stores p h this o xs data) (request : CapacityRequest) :
    request.answerBy p.layout A h this ≠ .error .contract := by
  have hle : this.len ≤ data.length := by rw [hs.length_eq]; exact hs.length_le
  have hreserves {cap : Nat} {buf : RawAlignedBuffer α} {o : Option BlockId}
      {data : List (Option UInt8)} {r : Except Fault (Heap × RawAlignedBuffer α)}
      (hr : Reserves p h buf o data cap r) :
      r.map (fun _ => (.ok () : Except RawBufferError Unit)) ≠ .error .contract := by
    rcases hr with ⟨h', buf', rfl, -⟩ | rfl | rfl <;> exact nofun
  have hreturns {buf : RawAlignedBuffer α} {x : Except Fault (RawAlignedBuffer.Reserved α)}
      {cap : Nat} (hx : ∃ r, x = .ok r ∧ Outcome p h buf o data cap r) :
      x.map (fun r => r.2.2) ≠ .error .contract := by
    obtain ⟨r, rfl, -⟩ := hx
    exact nofun
  cases request with
  | withCapacity capacity => exact hreserves (withCapacityIn_spec A this.buf.alloc)
  | reserve additional => exact hreserves (reserve_spec A hs.holds hle)
  | reserveExact additional => exact hreserves (reserveExact_spec A hs.holds hle)
  | tryReserve additional => exact hreturns (tryReserve_spec A additional hs.holds hle)
  | tryReserveExact additional => exact hreturns (tryReserveExact_spec A additional hs.holds hle)

/-! ## The infallible calls are the fallible ones behind `handle_reserve` -/

/-- `handle_reserve` behind an answer. -/
def handled (answer : Except Fault (Except RawBufferError Unit)) :
    Except Fault (Except RawBufferError Unit) := do
  let result ← answer
  handleReserve result
  return .ok ()

theorem Overflowed.handled {answer : Except Fault (Except RawBufferError Unit)} (ho : Overflowed answer) :
    Overflowed (handled answer) := by
  rcases ho with rfl | rfl <;> exact Or.inr rfl

section

variable (layout : Nat → Except Fault (Except RawBufferError Layout)) (this) (additional : Nat)

theorem answerBy_reserve : (reserve additional).answerBy layout A h this
    = handled ((tryReserve additional).answerBy layout A h this) := by
  simp only [answerBy]
  unfold reserveBy tryReserveBy
  by_cases hgrow : this.buf.needsToGrow p this.len additional = true
  · rw [if_pos hgrow, if_pos hgrow]
    cases growAmortizedBy layout A h this.buf this.len additional with
    | error f => rfl
    | ok r =>
        obtain ⟨h', buf', result⟩ := r
        simp only [handled, Except.map, ok_bind]
        cases handleReserve result <;> rfl
  · rw [if_neg hgrow, if_neg hgrow]
    rfl

theorem answerBy_reserveExact : (reserveExact additional).answerBy layout A h this
    = handled ((tryReserveExact additional).answerBy layout A h this) := by
  simp only [answerBy]
  unfold reserveExactBy
  cases tryReserveExactBy layout A h this.buf this.len additional with
  | error f => rfl
  | ok r =>
      obtain ⟨h', buf', result⟩ := r
      simp only [handled, Except.map, ok_bind]
      cases handleReserve result <;> rfl

end

/-! ## When the precondition is kept -/

/-- What the check finds of a request: nothing when it is bounded, the fault otherwise; and a sum that
    overflows is answered first. -/
structure Found (A : Allocator p.toTarget) (h : Heap) (this : UniqueAlignedBuffer α)
    (request : CapacityRequest) : Prop where
  same : request.Bounded p this →
    request.answerBy p.layoutChecked A h this = request.answerBy p.layout A h this
  fault : ¬request.Bounded p this → request.answerBy p.layoutChecked A h this = .error .contract
  overflow : ∀ cap sum, request.needed p this = some cap → request.checkedSum this = some sum →
    2 ^ p.bits ≤ sum → Overflowed (request.answerBy p.layout A h this)

/-- A fallible request that must grow to `cap`, behind the check of `sum`. -/
theorem found_of_grow {request : CapacityRequest} {cap sum : Nat}
    {grow grow' : Except Fault (RawAlignedBuffer.Reserved α)}
    (hneeded : request.needed p this = some cap) (hsum : request.checkedSum this = some sum)
    (hchecked : request.answerBy p.layoutChecked A h this = grow'.map fun r => r.2.2)
    (hsource : request.answerBy p.layout A h this = grow.map fun r => r.2.2)
    (hgrow : grow' = if sum < 2 ^ p.bits ∧ ¬p.UncheckedSafe cap then .error .contract else grow)
    (hover : ¬sum < 2 ^ p.bits → grow = .ok (h, this.buf, .error .capacityOverflow)) :
    request.Found A h this := by
  have hbounded : request.Bounded p this ↔ ¬(sum < 2 ^ p.bits ∧ ¬p.UncheckedSafe cap) := by
    unfold Bounded
    rw [uncheckedSafe_iff]
    constructor
    · intro hb
      rcases hb cap hneeded with hle | ⟨sum', hsum', hle⟩
      · omega
      · rw [hsum] at hsum'
        cases hsum'
        omega
    · intro hnot cap' hcap'
      rw [hneeded] at hcap'
      cases hcap'
      rcases Nat.lt_or_ge sum (2 ^ p.bits) with hlt | hge
      · exact Or.inl (by omega)
      · exact Or.inr ⟨sum, hsum, hge⟩
  refine ⟨fun hb => ?_, fun hb => ?_, fun cap' sum' _ hsum' hle => ?_⟩
  · rw [hchecked, hsource, hgrow, if_neg (hbounded.mp hb)]
  · rw [hchecked, hgrow, if_pos (not_not.mp fun hc => hb (hbounded.mpr hc))]
    rfl
  · rw [hsum] at hsum'
    cases hsum'
    rw [hsource, hover (by omega)]
    exact Or.inl rfl

/-- What is found of a fallible request is found of the infallible one. -/
theorem Found.handled {request request' : CapacityRequest} (hf : request.Found A h this)
    (hneeded : request'.needed p this = request.needed p this)
    (hsum : request'.checkedSum this = request.checkedSum this)
    (hanswer : ∀ layout, request'.answerBy layout A h this = handled (request.answerBy layout A h this)) :
    request'.Found A h this := by
  have hbounded : request'.Bounded p this ↔ request.Bounded p this := by
    unfold Bounded
    rw [hneeded, hsum]
  refine ⟨fun hb => ?_, fun hb => ?_, fun cap sum hcap hs hle => ?_⟩
  · rw [hanswer, hanswer, hf.same (hbounded.mp hb)]
  · rw [hanswer, hf.fault (fun hc => hb (hbounded.mpr hc))]
    rfl
  · rw [hanswer]
    rw [hneeded] at hcap
    rw [hsum] at hs
    exact (hf.overflow cap sum hcap hs hle).handled

/-- A request for nothing. -/
theorem found_of_room {request : CapacityRequest} (hneeded : request.needed p this = none)
    (hsame : request.answerBy p.layoutChecked A h this = request.answerBy p.layout A h this) :
    request.Found A h this where
  same _ := hsame
  fault hb := absurd (fun cap hcap => by rw [hneeded] at hcap; cases hcap) hb
  overflow cap _ hcap := by rw [hneeded] at hcap; cases hcap

theorem found_tryReserve (hs : Stores p h this o xs data) (additional : Nat) :
    (tryReserve additional).Found A h this := by
  have hle : this.len ≤ data.length := by rw [hs.length_eq]; exact hs.length_le
  by_cases hroom : this.len + additional ≤ data.length
  · have hgrow := hs.holds.not_needsToGrow hroom
    refine found_of_room A (if_pos (by rw [hs.capacity_eq]; exact hroom)) ?_
    simp only [answerBy, tryReserveBy, if_neg hgrow]
  · have hgrow : this.buf.needsToGrow p this.len additional = true :=
      (hs.holds.needsToGrow_iff hle).mpr (by omega)
    have hneeded : (tryReserve additional).needed p this
        = some (doubledCap data.length (this.len + additional)) := by
      rw [← hs.capacity_eq]
      exact if_neg (by rw [hs.capacity_eq]; exact hroom)
    refine found_of_grow A hneeded rfl ?_ ?_
      (growAmortizedBy_checked A hs.holds (Nat.lt_of_not_le hroom) hle) fun hsum => ?_
    · simp only [answerBy, tryReserveBy, if_pos hgrow]
    · simp only [answerBy, tryReserveBy, if_pos hgrow]
      rfl
    · exact (growAmortizedBy_eq p.layout A hs.holds (by omega)).trans (if_neg hsum)

theorem found_tryReserveExact (hs : Stores p h this o xs data) (additional : Nat) :
    (tryReserveExact additional).Found A h this := by
  have hle : this.len ≤ data.length := by rw [hs.length_eq]; exact hs.length_le
  by_cases hroom : this.len + additional ≤ data.length
  · have hgrow := hs.holds.not_needsToGrow hroom
    refine found_of_room A (if_pos (by rw [hs.capacity_eq]; exact hroom)) ?_
    simp only [answerBy, tryReserveExactBy, if_neg hgrow]
  · have hgrow : this.buf.needsToGrow p this.len additional = true :=
      (hs.holds.needsToGrow_iff hle).mpr (by omega)
    have hneeded : (tryReserveExact additional).needed p this = some (this.len + additional) :=
      if_neg (by rw [hs.capacity_eq]; exact hroom)
    refine found_of_grow A hneeded rfl ?_ ?_
      (growExactBy_checked A hs.holds (Nat.lt_of_not_le hroom)) fun hsum => ?_
    · simp only [answerBy, tryReserveExactBy, if_pos hgrow]
    · simp only [answerBy, tryReserveExactBy, if_pos hgrow]
      rfl
    · exact (growExactBy_eq p.layout A).trans (if_neg hsum)

theorem found_withCapacity (capacity : Nat) : (withCapacity capacity).Found A h this := by
  by_cases hz : capacity = 0
  · refine found_of_room A (if_pos hz) ?_
    simp only [answerBy, withCapacityInBy, if_pos hz]
  · have hneeded : (withCapacity capacity).needed p this = some capacity := if_neg hz
    have hbounded : (withCapacity capacity).Bounded p this ↔ p.UncheckedSafe capacity := by
      unfold Bounded
      rw [uncheckedSafe_iff]
      constructor
      · intro hb
        rcases hb capacity hneeded with hle | ⟨sum, hsum, -⟩
        · exact hle
        · cases hsum
      · intro hle cap hcap
        rw [hneeded] at hcap
        cases hcap
        exact Or.inl hle
    refine ⟨fun hb => ?_, fun hb => ?_, fun cap sum _ hsum => by cases hsum⟩
    all_goals simp only [answerBy, withCapacityInBy, if_neg hz, allocBy_checked]
    · rw [if_pos (hbounded.mp hb)]
      rfl
    · rw [if_neg (fun hsafe => hb (hbounded.mpr hsafe))]
      rfl

theorem found (hs : Stores p h this o xs data) (request : CapacityRequest) :
    request.Found A h this := by
  cases request with
  | withCapacity capacity => exact found_withCapacity A capacity
  | reserve additional =>
      exact (found_tryReserve A hs additional).handled A rfl rfl fun layout =>
        answerBy_reserve A this layout additional
  | reserveExact additional =>
      exact (found_tryReserveExact A hs additional).handled A rfl rfl fun layout =>
        answerBy_reserveExact A this layout additional
  | tryReserve additional => exact found_tryReserve A hs additional
  | tryReserveExact additional => exact found_tryReserveExact A hs additional

/-- **When a request keeps the precondition** of the unchecked constructor. -/
theorem keepsPrecondition_iff (hs : Stores p h this o xs data) (request : CapacityRequest) :
    request.KeepsPrecondition A h this ↔ request.Bounded p this := by
  have hf := found A hs request
  constructor
  · intro hk
    by_contra hb
    exact hk.calls (hf.fault hb)
  · intro hb
    refine ⟨?_, fun cap hcap hunsafe => ?_⟩
    · rw [hf.same hb]
      exact answerBy_layout_ne A hs request
    · rcases hb cap hcap with hle | ⟨sum, hsum, hle⟩
      · exact absurd (uncheckedSafe_iff.mpr hle) hunsafe
      · exact hf.overflow cap sum hcap hsum hle

end CapacityRequest

end RkyvUtils
