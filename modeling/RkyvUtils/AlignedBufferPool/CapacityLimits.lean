import RkyvUtils.AlignedBuffer.CheckedLayout
import RkyvUtils.AlignedBufferPool.Reservations

/-!
# `AlignedBufferPool.CapacityLimits` — requests near the largest capacity

Two questions about every reachable unique buffer and every request. Is each layout on the way made inside
the precondition of the unchecked constructor? It is exactly when the capacity that the call needs is a
possible size (`precondition_kept_iff`); the range is checked behind that constructor. Does the amortised
growth refuse what the exact growth would grant? Exactly when the doubled capacity is past a limit that
the requested one meets (`amortized_needless_iff`).
-/

namespace RkyvUtils

open Word

/-! ## The limits of `layout` and `alloc_guard` -/

namespace Params

variable (p : Params)

/-- `layout` and `alloc_guard` accept a block of this capacity. -/
def Accepts (cap : Nat) : Prop :=
  p.bufferOffset + cap + p.blockAlign ≤ p.half ∧
    (p.bits < 64 → p.bufferOffset + cap - p.header.size ≤ p.maxCapacity)

instance (cap : Nat) : Decidable (p.Accepts cap) := inferInstanceAs (Decidable (_ ∧ _))

/-- The limits are upper bounds. -/
theorem accepts_max {a b : Nat} : p.Accepts (max a b) ↔ p.Accepts a ∧ p.Accepts b := by
  unfold Accepts
  constructor
  · rintro ⟨hle, hguard⟩
    exact ⟨⟨by omega, fun hbits => by have := hguard hbits; omega⟩,
      by omega, fun hbits => by have := hguard hbits; omega⟩
  · rintro ⟨⟨hle, hguard⟩, hle', hguard'⟩
    exact ⟨by omega, fun hbits => by have := hguard hbits; have := hguard' hbits; omega⟩

/-- **What the two checks answer** to a capacity. -/
theorem checks_eq (cap : Nat) :
    (p.Accepts cap → p.layout cap = .ok (.ok ⟨p.bufferOffset + cap, p.blockAlign⟩) ∧
      p.allocGuard (p.bufferOffset + cap) = .ok ()) ∧
    (¬p.Accepts cap → p.layout cap = .ok (.error .capacityOverflow) ∨
      p.layout cap = .ok (.ok ⟨p.bufferOffset + cap, p.blockAlign⟩) ∧
        p.allocGuard (p.bufferOffset + cap) = .error .capacityOverflow) := by
  rw [p.layout_eq]
  unfold allocGuard Accepts
  constructor
  · rintro ⟨hle, hguard⟩
    rw [if_pos hle, if_neg (fun hc => by have := hguard hc.1; omega)]
    exact ⟨rfl, rfl⟩
  · intro hnot
    by_cases hle : p.bufferOffset + cap + p.blockAlign ≤ p.half
    · rw [if_pos hle, if_pos (by
        by_contra hc
        exact hnot ⟨hle, fun hbits => by omega⟩)]
      exact Or.inr ⟨rfl, rfl⟩
    · rw [if_neg hle]
      exact Or.inl rfl

/-- The crate on a 32-bit target with cache lines of 64 bytes. -/
def i686 : Params where
  bits := 32
  debug := true
  bits_ge := by omega
  header := ⟨128, 64⟩
  alignment := 64
  header_valid := ⟨⟨6, rfl⟩, by simp [Target.half]⟩
  offset_defined := by decide

end Params

namespace RawAlignedBuffer

variable {α : Type} {p : Params} (A : Allocator p.toTarget) {h : Heap} {this : RawAlignedBuffer α}
  {o : Option BlockId} {data : List (Option UInt8)} {cap : Nat}

/-- The write back of a move never ends with `CapacityOverflow`. -/
theorem reallocFinish_ne {layout : Layout} {res : Heap × Option (Ptr × Nat)} {r : Reserved α}
    (hr : reallocFinish p this layout res = .ok r) : r.2.2 ≠ .error .capacityOverflow := by
  obtain ⟨h', granted⟩ := res
  unfold reallocFinish at hr
  cases granted with
  | none =>
      cases hr
      exact nofun
  | some g =>
      obtain ⟨ptr, len⟩ := g
      obtain ⟨header, -, hr⟩ := bind_eq_ok hr
      obtain ⟨h₁, -, hr⟩ := bind_eq_ok hr
      obtain ⟨capOrLen, -, hr⟩ := bind_eq_ok hr
      cases hr
      exact nofun

theorem alloc'_overflow {r : Reserved α} (hr : alloc' A h this cap = .ok r) :
    r.2.2 = .error .capacityOverflow ↔ ¬p.Accepts cap := by
  obtain ⟨haccepts, hrefuses⟩ := p.checks_eq cap
  unfold alloc' at hr
  obtain ⟨_, -, hr⟩ := bind_eq_ok hr
  obtain ⟨_, -, hr⟩ := bind_eq_ok hr
  by_cases hcap : p.Accepts cap
  · refine ⟨fun hover => absurd hover ?_, fun hnot => absurd hcap hnot⟩
    obtain ⟨hlayout, hguard⟩ := haccepts hcap
    rw [hlayout, ok_bind] at hr
    dsimp only at hr
    rw [hguard] at hr
    dsimp only at hr
    cases hA : h.allocate A ⟨p.bufferOffset + cap, p.blockAlign⟩ with
    | mk h' granted =>
      rw [hA] at hr
      cases granted with
      | none =>
          cases hr
          exact nofun
      | some g =>
          obtain ⟨ptr, len⟩ := g
          obtain ⟨h₁, -, hr⟩ := bind_eq_ok hr
          obtain ⟨capOrLen, -, hr⟩ := bind_eq_ok hr
          cases hr
          exact nofun
  · refine ⟨fun _ => hcap, fun _ => ?_⟩
    rcases hrefuses hcap with hlayout | ⟨hlayout, hguard⟩
    · rw [hlayout, ok_bind] at hr
      cases hr
      rfl
    · rw [hlayout, ok_bind] at hr
      dsimp only at hr
      rw [hguard] at hr
      cases hr
      rfl

theorem realloc_overflow {r : Reserved α} (hr : realloc A h this cap = .ok r) :
    r.2.2 = .error .capacityOverflow ↔ ¬p.Accepts cap := by
  obtain ⟨haccepts, hrefuses⟩ := p.checks_eq cap
  unfold realloc at hr
  obtain ⟨_, -, hr⟩ := bind_eq_ok hr
  obtain ⟨_, -, hr⟩ := bind_eq_ok hr
  by_cases hcap : p.Accepts cap
  · refine ⟨fun hover => absurd hover ?_, fun hnot => absurd hcap hnot⟩
    obtain ⟨hlayout, hguard⟩ := haccepts hcap
    rw [hlayout, ok_bind] at hr
    dsimp only at hr
    rw [hguard] at hr
    dsimp only at hr
    obtain ⟨old, -, hr⟩ := bind_eq_ok hr
    cases old with
    | error e => cases hr
    | ok oldLayout =>
        dsimp only at hr
        obtain ⟨_, -, hr⟩ := bind_eq_ok hr
        by_cases heq : oldLayout.size = p.bufferOffset + cap
        · rw [if_pos heq] at hr
          cases hr
          exact nofun
        · rw [if_neg heq] at hr
          by_cases hlt : oldLayout.size < p.bufferOffset + cap
          · rw [if_pos hlt] at hr
            obtain ⟨res, -, hr⟩ := bind_eq_ok hr
            exact reallocFinish_ne hr
          · rw [if_neg hlt] at hr
            obtain ⟨res, -, hr⟩ := bind_eq_ok hr
            exact reallocFinish_ne hr
  · refine ⟨fun _ => hcap, fun _ => ?_⟩
    rcases hrefuses hcap with hlayout | ⟨hlayout, hguard⟩
    · rw [hlayout, ok_bind] at hr
      cases hr
      rfl
    · rw [hlayout, ok_bind] at hr
      dsimp only at hr
      rw [hguard] at hr
      cases hr
      rfl

/-- **`grow_to` reports `CapacityOverflow`** exactly for a capacity that the limits refuse. -/
theorem growTo_overflow (hh : Holds p h this o data) (hcap : data.length < cap) :
    ∃ r, growTo A h this cap = .ok r ∧ (r.2.2 = .error .capacityOverflow ↔ ¬p.Accepts cap) := by
  obtain ⟨r, hr, -⟩ := growTo_spec A hh hcap
  refine ⟨r, hr, ?_⟩
  unfold growTo at hr
  obtain ⟨_, -, hr⟩ := bind_eq_ok hr
  by_cases hall : this.isAllocated p = true
  · rw [if_neg (not_not.mpr hall)] at hr
    exact realloc_overflow A hr
  · rw [if_pos hall] at hr
    exact alloc'_overflow A hr

/-- **A new buffer has the capacity that the allocator granted.** -/
theorem withCapacityIn_eq {g : Grant} (alloc : α)
    (hA : A.allocate h ⟨p.bufferOffset + cap, p.blockAlign⟩ = some g) (hcap : 0 < cap)
    (haccepts : p.Accepts cap) :
    ∃ h' buf, withCapacityIn A h cap alloc = .ok (h', buf) ∧ buf.value p = g.size - p.bufferOffset := by
  obtain ⟨hlayout, hguard⟩ := (p.checks_eq cap).1 haccepts
  have hmeets := A.allocate_meets _ _ _ hA
  obtain ⟨hok, -⟩ := Heap.granted_ok none [] hmeets hcap
  have hlt : g.size - p.bufferOffset < p.half := by
    have := hok.data_lt
    rwa [show (Heap.granted p g ⟨p.bufferOffset + cap, p.blockAlign⟩ none []).data.length
      = g.size - p.bufferOffset from Heap.length_padTo _ _] at this
  have hget : (h.blocks ++ [Heap.granted p g ⟨p.bufferOffset + cap, p.blockAlign⟩ none []])[h.blocks.length]?
      = some (Heap.granted p g ⟨p.bufferOffset + cap, p.blockAlign⟩ none []) := by simp
  unfold withCapacityIn alloc' Heap.allocate
  dsimp only
  rw [if_neg (by omega), value_newIn, isAllocated_newIn, Target.debugAssert_ok rfl, ok_bind,
    Target.debugAssert_ok (by simp), ok_bind, hlayout, ok_bind]
  dsimp only
  rw [hguard, hA]
  dsimp only
  rw [show g.base = (Heap.granted p g ⟨p.bufferOffset + cap, p.blockAlign⟩ none []).base from rfl,
    Heap.setHeader_eq hget hok.status, ok_bind, TaggedCap.new_eq hlt, ok_bind]
  exact ⟨_, _, rfl, TaggedCap.value_pack hlt _⟩

end RawAlignedBuffer

/-! ## Which requests overflow -/

namespace CapacityRequest

open RawAlignedBuffer UniqueAlignedBuffer

variable {α : Type} {p : Params} (A : Allocator p.toTarget) {h : Heap} {this : UniqueAlignedBuffer α}
  {o : Option BlockId} {xs : List UInt8} {data : List (Option UInt8)}

/-- How the call of the source ends. -/
def answer (A : Allocator p.toTarget) (h : Heap) (this : UniqueAlignedBuffer α)
    (request : CapacityRequest) : Except Fault (Except RawBufferError Unit) :=
  request.answerBy p.layout A h this

theorem overflowed_map {x : Except Fault (RawAlignedBuffer.Reserved α)} {r : RawAlignedBuffer.Reserved α}
    (hx : x = .ok r) : Overflowed (x.map fun r => r.2.2) ↔ r.2.2 = .error .capacityOverflow := by
  rw [hx]
  constructor
  · rintro (hover | hover)
    · exact Except.ok.inj hover
    · cases hover
  · intro hover
    exact Or.inl (congrArg Except.ok hover)

/-- `grow_to` behind the checked sum overflows at the sum or at the limits. -/
theorem overflowed_grow {cap sum : Nat} (hs : Stores p h this o xs data) (hcap : data.length < cap) :
    Overflowed ((if sum < 2 ^ p.bits then growTo A h this.buf cap
      else .ok (h, this.buf, .error .capacityOverflow)).map fun r => r.2.2) ↔
        2 ^ p.bits ≤ sum ∨ ¬p.Accepts cap := by
  by_cases hsum : sum < 2 ^ p.bits
  · obtain ⟨r, hr, hover⟩ := growTo_overflow A hs.holds hcap
    rw [if_pos hsum, overflowed_map hr, hover]
    exact ⟨Or.inr, fun hor => hor.resolve_left (by omega)⟩
  · rw [if_neg hsum, overflowed_map rfl]
    exact ⟨fun _ => Or.inl (by omega), fun _ => rfl⟩

/-- **`try_reserve` overflows** when the bytes do not fit, and the sum or the amortised capacity is past a
    limit. -/
theorem overflowed_tryReserve (hs : Stores p h this o xs data) (additional : Nat) :
    Overflowed ((tryReserve additional).answer A h this) ↔ data.length < this.len + additional ∧
      (2 ^ p.bits ≤ this.len + additional ∨
        ¬p.Accepts (doubledCap data.length (this.len + additional))) := by
  have hle : this.len ≤ data.length := by rw [hs.length_eq]; exact hs.length_le
  have hgrow : this.buf.needsToGrow p this.len additional = true ↔ _ := hs.holds.needsToGrow_iff hle
  show Overflowed ((RawAlignedBuffer.tryReserve A h this.buf this.len additional).map _) ↔ _
  unfold RawAlignedBuffer.tryReserve
  by_cases hlt : data.length < this.len + additional
  · have hcap : data.length < doubledCap data.length (this.len + additional) := by
      unfold doubledCap
      omega
    have hsource : growAmortized A h this.buf this.len additional = _ :=
      growAmortizedBy_eq p.layout A hs.holds (show 0 < additional by omega)
    rw [if_pos (hgrow.mpr hlt), hsource]
    exact (overflowed_grow A hs hcap).trans ⟨fun hor => ⟨hlt, hor⟩, fun hand => hand.2⟩
  · rw [if_neg (fun hg => hlt (hgrow.mp hg))]
    exact (overflowed_map (r := (h, this.buf, .ok ())) rfl).trans
      ⟨nofun, fun hand => absurd hand.1 hlt⟩

/-- **`try_reserve_exact` overflows** likewise, with the capacity that was asked for. -/
theorem overflowed_tryReserveExact (hs : Stores p h this o xs data) (additional : Nat) :
    Overflowed ((tryReserveExact additional).answer A h this) ↔ data.length < this.len + additional ∧
      (2 ^ p.bits ≤ this.len + additional ∨ ¬p.Accepts (this.len + additional)) := by
  have hle : this.len ≤ data.length := by rw [hs.length_eq]; exact hs.length_le
  have hgrow : this.buf.needsToGrow p this.len additional = true ↔ _ := hs.holds.needsToGrow_iff hle
  show Overflowed ((RawAlignedBuffer.tryReserveExact A h this.buf this.len additional).map _) ↔ _
  unfold RawAlignedBuffer.tryReserveExact
  by_cases hlt : data.length < this.len + additional
  · have hsource : growExact A h this.buf this.len additional = _ := growExactBy_eq p.layout A
    rw [if_pos (hgrow.mpr hlt), hsource]
    exact (overflowed_grow A hs hlt).trans ⟨fun hor => ⟨hlt, hor⟩, fun hand => hand.2⟩
  · rw [if_neg (fun hg => hlt (hgrow.mp hg))]
    exact (overflowed_map (r := (h, this.buf, .ok ())) rfl).trans
      ⟨nofun, fun hand => absurd hand.1 hlt⟩

/-- **`reserve` panics with `CapacityOverflow`** exactly when `try_reserve` returns it. -/
theorem overflowed_reserve (hs : Stores p h this o xs data) (additional : Nat) :
    Overflowed ((reserve additional).answer A h this) ↔
      Overflowed ((tryReserve additional).answer A h this) := by
  have hle : this.len ≤ data.length := by rw [hs.length_eq]; exact hs.length_le
  obtain ⟨r, hr, -⟩ := tryReserve_spec A additional hs.holds hle
  have hanswer : (tryReserve additional).answer A h this = .ok r.2.2 := congrArg (Except.map _) hr
  have hhandled : (reserve additional).answer A h this = handled (.ok r.2.2) := by
    rw [← hanswer]
    exact answerBy_reserve A this p.layout additional
  rw [hhandled, hanswer]
  generalize r.2.2 = result
  rcases result with (_ | layout) | _
  · exact ⟨fun _ => Or.inl rfl, fun _ => Or.inr rfl⟩
  · exact ⟨fun hover => hover.elim nofun nofun, fun hover => hover.elim nofun nofun⟩
  · exact ⟨fun hover => hover.elim nofun nofun, fun hover => hover.elim nofun nofun⟩

/-- **When `reserve` panics.** -/
theorem reserve_overflow_iff (hs : Stores p h this o xs data) (additional : Nat) :
    this.reserve A h additional = .error .capacityOverflow ↔ data.length < this.len + additional ∧
      (2 ^ p.bits ≤ this.len + additional ∨
        ¬p.Accepts (doubledCap data.length (this.len + additional))) := by
  rw [← overflowed_tryReserve A hs, ← overflowed_reserve A hs]
  show _ ↔ Overflowed ((RawAlignedBuffer.reserve A h this.buf this.len additional).map fun _ => .ok ())
  unfold UniqueAlignedBuffer.reserve
  cases RawAlignedBuffer.reserve A h this.buf this.len additional with
  | ok r => exact ⟨nofun, fun hover => hover.elim nofun nofun⟩
  | error f =>
      constructor
      · intro he
        cases he
        exact Or.inr rfl
      · rintro (hover | hover)
        · cases hover
        · cases hover
          rfl

/-- **The amortised growth never fails needlessly**: where the exact reservation does not overflow, the
    amortised one does not either. -/
def NeverNeedless (A : Allocator p.toTarget) (h : Heap) (this : UniqueAlignedBuffer α) (additional : Nat) :
    Prop :=
  ¬Overflowed ((tryReserveExact additional).answer A h this) →
    ¬Overflowed ((tryReserve additional).answer A h this) ∧
      ¬Overflowed ((reserve additional).answer A h this)

theorem neverNeedless_iff (hs : Stores p h this o xs data) (additional : Nat) :
    NeverNeedless A h this additional ↔
      this.len + additional ≤ this.capacity p ∨ 2 ^ p.bits ≤ this.len + additional ∨
        ¬p.Accepts (this.len + additional) ∨
          p.Accepts (max Params.minNonZeroCap (this.capacity p * 2)) := by
  unfold NeverNeedless
  rw [overflowed_reserve A hs, overflowed_tryReserve A hs, overflowed_tryReserveExact A hs, hs.capacity_eq]
  unfold doubledCap
  have hroom : this.len + additional ≤ data.length ↔ ¬data.length < this.len + additional :=
    Nat.not_lt.symm
  rw [← max_assoc, p.accepts_max, hroom]
  tauto

end CapacityRequest

/-! ## Every reachable buffer -/

namespace BufferPool

open CapacityRequest UniqueAlignedBuffer

variable {p : Params} (A : Allocator p.toTarget) (cfg : Config)

/-- **When requests keep the precondition of the unchecked constructor**: for every buffer of every
    reachable state, and for a new one, exactly when the capacity that the call needs is at most
    `isize::MAX + 1 - ALIGNMENT`, or the sum of the call overflows. -/
theorem precondition_kept_iff (actions : List Action) :
    match runFrom A cfg actions with
    | .ok s =>
        (∀ (i : Nat) (this : UniqueAlignedBuffer Home), s.slots[i]? = some (.unique this) →
          ∀ request : CapacityRequest,
            request.KeepsPrecondition A s.heap this ↔ request.Bounded p this) ∧
        ∀ (alloc : Home) (request : CapacityRequest),
          request.KeepsPrecondition A s.heap (.newIn alloc) ↔ request.Bounded p (.newIn alloc)
    | .error f => f.Aborts := by
  rcases run_proceeds cfg A actions with ⟨s, hr, inv⟩ | ⟨f, hr, hf⟩
  case inr => rw [hr]; exact hf
  rw [hr]
  refine ⟨fun i this hi request => ?_, fun alloc request => ?_⟩
  · obtain ⟨⟨o, xs, data, hs⟩, -⟩ := inv.slots i _ hi
    exact keepsPrecondition_iff A hs request
  · have hs : Stores p s.heap (UniqueAlignedBuffer.newIn alloc) none [] [] := ⟨.empty alloc, rfl, rfl⟩
    exact keepsPrecondition_iff A hs request

/-- `with_capacity(usize::MAX)` makes a layout of `usize::MAX` bytes before anything is checked. -/
theorem not_keepsPrecondition_max :
    ¬(withCapacity (2 ^ 64 - 1)).KeepsPrecondition (.bump (Params.x86_64 true).toTarget) Heap.empty
      (UniqueAlignedBuffer.newIn Home.global) := fun hkeeps =>
  hkeeps.calls rfl

/-- **When the amortised growth fails needlessly**: for every buffer of every reachable state and every
    request, it does not exactly when the bytes fit already, the exact request is past a limit itself, or
    the limits accept the doubled capacity. -/
theorem amortized_needless_iff (actions : List Action) :
    match runFrom A cfg actions with
    | .ok s =>
        ∀ (i : Nat) (this : UniqueAlignedBuffer Home), s.slots[i]? = some (.unique this) →
          ∀ additional : Nat, NeverNeedless A s.heap this additional ↔
            this.len + additional ≤ this.capacity p ∨ 2 ^ p.bits ≤ this.len + additional ∨
              ¬p.Accepts (this.len + additional) ∨
                p.Accepts (max Params.minNonZeroCap (this.capacity p * 2))
    | .error f => f.Aborts := by
  rcases run_proceeds cfg A actions with ⟨s, hr, inv⟩ | ⟨f, hr, hf⟩
  case inr => rw [hr]; exact hf
  rw [hr]
  intro i this hi additional
  obtain ⟨⟨o, xs, data, hs⟩, -⟩ := inv.slots i _ hi
  exact neverNeedless_iff A hs additional

theorem step_withCapacity {s : State} {h' : Heap} {capacity : Nat} {this : UniqueAlignedBuffer Home}
    (hcall : UniqueAlignedBuffer.withCapacityIn A s.heap capacity Home.global = .ok (h', this)) :
    step A cfg s (.withCapacity capacity) = .ok ({ s with heap := h' }.addSlot (.unique this)) := by
  simp only [step, hcall]
  rfl

/-- A gigabyte of capacity, and a request for one byte more than that, on a 32-bit target: the exact
    reservation is within the limits, the doubled capacity of `2^31` bytes is not. -/
theorem not_neverNeedless_gigabyte :
    ∃ s this, runFrom (.bump Params.i686.toTarget) ⟨0, 0, fun _ => true⟩ [.withCapacity (2 ^ 30)] = .ok s ∧
      s.slots[0]? = some (.unique this) ∧
      ¬NeverNeedless (.bump Params.i686.toTarget) s.heap this (2 ^ 30 + 1) := by
  obtain ⟨h', buf, hnew, hvalue⟩ := RawAlignedBuffer.withCapacityIn_eq (p := Params.i686)
    (.bump Params.i686.toTarget) (h := Heap.empty) (g := ⟨64, 128 + 2 ^ 30⟩) Home.global rfl
    (show 0 < 2 ^ 30 by decide) (by decide)
  have hrun : runFrom (.bump Params.i686.toTarget) ⟨0, 0, fun _ => true⟩ [.withCapacity (2 ^ 30)]
      = .ok ({ State.init ⟨0, 0, fun _ => true⟩ with heap := h' }.addSlot (.unique ⟨buf, 0⟩)) := by
    have hcall : UniqueAlignedBuffer.withCapacityIn (.bump Params.i686.toTarget) Heap.empty (2 ^ 30)
        Home.global = .ok (h', ⟨buf, 0⟩) := by
      unfold UniqueAlignedBuffer.withCapacityIn
      rw [hnew]
      rfl
    exact Run.run_cons_ok (step_withCapacity _ _ hcall)
  refine ⟨_, ⟨buf, 0⟩, hrun, rfl, fun hnever => ?_⟩
  rcases run_proceeds ⟨0, 0, fun _ => true⟩ (.bump Params.i686.toTarget) [.withCapacity (2 ^ 30)]
    with ⟨s, hr, inv⟩ | ⟨f, hr, -⟩
  · rw [hrun] at hr
    cases hr
    obtain ⟨⟨o, xs, data, hs⟩, -⟩ := inv.slots 0 _ rfl
    have hcap : UniqueAlignedBuffer.capacity Params.i686 ⟨buf, 0⟩ = 2 ^ 30 := hvalue
    rw [neverNeedless_iff _ hs, hcap] at hnever
    exact absurd hnever (show ¬(0 + (2 ^ 30 + 1) ≤ 2 ^ 30 ∨ 2 ^ 32 ≤ 0 + (2 ^ 30 + 1) ∨
      ¬Params.i686.Accepts (0 + (2 ^ 30 + 1)) ∨
        Params.i686.Accepts (max Params.minNonZeroCap (2 ^ 30 * 2))) by decide)
  · rw [hrun] at hr
    cases hr

end BufferPool

end RkyvUtils
