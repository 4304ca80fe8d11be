import RkyvUtils.AlignedBuffer.RawSpec

/-!
# `AlignedBuffer.InPlace` — reservations that do not move the bytes

A reservation moves the bytes of a buffer when they do not fit and the allocator answers `grow` with
another address. `growsInPlace` says that it does not, in terms of the state before the call and of the
allocator's answer alone; the pointer keeps its address in exactly this case (`reserve_addr_iff`).
-/

namespace RkyvUtils

open Word Ownership

namespace RawAlignedBuffer

variable {α : Type} {p : Params}

variable (p) in
/-- The capacity that `grow_amortized` asks for. -/
def amortizedCap (this : RawAlignedBuffer α) (len additional : Nat) : Nat :=
  max Params.minNonZeroCap (max ((this.value p * 2) % 2 ^ p.bits) (len + additional))

variable (A : Allocator p.toTarget)

/-- `realloc` to capacity `cap` would not move the block: the capacity has no layout, `alloc_guard`
    refuses the layout before the allocator is asked, or the allocator answers the `grow` with the
    address the block has, or fails. -/
def growsInPlace (h : Heap) (this : RawAlignedBuffer α) (cap : Nat) : Bool :=
  match p.layout (this.value p), p.layout cap with
  | .ok (.ok old), .ok (.ok new) =>
      match p.allocGuard new.size with
      | .error _ => true
      | .ok _ => (A.grow h (this.headerPtr p) old new).all (·.base = (this.headerPtr p).addr)
  | _, _ => true

variable {h h' : Heap} {this this' : RawAlignedBuffer α} {o : Option BlockId}
  {data : List (Option UInt8)} {cap len additional : Nat}

/-- The pointer after a move is behind the header of the block the allocator returned. -/
theorem reallocFinish_addr (layout : Layout) {h₁ : Heap} {ptr : Ptr} {n : Nat}
    (hr : reallocFinish p this layout (h₁, some (ptr, n)) = .ok (h', this', .ok ())) :
    this'.buf.addr = ptr.addr + p.bufferOffset := by
  unfold reallocFinish at hr
  obtain ⟨_, -, hr⟩ := bind_eq_ok hr
  obtain ⟨_, -, hr⟩ := bind_eq_ok hr
  obtain ⟨_, -, hr⟩ := bind_eq_ok hr
  cases hr
  rfl

/-- **`realloc`** to a larger capacity that succeeds keeps the address exactly when it is in place. -/
theorem realloc_addr_iff (hh : Holds p h this o data) (hall : this.isAllocated p = true)
    (hlt : data.length < cap) (hr : realloc A h this cap = .ok (h', this', .ok ())) :
    this'.buf.addr = this.buf.addr ↔ growsInPlace A h this cap = true := by
  cases hh with
  | empty alloc => simp at hall
  | @block b blk alloc hb hok hheader =>
    have hself := Holds.block alloc hb hok hheader
    obtain ⟨hfit, hguard, g, kept, hA, hfinish⟩ := realloc_grows A alloc hb hok hheader hlt hr
    have haddr := reallocFinish_addr ⟨p.bufferOffset + cap, p.blockAlign⟩ hfinish
    have hold : (blk.dataPtr p b).addr = blk.base + p.bufferOffset := rfl
    unfold growsInPlace headerPtr
    rw [hself.value_eq, hok.layout_eq, p.layout_eq, if_pos hfit, Block.dataPtr_sub]
    dsimp only
    rw [hguard, hA]
    simp only [haddr, hold, Option.all_some, decide_eq_true_eq, Nat.add_right_cancel_iff]

theorem growTo_addr_iff (hh : Holds p h this o data) (hall : this.isAllocated p = true)
    (hlt : data.length < cap) (hr : growTo A h this cap = .ok (h', this', .ok ())) :
    this'.buf.addr = this.buf.addr ↔ growsInPlace A h this cap = true := by
  unfold growTo at hr
  obtain ⟨_, -, hr⟩ := bind_eq_ok hr
  rw [if_neg (by simp [hall])] at hr
  exact realloc_addr_iff A hh hall hlt hr

/-- **A reservation** that returns keeps the address exactly when it finds room or the block grows in
    place. -/
theorem reserve_addr_iff (hh : Holds p h this o data) (hall : this.isAllocated p = true)
    (hlen : len ≤ data.length) (hr : reserve A h this len additional = .ok (h', this')) :
    this'.buf.addr = this.buf.addr ↔ len + additional ≤ data.length ∨
      growsInPlace A h this (amortizedCap p this len additional) = true := by
  unfold reserve at hr
  by_cases hgrow : this.needsToGrow p len additional = true
  · have hlt := (hh.needsToGrow_iff hlen).mp hgrow
    have hnot : ¬len + additional ≤ data.length := by omega
    rw [if_pos hgrow] at hr
    obtain ⟨⟨h₁, this₁, result⟩, hg, hr⟩ := bind_eq_ok hr
    obtain ⟨_, hresult, hr⟩ := bind_eq_ok hr
    cases hr
    have hok : result = .ok () := by
      cases result with
      | ok _ => rfl
      | error e => cases e <;> cases hresult
    rw [hok] at hg
    unfold growAmortized at hg
    obtain ⟨_, -, hg⟩ := bind_eq_ok hg
    split at hg
    · cases hg
    case h_2 required hsum =>
      obtain ⟨rfl, -⟩ := checkedAdd_eq_some.mp hsum
      have hle : len + additional ≤ amortizedCap p this len additional :=
        (Nat.le_max_right _ _).trans (Nat.le_max_right _ _)
      rw [growTo_addr_iff A hh hall (Nat.lt_of_lt_of_le hlt hle) hg, or_iff_right hnot]
  · have hroom := (hh.needsToGrow_iff hlen).not.mp hgrow
    rw [if_neg hgrow] at hr
    cases hr
    exact iff_of_true rfl (.inl (by omega))

end RawAlignedBuffer

end RkyvUtils
