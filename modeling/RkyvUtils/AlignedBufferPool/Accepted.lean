import RkyvUtils.Lib.Returns
import RkyvUtils.AlignedBuffer.BufMut
import RkyvUtils.AlignedBuffer.Global
import RkyvUtils.AlignedBufferPool.CapacityLimits

/-!
# `AlignedBufferPool.Accepted` — every block has a capacity that the limits accept

`Global` returns exactly the number of bytes it was asked for, and it is asked only behind `layout` and
`alloc_guard`. So no call of a method makes a block that those two would refuse, whatever else it does: the
lemmas here go through the methods from the primitives up, one lemma a method.
-/

namespace RkyvUtils

open Word

/-- An allocator that returns as many bytes as it was asked for, as `Global` does. -/
structure ExactAllocator (t : Target) extends Allocator t where
  allocate_size : ∀ h l g, allocate h l = some g → g.size = l.size
  grow_size : ∀ h q old new g, grow h q old new = some g → g.size = new.size
  shrink_size : ∀ h q old new g, shrink h q old new = some g → g.size = new.size

/-! ## `Global` is exact -/

namespace Global

variable {t : Target} {sys : System} {m : Memory} {layout oldLayout newLayout : Layout}

/-- A returned slice has exactly as many bytes as the layout asks for. -/
def Exact (layout : Layout) (r : Returned) : Prop := ∀ q len, r.2 = some (q, len) → len = layout.size

/-- A slice as long as the layout asks for. -/
theorem exact_slice {r : Memory × Option Ptr} {size : Nat} (hsize : layout.size = size) :
    Exact layout (slice r size) := by
  intro q len hr
  obtain ⟨q', -, hpair⟩ := Option.map_eq_some_iff.mp hr
  cases hpair
  exact hsize.symm

/-- **`alloc_impl`**, for the layout of no bytes too. -/
theorem allocImpl_exact (zeroed : Bool) : Returns (Exact layout) (allocImpl sys m layout zeroed) := by
  unfold allocImpl
  cases hsize : layout.size with
  | zero =>
      refine .ok fun q len hr => ?_
      cases hr
      exact hsize.symm
  | succ size =>
      exact .ite (.step fun r => .ok (exact_slice hsize)) (.step fun r => .ok (exact_slice hsize))

/-- A copy into a new slice is as long as that slice. -/
theorem reallocate_exact {allocate : Memory → Except Fault Returned} (q : Ptr) (n : Nat)
    (hallocate : ∀ m, Returns (Exact layout) (allocate m)) :
    Returns (Exact layout) (reallocate allocate m q oldLayout n) := by
  unfold reallocate
  refine (hallocate m).bind ?_
  rintro ⟨m₁, granted⟩ hexact
  cases granted with
  | none => exact .ok hexact
  | some g =>
      refine .step fun m₂ => .step fun m₃ => .ok fun q len hr => ?_
      cases hr
      exact hexact _ _ rfl

/-- **`grow` and `grow_zeroed`.** -/
theorem growImpl_exact (q : Ptr) (zeroed : Bool) :
    Returns (Exact newLayout) (growImpl t sys m q oldLayout newLayout zeroed) := by
  unfold growImpl
  refine .step fun _ => ?_
  cases oldLayout.size with
  | zero => exact allocImpl_exact zeroed
  | succ oldSize =>
      refine .ite (.step fun r => ?_) (reallocate_exact _ _ fun m => allocImpl_exact zeroed)
      obtain ⟨m₁, granted⟩ := r
      cases granted with
      | none => exact .ok nofun
      | some q' =>
          have hexact (m : Memory) : Exact newLayout (m, some (q', newLayout.size)) := by
            intro q len hr
            cases hr
            rfl
          exact .ite (.step fun m₂ => .ok (hexact m₂)) (.step fun m₂ => .ok (hexact m₂))

/-- **`shrink`.** -/
theorem shrink_exact (q : Ptr) : Returns (Exact newLayout) (shrink t sys m q oldLayout newLayout) := by
  unfold shrink
  refine .step fun _ => ?_
  cases hsize : newLayout.size with
  | zero =>
      refine .step fun m₁ => .ok fun q len hr => ?_
      cases hr
      exact hsize.symm
  | succ size =>
      exact .ite (.step fun r => .ok (exact_slice hsize))
        (reallocate_exact _ _ fun m => allocImpl_exact false)

end Global

/-- The memory of `std::alloc` that a heap stands for. -/
def Heap.memory (h : Heap) : Memory where
  blocks := h.blocks.map fun blk =>
    ⟨blk.base, blk.layout, List.replicate blk.layout.size none, blk.status = .allocated⟩
  released := []

/-- The block that a call of `Global` returned, unless it is one that no machine has. -/
def Global.answer (t : Target) (l : Layout) : Except Fault Returned → Option Grant
  | .ok (_, some (q, len)) => if Grant.Meets t l ⟨q.addr, len⟩ then some ⟨q.addr, len⟩ else none
  | _ => none

/-- An answer is a grant, of as many bytes as the call returned. -/
theorem Global.answer_eq_some {t : Target} {l : Layout} {r : Except Fault Returned} {g : Grant}
    (h : answer t l r = some g) :
    g.Meets t l ∧ ∃ m q, r = .ok (m, some (q, g.size)) := by
  unfold answer at h
  split at h
  · split at h
    · cases h
      exact ⟨‹_›, _, _, rfl⟩
    · cases h
  · cases h

/-- **`Global` as an allocator**, over any answers of `std::alloc`. -/
def ExactAllocator.global (t : Target) (sys : System) : ExactAllocator t where
  allocate h l := Global.answer t l (Global.allocate sys h.memory l)
  grow h q old new := Global.answer t new (Global.grow t sys h.memory q old new)
  shrink h q old new := Global.answer t new (Global.shrink t sys h.memory q old new)
  allocate_meets _ _ _ hg := (Global.answer_eq_some hg).1
  grow_meets _ _ _ _ _ hg := (Global.answer_eq_some hg).1
  shrink_meets _ _ _ _ _ hg := (Global.answer_eq_some hg).1
  allocate_size _ _ _ hg := by
    obtain ⟨-, m, q, hr⟩ := Global.answer_eq_some hg
    exact (Global.allocImpl_exact false).of_eq hr q _ rfl
  grow_size _ _ _ _ _ hg := by
    obtain ⟨-, m, q, hr⟩ := Global.answer_eq_some hg
    exact (Global.growImpl_exact _ false).of_eq hr q _ rfl
  shrink_size _ _ _ _ _ hg := by
    obtain ⟨-, m, q, hr⟩ := Global.answer_eq_some hg
    exact (Global.shrink_exact _).of_eq hr q _ rfl

/-- A new block, at the address that `std::alloc` answers. -/
theorem ExactAllocator.global_allocate {t : Target} {sys : System} {h : Heap} {l : Layout} {base : Nat}
    (hsize : l.size ≠ 0) (halloc : sys.alloc h.memory l = some base)
    (hmeets : Grant.Meets t l ⟨base, l.size⟩) :
    (ExactAllocator.global t sys).allocate h l = some ⟨base, l.size⟩ := by
  show Global.answer t l (Global.allocImpl sys h.memory l false) = _
  unfold Global.allocImpl
  split
  case h_1 hzero => exact absurd hzero hsize
  case h_2 =>
    simp only [Bool.false_eq_true, if_false, Memory.alloc, Memory.allocFilled, if_neg hsize, halloc]
    exact if_pos hmeets

/-! ## The invariant -/

/-- Every block handed out so far has a capacity that `layout` and `alloc_guard` accept. -/
def Heap.Accepted (p : Params) (h : Heap) : Prop := ∀ blk ∈ h.blocks, p.Accepts blk.data.length

/-- If a call returns, the heap it returns has accepted blocks only. -/
def Keeps (p : Params) {β : Type} (x : Except Fault (Heap × β)) : Prop :=
  Returns (fun r => r.1.Accepted p) x

variable {α : Type} {p : Params} {A : ExactAllocator p.toTarget} {h : Heap} {b : BlockId} {blk : Block}

/-! ## Memory -/

namespace Heap.Accepted

theorem empty : Heap.empty.Accepted p := nofun

/-- Writing a block back with another one's place and size. -/
theorem update (hh : h.Accepted p) (hb : h.blocks[b]? = some blk) {new : Block}
    (hlen : new.data.length = blk.data.length) : (h.update b new).Accepted p := by
  intro other hmem
  rcases List.mem_or_eq_of_mem_set hmem with hmem | rfl
  · exact hh other hmem
  · rw [hlen]
    exact hh blk (List.mem_of_getElem? hb)

/-- What a pointer and a layout lead to is a block of the heap. -/
theorem target_returns (q : Ptr) (l : Layout) :
    Returns (fun r => h.blocks[r.1]? = some r.2) (h.target q l) := by
  have hderef := deref_returns (h := h) q
  unfold Heap.target
  cases hr : h.deref q with
  | error f => exact .error
  | ok r => exact .ite (.ok (hderef.of_eq hr)) .error

/-- A header is no part of the capacity. -/
theorem setHeader (hh : h.Accepted p) (q : Ptr) (hd : Header) :
    Returns (Heap.Accepted p) (h.setHeader q hd) := by
  unfold Heap.setHeader
  refine (deref_returns q).bind ?_
  rintro ⟨b, blk⟩ hb
  exact .ite .error (.ok (hh.update hb rfl))

/-- Bytes are written over the ones that are there. -/
theorem write (hh : h.Accepted p) (q : Ptr) (bs : List UInt8) :
    Returns (Heap.Accepted p) (h.write p q bs) :=
  write_returns hh (fun hb _ hlen => hh.update hb hlen) q bs

theorem fetchAdd (hh : h.Accepted p) (q : Ptr) : Keeps p (h.fetchAdd p q) :=
  .step fun _ => (hh.setHeader q _).bind fun _ hh' => .ok hh'

theorem fetchSub (hh : h.Accepted p) (q : Ptr) : Keeps p (h.fetchSub p q) :=
  .step fun _ => (hh.setHeader q _).bind fun _ hh' => .ok hh'

theorem storeRefCount (hh : h.Accepted p) (q : Ptr) (n : Nat) :
    Returns (Heap.Accepted p) (h.storeRefCount q n) :=
  .step fun _ => hh.setHeader q _

/-- A block that is given back keeps its place in the heap. -/
theorem deallocate (hh : h.Accepted p) (q : Ptr) (l : Layout) :
    Returns (Heap.Accepted p) (h.deallocate q l) := by
  unfold Heap.deallocate
  refine (target_returns q l).bind ?_
  rintro ⟨b, blk⟩ hb
  exact .ok (hh.update hb rfl)

theorem deallocateBuffer (hh : h.Accepted p) (raw : RawBuffer) :
    Returns (Heap.Accepted p) (deallocateBuffer p h raw) :=
  .step fun _ => hh.deallocate _ _

/-! ### New blocks -/

variable {cap : Nat} (hcap : p.Accepts cap)
include hcap

/-- A block of exactly the size that was asked for. -/
theorem granted {g : Grant} (hg : g.size = p.bufferOffset + cap) (l : Layout) (hd : Option Header)
    (kept : List (Option UInt8)) : p.Accepts (Heap.granted p g l hd kept).data.length := by
  rw [show (Heap.granted p g l hd kept).data.length = g.size - p.bufferOffset from Heap.length_padTo _ _,
    hg, Nat.add_sub_cancel_left]
  exact hcap

/-- A new block for an accepted capacity. -/
theorem push (hh : h.Accepted p) {g : Grant} (hg : g.size = p.bufferOffset + cap) (l : Layout) :
    Heap.Accepted p ⟨h.blocks ++ [Heap.granted p g l none []], h.calls + 1⟩ := by
  intro other hmem
  rcases List.mem_append.mp hmem with hmem | hmem
  · exact hh other hmem
  · rw [List.mem_singleton.mp hmem]
    exact granted hcap hg l none []

/-- A block that is moved to an accepted capacity; the old one is marked. -/
theorem moved (hh : h.Accepted p) (hb : h.blocks[b]? = some blk) {g : Grant}
    (hg : g.size = p.bufferOffset + cap) (l : Layout) (kept : Nat) :
    (Heap.moved p h b blk g l kept).Accepted p := by
  have hset : (h.update b { blk with status := .replaced }).Accepted p := hh.update hb rfl
  intro other hmem
  rcases List.mem_append.mp hmem with hmem | hmem
  · exact hset other hmem
  · rw [List.mem_singleton.mp hmem]
    exact granted hcap hg l _ _

/-- **`allocate`**, for the layout of an accepted capacity. -/
theorem allocate (hh : h.Accepted p) :
    (h.allocate A.toAllocator ⟨p.bufferOffset + cap, p.blockAlign⟩).1.Accepted p := by
  unfold Heap.allocate
  cases hg : A.allocate h ⟨p.bufferOffset + cap, p.blockAlign⟩ with
  | none => exact hh
  | some g => exact hh.push hcap (A.allocate_size _ _ _ hg) _

/-- **`grow`** to such a layout. -/
theorem grow (hh : h.Accepted p) (q : Ptr) (old : Layout) :
    Keeps p (h.grow A.toAllocator q old ⟨p.bufferOffset + cap, p.blockAlign⟩) := by
  unfold Heap.grow
  refine (target_returns q old).bind ?_
  rintro ⟨b, blk⟩ hb
  refine .ite .error ?_
  cases hg : A.grow h q old ⟨p.bufferOffset + cap, p.blockAlign⟩ with
  | none => exact .ok hh
  | some g => exact .ok (hh.moved hcap hb (A.grow_size _ _ _ _ _ hg) _ _)

/-- **`shrink`** to such a layout. -/
theorem shrink (hh : h.Accepted p) (q : Ptr) (old : Layout) :
    Keeps p (h.shrink A.toAllocator q old ⟨p.bufferOffset + cap, p.blockAlign⟩) := by
  unfold Heap.shrink
  refine (target_returns q old).bind ?_
  rintro ⟨b, blk⟩ hb
  refine .ite .error ?_
  cases hg : A.shrink h q old ⟨p.bufferOffset + cap, p.blockAlign⟩ with
  | none => exact .ok hh
  | some g => exact .ok (hh.moved hcap hb (A.shrink_size _ _ _ _ _ hg) _ _)

end Heap.Accepted

/-! ## `RawAlignedBuffer` -/

namespace RawAlignedBuffer

variable {this : RawAlignedBuffer α} (hh : h.Accepted p)

/-- Behind `layout` and `alloc_guard` the capacity is accepted, and the layout is the one for it. -/
theorem layout_returns (cap : Nat) :
    Returns (fun r => ∀ l, r = .ok l → l = ⟨p.bufferOffset + cap, p.blockAlign⟩ ∧
      (p.allocGuard l.size = .ok () → p.Accepts cap)) (p.layout cap) := by
  intro r hr l hl
  obtain ⟨haccepts, hrefuses⟩ := p.checks_eq cap
  by_cases hcap : p.Accepts cap
  · rw [(haccepts hcap).1, hl] at hr
    cases hr
    exact ⟨rfl, fun _ => hcap⟩
  · rcases hrefuses hcap with hlayout | ⟨hlayout, hguard⟩
    · rw [hlayout, hl] at hr
      cases hr
    · rw [hlayout, hl] at hr
      cases hr
      refine ⟨rfl, fun hpasses => ?_⟩
      rw [hguard] at hpasses
      cases hpasses

/-- The write back after a move sets a header and the packed word. -/
theorem reallocFinish_keeps (layout : Layout) {res : Heap × Option (Ptr × Nat)} (hres : res.1.Accepted p) :
    Keeps p (reallocFinish p this layout res) := by
  obtain ⟨h, granted⟩ := res
  unfold reallocFinish
  cases granted with
  | none => exact .ok hres
  | some g =>
      refine .step fun header => (Heap.Accepted.setHeader hres _ _).bind fun h₁ hh₁ => ?_
      exact .step fun capOrLen => .ok hh₁

include hh

/-- **`alloc`** gets to the allocator behind both checks only. -/
theorem alloc'_keeps (cap : Nat) : Keeps p (alloc' A.toAllocator h this cap) := by
  unfold alloc'
  refine .step fun _ => .step fun _ => (layout_returns cap).bind fun r hr => ?_
  cases r with
  | error e => exact .ok hh
  | ok l =>
      obtain ⟨rfl, hguard⟩ := hr l rfl
      dsimp only at hguard ⊢
      cases hpasses : p.allocGuard (p.bufferOffset + cap) with
      | error e => exact .ok hh
      | ok _ =>
          have hnew := hh.allocate (A := A) (hguard hpasses)
          dsimp only
          cases hA : h.allocate A.toAllocator ⟨p.bufferOffset + cap, p.blockAlign⟩ with
          | mk h₁ granted =>
            rw [hA] at hnew
            cases granted with
            | none => exact .ok hnew
            | some g =>
                refine (Heap.Accepted.setHeader hnew _ _).bind fun h₂ hh₂ => ?_
                exact .step fun capOrLen => .ok hh₂

/-- **`realloc`** does too, whether it grows or shrinks. -/
theorem realloc_keeps (cap : Nat) : Keeps p (realloc A.toAllocator h this cap) := by
  unfold realloc
  refine .step fun _ => .step fun _ => (layout_returns cap).bind fun r hr => ?_
  cases r with
  | error e => exact .ok hh
  | ok l =>
      obtain ⟨rfl, hguard⟩ := hr l rfl
      dsimp only at hguard ⊢
      cases hpasses : p.allocGuard (p.bufferOffset + cap) with
      | error e => exact .ok hh
      | ok _ =>
          have hcap := hguard hpasses
          refine .step fun old => ?_
          cases old with
          | error e => exact .error
          | ok old =>
              refine .step fun _ => .ite (.ok hh) (.ite ?_ ?_)
              · exact (hh.grow hcap _ _).bind fun res hres => reallocFinish_keeps _ hres
              · exact (hh.shrink hcap _ _).bind fun res hres => reallocFinish_keeps _ hres

theorem growTo_keeps (cap : Nat) : Keeps p (growTo A.toAllocator h this cap) :=
  .step fun _ => .ite (alloc'_keeps hh cap) (realloc_keeps hh cap)

/-- A sum that overflows changes nothing. -/
theorem growAmortized_keeps (len additional : Nat) :
    Keeps p (growAmortized A.toAllocator h this len additional) := by
  unfold growAmortized
  refine .step fun _ => ?_
  cases checkedAdd p.bits len additional with
  | none => exact .ok hh
  | some cap => exact growTo_keeps hh _

theorem growExact_keeps (len additional : Nat) :
    Keeps p (growExact A.toAllocator h this len additional) := by
  unfold growExact
  cases checkedAdd p.bits len additional with
  | none => exact .ok hh
  | some cap => exact growTo_keeps hh cap

theorem tryReserve_keeps (len additional : Nat) :
    Keeps p (tryReserve A.toAllocator h this len additional) :=
  .ite (growAmortized_keeps hh len additional) (.ok hh)

theorem tryReserveExact_keeps (len additional : Nat) :
    Keeps p (tryReserveExact A.toAllocator h this len additional) :=
  .ite (growExact_keeps hh len additional) (.ok hh)

theorem reserve_keeps (len additional : Nat) : Keeps p (reserve A.toAllocator h this len additional) :=
  .ite ((growAmortized_keeps hh len additional).bind fun _ hr => .step fun _ => .ok hr) (.ok hh)

theorem reserveExact_keeps (len additional : Nat) :
    Keeps p (reserveExact A.toAllocator h this len additional) :=
  (tryReserveExact_keeps hh len additional).bind fun _ hr => .step fun _ => .ok hr

theorem withCapacityIn_keeps (size : Nat) (alloc : α) :
    Keeps p (withCapacityIn A.toAllocator h size alloc) :=
  .ite (.ok hh) ((alloc'_keeps hh size).bind fun _ hr => .step fun _ => .ok hr)

/-- A buffer that shrinks to nothing gives its block back. -/
theorem shrinkToFit_keeps (cap : Nat) : Keeps p (shrinkToFit A.toAllocator h this cap) := by
  unfold shrinkToFit
  refine Returns.bind ?_ fun _ hr => .step fun _ => .ok hr
  unfold shrink
  refine .ite .error (.ite (.ok hh) (.ite ?_ (realloc_keeps hh cap)))
  exact .step fun _ => (hh.deallocateBuffer _).bind fun _ hh' => .ok hh'

theorem refClone_keeps : Keeps p (refClone p h this) :=
  .ite (.ok hh) ((hh.fetchAdd _).bind fun _ hr => .ite .error (.ok hr))

end RawAlignedBuffer

/-! ## `UniqueAlignedBuffer` -/

namespace UniqueAlignedBuffer

variable {this : UniqueAlignedBuffer α} (hh : h.Accepted p)

/-- A method of the raw buffer on the field. -/
theorem keeps_buf {x : Except Fault (Heap × RawAlignedBuffer α)} (hx : Keeps p x) :
    Keeps p (do
      let (h, buf) ← x
      return (h, { this with buf })) :=
  hx.bind fun _ hr => .ok hr

theorem keeps_buf_result {x : Except Fault (RawAlignedBuffer.Reserved α)} (hx : Keeps p x) :
    Keeps p (do
      let (h, buf, result) ← x
      return (h, { this with buf }, result)) :=
  hx.bind fun _ hr => .ok hr

include hh

theorem withCapacityIn_keeps (capacity : Nat) (alloc : α) :
    Keeps p (withCapacityIn A.toAllocator h capacity alloc) :=
  (RawAlignedBuffer.withCapacityIn_keeps hh capacity alloc).bind fun _ hr => .ok hr

theorem reserve_keeps (additional : Nat) : Keeps p (this.reserve A.toAllocator h additional) :=
  keeps_buf (RawAlignedBuffer.reserve_keeps hh _ additional)

theorem reserveExact_keeps (additional : Nat) : Keeps p (this.reserveExact A.toAllocator h additional) :=
  keeps_buf (RawAlignedBuffer.reserveExact_keeps hh _ additional)

theorem tryReserve_keeps (additional : Nat) : Keeps p (this.tryReserve A.toAllocator h additional) :=
  keeps_buf_result (RawAlignedBuffer.tryReserve_keeps hh _ additional)

theorem tryReserveExact_keeps (additional : Nat) :
    Keeps p (this.tryReserveExact A.toAllocator h additional) :=
  keeps_buf_result (RawAlignedBuffer.tryReserveExact_keeps hh _ additional)

theorem shrinkToFit_keeps : Keeps p (this.shrinkToFit A.toAllocator h) :=
  .ite (keeps_buf (RawAlignedBuffer.shrinkToFit_keeps hh _)) (.ok hh)

theorem shrinkTo_keeps (minCapacity : Nat) : Keeps p (this.shrinkTo A.toAllocator h minCapacity) :=
  .ite (keeps_buf (RawAlignedBuffer.shrinkToFit_keeps hh _)) (.ok hh)

theorem push_keeps (value : UInt8) : Keeps p (this.push A.toAllocator h value) := by
  unfold push
  refine Returns.bind (Returns.ite (reserve_keeps hh 1) (.ok hh)) fun _ hr => ?_
  exact (hr.write _ _).bind fun _ hh' => .ok hh'

theorem appendElements_keeps (other : List UInt8) :
    Keeps p (this.appendElements A.toAllocator h other) :=
  (reserve_keeps hh other.length).bind fun _ hr => (hr.write _ _).bind fun _ hh' => .ok hh'

/-- The write loop of `resize`. -/
theorem writeAll_returns (ptr : Ptr) (value : UInt8) (n : Nat) :
    Returns (Heap.Accepted p) (writeAll p h ptr value n) := by
  induction n generalizing h ptr with
  | zero => exact .ok hh
  | succ n ih => exact (hh.write _ _).bind fun _ hh' => ih hh' _

theorem resize_keeps (newLen : Nat) (value : UInt8) :
    Keeps p (this.resize A.toAllocator h newLen value) := by
  unfold resize extendWith
  refine .ite ((reserve_keeps hh _).bind fun _ hr => ?_) (.ok hh)
  exact (writeAll_returns hr _ _ _).bind fun _ hh' => .ok hh'

theorem indexMut_keeps (start : Nat) (bytes : List UInt8) : Keeps p (this.indexMut p h start bytes) :=
  .step fun _ => .ite .error ((hh.write _ _).bind fun _ hh' => .ok hh')

/-- The first loop of `extend` writes into room that is there. -/
theorem fill_keeps (ptr : Ptr) (localLen free : Nat) (nexts : List Next) :
    Keeps p (fill p h ptr localLen free nexts) := by
  induction free generalizing h ptr localLen nexts with
  | zero => exact .ok hh
  | succ free ih =>
      cases nexts with
      | nil => exact .ok hh
      | cons next nexts =>
          cases next with
          | none | panic => exact .ok hh
          | some byte => exact (hh.write _ _).bind fun _ hh' => ih hh' _ _ _

/-- The second loop reserves for each byte. -/
theorem pushAll_accepted (nexts : List Next) : (pushAll A.toAllocator h this nexts).1.Accepted p := by
  induction nexts generalizing h this with
  | nil => exact hh
  | cons next nexts ih =>
      cases next with
      | none | panic => exact hh
      | some byte =>
          have hpush : Keeps p (this.push A.toAllocator h byte) := push_keeps hh byte
          unfold pushAll
          cases hr : this.push A.toAllocator h byte with
          | error f => exact hh
          | ok r => exact ih (hpush.of_eq hr)

/-- **`extend`**, whatever the iterator does. -/
theorem extend_accepted (iter : ByteIter) : (this.extend A.toAllocator h iter).1.Accepted p := by
  have hreserve : Keeps p (this.reserve A.toAllocator h iter.lower) := reserve_keeps hh iter.lower
  unfold extend
  cases hr : this.reserve A.toAllocator h iter.lower with
  | error f => exact hh
  | ok r =>
      obtain ⟨h₁, this₁⟩ := r
      have hh₁ : h₁.Accepted p := hreserve.of_eq hr
      dsimp only
      generalize hfree : wrappingSub p.bits (this₁.capacity p) this₁.len = free
      have hfill := fill_keeps hh₁ (this₁.asMutPtr.add this₁.len) this₁.len free iter.nexts
      cases hf : fill p h₁ (this₁.asMutPtr.add this₁.len) this₁.len free iter.nexts with
      | error f => exact hh₁
      | ok r =>
          obtain ⟨h₂, len, done⟩ := r
          have hh₂ : h₂.Accepted p := hfill.of_eq hf
          cases done with
          | full nexts => exact pushAll_accepted hh₂ nexts
          | ended | panicked => exact hh₂

theorem chunkMut_keeps : Keeps p (this.chunkMut A.toAllocator h) := by
  unfold chunkMut
  exact Returns.bind (Returns.ite (reserve_keeps hh 64) (.ok hh)) fun _ hr => .ok hr

end UniqueAlignedBuffer

theorem SharedAlignedBuffer.clone_keeps {this : SharedAlignedBuffer α} (hh : h.Accepted p) :
    Keeps p (this.clone p h) :=
  (RawAlignedBuffer.refClone_keeps hh).bind fun _ hr => .ok hr

/-! ## Whatever is done to a unique buffer -/

/-- A call that fails leaves the heap that it found. -/
theorem UniqueOp.settle_accepted {this : UniqueAlignedBuffer α} (hh : h.Accepted p)
    {x : Except Fault (Heap × UniqueAlignedBuffer α)} (hx : Keeps p x) :
    (UniqueOp.settle h this x).1.Accepted p := by
  cases x with
  | error f => exact hh
  | ok r => exact hx.of_eq rfl

theorem UniqueOp.settleTry_accepted {this : UniqueAlignedBuffer α} (hh : h.Accepted p)
    {x : Except Fault (Heap × UniqueAlignedBuffer α × Except RawBufferError Unit)} (hx : Keeps p x) :
    (UniqueOp.settleTry h this x).1.Accepted p := by
  cases x with
  | error f => exact hh
  | ok r => exact hx.of_eq rfl

open UniqueAlignedBuffer in
/-- **Every mutator.** -/
theorem UniqueOp.apply_accepted {this : UniqueAlignedBuffer α} (hh : h.Accepted p) (op : UniqueOp) :
    (op.apply A.toAllocator h this).1.Accepted p := by
  cases op with
  | push value => exact settle_accepted hh (push_keeps hh value)
  | append other | extendFromSlice other => exact settle_accepted hh (appendElements_keeps hh other)
  | extend iter => exact extend_accepted hh iter
  | resize newLen value => exact settle_accepted hh (resize_keeps hh newLen value)
  | truncate len => exact hh
  | clear => exact hh
  | reserve additional => exact settle_accepted hh (reserve_keeps hh additional)
  | reserveExact additional => exact settle_accepted hh (reserveExact_keeps hh additional)
  | tryReserve additional => exact settleTry_accepted hh (tryReserve_keeps hh additional)
  | tryReserveExact additional => exact settleTry_accepted hh (tryReserveExact_keeps hh additional)
  | shrinkTo minCapacity => exact settle_accepted hh (shrinkTo_keeps hh minCapacity)
  | shrinkToFit => exact settle_accepted hh (shrinkToFit_keeps hh)
  | indexMut start bytes => exact settle_accepted hh (indexMut_keeps hh start bytes)

theorem Scratch.pushAlloc_keeps {scratch : UniqueAlignedBuffer α} (hh : h.Accepted p) (layout : Layout) :
    Keeps p (Scratch.pushAlloc A.toAllocator h scratch layout) :=
  (UniqueAlignedBuffer.reserve_keeps hh _).bind fun _ hr =>
    (hr.write _ _).bind fun _ hh' => .step fun _ => .step fun _ => .ok hh'

/-- **Every call on a unique buffer of the system.** -/
theorem BufferOp.apply_accepted {this : UniqueAlignedBuffer α} (hh : h.Accepted p) (op : BufferOp) :
    (op.apply A.toAllocator h this).1.Accepted p := by
  cases op with
  | unique op => exact UniqueOp.apply_accepted hh op
  | pushAlloc layout =>
      have hpush : Keeps p (Scratch.pushAlloc A.toAllocator h this layout) :=
        Scratch.pushAlloc_keeps hh layout
      simp only [BufferOp.apply]
      cases hr : Scratch.pushAlloc A.toAllocator h this layout with
      | error f => exact hh
      | ok r => exact hpush.of_eq hr
  | popAlloc ptr layout =>
      simp only [BufferOp.apply]
      cases Scratch.popAlloc p h this ptr layout with
      | error f => exact hh
      | ok r => exact hh

end RkyvUtils
