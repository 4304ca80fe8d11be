import RkyvUtils.AlignedBufferPool.Safety

/-!
# `AlignedBufferPool.Geometry` — where the header and the data are in a block

The offset between the two is computed at compile time and again by every call of `layout`, and every
pointer from the one to the other is `BUFFER_OFFSET` bytes further or back. `layout_agrees` is about the
two computations; `blocks_are_laid_out` says what follows from it for every buffer that has a block, in
every state a system of buffers can reach and after every `alloc` and `realloc`.
-/

namespace RkyvUtils

open Word

/-! ## The two computations of the layout -/

/-- **The `const` reimplementation of `Layout::extend`** agrees with `std`'s on all valid layouts. -/
theorem LayoutHelper.extend_eq {t : Target} {self next : Layout} (hself : self.Valid t)
    (hnext : next.Valid t) : LayoutHelper.extend t self next = self.extend t next := by
  obtain ⟨k, hk, hkb⟩ := Params.exists_log_of_valid hnext
  have hpad : paddingNeededFor t self next.align = padding self.size next.align := by
    rw [hk]
    exact paddingNeededFor_eq t (Params.size_lt_of_valid hself) hkb
  have halign : (if self.align < next.align then next.align else self.align)
      = max self.align next.align := by
    split <;> omega
  unfold LayoutHelper.extend Layout.extend fromSizeAlignment
  dsimp only
  rw [hpad, halign]

namespace Params

variable (p : Params)

/-- **What a successful `layout` is**: `BUFFER_OFFSET` and then the data, at the larger of the two
    alignments; the offset that `Layout::extend` finds is `BUFFER_OFFSET` for every capacity. -/
theorem layout_agrees {capacity : Nat} {l : Layout} (hl : p.layout capacity = .ok (.ok l)) :
    p.header.extend p.toTarget (Layout.fromSizeAlignUnchecked capacity p.alignment)
        = some (l, p.bufferOffset) ∧
      l.size = p.bufferOffset + capacity ∧ l.align = max p.header.align p.alignment := by
  rw [p.layout_eq] at hl
  rw [p.extend_header_eq]
  by_cases hfit : p.bufferOffset + capacity + p.blockAlign ≤ p.half
  · rw [if_pos hfit] at hl ⊢
    cases hl
    exact ⟨rfl, rfl, rfl⟩
  · rw [if_neg hfit] at hl
    cases hl

end Params

/-! ## One block -/

namespace RawAlignedBuffer

variable {α : Type} {p : Params} {h : Heap}

/-- A buffer whose header and data lie as they should in a block that is allocated. -/
structure LaidOut (p : Params) (h : Heap) (this : RawAlignedBuffer α) (blk : Block) (header : Header) :
    Prop where
  block : ∃ b, this.buf.prov = some b ∧ h.blocks[b]? = some blk
  allocated : blk.status = .allocated
  /-- the header can be read, at the start of the block -/
  header_eq : h.header (this.headerPtr p) = .ok header
  header_start : (this.headerPtr p).addr = blk.base
  header_aligned : (this.headerPtr p).addr % p.header.align = 0
  data_aligned : this.buf.addr % p.alignment = 0
  disjoint : (this.headerPtr p).addr + p.header.size ≤ this.buf.addr
  /-- the capacity in the header is that of the data region, which ends with the block -/
  inside : this.buf.addr + header.allocBufferSize ≤ blk.base + blk.size
  addresses : blk.base + blk.size ≤ 2 ^ p.bits
  /-- the capacity or length in the tagged word -/
  value_le : this.value p ≤ header.allocBufferSize

/-- **A handle to a block of a buffer** has its header and data laid out in it. -/
theorem laidOut_onBlock {b : BlockId} {blk : Block} {rc v : Nat} (alloc : α)
    (hb : h.blocks[b]? = some (blk.counted rc)) (ok : blk.Ok p) (hv : v ≤ blk.data.length) :
    LaidOut p h (onBlock p blk b v alloc) (blk.counted rc) ⟨rc, blk.data.length⟩ := by
  have hlt := ok.data_lt
  have hbase := ok.base_aligned
  refine ⟨⟨b, rfl, hb⟩, ok.status, ?_, ?_, ?_, ?_, ?_, ?_, ok.base_le, ?_⟩
  · rw [headerPtr_onBlock]
    exact header_counted hb ok
  · rw [headerPtr_onBlock]
    rfl
  · rw [headerPtr_onBlock]
    exact Nat.mod_eq_zero_of_dvd (p.header_align_dvd_blockAlign.trans hbase)
  · exact Nat.mod_eq_zero_of_dvd
      ((Nat.dvd_add_right (p.alignment_dvd_blockAlign.trans hbase)).mpr p.alignment_dvd_bufferOffset)
  · have := p.header_size_le_bufferOffset
    rw [headerPtr_onBlock]
    show blk.base + p.header.size ≤ blk.base + p.bufferOffset
    omega
  · have := ok.size_eq
    show blk.base + p.bufferOffset + blk.data.length ≤ blk.base + blk.size
    omega
  · rw [value_onBlock (by omega)]
    exact hv

/-- **A unique buffer**, whose tagged word has the capacity of the header. -/
theorem Holds.laidOut {this : RawAlignedBuffer α} {o : Option BlockId} {data : List (Option UInt8)}
    (hh : Holds p h this o data) (hall : this.isAllocated p = true) :
    ∃ blk header, LaidOut p h this blk header ∧ this.value p = header.allocBufferSize := by
  have hvalue := hh.value_eq
  cases hh with
  | empty alloc =>
      rw [isAllocated_newIn] at hall
      cases hall
  | @block b blk alloc hb ok header =>
      exact ⟨_, _, laidOut_onBlock alloc ((Block.counted_self header).symm ▸ hb) ok (Nat.le_refl _),
        hvalue⟩

/-- A reservation or a shrink leaves a unique buffer, whether it fails or not. -/
theorem Outcome.laidOut {this this' : RawAlignedBuffer α} {o : Option BlockId}
    {data : List (Option UInt8)} {cap : Nat} {h' : Heap} {result : Except RawBufferError Unit}
    (hh : Holds p h this o data) (hout : Outcome p h this o data cap (h', this', result))
    (hall : this'.isAllocated p = true) :
    ∃ blk header, LaidOut p h' this' blk header ∧ this'.value p = header.allocBufferSize := by
  cases hout with
  | @failed calls e =>
      have hsame : Holds p ⟨h.blocks, calls⟩ this o data := hh.congr fun _ _ => rfl
      exact hsame.laidOut hall
  | done holds => exact holds.laidOut hall

/-- Shrinking to capacity 0 leaves a buffer as new. -/
theorem shrink_zero_newIn (A : Allocator p.toTarget) {this : RawAlignedBuffer α} {o : Option BlockId}
    {data : List (Option UInt8)} (hh : Holds p h this o data) (hlen : data.length ≠ 0) :
    ∃ h' alloc, shrink A h this 0 = .ok (h', newIn alloc, .ok ()) := by
  cases hh with
  | empty alloc => exact absurd rfl hlen
  | block alloc hb ok header => exact ⟨_, alloc, shrink_zero A alloc hb ok header⟩

end RawAlignedBuffer

/-! ## Every reachable state -/

namespace BufferPool

open RawAlignedBuffer UniqueAlignedBuffer

/-- The buffer that is passed to `deallocate_buffer`, in the steps that still have it. -/
def Pc.raw : Pc → Option RawBuffer
  | .call raw | .dealloc raw | .push _ raw | .reject raw => some raw
  | _ => none

/-- The raw buffers of a state that have not given their block up: those of the handles, of the steps of
    a `drop`, and of the queues. -/
inductive State.HasBuffer (s : State) : RawAlignedBuffer Home → Prop
  | unique {i : Nat} {this : UniqueAlignedBuffer Home} (hi : s.slots[i]? = some (.unique this)) :
      s.HasBuffer this.buf
  | shared {i : Nat} {this : SharedAlignedBuffer Home} (hi : s.slots[i]? = some (.shared this)) :
      s.HasBuffer this.buf
  | dropping {i : Nat} {this : RawAlignedBuffer Home} {pc : Pc} {after : After}
      (hi : s.slots[i]? = some (.releasing this pc after))
      (hpc : pc = .fetchSub ∨ pc = .load ∨ pc = .store) : s.HasBuffer this
  | given {i : Nat} {this : RawAlignedBuffer Home} {pc : Pc} {after : After} {raw : RawBuffer}
      (hi : s.slots[i]? = some (.releasing this pc after)) (hpc : pc.raw = some raw) :
      s.HasBuffer ⟨raw.buf, raw.cap, this.alloc⟩
  | queued {q : Nat} {entries : List (UniqueAlignedBuffer Home)} {this : UniqueAlignedBuffer Home}
      (hq : s.queues[q]? = some entries) (hmem : this ∈ entries) : s.HasBuffer this.buf

variable {p : Params} {cfg : Config} {s : State} {h : Heap} {this : RawAlignedBuffer Home}

theorem Grips.laidOut {v : Nat} {data : List (Option UInt8)} (hg : Grips p h this v data)
    (hall : this.isAllocated p = true) : ∃ blk header, LaidOut p h this blk header := by
  cases hg with
  | empty alloc =>
      rw [isAllocated_newIn] at hall
      cases hall
  | block alloc hb ok hv => exact ⟨_, _, laidOut_onBlock alloc hb ok hv⟩

theorem Held.laidOut {rc : Nat} (hh : Held p h this rc) : ∃ blk header, LaidOut p h this blk header := by
  obtain ⟨b, blk, v, alloc, rfl, hb, ok, hv⟩ := hh
  exact ⟨_, _, laidOut_onBlock alloc hb ok hv⟩

theorem Given.laidOut {raw : RawBuffer} (hg : Given p h raw) (alloc : Home) :
    ∃ blk header, LaidOut p h ⟨raw.buf, raw.cap, alloc⟩ blk header := by
  obtain ⟨b, blk, rfl, hb, ok⟩ := hg
  exact ⟨_, _, laidOut_onBlock alloc hb ok (Nat.le_refl _)⟩

/-- **Every buffer of a state in the invariant** is laid out in its block. -/
theorem Inv.laidOut (inv : Inv p cfg s) (hbuffer : s.HasBuffer this) (hall : this.isAllocated p = true) :
    ∃ blk header, LaidOut p s.heap this blk header := by
  cases hbuffer with
  | @unique i this hi =>
      obtain ⟨⟨o, xs, data, hs⟩, -⟩ := inv.slots i _ hi
      exact (Stores.grips hs).laidOut hall
  | @shared i this hi =>
      obtain ⟨⟨xs, data, hs⟩, -⟩ := inv.slots i _ hi
      exact hs.grips.laidOut hall
  | @dropping i this pc after hi hpc =>
      obtain ⟨hpcOk, -⟩ := inv.slots i _ hi
      rcases hpc with rfl | rfl | rfl
      · obtain ⟨v, data, hg⟩ := hpcOk
        exact hg.laidOut hall
      · exact Held.laidOut hpcOk
      · exact Held.laidOut hpcOk
  | @given i this pc after raw hi hpc =>
      obtain ⟨hpcOk, -⟩ := inv.slots i _ hi
      cases pc with
      | call raw => cases hpc; exact Given.laidOut hpcOk _
      | dealloc raw | push queue raw | reject raw => cases hpc; exact hpcOk.1.laidOut _
      | _ => cases hpc
  | @queued q entries this hq hmem =>
      exact (inv.queues q entries hq this hmem).given.laidOut this.buf.alloc

variable (A : Allocator p.toTarget) (cfg)

/-- **Header and data lie where the layout says, always.** `layout` finds the offset `BUFFER_OFFSET` for
    every capacity. In every reachable state every buffer that has a block has its header at the start of
    it, aligned, in front of the data; its data starts at a multiple of `ALIGNMENT` and its capacity ends
    with the block. The same holds after every call of `grow_to` (which is `alloc` or `realloc`) and of
    `shrink` on a unique buffer, for every capacity these can be called with, whether they fail or not. -/
theorem blocks_are_laid_out (actions : List Action) :
    (∀ (capacity : Nat) (l : Layout), p.layout capacity = .ok (.ok l) →
      p.header.extend p.toTarget (Layout.fromSizeAlignUnchecked capacity p.alignment)
          = some (l, p.bufferOffset) ∧
        l.size = p.bufferOffset + capacity ∧ l.align = max p.header.align p.alignment) ∧
    match runFrom A cfg actions with
    | .ok s =>
        (∀ this, s.HasBuffer this → this.isAllocated p = true →
          ∃ blk header, LaidOut p s.heap this blk header) ∧
        ∀ (i : Nat) (this : UniqueAlignedBuffer Home), s.slots[i]? = some (.unique this) →
          ∀ (capacity : Nat) (h' : Heap) (buf' : RawAlignedBuffer Home) (result : Except RawBufferError Unit),
            (this.capacity p < capacity ∧ growTo A s.heap this.buf capacity = .ok (h', buf', result) ∨
              capacity ≤ this.capacity p ∧ shrink A s.heap this.buf capacity = .ok (h', buf', result)) →
            buf'.isAllocated p = true →
              ∃ blk header, LaidOut p h' buf' blk header ∧ buf'.value p = header.allocBufferSize
    | .error f => f.Aborts := by
  refine ⟨fun capacity l hl => p.layout_agrees hl, ?_⟩
  rcases run_proceeds cfg A actions with ⟨s, hr, inv⟩ | ⟨f, hr, hf⟩
  case inr => rw [hr]; exact hf
  rw [hr]
  refine ⟨fun this hbuffer hall => inv.laidOut hbuffer hall, ?_⟩
  rintro i this hi capacity h' buf' result (⟨hlt, hgrow⟩ | ⟨hle, hshrink⟩) hall
  all_goals
    obtain ⟨⟨o, xs, data, hs⟩, -⟩ := inv.slots i _ hi
    have hcap := hs.capacity_eq
  · obtain ⟨r, hr, hout⟩ := growTo_spec A hs.holds (show data.length < capacity by omega)
    rw [hgrow] at hr
    cases hr
    exact hout.laidOut hs.holds hall
  · by_cases hkeep : capacity = 0 → data.length = 0
    · obtain ⟨r, hr, hout⟩ := shrink_spec A hs.holds (show capacity ≤ data.length by omega) hkeep
      rw [hshrink] at hr
      cases hr
      exact hout.laidOut hs.holds hall
    · -- the block is given up
      push Not at hkeep
      obtain ⟨rfl, hlen⟩ := hkeep
      obtain ⟨h₁, alloc, hzero⟩ := shrink_zero_newIn A hs.holds hlen
      rw [hzero] at hshrink
      cases hshrink
      rw [isAllocated_newIn] at hall
      cases hall

end BufferPool

end RkyvUtils
