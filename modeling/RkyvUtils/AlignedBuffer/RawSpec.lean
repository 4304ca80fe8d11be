import RkyvUtils.AlignedBuffer.Raw

/-!
# `AlignedBuffer.RawSpec` — what the methods of a uniquely owned `RawAlignedBuffer` do

`Holds` ties a unique buffer to the memory it owns: nothing, or an allocated block whose header has
reference count 1 and the capacity that the tagged word has. `Outcome` lists the ends of a reservation
or a shrink from such a buffer: an error that leaves all memory alone, or a buffer that again `Holds`
its memory, has the capacity asked for, and kept the bytes that fit. Every spec below says that the call
returns (so no assertion, contract or memory fault is reached) and that its result is an `Outcome`; only
shrinking to capacity 0, which gives the block up, has an equation of its own.
-/

namespace RkyvUtils

open Word Ownership

/-- A block that was not moved elsewhere: allocated or deallocated. -/
def Block.Unreplaced (blk : Block) : Prop := blk.status ≠ .replaced

namespace RawAlignedBuffer

variable {α : Type} {p : Params}

/-- What a unique buffer owns: the block (none before the first allocation), and its data bytes. -/
inductive Holds (p : Params) (h : Heap) :
    RawAlignedBuffer α → Option BlockId → List (Option UInt8) → Prop
  | empty (alloc : α) : Holds p h (newIn alloc) none []
  | block {b : BlockId} {blk : Block} (alloc : α) (hb : h.blocks[b]? = some blk) (ok : blk.Ok p)
      (header : blk.header = some ⟨1, blk.data.length⟩) :
      Holds p h ⟨blk.dataPtr p b, .pack p.toTarget blk.data.length true, alloc⟩ (some b) blk.data

variable {h h' : Heap} {this : RawAlignedBuffer α} {o o' : Option BlockId}
  {data data' : List (Option UInt8)}

@[simp] theorem value_newIn (alloc : α) : (newIn alloc).value p = 0 := TaggedCap.value_zero

@[simp] theorem isAllocated_newIn (alloc : α) : (newIn alloc).isAllocated p = false :=
  TaggedCap.isAllocated_zero

/-! ## What a unique buffer satisfies -/

theorem Holds.length_lt (hh : Holds p h this o data) : data.length < p.half := by
  cases hh with
  | empty => exact p.half_pos
  | block _ _ ok _ => exact ok.data_lt

/-- The tagged word of a unique buffer has the capacity. -/
theorem Holds.value_eq (hh : Holds p h this o data) : this.value p = data.length := by
  cases hh with
  | empty => exact TaggedCap.value_zero
  | block _ _ ok _ => exact TaggedCap.value_pack ok.data_lt _

theorem Holds.isAllocated_eq (hh : Holds p h this o data) : this.isAllocated p = o.isSome := by
  cases hh with
  | empty => exact TaggedCap.isAllocated_zero
  | block _ _ ok _ => exact TaggedCap.isAllocated_pack ok.data_lt _

/-- The pointer of a unique buffer was derived from its block. -/
theorem Holds.prov_eq (hh : Holds p h this o data) : this.buf.prov = o := by
  cases hh with
  | empty => rfl
  | block => rfl

/-- The tag is set exactly when the capacity is not zero. -/
theorem Holds.isAllocated_iff (hh : Holds p h this o data) :
    this.isAllocated p = true ↔ data.length ≠ 0 := by
  rw [hh.isAllocated_eq]
  cases hh with
  | empty => simp
  | block _ _ ok _ =>
      have := ok.data_pos
      simp only [Option.isSome_some, true_iff]; omega

/-- An allocated buffer's header can be read: reference count 1, and the capacity. -/
theorem Holds.header_eq (hh : Holds p h this o data) (hall : this.isAllocated p = true) :
    h.header (this.headerPtr p) = .ok ⟨1, data.length⟩ := by
  cases hh with
  | empty => simp at hall
  | @block b blk alloc hb ok header =>
      show h.header ((blk.dataPtr p b).sub p.bufferOffset) = _
      rw [Block.dataPtr_sub]
      exact Heap.header_eq hb ok.status header

/-- A unique buffer depends on its own block only. -/
theorem Holds.congr (hh : Holds p h this o data)
    (heq : ∀ b, o = some b → h'.blocks[b]? = h.blocks[b]?) : Holds p h' this o data := by
  cases hh with
  | empty alloc => exact .empty alloc
  | block alloc hb ok header => exact .block alloc (by rw [heq _ rfl]; exact hb) ok header

/-! ## The ends of a reservation or a shrink to capacity `cap` -/

inductive Outcome (p : Params) (h : Heap) (this : RawAlignedBuffer α) (o : Option BlockId)
    (data : List (Option UInt8)) (cap : Nat) : Reserved α → Prop
  | failed {calls : Nat} {e : RawBufferError} : Outcome p h this o data cap (⟨h.blocks, calls⟩, this, .error e)
  | done {h' : Heap} {this' : RawAlignedBuffer α} {o' : Option BlockId} {data' : List (Option UInt8)}
      (holds : Holds p h' this' o' data') (alloc : this'.alloc = this.alloc)
      (confined : Confined Block.Unreplaced h.blocks h'.blocks o o') (room : cap ≤ data'.length)
      (kept : ∀ k, k ≤ cap → k ≤ data.length → data'.take k = data.take k) :
      Outcome p h this o data cap (h', this', .ok ())

variable {cap : Nat} {r : Reserved α}

/-- Doing nothing is an outcome when the capacity is there already. -/
theorem Outcome.refl (hh : Holds p h this o data) (hcap : cap ≤ data.length) :
    Outcome p h this o data cap (h, this, .ok ()) :=
  .done hh rfl .refl hcap (fun _ _ _ => rfl)

/-- An outcome for a larger capacity is one for a smaller. -/
theorem Outcome.mono {cap' : Nat} (hr : Outcome p h this o data cap r) (hle : cap' ≤ cap) :
    Outcome p h this o data cap' r := by
  cases hr with
  | failed => exact .failed
  | done holds alloc confined room kept =>
      exact .done holds alloc confined (by omega) (fun k hk hl => kept k (by omega) hl)

/-- A block with a header fresh from its buffer. -/
theorem Holds.setHeader {b : BlockId} {blk : Block} (alloc : α) (hb : h.blocks[b]? = some blk)
    (ok : blk.Ok p) :
    Holds p (h.update b { blk with header := some ⟨1, blk.data.length⟩ })
      ⟨blk.dataPtr p b, .pack p.toTarget blk.data.length true, alloc⟩ (some b) blk.data := by
  have hget : (h.update b { blk with header := some ⟨1, blk.data.length⟩ }).blocks[b]?
      = some { blk with header := some ⟨1, blk.data.length⟩ } :=
    List.getElem?_set_self (List.getElem?_eq_some_iff.mp hb).1
  have hok := ok.setHeader ⟨1, blk.data.length⟩
  generalize hnew : ({ blk with header := some ⟨1, blk.data.length⟩ } : Block) = new at hget hok ⊢
  have hbase : blk.dataPtr p b = new.dataPtr p b := by rw [← hnew]; rfl
  have hdata : blk.data = new.data := by rw [← hnew]
  rw [hbase, hdata]
  exact .block alloc hget hok (by rw [← hnew])

/-! ## Allocation -/

variable (A : Allocator p.toTarget)

/-- **The first allocation** of a buffer. -/
theorem alloc'_spec (alloc : α) (hcap : 0 < cap) :
    ∃ r, alloc' A h (newIn alloc) cap = .ok r ∧ Outcome p h (newIn alloc) none [] cap r := by
  unfold alloc'
  rw [value_newIn, isAllocated_newIn, Target.debugAssert_ok rfl, ok_bind,
    Target.debugAssert_ok (by simp), ok_bind, p.layout_eq, ok_bind]
  by_cases hfit : p.bufferOffset + cap + p.blockAlign ≤ p.half
  case neg => rw [if_neg hfit]; exact ⟨_, rfl, .failed⟩
  rw [if_pos hfit]
  dsimp only
  cases hguard : p.allocGuard (p.bufferOffset + cap) with
  | error e => exact ⟨_, rfl, .failed⟩
  | ok _ =>
    unfold Heap.allocate
    cases hA : A.allocate h ⟨p.bufferOffset + cap, p.blockAlign⟩ with
    | none => exact ⟨_, rfl, .failed⟩
    | some g =>
      dsimp only
      have hgm := A.allocate_meets _ _ _ hA
      have hgood := Heap.granted_ok none [] hgm hcap
      generalize hblk : Heap.granted p g ⟨p.bufferOffset + cap, p.blockAlign⟩ none [] = blk at hgood
      obtain ⟨hok, hroom⟩ := hgood
      have hlen : g.size - p.bufferOffset = blk.data.length := by
        rw [← hblk]; exact (Heap.length_padTo _ _).symm
      have hbase : g.base = blk.base := by rw [← hblk]; rfl
      have hget : (h.blocks ++ [blk])[h.blocks.length]? = some blk := by simp
      rw [hlen, hbase, Heap.setHeader_eq hget hok.status, ok_bind, TaggedCap.new_eq hok.data_lt, ok_bind]
      refine ⟨_, rfl, .done (Holds.setHeader alloc hget hok) rfl ?_ hroom ?_⟩
      · exact (Confined.push (fun _ _ ho => by cases ho)).trans (Confined.set_self _)
      · intro k _ hk
        rw [Nat.le_zero.mp hk]; rfl

/-! ## Reallocation -/

/-- **The write back after a move**: the block returned for `cap` bytes replaces block `b`. -/
theorem reallocFinish_spec {b : BlockId} {blk : Block} {g : Grant} {kept : Nat} (alloc : α)
    (hok : blk.Ok p) (hheader : blk.header = some ⟨1, blk.data.length⟩)
    (hg : g.Meets p.toTarget ⟨p.bufferOffset + cap, p.blockAlign⟩) (hcap : 0 < cap)
    (hkept : min cap blk.data.length ≤ kept) :
    ∃ r, reallocFinish p ⟨blk.dataPtr p b, .pack p.toTarget blk.data.length true, alloc⟩
        ⟨p.bufferOffset + cap, p.blockAlign⟩
        (Heap.moved p h b blk g ⟨p.bufferOffset + cap, p.blockAlign⟩ kept,
          some (⟨g.base, some h.blocks.length⟩, g.size)) = .ok r ∧
      Outcome p h ⟨blk.dataPtr p b, .pack p.toTarget blk.data.length true, alloc⟩ (some b) blk.data
        cap r := by
  have hgood := Heap.granted_ok blk.header (blk.data.take kept) hg hcap
  unfold reallocFinish Heap.moved
  dsimp only
  generalize hblk : Heap.granted p g ⟨p.bufferOffset + cap, p.blockAlign⟩ blk.header
    (blk.data.take kept) = blk' at hgood
  obtain ⟨hok', hroom⟩ := hgood
  have hlen : g.size - p.bufferOffset = blk'.data.length := by
    rw [← hblk]; exact (Heap.length_padTo _ _).symm
  have hbase : g.base = blk'.base := by rw [← hblk]; rfl
  have hheader' : blk'.header = some ⟨1, blk.data.length⟩ := by rw [← hblk]; exact hheader
  have hget : (h.blocks.set b { blk with status := .replaced } ++ [blk'])[h.blocks.length]?
      = some blk' := by simp
  rw [hlen, hbase, Heap.header_eq hget hok'.status hheader', ok_bind,
    Heap.setHeader_eq hget hok'.status, ok_bind, TaggedCap.withValue_pack hok.data_lt hok'.data_lt,
    ok_bind]
  refine ⟨_, rfl, .done (Holds.setHeader alloc hget hok') rfl ?_ hroom ?_⟩
  -- the old block is gone, the new one is behind all others, and its header is written last
  · have hdead : ¬({ blk with status := .replaced } : Block).Unreplaced := by
      simp [Block.Unreplaced]
    have hpush : Confined Block.Unreplaced (h.blocks.set b { blk with status := .replaced })
        (h.blocks.set b { blk with status := .replaced } ++ [blk']) none (some h.blocks.length) := by
      have hlen : (h.blocks.set b { blk with status := .replaced }).length = h.blocks.length :=
        List.length_set
      rw [← hlen]
      exact Confined.push (fun _ _ ho => by cases ho)
    exact ((Confined.release hdead).trans hpush).trans (Confined.set_self _)
  · intro k hk hkl
    have : blk'.data = Heap.padTo (g.size - p.bufferOffset) (blk.data.take kept) := by rw [← hblk]; rfl
    rw [this, Heap.take_padTo (by omega) (by simp; omega), List.take_take,
      Nat.min_eq_left (by omega)]

/-- **Reallocation** to another capacity: the old layout fits the block and `grow` and `shrink` are
    called on the right side, whatever the allocator answered before. -/
theorem realloc_spec (hh : Holds p h this o data) (hall : this.isAllocated p = true) (hcap : 0 < cap) :
    ∃ r, realloc A h this cap = .ok r ∧ Outcome p h this o data cap r := by
  cases hh with
  | empty alloc => simp at hall
  | @block b blk alloc hb hok hheader =>
    have hself := Holds.block alloc hb hok hheader
    have hpos := hok.data_pos
    unfold realloc
    rw [hself.value_eq, hself.isAllocated_eq, Target.debugAssert_ok (by omega), ok_bind,
      Target.debugAssert_ok Option.isSome_some, ok_bind, p.layout_eq, ok_bind]
    by_cases hfit : p.bufferOffset + cap + p.blockAlign ≤ p.half
    case neg => rw [if_neg hfit]; exact ⟨_, rfl, .failed⟩
    rw [if_pos hfit]
    dsimp only
    cases hguard : p.allocGuard (p.bufferOffset + cap) with
    | error e => exact ⟨_, rfl, .failed⟩
    | ok _ =>
      dsimp only
      rw [hok.layout_eq, ok_bind]
      dsimp only
      rw [Target.debugAssert_ok rfl, ok_bind, Block.dataPtr_sub]
      -- the layouts compare as the capacities do: `grow`, nothing, `shrink`
      rcases Nat.lt_trichotomy blk.data.length cap with hlt | heq | hgt
      · rw [if_neg (by omega), if_pos (by omega)]
        unfold Heap.grow
        rw [Heap.target_eq hb hok.status hok.fits, ok_bind]
        dsimp only
        rw [if_neg (by omega)]
        cases hA : A.grow h ⟨blk.base, some b⟩ ⟨p.bufferOffset + blk.data.length, p.blockAlign⟩
            ⟨p.bufferOffset + cap, p.blockAlign⟩ with
        | none => exact ⟨_, rfl, .failed⟩
        | some g =>
            exact reallocFinish_spec alloc hok hheader (A.grow_meets _ _ _ _ _ hA) hcap (by omega)
      · rw [if_pos (by omega)]
        exact ⟨_, rfl, .refl hself (by omega)⟩
      · rw [if_neg (by omega), if_neg (by omega)]
        unfold Heap.shrink
        rw [Heap.target_eq hb hok.status hok.fits, ok_bind]
        dsimp only
        rw [if_neg (by omega)]
        cases hA : A.shrink h ⟨blk.base, some b⟩ ⟨p.bufferOffset + blk.data.length, p.blockAlign⟩
            ⟨p.bufferOffset + cap, p.blockAlign⟩ with
        | none => exact ⟨_, rfl, .failed⟩
        | some g =>
            exact reallocFinish_spec alloc hok hheader (A.shrink_meets _ _ _ _ _ hA) hcap (by omega)

/-- **A growth that succeeded** passed both checks, was granted a block, and wrote it back. -/
theorem realloc_grows {b : BlockId} {blk : Block} (alloc : α) {h' : Heap} {this' : RawAlignedBuffer α}
    (hb : h.blocks[b]? = some blk) (hok : blk.Ok p) (hheader : blk.header = some ⟨1, blk.data.length⟩)
    (hlt : blk.data.length < cap)
    (hr : realloc A h ⟨blk.dataPtr p b, .pack p.toTarget blk.data.length true, alloc⟩ cap
      = .ok (h', this', .ok ())) :
    p.bufferOffset + cap + p.blockAlign ≤ p.half ∧ p.allocGuard (p.bufferOffset + cap) = .ok () ∧
      ∃ g kept, A.grow h ⟨blk.base, some b⟩ ⟨p.bufferOffset + blk.data.length, p.blockAlign⟩
          ⟨p.bufferOffset + cap, p.blockAlign⟩ = some g ∧
        reallocFinish p ⟨blk.dataPtr p b, .pack p.toTarget blk.data.length true, alloc⟩
          ⟨p.bufferOffset + cap, p.blockAlign⟩
          (Heap.moved p h b blk g ⟨p.bufferOffset + cap, p.blockAlign⟩ kept,
            some (⟨g.base, some h.blocks.length⟩, g.size)) = .ok (h', this', .ok ()) := by
  have hself := Holds.block alloc hb hok hheader
  have hpos := hok.data_pos
  unfold realloc at hr
  rw [hself.value_eq, hself.isAllocated_eq, Target.debugAssert_ok (by omega), ok_bind,
    Target.debugAssert_ok Option.isSome_some, ok_bind, p.layout_eq, ok_bind] at hr
  by_cases hfit : p.bufferOffset + cap + p.blockAlign ≤ p.half
  case neg =>
    rw [if_neg hfit] at hr
    cases hr
  rw [if_pos hfit] at hr
  dsimp only at hr
  cases hguard : p.allocGuard (p.bufferOffset + cap) with
  | error e =>
      rw [hguard] at hr
      cases hr
  | ok _ =>
      rw [hguard] at hr
      dsimp only at hr
      rw [hok.layout_eq, ok_bind] at hr
      dsimp only at hr
      rw [Target.debugAssert_ok rfl, ok_bind, Block.dataPtr_sub, if_neg (by omega), if_pos (by omega)] at hr
      unfold Heap.grow at hr
      rw [Heap.target_eq hb hok.status hok.fits, ok_bind] at hr
      dsimp only at hr
      rw [if_neg (by omega)] at hr
      cases hA : A.grow h ⟨blk.base, some b⟩ ⟨p.bufferOffset + blk.data.length, p.blockAlign⟩
          ⟨p.bufferOffset + cap, p.blockAlign⟩ with
      | none =>
          rw [hA] at hr
          cases hr
      | some g =>
          rw [hA] at hr
          exact ⟨hfit, rfl, g, _, rfl, hr⟩

/-! ## Reservations -/

/-- **`grow_to`** allocates or reallocates. -/
theorem growTo_spec (hh : Holds p h this o data) (hcap : data.length < cap) :
    ∃ r, growTo A h this cap = .ok r ∧ Outcome p h this o data cap r := by
  unfold growTo
  rw [hh.value_eq, Target.debugAssert_ok hcap, ok_bind]
  by_cases hall : this.isAllocated p = true
  · rw [if_neg (by simp [hall])]
    exact realloc_spec A hh hall (by omega)
  · rw [if_pos hall]
    cases hh with
    | empty alloc => exact alloc'_spec A alloc (by omega)
    | block _ _ ok _ => exact absurd (TaggedCap.isAllocated_pack ok.data_lt _) hall

/-- The buffer must grow exactly when `len + additional` bytes do not fit. -/
theorem Holds.needsToGrow_iff {len additional : Nat} (hh : Holds p h this o data)
    (hlen : len ≤ data.length) :
    this.needsToGrow p len additional = true ↔ data.length < len + additional := by
  have hlt := hh.length_lt
  have := p.half_add_half
  unfold needsToGrow
  rw [hh.value_eq, wrappingSub_of_le hlen (by omega)]
  simp only [decide_eq_true_eq]; omega

/-- A request that fits asks for no memory. -/
theorem Holds.not_needsToGrow {len additional : Nat} (hh : Holds p h this o data)
    (hroom : len + additional ≤ data.length) : ¬this.needsToGrow p len additional = true := by
  rw [hh.needsToGrow_iff (by omega)]
  omega

/-- **`grow_amortized`**: the doubling does not wrap, and the capacity is at least what was asked. -/
theorem growAmortized_spec {len additional : Nat} (hh : Holds p h this o data)
    (hlen : len ≤ data.length) (hgrow : data.length < len + additional) :
    ∃ r, growAmortized A h this len additional = .ok r ∧
      Outcome p h this o data (len + additional) r := by
  unfold growAmortized
  rw [Target.debugAssert_ok (by omega), ok_bind]
  cases hsum : checkedAdd p.bits len additional with
  | none => exact ⟨_, rfl, .failed⟩
  | some required =>
      obtain ⟨rfl, -⟩ := checkedAdd_eq_some.mp hsum
      -- the doubled capacity may have wrapped, but what is asked for bounds the maximum from below
      have hle : len + additional
          ≤ max Params.minNonZeroCap (max ((this.value p * 2) % 2 ^ p.bits) (len + additional)) := by
        omega
      obtain ⟨r, hr, hout⟩ := growTo_spec A hh (Nat.lt_of_lt_of_le hgrow hle)
      exact ⟨r, hr, hout.mono hle⟩

theorem growExact_spec {len additional : Nat} (hh : Holds p h this o data)
    (hgrow : data.length < len + additional) :
    ∃ r, growExact A h this len additional = .ok r ∧
      Outcome p h this o data (len + additional) r := by
  unfold growExact
  cases hsum : checkedAdd p.bits len additional with
  | none => exact ⟨_, rfl, .failed⟩
  | some required =>
      obtain ⟨rfl, -⟩ := checkedAdd_eq_some.mp hsum
      exact growTo_spec A hh hgrow

variable {len additional : Nat}

/-- **`try_reserve`** makes room for `additional` bytes after the first `len`, or fails. -/
theorem tryReserve_spec (additional : Nat) (hh : Holds p h this o data) (hlen : len ≤ data.length) :
    ∃ r, tryReserve A h this len additional = .ok r ∧
      Outcome p h this o data (len + additional) r := by
  unfold tryReserve
  by_cases hgrow : this.needsToGrow p len additional = true
  · rw [if_pos hgrow]
    exact growAmortized_spec A hh hlen ((hh.needsToGrow_iff hlen).mp hgrow)
  · rw [if_neg hgrow]
    exact ⟨_, rfl, .refl hh (by rw [hh.needsToGrow_iff hlen] at hgrow; omega)⟩

theorem tryReserveExact_spec (additional : Nat) (hh : Holds p h this o data) (hlen : len ≤ data.length) :
    ∃ r, tryReserveExact A h this len additional = .ok r ∧
      Outcome p h this o data (len + additional) r := by
  unfold tryReserveExact
  by_cases hgrow : this.needsToGrow p len additional = true
  · rw [if_pos hgrow]
    exact growExact_spec A hh ((hh.needsToGrow_iff hlen).mp hgrow)
  · rw [if_neg hgrow]
    exact ⟨_, rfl, .refl hh (by rw [hh.needsToGrow_iff hlen] at hgrow; omega)⟩

/-- How an infallible reservation can end: like the fallible one, or with the panic or abort of
    `handle_reserve`. -/
def Reserves (p : Params) (h : Heap) (this : RawAlignedBuffer α) (o : Option BlockId)
    (data : List (Option UInt8)) (cap : Nat) (r : Except Fault (Heap × RawAlignedBuffer α)) : Prop :=
  (∃ h' this', r = .ok (h', this') ∧ Outcome p h this o data cap (h', this', .ok ())) ∨
    r = .error .capacityOverflow ∨ r = .error .allocError

/-- `handle_reserve` behind a fallible call. -/
theorem Reserves.of_outcome {x : Except Fault (Reserved α)}
    (hx : ∃ r, x = .ok r ∧ Outcome p h this o data cap r) :
    Reserves p h this o data cap (do
      let (h, this, result) ← x
      handleReserve result
      return (h, this)) := by
  obtain ⟨r, rfl, hr⟩ := hx
  rw [ok_bind]
  cases hr with
  | @failed calls e =>
      cases e with
      | capacityOverflow => exact Or.inr (Or.inl rfl)
      | allocError layout => exact Or.inr (Or.inr rfl)
  | done holds alloc confined room kept =>
      exact Or.inl ⟨_, _, rfl, .done holds alloc confined room kept⟩

theorem reserve_spec (hh : Holds p h this o data) (hlen : len ≤ data.length) :
    Reserves p h this o data (len + additional) (reserve A h this len additional) := by
  unfold reserve
  by_cases hgrow : this.needsToGrow p len additional = true
  · rw [if_pos hgrow]
    exact .of_outcome (growAmortized_spec A hh hlen ((hh.needsToGrow_iff hlen).mp hgrow))
  · rw [if_neg hgrow]
    exact Or.inl ⟨_, _, rfl, .refl hh (by rw [hh.needsToGrow_iff hlen] at hgrow; omega)⟩

/-- A reservation that finds the room there does nothing. -/
theorem reserve_room (hh : Holds p h this o data) (hroom : len + additional ≤ data.length) :
    reserve A h this len additional = .ok (h, this) := by
  unfold reserve
  rw [if_neg (hh.not_needsToGrow hroom)]
  rfl

theorem reserveExact_spec (hh : Holds p h this o data) (hlen : len ≤ data.length) :
    Reserves p h this o data (len + additional) (reserveExact A h this len additional) :=
  .of_outcome (tryReserveExact_spec A _ hh hlen)

theorem withCapacityIn_spec (alloc : α) :
    Reserves p h (newIn alloc) none [] cap (withCapacityIn A h cap alloc) := by
  unfold withCapacityIn
  by_cases hz : cap = 0
  · rw [if_pos hz]
    exact Or.inl ⟨_, _, rfl, .refl (.empty alloc) (by simp [hz])⟩
  · rw [if_neg hz]
    exact .of_outcome (alloc'_spec A alloc (by omega))

/-! ## Giving memory back -/

/-- **The default `deallocate_buffer`** of a block whose header agrees with the capacity: neither the
    `expect` nor the assertion of `alloc_info` is reached and the layout fits the block. -/
theorem deallocateBuffer_eq {b : BlockId} {blk : Block} (hb : h.blocks[b]? = some blk) (hok : blk.Ok p)
    {rc : Nat} (hheader : blk.header = some ⟨rc, blk.data.length⟩) :
    deallocateBuffer p h ⟨blk.dataPtr p b, .pack p.toTarget blk.data.length true⟩
      = .ok (h.update b { blk with status := .deallocated }) := by
  have hinfo : RawBuffer.allocInfo p h ⟨blk.dataPtr p b, .pack p.toTarget blk.data.length true⟩
      = .ok (⟨blk.base, some b⟩, ⟨p.bufferOffset + blk.data.length, p.blockAlign⟩) := by
    unfold RawBuffer.allocInfo
    rw [TaggedCap.value_pack hok.data_lt, hok.layout_eq, ok_bind]
    dsimp only
    rw [Block.dataPtr_sub, Heap.header_eq hb hok.status hheader, ok_bind, Target.debugAssert_ok rfl]
    cases p.debug <;> rfl
  unfold deallocateBuffer Heap.deallocate
  rw [hinfo, ok_bind]
  dsimp only
  rw [Heap.target_eq hb hok.status hok.fits]
  rfl

/-- **`shrink`** to a capacity that is there, other than from some capacity to none. -/
theorem shrink_spec (hh : Holds p h this o data) (hcap : cap ≤ data.length)
    (hkeep : cap = 0 → data.length = 0) :
    ∃ r, shrink A h this cap = .ok r ∧ Outcome p h this o data cap r := by
  unfold shrink
  rw [hh.value_eq, if_neg (by omega)]
  by_cases heq : cap = data.length
  · rw [if_pos heq]
    exact ⟨_, rfl, .refl hh hcap⟩
  · rw [if_neg heq, if_neg (by omega)]
    exact realloc_spec A hh (hh.isAllocated_iff.mpr (by omega)) (by omega)

/-- **`shrink` to capacity 0** deallocates the block, and the buffer is as new. -/
theorem shrink_zero {b : BlockId} {blk : Block} (alloc : α) (hb : h.blocks[b]? = some blk)
    (hok : blk.Ok p) (hheader : blk.header = some ⟨1, blk.data.length⟩) :
    shrink A h ⟨blk.dataPtr p b, .pack p.toTarget blk.data.length true, alloc⟩ 0
      = .ok (h.update b { blk with status := .deallocated }, newIn alloc, .ok ()) := by
  have hself := Holds.block alloc hb hok hheader
  have hpos := hok.data_pos
  unfold shrink
  rw [hself.value_eq, if_neg (by omega), if_neg (by omega), if_pos rfl]
  unfold deallocBuf rawBuffer
  rw [hself.isAllocated_eq, Target.debugAssert_ok Option.isSome_some, ok_bind,
    deallocateBuffer_eq hb hok hheader, ok_bind]
  rfl

theorem shrinkToFit_spec (hh : Holds p h this o data) (hcap : cap ≤ data.length)
    (hkeep : cap = 0 → data.length = 0) :
    Reserves p h this o data cap (shrinkToFit A h this cap) :=
  .of_outcome (shrink_spec A hh hcap hkeep)

/-- The same behind `handle_reserve`, for any buffer that has a capacity. -/
theorem shrinkToFit_zero (hh : Holds p h this o data) (hpos : 0 < data.length) :
    ∃ b blk, o = some b ∧ h.blocks[b]? = some blk ∧
      shrinkToFit A h this 0
        = .ok (h.update b { blk with status := .deallocated }, newIn this.alloc) := by
  cases hh with
  | empty => exact absurd hpos (Nat.lt_irrefl 0)
  | @block b blk alloc hb hok hheader =>
      refine ⟨b, blk, rfl, hb, ?_⟩
      unfold shrinkToFit
      rw [shrink_zero A alloc hb hok hheader]
      rfl

end RawAlignedBuffer

end RkyvUtils
