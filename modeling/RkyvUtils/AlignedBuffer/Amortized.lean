import RkyvUtils.Lib.Doubling
import RkyvUtils.AlignedBuffer.CheckedLayout
import RkyvUtils.AlignedBuffer.Reserved

/-!
# `AlignedBuffer.Amortized` — what growing costs over a whole life

`grow_amortized` promises "amortized *O*(1) behavior" and says of its doubling that it "guarantees exponential
growth". The heap keeps every block that was ever handed out, so what a buffer asked the allocator for can be
read off at the end (`Heap.grants`). Between any two points in the life of a buffer with no exact reservation
and no shrink in between, the capacities climb by doubling, and `Doubling` bounds their number, the bytes that
were moved, and every single request.
-/

namespace RkyvUtils

open Word Ownership Run Doubling SlotTable

/-- The size asked for and the capacity got, for every block ever handed out. -/
def Heap.grants (h : Heap) : List (Nat × Nat) := h.blocks.map fun blk => (blk.layout.size, blk.data.length)

/-- The mutators that do not set a capacity of the caller's choice. -/
def UniqueOp.amortized : UniqueOp → Bool
  | reserveExact _ | tryReserveExact _ | shrinkTo _ | shrinkToFit => false
  | _ => true

namespace Heap

variable {p : Params} {h h' : Heap} {b : BlockId} {blk new : Block}

theorem Like.grants_eq (hl : h'.Like h) : h'.grants = h.grants := by
  have hblank (l : List Block) : l.map (fun blk => (blk.layout.size, blk.data.length))
      = (l.map Block.blank).map fun blk => (blk.layout.size, blk.data.length) := by
    rw [List.map_map]
    refine List.map_congr_left fun blk _ => ?_
    simp [Block.blank]
  unfold grants
  rw [hblank, hl.1, ← hblank]

/-- A block changed in anything but what was asked for and got. -/
theorem grants_update (hb : h.blocks[b]? = some blk) (hlayout : new.layout = blk.layout)
    (hdata : new.data = blk.data) : (h.update b new).grants = h.grants := by
  have hget : h.grants[b]? = some (new.layout.size, new.data.length) := by
    unfold grants
    rw [List.getElem?_map, hb, hlayout, hdata]
    rfl
  obtain ⟨_, hget⟩ := List.getElem?_eq_some_iff.mp hget
  unfold grants at *
  rw [blocks_update, List.map_set, ← hget, List.set_getElem_self]

end Heap

namespace RawAlignedBuffer

variable {α : Type} {p : Params} {h h' : Heap} {this this' : RawAlignedBuffer α} {o : Option BlockId}
  {data : List (Option UInt8)} {cap len additional top : Nat}

/-! ## One growth -/

variable (A : Allocator p.toTarget)

/-- The header of a block that was just handed out says nothing new of it. -/
theorem grants_setHeader (l : List Block) (calls : Nat) (blk : Block) (hd : Header) :
    (Heap.update ⟨l ++ [blk], calls⟩ l.length { blk with header := some hd }).grants
      = Heap.grants ⟨l, calls⟩ ++ [(blk.layout.size, blk.data.length)] := by
  have hget : (⟨l ++ [blk], calls⟩ : Heap).blocks[l.length]? = some blk := by simp
  have hset : (Heap.update ⟨l ++ [blk], calls⟩ l.length { blk with header := some hd }).grants
      = Heap.grants ⟨l ++ [blk], calls⟩ := Heap.grants_update hget rfl rfl
  rw [hset]
  simp [Heap.grants]

/-- **The first allocation** is one grant. -/
theorem alloc'_grants (alloc : α) (hcap : 0 < cap)
    (hr : alloc' A h (newIn alloc) cap = .ok (h', this', .ok ())) :
    h'.grants = h.grants ++ [(p.bufferOffset + cap, this'.value p)] := by
  unfold alloc' at hr
  rw [value_newIn, isAllocated_newIn, Target.debugAssert_ok rfl, ok_bind,
    Target.debugAssert_ok (by simp), ok_bind, p.layout_eq, ok_bind] at hr
  by_cases hfit : p.bufferOffset + cap + p.blockAlign ≤ p.half
  case neg =>
    rw [if_neg hfit] at hr
    cases hr
  rw [if_pos hfit] at hr
  dsimp only at hr
  cases hguard : p.allocGuard (p.bufferOffset + cap) with
  | error e =>
      rw [hguard] at hr
      cases hr
  | ok _ =>
      rw [hguard] at hr
      unfold Heap.allocate at hr
      cases hA : A.allocate h ⟨p.bufferOffset + cap, p.blockAlign⟩ with
      | none =>
          rw [hA] at hr
          cases hr
      | some g =>
          rw [hA] at hr
          dsimp only at hr
          have hgood := Heap.granted_ok none [] (A.allocate_meets _ _ _ hA) hcap
          have hlayout : (Heap.granted p g ⟨p.bufferOffset + cap, p.blockAlign⟩ none []).layout.size
              = p.bufferOffset + cap := rfl
          -- from here on the block is any good one of this layout
          generalize hblk : Heap.granted p g ⟨p.bufferOffset + cap, p.blockAlign⟩ none [] = blk
            at hr hgood hlayout
          obtain ⟨hok, -⟩ := hgood
          have hlen : g.size - p.bufferOffset = blk.data.length := by
            rw [← hblk]
            exact (Heap.length_padTo _ _).symm
          have hbase : g.base = blk.base := by rw [← hblk]; rfl
          have hget : (h.blocks ++ [blk])[h.blocks.length]? = some blk := by simp
          rw [hlen, hbase, Heap.setHeader_eq hget hok.status, ok_bind, TaggedCap.new_eq hok.data_lt,
            ok_bind] at hr
          cases hr
          rw [grants_setHeader, hlayout]
          show _ = _ ++ [(_, TaggedCap.value p.toTarget (.pack p.toTarget blk.data.length true))]
          rw [TaggedCap.value_pack hok.data_lt]
          rfl

/-- The write back after a move. -/
theorem reallocFinish_grants {b : BlockId} {blk : Block} {g : Grant} {kept : Nat} (alloc : α)
    (hok : blk.Ok p) (hheader : blk.header = some ⟨1, blk.data.length⟩)
    (hg : g.Meets p.toTarget ⟨p.bufferOffset + cap, p.blockAlign⟩) (hcap : 0 < cap)
    (hr : reallocFinish p ⟨blk.dataPtr p b, .pack p.toTarget blk.data.length true, alloc⟩
        ⟨p.bufferOffset + cap, p.blockAlign⟩
        (Heap.moved p h b blk g ⟨p.bufferOffset + cap, p.blockAlign⟩ kept,
          some (⟨g.base, some h.blocks.length⟩, g.size)) = .ok (h', this', .ok ())) :
    h'.grants = (h.update b { blk with status := .replaced }).grants
      ++ [(p.bufferOffset + cap, this'.value p)] := by
  have hgood := Heap.granted_ok blk.header (blk.data.take kept) hg hcap
  have hlayout : (Heap.granted p g ⟨p.bufferOffset + cap, p.blockAlign⟩ blk.header
      (blk.data.take kept)).layout.size = p.bufferOffset + cap := rfl
  unfold reallocFinish Heap.moved at hr
  dsimp only at hr
  generalize hblk : Heap.granted p g ⟨p.bufferOffset + cap, p.blockAlign⟩ blk.header
    (blk.data.take kept) = blk' at hr hgood hlayout
  obtain ⟨hok', -⟩ := hgood
  have hlen : g.size - p.bufferOffset = blk'.data.length := by
    rw [← hblk]
    exact (Heap.length_padTo _ _).symm
  have hbase : g.base = blk'.base := by rw [← hblk]; rfl
  have hheader' : blk'.header = some ⟨1, blk.data.length⟩ := by rw [← hblk]; exact hheader
  have hget : (h.blocks.set b { blk with status := .replaced } ++ [blk'])[h.blocks.length]?
      = some blk' := by simp
  rw [hlen, hbase, Heap.header_eq hget hok'.status hheader', ok_bind,
    Heap.setHeader_eq hget hok'.status, ok_bind, TaggedCap.withValue_pack hok.data_lt hok'.data_lt,
    ok_bind] at hr
  cases hr
  -- the new block is behind the old ones, the one replaced among them
  have hset := grants_setHeader (h.blocks.set b { blk with status := .replaced }) (h.calls + 1) blk'
    ⟨1, blk'.data.length⟩
  rw [List.length_set, hlayout] at hset
  show _ = _ ++ [(_, TaggedCap.value p.toTarget (.pack p.toTarget blk'.data.length true))]
  rw [TaggedCap.value_pack hok'.data_lt]
  exact hset

/-- **A growth** of a block is one grant. -/
theorem realloc_grants (hh : Holds p h this o data) (hall : this.isAllocated p = true)
    (hlt : data.length < cap) (hr : realloc A h this cap = .ok (h', this', .ok ())) :
    h'.grants = h.grants ++ [(p.bufferOffset + cap, this'.value p)] := by
  cases hh with
  | empty alloc => simp at hall
  | @block b blk alloc hb hok hheader =>
    obtain ⟨-, -, g, kept, hA, hfinish⟩ := realloc_grows A alloc hb hok hheader hlt hr
    have hgrants := reallocFinish_grants alloc hok hheader (A.grow_meets _ _ _ _ _ hA) (by omega) hfinish
    rw [hgrants]
    congr 1
    exact Heap.grants_update hb rfl rfl

theorem growTo_grants (hh : Holds p h this o data) (hlt : data.length < cap)
    (hr : growTo A h this cap = .ok (h', this', .ok ())) :
    h'.grants = h.grants ++ [(p.bufferOffset + cap, this'.value p)] := by
  unfold growTo at hr
  rw [hh.value_eq, Target.debugAssert_ok hlt, ok_bind] at hr
  by_cases hall : this.isAllocated p = true
  · rw [if_neg (by simp [hall])] at hr
    exact realloc_grants A hh hall hlt hr
  · rw [if_pos hall] at hr
    cases hh with
    | empty alloc => exact alloc'_grants A alloc (by omega) hr
    | block _ _ ok _ => exact absurd (TaggedCap.isAllocated_pack ok.data_lt _) hall

/-! ## A climb -/

/-- How a buffer grew between two moments, asking for no more than `top` bytes: the blocks granted to it, and
    the climb of its capacity over theirs. -/
def Grew (p : Params) (top : Nat) (h : Heap) (this : RawAlignedBuffer α) (h' : Heap)
    (this' : RawAlignedBuffer α) : Prop :=
  ∃ new : List (Nat × Nat), h'.grants = h.grants ++ new ∧
    Climbs Params.minNonZeroCap top (this.value p) (new.map Prod.snd) (this'.value p) ∧
    ∀ grant ∈ new, grant.1 ≤ p.bufferOffset + max Params.minNonZeroCap (2 * top)

/-- Nothing was asked for. -/
theorem Grew.of_eq (hgrants : h'.grants = h.grants) (hvalue : this'.value p = this.value p) :
    Grew p top h this h' this' :=
  ⟨[], by rw [hgrants, List.append_nil], by rw [hvalue]; exact .stay _, List.forall_mem_nil _⟩

variable {h₂ : Heap} {this₂ : RawAlignedBuffer α}

theorem Grew.trans (hg : Grew p top h this h' this') (hg' : Grew p top h' this' h₂ this₂) :
    Grew p top h this h₂ this₂ := by
  obtain ⟨new, hnew, hclimbs, hrequests⟩ := hg
  obtain ⟨new', hnew', hclimbs', hrequests'⟩ := hg'
  refine ⟨new ++ new', by rw [hnew', hnew, List.append_assoc], ?_, ?_⟩
  · rw [List.map_append]
    exact hclimbs.trans hclimbs'
  · intro grant hmem
    rcases List.mem_append.mp hmem with hmem | hmem
    · exact hrequests grant hmem
    · exact hrequests' grant hmem

theorem Grew.mono {top' : Nat} (hg : Grew p top h this h' this') (hle : top ≤ top') :
    Grew p top' h this h' this' := by
  obtain ⟨new, hnew, hclimbs, hrequests⟩ := hg
  refine ⟨new, hnew, hclimbs.mono hle, ?_⟩
  intro grant hmem
  have := hrequests grant hmem
  omega

/-- **`grow_amortized`** raises the capacity at least to the double, and asks for no more than the double of
    what does not fit. -/
theorem growAmortized_grew (hh : Holds p h this o data) (hgrow : data.length < len + additional)
    (hlen : len ≤ data.length) (htop : len + additional ≤ top) :
    Returns (fun r => Grew p top h this r.1 r.2.1) (growAmortized A h this len additional) := by
  have heq : growAmortized A h this len additional = _ :=
    growAmortizedBy_eq p.layout A hh (show 0 < additional by omega)
  rw [heq]
  refine .ite ?_ (.ok (.of_eq rfl rfl))
  -- what does not fit is more than the capacity, so the double or the sum is too
  have hlt : data.length < doubledCap data.length (len + additional) := by
    unfold doubledCap
    omega
  obtain ⟨⟨h', this', result⟩, hr, hout⟩ := growTo_spec A hh hlt
  rw [show growToBy p.layout A h this _ = _ from hr]
  refine .ok ?_
  cases hout with
  | failed => exact .of_eq rfl rfl
  | @done _ _ o' data' holds alloc confined room kept =>
      refine ⟨_, growTo_grants A hh hlt hr, ?_, ?_⟩
      · -- the allocator may have granted more, and a climb is from capacity to capacity
        rw [hh.value_eq]
        rw [← holds.value_eq] at room
        unfold doubledCap at room
        exact .single (by omega) (by omega) (by omega)
      · intro grant hmem
        rw [List.mem_singleton.mp hmem]
        unfold doubledCap
        dsimp only
        omega

theorem reserve_grew (hh : Holds p h this o data) (hlen : len ≤ data.length) (htop : len + additional ≤ top) :
    Returns (fun r => Grew p top h this r.1 r.2) (reserve A h this len additional) := by
  unfold reserve
  by_cases hgrow : this.needsToGrow p len additional = true
  · rw [if_pos hgrow]
    have hgrew := growAmortized_grew A hh ((hh.needsToGrow_iff hlen).mp hgrow) hlen htop
    exact hgrew.bind fun _ hg => .step fun _ => .ok hg
  · rw [if_neg hgrow]
    exact .ok (.of_eq rfl rfl)

theorem tryReserve_grew (hh : Holds p h this o data) (hlen : len ≤ data.length)
    (htop : len + additional ≤ top) :
    Returns (fun r => Grew p top h this r.1 r.2.1) (tryReserve A h this len additional) := by
  unfold tryReserve
  by_cases hgrow : this.needsToGrow p len additional = true
  · rw [if_pos hgrow]
    exact growAmortized_grew A hh ((hh.needsToGrow_iff hlen).mp hgrow) hlen htop
  · rw [if_neg hgrow]
    exact .ok (.of_eq rfl rfl)

end RawAlignedBuffer

/-! ## The mutators -/

namespace UniqueAlignedBuffer

open RawAlignedBuffer (Grew)

variable {α : Type} {p : Params} {h h' : Heap} {this : UniqueAlignedBuffer α} {o : Option BlockId}
  {xs : List UInt8} {data : List (Option UInt8)} {top : Nat}

/-- The call returns, if it does, with a buffer that grew. -/
def GrewBy (p : Params) (top : Nat) (h : Heap) (this : UniqueAlignedBuffer α)
    (r : Except Fault (Heap × UniqueAlignedBuffer α)) : Prop :=
  Returns (fun r => Grew p top h this.buf r.1 r.2.buf) r

/-- Bytes written after a growth. -/
theorem grew_of_like {h₁ : Heap} {buf₁ : RawAlignedBuffer α} (hg : Grew p top h this.buf h₁ buf₁)
    (hl : h'.Like h₁) : Grew p top h this.buf h' buf₁ :=
  hg.trans (.of_eq hl.grants_eq rfl)

/-- A call that changes nothing when it fails. -/
theorem grew_settle {x : Except Fault (Heap × UniqueAlignedBuffer α)} (hx : GrewBy p top h this x) :
    Grew p top h this.buf (UniqueOp.settle h this x).1 (UniqueOp.settle h this x).2.1.buf := by
  cases x with
  | error f => exact .of_eq rfl rfl
  | ok r => exact hx.of_eq rfl

variable (A : Allocator p.toTarget) (hs : Stores p h this o xs data)
include hs

theorem reserve_grew (additional : Nat) (htop : xs.length + additional ≤ top) :
    GrewBy p top h this (this.reserve A h additional) := by
  have hlen := hs.length_eq
  exact (RawAlignedBuffer.reserve_grew A hs.holds (hlen ▸ hs.length_le) (by omega)).bind
    fun _ hg => .ok hg

theorem push_grew (value : UInt8) (htop : xs.length + 1 ≤ top) :
    GrewBy p top h this (this.push A h value) := by
  have hroom : GrewBy p top h this (if this.len = this.capacity p then this.reserve A h 1 else .ok (h, this)) :=
    .ite (reserve_grew A hs 1 htop) (.ok (.of_eq rfl rfl))
  exact hroom.bind fun _ hg =>
    (Heap.Like.refl.write _ _).bind fun _ hl => .ok (grew_of_like hg hl)

theorem append_grew (other : List UInt8) (htop : xs.length + other.length ≤ top) :
    GrewBy p top h this (this.append A h other) :=
  (reserve_grew A hs other.length htop).bind fun _ hg =>
    (Heap.Like.refl.write _ _).bind fun _ hl => .ok (grew_of_like hg hl)

theorem resize_grew (newLen : Nat) (value : UInt8) (htop : newLen ≤ top) :
    GrewBy p top h this (this.resize A h newLen value) := by
  unfold resize extendWith
  rw [hs.length_eq]
  by_cases hlt : xs.length < newLen
  · rw [if_pos hlt]
    exact (reserve_grew A hs (newLen - xs.length) (by omega)).bind fun _ hg =>
      (writeAll_like Heap.Like.refl _ _ _).bind fun _ hl => .ok (grew_of_like hg hl)
  · rw [if_neg hlt]
    exact .ok (.of_eq rfl rfl)

/-- **The loop of pushes** grows as often as it has to. -/
theorem pushAll_grew (nexts : List Next) (htop : xs.length + (Next.bytes nexts).length ≤ top) :
    Grew p top h this.buf (pushAll A h this nexts).1 (pushAll A h this nexts).2.1.buf := by
  induction nexts generalizing h this o xs data with
  | nil => exact .of_eq rfl rfl
  | cons next nexts ih =>
      cases next with
      | none | panic => exact .of_eq rfl rfl
      | some byte =>
          -- `top` bounds all items to come, and so each push
          simp only [Next.bytes, List.length_cons] at htop
          have hgrew := push_grew A hs byte (show xs.length + 1 ≤ top by omega)
          have hspec := push_spec A hs byte
          unfold pushAll
          cases hr : this.push A h byte with
          | error f => exact .of_eq rfl rfl
          | ok r =>
              obtain ⟨h₁, this₁⟩ := r
              rw [hr] at hspec
              rcases hspec with ⟨_, _, o₁, data₁, hok, hl, -⟩ | hf | hf
              · cases hok
                exact (hgrew.of_eq hr).trans (ih hl.stores (by simp; omega))
              · cases hf
              · cases hf

theorem extend_grew (iter : ByteIter) (hlower : xs.length + iter.lower ≤ top)
    (htop : xs.length + (Next.bytes iter.nexts).length ≤ top) :
    Grew p top h this.buf (this.extend A h iter).1 (this.extend A h iter).2.1.buf := by
  have hgrew := reserve_grew A hs iter.lower hlower
  have hspec := reserve_spec A hs iter.lower
  unfold extend
  cases hr : this.reserve A h iter.lower with
  | error f => exact .of_eq rfl rfl
  | ok r =>
      obtain ⟨h₁, this₁⟩ := r
      rw [hr] at hspec
      rcases hspec with ⟨_, _, o₁, data₁, hok, hl, -⟩ | hf | hf
      · cases hok
        have hs₁ := hl.stores
        have hle := hs₁.length_le
        obtain ⟨h₂, len, data₂, ys, done, hf, hl₂, hbytes, -⟩ :=
          fill_spec hs₁ (data₁.length - xs.length) iter.nexts (by omega)
        have hfilled : Grew p top h this.buf h₂ this₁.buf :=
          grew_of_like (hgrew.of_eq hr) ((fill_like Heap.Like.refl _ _ _ _).of_eq hf)
        dsimp only
        rw [hs₁.free_eq, hf]
        cases done with
        | full nexts =>
            have hlast : (Next.bytes iter.nexts).length = ys.length + (Next.bytes nexts).length := by
              rw [hbytes, List.length_append]
              rfl
            exact hfilled.trans (pushAll_grew A hl₂.stores nexts (by simp; omega))
        | ended | panicked => exact hfilled
      · cases hf
      · cases hf

/-- **A mutator** that sets no capacity of its own grows the buffer by doubling, if at all. -/
theorem apply_grew (op : UniqueOp) (hop : op.amortized = true) (htop : op.asks xs.length ≤ top) :
    Grew p top h this.buf (op.apply A h this).1 (op.apply A h this).2.1.buf := by
  have hlen := hs.length_eq
  cases op with
  | push value => exact grew_settle (push_grew A hs value htop)
  | append other | extendFromSlice other => exact grew_settle (append_grew A hs other htop)
  | extend iter =>
      simp only [UniqueOp.asks] at htop
      exact extend_grew A hs iter (by omega) (by omega)
  | resize newLen value => exact grew_settle (resize_grew A hs newLen value htop)
  | truncate len | clear => exact .of_eq rfl rfl
  | reserve n => exact grew_settle (reserve_grew A hs n htop)
  | tryReserve n =>
      simp only [UniqueOp.asks] at htop
      have hgrew := RawAlignedBuffer.tryReserve_grew A hs.holds (hlen ▸ hs.length_le)
        (show this.len + n ≤ top by omega)
      simp only [UniqueOp.apply, tryReserve]
      cases hr : this.buf.tryReserve A h this.len n with
      | error f => exact .of_eq rfl rfl
      | ok r => exact hgrew.of_eq hr
  | reserveExact n | tryReserveExact n | shrinkTo n | shrinkToFit => cases hop
  | indexMut start bytes =>
      refine grew_settle ?_
      exact .step fun _ => .ite .error
        ((Heap.Like.refl.write _ _).bind fun _ hl => .ok (grew_of_like (.of_eq rfl rfl) hl))

end UniqueAlignedBuffer

/-! ## Sessions -/

namespace Session

open RawAlignedBuffer (Grew)
open UniqueAlignedBuffer

variable {α : Type} {p : Params} {xs : List UInt8} {top : Nat} (A : Allocator p.toTarget)

theorem step_grew {s : Session α} {o : Option BlockId} {data : List (Option UInt8)}
    (hs : Stores p s.heap s.buffer o xs data) (op : UniqueOp) (hop : op.amortized = true)
    (htop : op.asks xs.length ≤ top) :
    Returns (fun s' => Grew p top s.heap s.buffer.buf s'.heap s'.buffer.buf) (step A s op) := by
  have hgrew := apply_grew A hs op hop htop
  unfold step
  generalize op.apply A s.heap s.buffer = e at hgrew
  obtain ⟨h', this', f⟩ := e
  cases f with
  | none => exact .ok hgrew
  | some f => exact .ite (.ok hgrew) .error

/-- **Work** without exact reservations and shrinks grows the buffer by doubling. -/
theorem run_grew (work : List UniqueOp) (s : Session α) (t : ListSession) (hT : Tracks p s t)
    (hwork : ∀ op ∈ work, op.amortized = true) :
    Returns (fun s' => Grew p (peak t.1 work) s.heap s.buffer.buf s'.heap s'.buffer.buf)
      (run (step A) s work) := by
  induction work generalizing s t with
  | nil => exact .ok (.of_eq rfl rfl)
  | cons op work ih =>
      obtain ⟨hop, hwork⟩ := List.forall_mem_cons.mp hwork
      obtain ⟨o, data, hs⟩ := hT.1
      have hgrew := step_grew A hs op hop (Nat.le_refl _)
      rcases step_spec A s t op hT with ⟨s₁, hone, hT₁⟩ | ⟨f, hone, -⟩
      · rw [run_cons_ok hone]
        have hfirst := (hgrew.of_eq hone).mono (Nat.le_max_left _ (peak (op.onList t.1).1 work))
        intro s' hrun
        have hrest := (ih s₁ (t.step op) hT₁ hwork).of_eq hrun
        exact hfirst.trans (hrest.mono (Nat.le_max_right _ _))
      · rw [run_cons_error hone]
        exact .error

/-- **Growth is amortized.** From any point in the life of a buffer on, let any work be done that makes no
    exact reservation and does not shrink, and let `top` be the most that it asks for. The blocks that the
    buffer is granted on the way, whatever the allocator answers, are each asked for with no more than
    `max(8, 2 * top)` bytes of capacity; the capacity at least doubles with each, so they are no more than
    logarithmically many in `top`; and the capacities left behind, whose bytes had to be moved, are together
    no more than `2 * top`. -/
theorem growth_amortized (h : Heap) (alloc : α) (capacity : Nat) (ops work : List UniqueOp)
    {s s' : Session α} (hs : runFrom A h alloc capacity ops = .ok s)
    (hwork : ∀ op ∈ work, op.amortized = true) (hrun : run (step A) s work = .ok s') :
    let top := peak (ops.foldl ListSession.step ([], [])).1 work
    ∃ new : List (Nat × Nat), s'.heap.grants = s.heap.grants ++ new ∧
      Climbs 8 top (s.buffer.capacity p) (new.map Prod.snd) (s'.buffer.capacity p) ∧
      (∀ grant ∈ new, grant.1 ≤ p.bufferOffset + max 8 (2 * top)) ∧
      2 ^ (new.length + 1) ≤ max 4 top ∧
      total id (s.buffer.capacity p :: new.map Prod.snd).dropLast ≤ 2 * top := by
  intro top
  have hlist := runFrom_spec A h alloc capacity ops
  rw [hs] at hlist
  obtain ⟨_, hok, hT⟩ | ⟨_, hfault, -⟩ := hlist
  case inr => cases hfault
  cases hok
  obtain ⟨new, hnew, hclimbs, hrequests⟩ := (run_grew A work s _ hT hwork).of_eq hrun
  refine ⟨new, hnew, hclimbs, hrequests, ?_, hclimbs.left_le⟩
  have hcount := hclimbs.count_le
  rw [List.length_map] at hcount
  unfold Params.minNonZeroCap at hcount
  rw [Nat.pow_succ]
  show _ ≤ max 4 (peak _ work)
  omega

/-- Nine bytes pushed one by one into a new buffer: two blocks. -/
theorem growth_amortized_nine :
    ∃ (s s' : Session Unit) (new : List (Nat × Nat)),
      runFrom (.bump (Params.x86_64 true).toTarget) Heap.empty () 0 [] = .ok s ∧
      run (step (.bump (Params.x86_64 true).toTarget)) s (List.replicate 9 (.push 1)) = .ok s' ∧
      s'.heap.grants = s.heap.grants ++ new ∧ 2 ^ (new.length + 1) ≤ 9 ∧
      total id (0 :: new.map Prod.snd).dropLast ≤ 18 := by
  obtain ⟨s, s', hs, hrun, hcap⟩ : ∃ s s' : Session Unit,
      runFrom (.bump (Params.x86_64 true).toTarget) Heap.empty () 0 [] = .ok s ∧
      run (step (.bump (Params.x86_64 true).toTarget)) s (List.replicate 9 (.push 1)) = .ok s' ∧
      s.buffer.capacity (.x86_64 true) = 0 := ⟨_, _, rfl, rfl, rfl⟩
  obtain ⟨new, hnew, -, -, hcount, hleft⟩ := growth_amortized (.bump (Params.x86_64 true).toTarget)
    Heap.empty () 0 [] (List.replicate 9 (.push 1)) hs (by decide) hrun
  rw [hcap] at hleft
  exact ⟨s, s', new, hs, hrun, hnew, hcount, hleft⟩

end Session

end RkyvUtils
