import RkyvUtils.Lib.Nest
import RkyvUtils.AlignedBufferPool.ScratchAlignment

/-!
# `AlignedBufferPool.ScratchPadding` — padding left behind by `pop_alloc` does not add up

`pop_alloc` cuts the scratch buffer at the start of the block, behind the padding of its `push_alloc`, so
the padding stays. In a buffer that starts at a multiple of the alignment, a `push_alloc` with its
`pop_alloc` rounds the length up to the alignment, whatever happens between the two, and roundings to
powers of two do not add up: a well-bracketed sequence rounds once, to the largest alignment outside of
any bracket (`Balanced.rounds`).
-/

namespace RkyvUtils

open Word Run Nest

namespace Scratch

open UniqueAlignedBuffer

variable {α : Type} {p : Params} (A : Allocator p.toTarget)

/-- A scratch buffer with its open blocks, the latest first, the layouts they were asked for, and what
    `pop_alloc` answered so far. -/
structure Stack (α : Type) where
  heap : Heap
  scratch : UniqueAlignedBuffer α
  live : List (Slice × Layout)
  popped : List (Except BufferAllocError Unit)

/-- `push_alloc`, and `pop_alloc` of the latest open block. -/
def Stack.step (s : Stack α) : Bracket Layout → Except Fault (Stack α)
  | .push layout => do
      let (heap, scratch, block) ← pushAlloc A s.heap s.scratch layout
      return { s with heap, scratch, live := (block, layout) :: s.live }
  | .pop =>
      match s.live with
      | [] => return s
      | (block, layout) :: live => do
          let (scratch, answer) ← popAlloc p s.heap s.scratch block.ptr layout
          return { s with scratch, live, popped := s.popped ++ [answer] }

variable (p) in
/-- The call does not reallocate the buffer. -/
def Stack.FindsRoom (s : Stack α) : Bracket Layout → Prop
  | .push layout => s.scratch.len + allocLen p s.scratch layout ≤ s.scratch.capacity p
  | .pop => True

instance (s : Stack α) (op : Bracket Layout) : Decidable (Stack.FindsRoom p s op) := by
  cases op <;> unfold Stack.FindsRoom <;> infer_instance

/-- A block that is not empty, at a power of two up to `m`. -/
def AtMost (m : Nat) : Bracket Layout → Prop
  | .push layout => 0 < layout.size ∧ layout.align.isPowerOfTwo ∧ layout.align ≤ m
  | .pop => True

instance (m : Nat) (op : Bracket Layout) : Decidable (AtMost m op) := by
  cases op <;> unfold AtMost <;> infer_instance

/-! ## One bracket -/

/-- In a buffer at a multiple of the alignment the padding is that of the length. -/
theorem allocPad_eq {h : Heap} {this : UniqueAlignedBuffer α} {o : Option BlockId} {xs : List UInt8}
    {data : List (Option UInt8)} {layout : Layout} (hs : Stores p h this o xs data)
    (hpow : layout.align.isPowerOfTwo) (hdvd : layout.align ∣ this.asMutPtr.addr) :
    this.len + allocPad p this layout = roundUp this.len layout.align := by
  have hend := hs.end_le
  have hbits : layout.align ∣ 2 ^ p.bits := by
    obtain ⟨k, hk⟩ := hpow
    have hle := Nat.le_of_dvd hs.addr_pos hdvd
    rw [hk] at hle ⊢
    exact Nat.pow_dvd_pow 2 ((Nat.pow_le_pow_iff_right (by norm_num : 1 < 2)).mp (by omega))
  have hpad : allocPad p this layout = padding (this.asMutPtr.addr + this.len) layout.align :=
    neg_mod_padding hbits hend
  rw [hpad, padding_add_of_dvd hdvd]
  rfl

variable {A} {m : Nat} {buf : RawAlignedBuffer α} {s : Stack α} {layout : Layout}

/-- What a stack of blocks keeps while nothing reallocates: the buffer stores some list, in the same
    storage, and every `pop_alloc` returned `Ok`. -/
structure Stack.Stays (p : Params) (buf : RawAlignedBuffer α) (s : Stack α) : Prop where
  buf_eq : s.scratch.buf = buf
  stores : ∃ o xs data, Stores p s.heap s.scratch o xs data
  popped : ∀ answer ∈ s.popped, answer = .ok ()

/-- **`push_alloc`** with room rounds the length up and appends the block. -/
theorem Stack.Stays.push (hs : s.Stays p buf) (hm : m.isPowerOfTwo) (hbase : m ∣ buf.buf.addr)
    (hmost : AtMost m (.push layout)) (hroom : FindsRoom p s (.push layout)) :
    ∃ s', s.step A (.push layout) = .ok s' ∧ s'.Stays p buf ∧
      s'.scratch.len = roundUp s.scratch.len layout.align + layout.size ∧
      s'.live = (⟨buf.buf.add (roundUp s.scratch.len layout.align), layout.size⟩, layout) :: s.live := by
  obtain ⟨hbuf, ⟨o, xs, data, hstores⟩, hpopped⟩ := hs
  obtain ⟨hsize, hpow, hle⟩ := hmost
  have hdvd : layout.align ∣ s.scratch.asMutPtr.addr := by
    have hmax := (Params.dvd_max_of_isPowerOfTwo hpow hm).1
    rw [max_eq_right hle] at hmax
    rw [show s.scratch.asMutPtr = buf.buf from congrArg _ hbuf]
    exact hmax.trans hbase
  have hpad := allocPad_eq hstores hpow hdvd
  have hlen := hstores.length_eq
  have hroom : xs.length + allocLen p s.scratch layout ≤ data.length := by
    rw [← hlen, ← hstores.capacity_eq]
    exact hroom
  obtain ⟨h', data', hpush, hl, -⟩ :=
    pushAlloc_reserved A (reserve_room A hstores hroom) hstores hroom
  rw [← hlen, hpad, show s.scratch.asMutPtr = buf.buf from congrArg _ hbuf] at hpush
  have hstep : s.step A (.push layout) = .ok
      { heap := h'
        scratch := { s.scratch with len := s.scratch.len + allocLen p s.scratch layout }
        live := (⟨buf.buf.add (roundUp s.scratch.len layout.align), layout.size⟩, layout) :: s.live
        popped := s.popped } := by
    simp only [Stack.step, hpush, ok_bind]
    rfl
  refine ⟨_, hstep, ⟨hbuf, ⟨_, _, _, hl.stores⟩, hpopped⟩, ?_, rfl⟩
  show s.scratch.len + (allocPad p s.scratch layout + layout.size) = _
  omega

/-- **`pop_alloc`** of a block inside the stored bytes cuts them at its start. -/
theorem Stack.Stays.pop (hs : s.Stays p buf) {start : Nat} {live : List (Slice × Layout)}
    (hlive : s.live = (⟨buf.buf.add start, layout.size⟩, layout) :: live) (hsize : 0 < layout.size)
    (hfit : start + layout.size ≤ s.scratch.len) :
    ∃ s', s.step A .pop = .ok s' ∧ s'.Stays p buf ∧ s'.scratch.len = start ∧ s'.live = live := by
  obtain ⟨hbuf, ⟨o, xs, data, hstores⟩, hpopped⟩ := hs
  have hlen := hstores.length_eq
  have hptr : s.scratch.asMutPtr = buf.buf := congrArg _ hbuf
  have hpop : popAlloc p s.heap s.scratch (buf.buf.add start) layout
      = .ok ({ s.scratch with len := start }, .ok ()) := by
    rw [popAlloc_spec hstores, hptr, show (buf.buf.add start).addr = buf.buf.addr + start from rfl,
      if_pos (by omega), if_pos (by omega), Nat.add_sub_cancel_left]
  have htake := hstores.take start
  rw [Nat.min_eq_left (by omega)] at htake
  have hstep : s.step A .pop = .ok
      { s with scratch := { s.scratch with len := start }, live, popped := s.popped ++ [.ok ()] } := by
    simp only [Stack.step, hlive, hpop, ok_bind]
    rfl
  refine ⟨_, hstep, ⟨hbuf, ⟨_, _, _, htake⟩, ?_⟩, rfl, rfl⟩
  intro answer hmem
  rcases List.mem_append.mp hmem with hmem | hmem
  · exact hpopped answer hmem
  · exact List.mem_singleton.mp hmem

/-! ## Well-bracketed sequences -/

/-- **A well-bracketed sequence rounds the length once**, to the same power of two wherever it starts. -/
theorem balanced_rounds {ops : List (Bracket Layout)} (hb : Balanced ops) (hm : m.isPowerOfTwo)
    (hmost : ∀ op ∈ ops, AtMost m op) :
    ∃ a, a.isPowerOfTwo ∧ a ≤ m ∧ ∀ (buf : RawAlignedBuffer α) (s : Stack α), m ∣ buf.buf.addr →
      s.Stays p buf → Along (Stack.FindsRoom p) (Stack.step A) s ops →
        ∃ t, run (Stack.step A) s ops = .ok t ∧ t.Stays p buf ∧ t.live = s.live ∧
          t.scratch.len = roundUp s.scratch.len a := by
  -- along the bracket structure; what a bracket encloses has no effect on the length after it
  induction hb with
  | nil =>
      refine ⟨1, ⟨0, rfl⟩, Nat.pos_of_isPowerOfTwo hm, ?_⟩
      intro buf s hbase hs halong
      exact ⟨s, rfl, hs, rfl, (roundUp_of_dvd Nat.one_pos (Nat.one_dvd _)).symm⟩
  | @bracket layout inner rest hinner hrest ihinner ihrest =>
      have hpush : AtMost m (.push layout) := hmost _ (.head _)
      obtain ⟨a₁, -, -, hin⟩ := ihinner fun op hmem =>
        hmost op (.tail _ (List.mem_append_left _ hmem))
      obtain ⟨a₂, hpow₂, hle₂, hafter⟩ := ihrest fun op hmem =>
        hmost op (.tail _ (List.mem_append_right _ (.tail _ hmem)))
      obtain ⟨hsize, hpow, hle⟩ := hpush
      refine ⟨max layout.align a₂, (Params.dvd_max_of_isPowerOfTwo hpow hpow₂).2.2, max_le hle hle₂, ?_⟩
      intro buf s hbase hs halong
      obtain ⟨hroom, halong⟩ := halong
      obtain ⟨s₁, hstep₁, hs₁, hlen₁, hlive₁⟩ :=
        hs.push (A := A) hm hbase (show AtMost m (.push layout) from ⟨hsize, hpow, hle⟩) hroom
      rw [hstep₁] at halong
      obtain ⟨halong₁, hthen⟩ := halong.append
      obtain ⟨s₂, hrun₂, hs₂, hlive₂, hlen₂⟩ := hin buf s₁ hbase hs₁ halong₁
      obtain ⟨-, halong₂⟩ := hthen s₂ hrun₂
      have hge : s₁.scratch.len ≤ s₂.scratch.len := by
        rw [hlen₂]
        exact le_roundUp _ _
      obtain ⟨s₃, hstep₃, hs₃, hlen₃, hlive₃⟩ :=
        hs₂.pop (A := A) (hlive₂.trans hlive₁) hsize (by omega)
      rw [hstep₃] at halong₂
      obtain ⟨t, hrun, ht, hlive, hlen⟩ := hafter buf s₃ hbase hs₃ halong₂
      refine ⟨t, ?_, ht, hlive.trans hlive₃, ?_⟩
      · rw [run_cons_ok hstep₁, run_append hrun₂, run_cons_ok hstep₃, hrun]
      · rw [hlen, hlen₃, roundUp_roundUp _ hpow hpow₂]

end Scratch

namespace SerializerPool

open Scratch

variable {p : Params} (A : Allocator p.toTarget) (capacity : Nat) (policy : Nat → Bool)

/-- **Scratch space does not leak through padding**, for the scratch buffer of every serializer in every
    state a pool can reach, wherever its stored bytes end: in a well-bracketed sequence of `push_alloc` and
    `pop_alloc`, at powers of two up to a number `m` that the address of the buffer is a multiple of and
    without reallocation, every `pop_alloc` returns `Ok`, the length ends between where it was and that
    rounded up to `m`, and the same sequence once more ends at the same length. -/
theorem padding_does_not_leak (actions : List Action) {s : State} {i : Nat} {this : Serializer}
    {scratch : UniqueAlignedBuffer Home} (hrun : runFrom A capacity policy actions = .ok s)
    (hi : s.serializers[i]? = some (.live this))
    (hscratch : s.buffers.slots[this.scratch]? = some (.unique scratch))
    {m : Nat} (hm : m.isPowerOfTwo) (hbase : m ∣ scratch.asMutPtr.addr)
    {ops : List (Bracket Layout)} (hb : Balanced ops) (hmost : ∀ op ∈ ops, AtMost m op)
    (hroom : Along (Stack.FindsRoom p) (Stack.step A) ⟨s.buffers.heap, scratch, [], []⟩ ops) :
    ∃ t, run (Stack.step A) ⟨s.buffers.heap, scratch, [], []⟩ ops = .ok t ∧ t.live = [] ∧
      (∀ answer ∈ t.popped, answer = .ok ()) ∧
      scratch.len ≤ t.scratch.len ∧ t.scratch.len ≤ roundUp scratch.len m ∧
      (Along (Stack.FindsRoom p) (Stack.step A) t ops →
        ∃ u, run (Stack.step A) t ops = .ok u ∧ u.scratch.len = t.scratch.len) := by
  obtain ⟨scratch', o, xs, data, hscratch', hstores⟩ := scratch_stores A capacity policy hrun hi
  rw [hscratch] at hscratch'
  cases hscratch'
  have hstart : Stack.Stays p scratch.buf ⟨s.buffers.heap, scratch, [], []⟩ :=
    ⟨rfl, ⟨o, xs, data, hstores⟩, nofun⟩
  obtain ⟨a, hpow, hle, hrounds⟩ := balanced_rounds (A := A) (α := Home) hb hm hmost
  have hpos := Nat.pos_of_isPowerOfTwo hpow
  have hdvd : a ∣ m := by
    have hmax := (Params.dvd_max_of_isPowerOfTwo hpow hm).1
    rwa [max_eq_right hle] at hmax
  obtain ⟨t, ht, hstays, hlive, hlen⟩ := hrounds scratch.buf _ hbase hstart hroom
  dsimp only at hlive hlen
  refine ⟨t, ht, hlive, hstays.popped, ?_, ?_, fun hroom' => ?_⟩
  · rw [hlen]
    exact le_roundUp _ _
  · rw [hlen]
    exact roundUp_le hpos (hdvd.trans (dvd_roundUp _ (Nat.pos_of_isPowerOfTwo hm))) (le_roundUp _ _)
  · obtain ⟨u, hu, -, -, hlen'⟩ := hrounds scratch.buf t hbase hstays hroom'
    exact ⟨u, hu, by rw [hlen', hlen, roundUp_of_dvd hpos (dvd_roundUp _ hpos)]⟩

/-- Two nested blocks, and one behind them with a larger alignment. -/
def nestedThenLarger : List (Bracket Layout) :=
  [.push ⟨2, 2⟩, .push ⟨1, 1⟩, .pop, .pop, .push ⟨1, 4⟩, .pop]

theorem nestedThenLarger_balanced : Balanced nestedThenLarger :=
  have hinner := Balanced.bracket (⟨1, 1⟩ : Layout) .nil .nil
  have hrest := Balanced.bracket (⟨1, 4⟩ : Layout) .nil .nil
  Balanced.bracket (⟨2, 2⟩ : Layout) hinner hrest

/-- Behind one byte in a capacity of 8 the sequence ends at 4 bytes at most, and once more where it
    ended. -/
theorem padding_does_not_leak_nested :
    ∃ s this scratch t, runFrom (.bump (Params.x86_64 true).toTarget) 1 (fun _ => true)
        [.get, .pushAlloc 0 ⟨1, 1⟩] = .ok s ∧
      s.serializers[0]? = some (.live this) ∧
      s.buffers.slots[this.scratch]? = some (.unique scratch) ∧ scratch.len = 1 ∧
      run (Stack.step (.bump (Params.x86_64 true).toTarget)) ⟨s.buffers.heap, scratch, [], []⟩
        nestedThenLarger = .ok t ∧ t.scratch.len ≤ 4 ∧
      ∃ u, run (Stack.step (.bump (Params.x86_64 true).toTarget)) t nestedThenLarger = .ok u ∧
        u.scratch.len = t.scratch.len := by
  -- both runs together find room
  have hroom : ∃ s this scratch, runFrom (.bump (Params.x86_64 true).toTarget) 1 (fun _ => true)
        [.get, .pushAlloc 0 ⟨1, 1⟩] = .ok s ∧
      s.serializers[0]? = some (.live this) ∧
      s.buffers.slots[this.scratch]? = some (.unique scratch) ∧ scratch.len = 1 ∧
      4 ∣ scratch.asMutPtr.addr ∧
      Along (Stack.FindsRoom (Params.x86_64 true)) (Stack.step (.bump (Params.x86_64 true).toTarget))
        ⟨s.buffers.heap, scratch, [], []⟩ (nestedThenLarger ++ nestedThenLarger) := by
    refine ⟨_, ⟨0, 1, ∅⟩, _, rfl, rfl, rfl, rfl, by decide, ?_⟩
    decide +kernel
  obtain ⟨s, this, scratch, hrun, hi, hscratch, hlen, hbase, hroom⟩ := hroom
  obtain ⟨hfirst, hsecond⟩ := hroom.append
  obtain ⟨t, ht, -, -, -, hle, hagain⟩ := padding_does_not_leak _ 1 (fun _ => true) _ hrun hi hscratch
    (show Nat.isPowerOfTwo 4 from ⟨2, rfl⟩) hbase nestedThenLarger_balanced (by decide) hfirst
  rw [hlen] at hle
  exact ⟨s, this, scratch, t, hrun, hi, hscratch, hlen, ht, hle, hagain (hsecond t ht)⟩

end SerializerPool

end RkyvUtils
