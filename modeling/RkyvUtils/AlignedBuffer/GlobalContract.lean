import RkyvUtils.AlignedBuffer.Global

/-!
# `AlignedBuffer.GlobalContract` — `Global` against the documented contract, and against the trait's defaults

Every method of `Global` has one of two outcomes: memory as it was and an error, or the caller's block
given back and a new one handed out. `Outcome` says so for all of them, and for the default methods of
the trait; the contract and the agreement of the two are read off it.

The address is the one thing that goes wrong: for a request of size zero it is that of
`NonNull::<u8>::dangling()`, whatever alignment was asked for.
-/

namespace RkyvUtils

open Memory

/-! ## What the caller of a method owns -/

/-- The caller owns the block at `q`, of layout `l`, with these bytes: a block that is currently allocated
    and that `l` fits. With size zero there is no block. -/
inductive Memory.Owns (m : Memory) (q : Ptr) (l : Layout) :
    Option BlockId → List (Option UInt8) → Prop where
  | empty (hl : l.size = 0) : m.Owns q l none []
  | block (b : BlockId) (blk : SysBlock) (hl : l.size ≠ 0) (hq : q = ⟨blk.base, some b⟩)
      (hb : m.blocks[b]? = some blk) (hlive : blk.live = true) (hlay : blk.layout = l)
      (hlen : blk.bytes.length = l.size) : m.Owns q l (some b) blk.bytes

namespace Memory

/-- Memory once the block `held`, if there is one, is given back. -/
def without (m : Memory) : Option BlockId → Memory
  | none => m
  | some b =>
      match m.blocks[b]? with
      | none => m
      | some blk => m.release b blk

@[simp] theorem without_none (m : Memory) : m.without none = m := rfl

variable {t : Target} {sys : System} {m : Memory} {q : Ptr} {l : Layout} {held : Option BlockId}
  {bytes : List (Option UInt8)} {blk : SysBlock} {n : Nat}

theorem without_some {b : BlockId} (hb : m.blocks[b]? = some blk) :
    m.without (some b) = m.release b blk := by
  simp only [without, hb]

theorem Owns.length_eq (ho : m.Owns q l held bytes) : bytes.length = l.size := by
  cases ho with
  | empty hl => simp [hl]
  | block b blk hl hq hb hlive hlay hlen => exact hlen

@[simp] theorem push_blocks : (m.push blk).1.blocks = m.blocks ++ [blk] := rfl

@[simp] theorem push_ptr : (m.push blk).2 = ⟨blk.base, some m.blocks.length⟩ := rfl

theorem getElem?_push {b : BlockId} {old : SysBlock} (hb : m.blocks[b]? = some old) :
    (m.push blk).1.blocks[b]? = some old := by
  have hlt : b < m.blocks.length := (List.getElem?_eq_some_iff.mp hb).1
  rw [push_blocks, List.getElem?_append_left hlt]
  exact hb

theorem Owns.push (ho : m.Owns q l held bytes) : (m.push blk).1.Owns q l held bytes := by
  cases ho with
  | empty hl => exact .empty hl
  | block b old hl hq hb hlive hlay hlen =>
      exact .block b old hl hq (getElem?_push hb) hlive hlay hlen

theorem length_without : (m.without held).blocks.length = m.blocks.length := by
  unfold without
  split
  · rfl
  · split
    · rfl
    · simp [release]

/-- To hand out a block and to give one back commute. -/
theorem Owns.without_push (ho : m.Owns q l held bytes) :
    (m.push blk).1.without held = ((m.without held).push blk).1 := by
  cases ho with
  | empty hl => rfl
  | block b old hl hq hb hlive hlay hlen =>
      have hlt : b < m.blocks.length := (List.getElem?_eq_some_iff.mp hb).1
      rw [without_some hb, without_some (getElem?_push hb)]
      simp only [release, Memory.push, List.set_append_left _ _ hlt]

theorem Owns.eq_none (ho : m.Owns q l held bytes) (hl : l.size = 0) : held = none ∧ bytes = [] := by
  cases ho with
  | empty _ => exact ⟨rfl, rfl⟩
  | block _ _ hne => exact absurd hl hne

theorem Owns.released_without (ho : m.Owns q l held bytes) :
    (m.without held).released = m.released ++ held.toList.map (·, l) := by
  cases ho with
  | empty hl => simp
  | block b old hl hq hb hlive hlay hlen => rw [without_some hb, release, hlay]; rfl

theorem Owns.dead_without (ho : m.Owns q l held bytes) {b : BlockId} (hmem : b ∈ held) :
    ∃ blk, (m.without held).blocks[b]? = some blk ∧ blk.live = false := by
  cases ho with
  | empty hl => cases hmem
  | block c old hl hq hc hlive hlay hlen =>
      cases hmem
      have hlt : b < m.blocks.length := (List.getElem?_eq_some_iff.mp hc).1
      refine ⟨{ old with live := false }, ?_, rfl⟩
      rw [without_some hc]
      exact List.getElem?_set_self hlt

theorem getElem?_without {b : BlockId} (hb : m.blocks[b]? = some blk) (hmem : b ∉ held) :
    (m.without held).blocks[b]? = some blk := by
  unfold without
  split
  case h_1 => exact hb
  case h_2 c =>
    have hne : c ≠ b := fun h => hmem (by rw [h]; rfl)
    split
    case h_1 => exact hb
    case h_2 old hc => rw [release, List.getElem?_set_ne hne]; exact hb

/-! ## The primitives on a block the caller owns -/

theorem target_block {b : BlockId} (hb : m.blocks[b]? = some blk) (hlive : blk.live = true) :
    m.target ⟨blk.base, some b⟩ blk.layout = .ok (b, blk) := by
  simp [target, hb, hlive]

theorem deref_block {b : BlockId} (hb : m.blocks[b]? = some blk) (hlive : blk.live = true) :
    m.deref ⟨blk.base, some b⟩ = .ok (b, blk) := by
  simp [deref, hb, hlive]

/-- To write into the block that was handed out last is to hand out a block with other bytes. -/
theorem overwrite_push {i : Nat} {new : List (Option UInt8)} :
    (m.push blk).1.overwrite m.blocks.length blk i new =
      (m.push { blk with bytes := blk.bytes.take i ++ new ++ blk.bytes.drop (i + new.length) }).1 := by
  simp [overwrite, Memory.push, List.set_append_right]

theorem getElem?_push_last : (m.push blk).1.blocks[m.blocks.length]? = some blk := by simp

/-- Bytes of an owned block are copied to the block that was handed out last. -/
theorem Owns.copy_push (ho : m.Owns q l held bytes) (blk : SysBlock) (hlive : blk.live = true) (hn : n ≤ l.size)
    (hroom : n ≤ blk.bytes.length) :
    (m.push blk).1.copyNonoverlapping q (m.push blk).2 n =
      .ok (m.push { blk with bytes := bytes.take n ++ blk.bytes.drop n }).1 := by
  unfold copyNonoverlapping
  by_cases h0 : n = 0
  · simp [h0]
  · cases ho with
    | empty hl => omega
    | block b old hl hq hb holive hlay hlen =>
        have hlt : b < m.blocks.length := (List.getElem?_eq_some_iff.mp hb).1
        have hcond : ¬(b = m.blocks.length ∨ old.bytes.length < n ∨ blk.bytes.length < n) := by
          rintro (hsame | hshort)
          · exact absurd hsame (Nat.ne_of_lt hlt)
          · omega
        rw [if_neg h0, hq, deref_block (getElem?_push hb) holive, push_ptr,
          deref_block getElem?_push_last hlive]
        simp only [ok_bind, if_neg hcond]
        rw [overwrite_push]
        have htake : (old.bytes.take n).length = n := by simp; omega
        simp [htake, pure, Except.pure]

theorem writeBytes_push (blk : SysBlock) (i n : Nat) (byte : UInt8) (hlive : blk.live = true)
    (hroom : i + n ≤ blk.bytes.length) :
    (m.push blk).1.writeBytes (m.push blk).2 i n byte =
      .ok (m.push
        { blk with bytes := blk.bytes.take i ++ List.replicate n (some byte) ++ blk.bytes.drop (i + n) }).1 := by
  unfold writeBytes
  by_cases h0 : n = 0
  · simp [h0]
  · have hcond : ¬blk.bytes.length < i + n := by omega
    rw [if_neg h0, push_ptr, deref_block getElem?_push_last hlive, ok_bind]
    simp only [if_neg hcond]
    rw [overwrite_push, List.length_replicate]
    rfl

/-- `realloc` of an owned block: null, or the block is taken over. -/
theorem Owns.realloc (ho : m.Owns q l held bytes) (sys : System) (hl : l.size ≠ 0) (hn : n ≠ 0)
    (hvalid : Layout.Valid t ⟨n, l.align⟩) :
    m.realloc t sys q l n = .ok (m, none) ∨
      ∃ base, l.align ∣ base ∧ m.realloc t sys q l n =
        .ok (((m.without held).push ⟨base, ⟨n, l.align⟩, resized none n bytes, true⟩).1,
          some ⟨base, some m.blocks.length⟩) := by
  cases ho with
  | empty hzero => exact absurd hzero hl
  | block b old _ hq hb hlive hlay hlen =>
      have htarget : m.target q l = .ok (b, old) := by rw [hq, ← hlay, target_block hb hlive]
      have hcond : ¬(n = 0 ∨ ¬Layout.Valid t ⟨n, l.align⟩) := by
        rintro (hzero | hinvalid)
        · exact hn hzero
        · exact hinvalid hvalid
      unfold Memory.realloc
      rw [htarget, ok_bind]
      simp only [if_neg hcond]
      cases ha : sys.realloc m q l n with
      | none => exact .inl rfl
      | some base =>
          refine .inr ⟨base, sys.realloc_aligned m q l n base ha, ?_⟩
          rw [without_some hb]
          simp [release, pure, Except.pure]

@[simp] theorem length_resized (fill : Option UInt8) : (resized fill n bytes).length = n := by
  unfold resized
  rw [List.length_append, List.length_take, List.length_replicate]
  omega

theorem take_resized (fill : Option UInt8) (hlen : bytes.length = l.size) :
    (resized fill n bytes).take (min l.size n) = bytes.take (min l.size n) := by
  unfold resized
  rw [List.take_append_of_le_length (by rw [List.length_take]; omega), List.take_take]
  congr 1
  omega

theorem getElem?_resized (fill : Option UInt8) {i : Nat} (hi : bytes.length ≤ i) (hn : i < n) :
    (resized fill n bytes)[i]? = some fill := by
  unfold resized
  rw [List.getElem?_append_right (by rw [List.length_take]; omega), List.length_take,
    List.getElem?_replicate, if_pos (by omega)]

theorem Owns.deallocate (ho : m.Owns q l held bytes) : Global.deallocate m q l = .ok (m.without held) := by
  unfold Global.deallocate
  cases ho with
  | empty hl => simp [hl, without]
  | block b old hl hq hb hlive hlay hlen =>
      rw [if_pos hl, dealloc, hq, ← hlay, target_block hb hlive, ok_bind]
      rw [without_some hb]
      rfl

end Memory

/-! ## The two outcomes of a method -/

namespace Global

/-- A block of layout `new` is handed out, at `base` and with these bytes; of size zero, none is. -/
def granted (m : Memory) (new : Layout) (base : Nat) (bytes : List (Option UInt8)) : Returned :=
  if new.size = 0 then (m, some (.dangling, 0))
  else ((m.push ⟨base, new, bytes, true⟩).1, some (⟨base, some m.blocks.length⟩, new.size))

/-- A method either leaves memory as it was, or gives the block `held` back and hands out one with its
    bytes, cut to the new size or filled up with `fill`. -/
inductive Outcome (m : Memory) (held : Option BlockId) (bytes : List (Option UInt8)) (new : Layout)
    (fill : Option UInt8) : Except Fault Returned → Prop where
  | refused (hnew : new.size ≠ 0) : Outcome m held bytes new fill (.ok (m, none))
  | served (base : Nat) (hbase : new.align ∣ base) :
      Outcome m held bytes new fill
        (.ok (granted (m.without held) new base (resized fill new.size bytes)))

/-- What the bytes behind those of the old block are filled with. -/
def fillOf (zeroed : Bool) : Option UInt8 := if zeroed then some 0 else none

variable {t : Target} {sys : System} {m : Memory} {q : Ptr} {old new : Layout} {held : Option BlockId}
  {bytes : List (Option UInt8)} {fill : Option UInt8} {zeroed : Bool} {n : Nat}

/-- Nothing is handed out for a request of size zero. -/
theorem Outcome.served_zero (hnew : new.size = 0) :
    Outcome m held bytes new fill (.ok (m.without held, some (.dangling, 0))) := by
  have hserved : Outcome m held bytes new fill _ := .served 0 (Nat.dvd_zero new.align)
  rw [granted, if_pos hnew] at hserved
  exact hserved

theorem Outcome.served_pos (hnew : new.size ≠ 0) {base : Nat} (hbase : new.align ∣ base) :
    Outcome m held bytes new fill
      (.ok (((m.without held).push ⟨base, new, resized fill new.size bytes, true⟩).1,
        some (⟨base, some m.blocks.length⟩, new.size))) := by
  have hserved : Outcome m held bytes new fill _ := .served base hbase
  rw [granted, if_neg hnew, length_without] at hserved
  exact hserved

theorem allocFilled_outcome {answer : Memory → Layout → Option Nat} (hnew : new.size ≠ 0)
    (haligned : ∀ base, answer m new = some base → new.align ∣ base) :
    Outcome m none [] new fill (do return slice (← m.allocFilled answer fill new) new.size) := by
  unfold allocFilled
  rw [if_neg hnew]
  cases ha : answer m new with
  | none => exact .refused hnew
  | some base =>
      have hserved : Outcome m none [] new fill _ := .served_pos hnew (haligned base ha)
      simpa [resized, slice] using hserved

theorem allocImpl_outcome (zeroed : Bool) :
    Outcome m none [] new (fillOf zeroed) (allocImpl sys m new zeroed) := by
  unfold allocImpl
  split
  case h_1 hzero => exact .served_zero hzero
  case h_2 hne =>
    cases zeroed with
    | false => exact allocFilled_outcome hne (fun base => sys.alloc_aligned m new base)
    | true => exact allocFilled_outcome hne (fun base => sys.allocZeroed_aligned m new base)

/-- The bytes of the old block, over those of a fresh one. -/
theorem copied_resized (hlen : bytes.length = old.size) :
    bytes.take (min old.size new.size) ++ (resized fill new.size []).drop (min old.size new.size) =
      resized fill new.size bytes := by
  unfold resized
  rcases Nat.le_total old.size new.size with hle | hle
  · have hall : bytes.take new.size = bytes := List.take_of_length_le (by omega)
    have hown : bytes.take old.size = bytes := List.take_of_length_le (by omega)
    simp [hlen, hle, hall, hown]
  · simp [hle, hlen]

theorem reallocate_outcome {allocate : Memory → Except Fault Returned} (ho : m.Owns q old held bytes)
    (hn : n = min old.size new.size) (ha : Outcome m none [] new fill (allocate m)) :
    Outcome m held bytes new fill (reallocate allocate m q old n) := by
  unfold reallocate
  generalize allocate m = r at ha
  cases ha with
  | refused hnew => exact .refused hnew
  | served base hbase =>
      rw [ok_bind]
      unfold granted
      by_cases hnew : new.size = 0
      · -- nothing was allocated and nothing is copied
        have hserved : Outcome m held bytes new fill _ := .served_zero hnew
        have hzero : n = 0 := by omega
        rw [if_pos hnew]
        simpa [hzero, copyNonoverlapping, ho.deallocate, ok_bind] using hserved
      · rw [if_neg hnew]
        have hcopy := ho.copy_push ⟨base, new, resized fill new.size [], true⟩ (n := n) rfl
          (by omega) (by simp; omega)
        rw [push_ptr, hn, copied_resized ho.length_eq] at hcopy
        simp only [without_none, ok_bind, hn, hcopy, ho.push.deallocate, ho.without_push]
        exact .served_pos hnew hbase

theorem zeroed_resized (hlen : bytes.length = old.size) (hle : old.size ≤ n) :
    (resized none n bytes).take old.size ++ List.replicate (n - old.size) (some 0) ++
      (resized none n bytes).drop (old.size + (n - old.size)) = resized (some 0) n bytes := by
  unfold resized
  have hown : bytes.take n = bytes := List.take_of_length_le (by omega)
  rw [hown, ← hlen, List.take_left, List.drop_of_length_le (by simp), List.append_nil]

theorem growImpl_outcome (ho : m.Owns q old held bytes) (hvalid : new.Valid t)
    (hle : old.size ≤ new.size) :
    Outcome m held bytes new (fillOf zeroed) (growImpl t sys m q old new zeroed) := by
  unfold growImpl
  rw [Target.debugAssert_ok hle, ok_bind]
  split
  case h_1 hzero =>
    cases ho with
    | empty _ => exact allocImpl_outcome zeroed
    | block _ _ hl => exact absurd hzero hl
  case h_2 hne =>
    split
    case isTrue halign =>
      -- in place: `realloc`, and zeros behind the old bytes
      have hold : old.size ≠ 0 := hne
      have hnew : new.size ≠ 0 := by omega
      have hvalid' : Layout.Valid t ⟨new.size, old.align⟩ := by rw [halign]; exact hvalid
      rcases ho.realloc sys hold hnew hvalid' with hr | ⟨base, hbase, hr⟩
      · simp only [hr, ok_bind]
        exact .refused hnew
      · rw [halign] at hbase hr
        simp only [hr, ok_bind]
        cases zeroed with
        | false => exact .served_pos hnew hbase
        | true =>
            have hwrite := writeBytes_push (m := m.without held)
              ⟨base, new, resized none new.size bytes, true⟩ old.size (new.size - old.size) 0 rfl
              (by simp; omega)
            rw [push_ptr, length_without, zeroed_resized ho.length_eq hle] at hwrite
            simp only [if_true, hwrite, ok_bind]
            exact .served_pos hnew hbase
    case isFalse halign =>
      exact reallocate_outcome ho (Nat.min_eq_left hle).symm (allocImpl_outcome zeroed)

theorem shrink_outcome (ho : m.Owns q old held bytes) (hvalid : new.Valid t)
    (hle : new.size ≤ old.size) :
    Outcome m held bytes new none (shrink t sys m q old new) := by
  unfold shrink
  rw [Target.debugAssert_ok hle, ok_bind]
  split
  case h_1 hzero =>
    rw [ho.deallocate, ok_bind]
    exact .served_zero hzero
  case h_2 hne =>
    split
    case isTrue halign =>
      have hvalid' : Layout.Valid t ⟨new.size, old.align⟩ := by rw [halign]; exact hvalid
      have hnew : new.size ≠ 0 := hne
      rcases ho.realloc sys (by omega) hnew hvalid' with hr | ⟨base, hbase, hr⟩
      · simp only [hr, ok_bind]
        exact .refused hne
      · rw [halign] at hbase hr
        simp only [hr, ok_bind]
        exact .served_pos hnew hbase
    case isFalse halign =>
      exact reallocate_outcome ho (Nat.min_eq_right hle).symm (allocImpl_outcome false)

theorem defaultGrow_outcome (ho : m.Owns q old held bytes) (hle : old.size ≤ new.size) :
    Outcome m held bytes new none (defaultGrow t sys m q old new) := by
  unfold defaultGrow
  rw [Target.debugAssert_ok hle, ok_bind]
  exact reallocate_outcome ho (Nat.min_eq_left hle).symm (allocImpl_outcome false)

theorem defaultGrowZeroed_outcome (ho : m.Owns q old held bytes) (hle : old.size ≤ new.size) :
    Outcome m held bytes new (some 0) (defaultGrowZeroed t sys m q old new) := by
  unfold defaultGrowZeroed
  rw [Target.debugAssert_ok hle, ok_bind]
  exact reallocate_outcome ho (Nat.min_eq_left hle).symm (allocImpl_outcome true)

theorem defaultShrink_outcome (ho : m.Owns q old held bytes) (hle : new.size ≤ old.size) :
    Outcome m held bytes new none (defaultShrink t sys m q old new) := by
  unfold defaultShrink
  rw [Target.debugAssert_ok hle, ok_bind]
  exact reallocate_outcome ho (Nat.min_eq_right hle).symm (allocImpl_outcome false)

theorem defaultAllocateZeroed_outcome :
    Outcome m none [] new (some 0) (defaultAllocateZeroed sys m new) := by
  unfold defaultAllocateZeroed allocate
  have ha : Outcome m none [] new none (allocImpl sys m new false) := allocImpl_outcome false
  generalize allocImpl sys m new false = r at ha
  cases ha with
  | refused hnew => exact .refused hnew
  | served base hbase =>
      rw [ok_bind]
      unfold granted
      by_cases hnew : new.size = 0
      · rw [if_pos hnew]
        exact .served_zero hnew
      · rw [if_neg hnew]
        have hserved : Outcome m none [] new (some 0) _ := .served_pos hnew hbase
        have hwrite := writeBytes_push (m := m) ⟨base, new, resized none new.size [], true⟩ 0 new.size 0
          rfl (by simp)
        rw [push_ptr] at hwrite
        simp only [without_none, hwrite, ok_bind]
        simpa [resized, pure, Except.pure] using hserved

end Global

/-! ## The contract -/

/-- A call of a method that hands out memory. -/
inductive Call where
  | allocate (layout : Layout)
  | allocateZeroed (layout : Layout)
  | grow (q : Ptr) (oldLayout newLayout : Layout)
  | growZeroed (q : Ptr) (oldLayout newLayout : Layout)
  | shrink (q : Ptr) (oldLayout newLayout : Layout)

namespace Call

open Global

/-- The block passed in, with its layout; the first two methods take none. -/
def passed : Call → Ptr × Layout
  | allocate _ | allocateZeroed _ => (.dangling, ⟨0, 1⟩)
  | grow q oldLayout _ | growZeroed q oldLayout _ | shrink q oldLayout _ => (q, oldLayout)

def requested : Call → Layout
  | allocate layout | allocateZeroed layout => layout
  | grow _ _ newLayout | growZeroed _ _ newLayout | shrink _ _ newLayout => newLayout

def zeroed : Call → Bool
  | allocateZeroed _ | growZeroed _ _ _ => true
  | allocate _ | grow _ _ _ | shrink _ _ _ => false

def InOrder : Call → Prop
  | allocate _ | allocateZeroed _ => True
  | grow _ oldLayout newLayout | growZeroed _ oldLayout newLayout => oldLayout.size ≤ newLayout.size
  | shrink _ oldLayout newLayout => newLayout.size ≤ oldLayout.size

/-- The safety section of the method: a `Layout` is asked for, the block passed in is the caller's, with
    its own layout, and the sizes are in order. -/
structure Legal (t : Target) (m : Memory) (call : Call) (held : Option BlockId)
    (bytes : List (Option UInt8)) : Prop where
  valid : call.requested.Valid t
  owns : m.Owns call.passed.1 call.passed.2 held bytes
  inOrder : call.InOrder

def run (t : Target) (sys : System) (m : Memory) : Call → Except Fault Returned
  | allocate layout => Global.allocate sys m layout
  | allocateZeroed layout => Global.allocateZeroed sys m layout
  | grow q oldLayout newLayout => Global.grow t sys m q oldLayout newLayout
  | growZeroed q oldLayout newLayout => Global.growZeroed t sys m q oldLayout newLayout
  | shrink q oldLayout newLayout => Global.shrink t sys m q oldLayout newLayout

/-- The same call with the body that the trait gives the method; `allocate` has none. -/
def default (t : Target) (sys : System) (m : Memory) : Call → Except Fault Returned
  | allocate layout => Global.allocate sys m layout
  | allocateZeroed layout => defaultAllocateZeroed sys m layout
  | grow q oldLayout newLayout => defaultGrow t sys m q oldLayout newLayout
  | growZeroed q oldLayout newLayout => defaultGrowZeroed t sys m q oldLayout newLayout
  | shrink q oldLayout newLayout => defaultShrink t sys m q oldLayout newLayout

/-- What an `Ok` of the method promises about memory `m'` and the returned pointer and length. -/
structure Granted (m : Memory) (call : Call) (held : Option BlockId) (bytes : List (Option UInt8))
    (m' : Memory) (q' : Ptr) (len : Nat) : Prop where
  aligned : call.requested.align ∣ q'.addr
  large : call.requested.size ≤ len
  /-- The caller owns a block that was not there before, with the first bytes of the old one, and zeros
      behind those if the method says so. -/
  block : ∃ held' bytes', m'.Owns q' ⟨len, call.requested.align⟩ held' bytes' ∧
    (∀ b ∈ held', m.blocks.length ≤ b) ∧
    bytes'.take (min call.passed.2.size call.requested.size)
      = bytes.take (min call.passed.2.size call.requested.size) ∧
    (call.zeroed = true → ∀ i, call.passed.2.size ≤ i → i < len → bytes'[i]? = some (some 0))
  /-- The block passed in is released once, with its own layout, and nothing else is. -/
  released : m'.released = m.released ++ held.toList.map (·, call.passed.2)
  gone : ∀ b ∈ held, ∃ blk, m'.blocks[b]? = some blk ∧ blk.live = false
  others : ∀ b blk, m.blocks[b]? = some blk → b ∉ held → m'.blocks[b]? = some blk

/-- The contract of the method; after an `Err` memory is as it was, the old block included. -/
def Meets (m : Memory) (call : Call) (held : Option BlockId) (bytes : List (Option UInt8)) :
    Except Fault Returned → Prop
  | .ok (m', some (q', len)) => call.Granted m held bytes m' q' len
  | .ok (m', none) => m' = m
  | .error _ => False

end Call

/-- Blocks and releases without the addresses. -/
def Memory.contents (m : Memory) : List (Layout × List (Option UInt8) × Bool) × List (BlockId × Layout) :=
  (m.blocks.map fun blk => (blk.layout, blk.bytes, blk.live), m.released)

/-- Two methods agree: if both succeed, on the block returned, its length and all contents. One may fail
    where the other does not, since `std` may refuse `realloc` and not `alloc`. -/
def Agree : Except Fault Returned → Except Fault Returned → Prop
  | .ok (m, some (q, len)), .ok (m', some (q', len')) =>
      m.contents = m'.contents ∧ q.prov = q'.prov ∧ len = len'
  | .ok (m, none), .ok (m', none) => m = m'
  | .ok _, .ok _ => True
  | _, _ => False

/-! ## `Global` against both -/

section
variable {t : Target} {sys : System} {m : Memory} {call : Call} {held : Option BlockId}
  {bytes : List (Option UInt8)} {r r' : Except Fault Returned}

open Global

theorem Call.Legal.run_outcome (h : call.Legal t m held bytes) (sys : System) :
    Outcome m held bytes call.requested (fillOf call.zeroed) (call.run t sys m) := by
  obtain ⟨hvalid, howns, horder⟩ := h
  cases call with
  | allocate layout =>
      obtain ⟨rfl, rfl⟩ := howns.eq_none rfl
      exact allocImpl_outcome false
  | allocateZeroed layout =>
      obtain ⟨rfl, rfl⟩ := howns.eq_none rfl
      exact allocImpl_outcome true
  | grow q oldLayout newLayout => exact growImpl_outcome howns hvalid horder
  | growZeroed q oldLayout newLayout => exact growImpl_outcome howns hvalid horder
  | shrink q oldLayout newLayout => exact shrink_outcome howns hvalid horder

theorem Call.Legal.default_outcome (h : call.Legal t m held bytes) (sys : System) :
    Outcome m held bytes call.requested (fillOf call.zeroed) (call.default t sys m) := by
  obtain ⟨hvalid, howns, horder⟩ := h
  cases call with
  | allocate layout =>
      obtain ⟨rfl, rfl⟩ := howns.eq_none rfl
      exact allocImpl_outcome false
  | allocateZeroed layout =>
      obtain ⟨rfl, rfl⟩ := howns.eq_none rfl
      exact defaultAllocateZeroed_outcome
  | grow q oldLayout newLayout => exact defaultGrow_outcome howns horder
  | growZeroed q oldLayout newLayout => exact defaultGrowZeroed_outcome howns horder
  | shrink q oldLayout newLayout => exact defaultShrink_outcome howns horder

/-- Two runs with the same outcome agree: `resized` says what the bytes are, whichever way they came. -/
theorem Global.Outcome.agree {new : Layout} {fill : Option UInt8} (h : Outcome m held bytes new fill r)
    (h' : Outcome m held bytes new fill r') : Agree r r' := by
  cases h with
  | refused hnew =>
      cases h' with
      | refused _ => rfl
      | served base hbase => unfold granted; split <;> trivial
  | served base hbase =>
      unfold granted
      cases h' with
      | refused hnew => split <;> trivial
      | served base' hbase' =>
          unfold granted
          split
          · exact ⟨rfl, rfl, rfl⟩
          · refine ⟨?_, rfl, rfl⟩
            simp [Memory.contents, Memory.push]

/-- What is handed out keeps every promise that is not about its address. -/
theorem Memory.Owns.granted (ho : m.Owns call.passed.1 call.passed.2 held bytes) (base : Nat) :
    ∃ m' q' len, Global.granted (m.without held) call.requested base
        (resized (fillOf call.zeroed) call.requested.size bytes) = (m', some (q', len)) ∧
      (call.Granted m held bytes m' q' len ↔ call.requested.align ∣ q'.addr) ∧
      q'.addr = if call.requested.size = 0 then 1 else base := by
  unfold Global.granted
  split
  case isTrue hnew =>
    refine ⟨_, _, _, rfl, ⟨fun h => h.aligned, fun haligned => ?_⟩, rfl⟩
    exact
      { aligned := haligned
        large := Nat.le_of_eq hnew
        block := by
          refine ⟨none, [], .empty rfl, nofun, by simp [hnew], fun _ i _ hi => absurd hi (Nat.not_lt_zero i)⟩
        released := ho.released_without
        gone := fun b hb => ho.dead_without hb
        others := fun b blk hb hmem => getElem?_without hb hmem }
  case isFalse hnew =>
    refine ⟨_, _, _, rfl, ⟨fun h => h.aligned, fun haligned => ?_⟩, rfl⟩
    have hlast : (m.without held).blocks.length = m.blocks.length := length_without
    exact
      { aligned := haligned
        large := Nat.le_refl _
        block := by
          refine ⟨_, _, .block _ _ hnew rfl getElem?_push_last rfl rfl (by simp), ?_, ?_, ?_⟩
          · intro b hb
            cases hb
            exact Nat.le_of_eq hlast.symm
          · exact take_resized _ ho.length_eq
          · intro hz i hi hlt
            rw [hz]
            exact getElem?_resized _ (by rw [ho.length_eq]; exact hi) hlt
        released := ho.released_without
        gone := by
          intro b hb
          obtain ⟨blk, hblk, hdead⟩ := ho.dead_without hb
          exact ⟨blk, getElem?_push hblk, hdead⟩
        others := fun b blk hb hmem => getElem?_push (getElem?_without hb hmem) }

theorem Call.Legal.meets_iff (h : call.Legal t m held bytes) :
    call.Meets m held bytes (call.run t sys m) ↔
      (call.requested.size = 0 → call.requested.align = 1) := by
  have hrun := h.run_outcome sys
  generalize call.run t sys m = r at hrun
  cases hrun with
  | refused hnew => exact ⟨fun _ hzero => absurd hzero hnew, fun _ => rfl⟩
  | served base hbase =>
      obtain ⟨m', q', len, heq, hgranted, haddr⟩ := h.owns.granted base
      rw [heq]
      show call.Granted m held bytes m' q' len ↔ _
      rw [hgranted, haddr]
      split
      case isTrue hzero => simp [hzero]
      case isFalse hnew => exact ⟨fun _ hzero => absurd hzero hnew, fun _ => hbase⟩

end

namespace Global

/-- **`Global` keeps its contract exactly where no zero-size block of an alignment above one is asked
    for**: every method, with any two layouts and whatever `std::alloc` answers; and it does to blocks and
    contents what the trait's default methods do. -/
theorem contract_kept_iff (t : Target) (sys : System) (m : Memory) (call : Call) (held : Option BlockId)
    (bytes : List (Option UInt8)) (h : call.Legal t m held bytes) :
    (call.Meets m held bytes (call.run t sys m) ∧ Agree (call.run t sys m) (call.default t sys m)) ↔
      (call.requested.size = 0 → call.requested.align = 1) := by
  have hagree : Agree (call.run t sys m) (call.default t sys m) := (h.run_outcome sys).agree (h.default_outcome sys)
  rw [h.meets_iff]
  exact ⟨fun hboth => hboth.1, fun halign => ⟨halign, hagree⟩⟩

/-- Memory with one block, of sixteen bytes, and the call that doubles it and asks for another alignment. -/
def oneBlock : Memory := ⟨[⟨64, ⟨16, 8⟩, List.replicate 16 (some 7), true⟩], []⟩

def realigned : Call := .growZeroed ⟨64, some 0⟩ ⟨16, 8⟩ ⟨32, 16⟩

theorem contract_kept_iff_realigned :
    realigned.Legal (Params.x86_64 true).toTarget oneBlock (some 0) (List.replicate 16 (some 7)) ∧
      realigned.Meets oneBlock (some 0) (List.replicate 16 (some 7))
        (realigned.run (Params.x86_64 true).toTarget .bump oneBlock) := by
  have hlegal : realigned.Legal (Params.x86_64 true).toTarget oneBlock (some 0)
      (List.replicate 16 (some 7)) :=
    { valid := by decide
      owns := .block 0 ⟨64, ⟨16, 8⟩, List.replicate 16 (some 7), true⟩ (by decide) rfl rfl rfl rfl rfl
      inOrder := show 16 ≤ 32 by decide }
  exact ⟨hlegal, ((contract_kept_iff (Params.x86_64 true).toTarget .bump oneBlock realigned (some 0)
    (List.replicate 16 (some 7)) hlegal).mpr (by decide)).1⟩

/-- A block of no bytes with the alignment of a word is answered with the address `1`. -/
theorem not_aligned_zero_size :
    (Call.allocate ⟨0, 8⟩).Legal (Params.x86_64 true).toTarget ⟨[], []⟩ none [] ∧
      ¬(Call.allocate ⟨0, 8⟩).Meets ⟨[], []⟩ none []
        ((Call.allocate ⟨0, 8⟩).run (Params.x86_64 true).toTarget .bump ⟨[], []⟩) := by
  constructor
  · exact { valid := by decide, owns := .empty rfl, inOrder := trivial }
  · intro hmeets
    have haligned : 8 ∣ 1 := Call.Granted.aligned hmeets
    omega

end Global

end RkyvUtils
