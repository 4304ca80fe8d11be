import RkyvUtils.AlignedBufferPool.Moves

/-!
# `AlignedBufferPool.Steps` — every action keeps the invariant

One lemma for each action, and for each step of giving a block up: the action returns and the system
evolves, or it ends the system for want of memory or of room in a reference count.
-/

namespace RkyvUtils

open Word Ownership SlotTable

/-- The two aborts. -/
def Fault.Aborts (f : Fault) : Prop := f = .allocError ∨ f = .refcountAbort

namespace BufferPool

open UniqueAlignedBuffer RawAlignedBuffer

variable {p : Params} {cfg : Config} {s : State}

/-- How an action ends. -/
def Proceeds (p : Params) (cfg : Config) (s : State) (r : Except Fault State) : Prop :=
  (∃ s', r = .ok s' ∧ Evolves p cfg s.slots.length s s') ∨ ∃ f, r = .error f ∧ f.Aborts

theorem Evolves.proceeds {s' : State} (he : Evolves p cfg s.slots.length s s') :
    Proceeds p cfg s (.ok s') := Or.inl ⟨s', rfl, he⟩

/-- Nothing happens. -/
theorem Inv.stays (inv : Inv p cfg s) : Proceeds p cfg s (.ok s) := (Evolves.refl inv).proceeds

/-! ## What the parts of the model know of the heap -/

section

variable {α : Type} {h h' : Heap} {this : UniqueAlignedBuffer α} {this' : UniqueAlignedBuffer α}
  {o o' : Option BlockId} {xs ys : List UInt8} {data data' : List (Option UInt8)} {b : BlockId}

/-- A good block is allocated. -/
theorem alive_of_block {blk : Block} (hb : h.blocks[b]? = some blk) (ok : blk.Ok p) : h.alive b = 1 :=
  mark_eq_one.mpr ⟨blk, hb, ok.status⟩

/-- The block of a unique buffer is allocated. -/
theorem Stores.alive (hs : Stores p h this o xs data) (hb : o = some b) : h.alive b = 1 := by
  obtain ⟨hh, -, -⟩ := hs
  generalize this.buf = buf at hh
  cases hh with
  | empty => cases hb
  | block alloc hget ok header =>
      cases hb
      exact alive_of_block hget ok

/-- An allocated block is not deallocated. -/
theorem dead_eq_zero (halive : h.alive b = 1) : h.dead b = 0 := by
  obtain ⟨blk, hb, hlive⟩ := mark_eq_one.mp halive
  have hs : blk.status = .allocated := hlive
  unfold Heap.dead
  rw [mark_of_some hb]
  exact if_neg (fun hd : blk.status = .deallocated => by rw [hs] at hd; cases hd)

/-- An operation on a unique buffer deallocates nothing. -/
theorem Leads.dead_eq (hs : Stores p h this o xs data) (hl : Leads p h this o ys h' this' o' data')
    (b : BlockId) : h'.dead b = h.dead b :=
  hl.confined.mark_unchanged (P := Block.Dead)
    (fun blk (hd : blk.status = .deallocated) (hr : blk.status = .replaced) => by
      rw [hd] at hr; cases hr)
    (fun _ hb => dead_eq_zero (Stores.alive hs hb)) (fun _ hb => dead_eq_zero (Stores.alive hl.stores hb))
    b

/-- A unique buffer grips its block. -/
theorem Stores.grips {this : UniqueAlignedBuffer Home} (hs : Stores p h this o xs data) :
    Grips p h this.buf data.length data := by
  obtain ⟨hh, -, -⟩ := hs
  generalize this.buf = buf at hh
  cases hh with
  | empty alloc => exact .empty alloc
  | @block b blk alloc hb ok header =>
      exact .block alloc ((Block.counted_self header).symm ▸ hb) ok (Nat.le_refl _)

/-- The count of a unique buffer's block is 1. -/
theorem Stores.counted (hs : Stores p h this o xs data) (hb : this.buf.buf.prov = some b) :
    ∃ blk, h.blocks[b]? = some (Block.counted blk 1) := by
  obtain ⟨hh, -, -⟩ := hs
  generalize this.buf = buf at hh hb
  cases hh with
  | empty alloc => cases hb
  | @block b' blk alloc hget ok header =>
      cases hb
      exact ⟨blk, (Block.counted_self header).symm ▸ hget⟩

end

/-! ## A new handle -/

theorem push_eq_set {α : Type} (l : List α) (x y : α) : l ++ [y] = (l ++ [x]).set l.length y := by simp

theorem slots_addGone (s : State) : (s.addSlot .gone).slots[s.slots.length]? = some .gone := by
  simp [State.addSlot]

theorem Puts.set {t : State} {i : Nat} {slot : Slot} (hslots : t.slots = s.slots)
    (hqueues : t.queues = s.queues) (hhandle : t.handle = s.handle) :
    Puts s (t.setSlot i slot) i slot :=
  ⟨by rw [← hslots]; rfl, hqueues, hhandle⟩

/-- A slot added to the table is a fresh place with the slot in it. -/
theorem Puts.added {t : State} {slot : Slot} (hslots : t.slots = s.slots)
    (hqueues : t.queues = s.queues) (hhandle : t.handle = s.handle) :
    Puts (s.addSlot .gone) (t.addSlot slot) s.slots.length slot :=
  ⟨by
    show t.slots ++ [slot] = (s.slots ++ [Slot.gone]).set s.slots.length slot
    rw [hslots]
    exact push_eq_set _ _ _, hqueues, hhandle⟩

/-- **A new buffer without a block.** -/
theorem Inv.addNew (inv : Inv p cfg s) {home : Home} (hhome : HomeOk cfg home) (made dropped : Nat) :
    Evolves p cfg s.slots.length s ({ s with
      allocMade := made, allocDropped := dropped }.addSlot (.unique (.newIn home))) := by
  have hgone := inv.addGone (n := s.slots.length)
  refine hgone.trans (hgone.inv.relabel (slots_addGone s) (.added rfl rfl rfl)
    (.same hgone.inv rfl rfl) rfl rfl rfl ?_ (Or.inl (Nat.le_refl _)) inv.given)
  exact ⟨⟨none, [], [], .empty home, rfl, rfl⟩, hhome⟩

/-- **`with_capacity`**: a new block, a new buffer without one, or a panic that makes nothing. -/
theorem withCapacity_proceeds (A : Allocator p.toTarget) (inv : Inv p cfg s) (capacity : Nat) :
    Proceeds p cfg s (step A cfg s (.withCapacity capacity)) := by
  simp only [step]
  rcases withCapacityIn_spec A Home.global s.heap capacity with
    ⟨h', this', o', data', hr, hl, -⟩ | hr | hr
  · rw [hr]
    have hgone := inv.addGone (n := s.slots.length)
    have hempty : Stores p s.heap (UniqueAlignedBuffer.newIn Home.global) none [] [] :=
      ⟨.empty _, rfl, rfl⟩
    refine Evolves.proceeds ?_
    refine hgone.trans (hgone.inv.exclusive (slots_addGone s) (.added rfl rfl rfl)
      (.same hgone.inv rfl rfl) hl.confined ?live hl.stores.holds.prov_eq rfl rfl ?old ?new ?ok ?view ?given)
    case live =>
      intro blk (hlive : blk.status = .allocated) (hr : blk.status = .replaced)
      rw [hlive] at hr; cases hr
    case old =>
      intro b hb
      cases hb
    case new =>
      intro b hb
      exact Stores.alive hl.stores hb
    case ok =>
      refine ⟨⟨o', _, data', hl.stores⟩, ?_⟩
      rw [hl.alloc]; trivial
    case view =>
      intro other he
      cases he
    case given =>
      intro hz b
      exact (inv.given hz b).trans (Leads.dead_eq hempty hl b).symm
  · rw [hr]; exact inv.stays
  · rw [hr]; exact Or.inr ⟨_, rfl, Or.inl rfl⟩

/-- **`get`**: the oldest buffer of the queue, or a new one. -/
theorem get_proceeds (A : Allocator p.toTarget) (inv : Inv p cfg s) (queue : Nat) :
    Proceeds p cfg s (step A cfg s (.get queue)) := by
  simp only [step]
  by_cases hhandle : s.handle = false
  · rw [if_pos hhandle]; exact inv.stays
  · rw [if_neg hhandle]
    cases hq : s.queues[queue]? with
    | none => exact inv.stays
    | some entries =>
        have hlt : queue < cfg.queues := by
          rw [← inv.queues_length]
          exact (List.getElem?_eq_some_iff.mp hq).1
        cases entries with
        | nil => exact (inv.addNew (show HomeOk cfg (.pool queue) from hlt) _ _).proceeds
        | cons this rest =>
            -- the oldest buffer moves from the queue into a fresh handle
            have hgone := inv.addGone (n := s.slots.length)
            have hstrong := inv.strong
            rw [Bool.eq_true_of_not_eq_false hhandle] at hstrong
            have heq : { s with queues := s.queues.set queue rest }.addSlot (.unique this) =
                { s.addSlot .gone with queues := s.queues.set queue rest }.setSlot s.slots.length
                  (.unique this) := by
              simp [State.addSlot, State.setSlot]
            refine Evolves.proceeds ?_
            rw [heq]
            refine hgone.trans (hgone.inv.requeue (slots_addGone s) hq rfl ?sole rfl ?strong ?le ?entries ?ok
              (Or.inl (Nat.le_refl _)))
            case sole =>
              intro b
              rw [total_cons]
              show hit this.buf.buf.prov b + _ = hit none b + _
              rw [hit_none]; omega
            case strong =>
              show 0 < s.strong
              rw [hstrong]
              simp only [Bool.toNat_true]; omega
            case le =>
              have := inv.queue_le queue _ hq
              simp only [List.length_cons] at this; omega
            case entries =>
              intro other hmem
              exact inv.queues queue _ hq other (List.mem_cons_of_mem _ hmem)
            case ok => exact (inv.queues queue _ hq this (List.mem_cons_self ..)).slotOk hlt

/-! ## Operations on a unique buffer -/

section

variable {i : Nat} {this : UniqueAlignedBuffer Home}

/-- **A call on a unique buffer**; one that gives its block up only starts to. -/
theorem mutate_proceeds (A : Allocator p.toTarget) (inv : Inv p cfg s)
    (hi : s.slots[i]? = some (.unique this)) (op : BufferOp) :
    Proceeds p cfg s (mutate A s i this op) := by
  obtain ⟨⟨o, xs, data, hs⟩, hhome⟩ := inv.slots i _ hi
  unfold mutate
  cases hfrees : op.frees p this with
  | true =>
      rw [if_pos rfl]
      -- the buffer has a block and stores nothing
      obtain ⟨b, blk, hraw, hb, ok, hlen, hall⟩ : ∃ b blk,
          this.buf = onBlock p blk b blk.data.length this.buf.alloc ∧
          s.heap.blocks[b]? = some (blk.counted 1) ∧ blk.Ok p ∧ this.len = 0 ∧
          this.buf.isAllocated p = true := by
        cases op with
        | unique op =>
            obtain ⟨b, blk, rfl, -, -, -, rfl⟩ := apply_of_frees A hs op hfrees
            obtain ⟨hh, hlen, -⟩ := hs
            generalize this.buf = buf at hh
            cases hh with
            | @block b blk alloc hb ok header =>
                exact ⟨b, blk, rfl, (Block.counted_self header).symm ▸ hb, ok, hlen,
                  isAllocated_onBlock blk b alloc ok.data_lt⟩
        | pushAlloc layout => cases hfrees
        | popAlloc ptr layout => cases hfrees
      rw [Target.debugAssert_ok hall, ok_bind]
      refine Evolves.proceeds ?_
      refine inv.relabel hi (.set rfl rfl rfl) (.same inv rfl rfl) rfl rfl rfl ?_ (Or.inr ?_) inv.given
      · refine ⟨⟨b, blk, ?_, hb, ok⟩, hhome, ?_⟩
        · rw [hraw]; rfl
        · intro len he
          cases he
          exact hlen
      · intro other he; cases he
  | false =>
      rw [if_neg (by simp)]
      -- whatever the operation does, it does it to the block of its sole owner
      obtain ⟨h', this', e, o', ys, data', happ, hl, he⟩ := BufferOp.apply_spec A hs op hfrees
      have hev : Evolves p cfg s.slots.length s ({ s with heap := h' }.setSlot i (.unique this')) := by
        have hconf : Confined Block.Unreplaced s.heap.blocks h'.blocks (Slot.unique this).sole o' := by
          rw [show (Slot.unique this).sole = o from hs.holds.prov_eq]
          exact hl.confined
        refine inv.exclusive hi (.set rfl rfl rfl) (.same inv rfl rfl) hconf ?live hl.stores.holds.prov_eq rfl
          rfl ?old ?new ?ok ?view ?given
        case live =>
          intro blk (hlive : blk.status = .allocated) (hr : blk.status = .replaced)
          rw [hlive] at hr; cases hr
        case old =>
          intro b hb
          exact Stores.alive hs (hs.holds.prov_eq.symm.trans hb)
        case new =>
          intro b hb
          exact Stores.alive hl.stores hb
        case ok =>
          refine ⟨⟨o', ys, data', hl.stores⟩, ?_⟩
          rw [hl.alloc]; exact hhome
        case view =>
          intro other he
          cases he
        case given =>
          intro hz b
          exact (inv.given hz b).trans (Leads.dead_eq hs hl b).symm
      rw [happ]
      cases e with
      | none => exact hev.proceeds
      | some f =>
          dsimp only
          rcases he f rfl with hf | rfl
          · rw [if_pos hf]; exact hev.proceeds
          · exact Or.inr ⟨_, rfl, Or.inl rfl⟩

end

/-! ## Conversions -/

section

variable {i : Nat} {slot : Slot}

/-- **A handle moves to a fresh place**, where it can be converted. -/
theorem Inv.relocate (inv : Inv p cfg s) (hi : s.slots[i]? = some slot) (slot' : Slot) :
    ∃ s₁, Evolves p cfg s.slots.length s s₁ ∧ s₁.slots[s.slots.length]? = some slot ∧
      Puts s₁ ((s.setSlot i .gone).addSlot slot') s.slots.length slot' ∧ s₁.heap = s.heap ∧
      s₁.given = s.given ∧ s₁.strong = s.strong ∧ ∀ b, s₁.refs b = s.refs b := by
  have hlt : i < s.slots.length := (List.getElem?_eq_some_iff.mp hi).1
  have hi' : (s.addSlot .gone).slots[i]? = some slot := (List.getElem?_append_left hlt).trans hi
  have hfresh : ((s.addSlot .gone).setSlot i .gone).slots[s.slots.length]? = some .gone :=
    (List.getElem?_set_ne (Nat.ne_of_lt hlt)).trans (slots_addGone s)
  have hgone := inv.addGone (n := s.slots.length)
  refine ⟨((s.addSlot .gone).setSlot i .gone).setSlot s.slots.length slot,
    hgone.trans (hgone.inv.move hi' (slots_addGone s) (Nat.ne_of_lt hlt) (Nat.le_refl _)), ?_, ?_, rfl,
    rfl, rfl, ?_⟩
  · exact List.getElem?_set_self (by simp [State.addSlot, State.setSlot])
  · refine ⟨?_, rfl, rfl⟩
    show s.slots.set i .gone ++ [slot']
      = (((s.slots ++ [Slot.gone]).set i .gone).set s.slots.length slot).set s.slots.length slot'
    rw [List.set_set, List.set_append_left i _ hlt]
    have := push_eq_set (s.slots.set i .gone) .gone slot'
    rwa [List.length_set] at this
  · intro b
    have h₁ := State.refs_setSlot .gone hi' b
    have h₂ := State.refs_setSlot slot hfresh b
    rw [State.refs_addSlot] at h₁
    simp only [Slot.ref, hit_none] at h₁ h₂
    omega

/-- The shared buffer grips the same block and shows the same bytes. -/
theorem Stores.intoShared {h : Heap} {this : UniqueAlignedBuffer Home} {o : Option BlockId}
    {xs : List UInt8} {data : List (Option UInt8)} (hs : Stores p h this o xs data) :
    ∃ shared, this.intoShared p = .ok shared ∧ Shows p h shared xs data ∧
      shared.buf.buf.prov = this.buf.buf.prov ∧ shared.buf.alloc = this.buf.alloc := by
  have hle := hs.length_le
  obtain ⟨hh, hlen, hbytes⟩ := hs
  obtain ⟨buf, len⟩ := this
  dsimp only at hlen hh
  subst hlen
  cases hh with
  | empty alloc =>
      obtain rfl : xs = [] := List.length_eq_zero_iff.mp (Nat.le_zero.mp hle)
      exact ⟨_, intoShared_newIn, ⟨.empty alloc, rfl⟩, rfl, rfl⟩
  | @block b blk alloc hb ok header =>
      exact ⟨_, intoShared_onBlock b alloc ok.data_lt hle,
        ⟨.block alloc ((Block.counted_self header).symm ▸ hb) ok hle, hbytes⟩, rfl, rfl⟩

/-- **`into_shared`**: the same block, counted by one handle. -/
theorem intoShared_proceeds (A : Allocator p.toTarget) (inv : Inv p cfg s) (i : Nat) :
    Proceeds p cfg s (step A cfg s (.intoShared i)) := by
  simp only [step]
  cases hi : s.slots[i]? with
  | none => exact inv.stays
  | some slot =>
      cases slot with
      | unique this =>
          obtain ⟨⟨o, xs, data, hs⟩, hhome⟩ := inv.slots i _ hi
          obtain ⟨shared, hshared, hshows, hprov, halloc⟩ := Stores.intoShared hs
          dsimp only
          rw [hshared, ok_bind]
          obtain ⟨s₁, hev, hj, hput, hheap, hgiven, hstrong, -⟩ := inv.relocate hi (.shared shared)
          refine Evolves.proceeds (hev.trans (hev.inv.toRef hj hput (.same hev.inv hstrong.symm rfl)
            hheap.symm rfl rfl hprov ?_ ?_ (Or.inl (Nat.le_refl _)) hgiven.symm))
          · intro b hb
            rw [hheap]
            exact Stores.counted hs hb
          · rw [hheap]
            refine ⟨⟨xs, data, hshows⟩, ?_⟩
            rw [halloc]; exact hhome
      | _ => exact inv.stays

/-- What a shared buffer with a block knows of the count: it is the number of those who refer to it. -/
theorem Inv.count_eq (inv : Inv p cfg s) (hi : s.slots[i]? = some slot) {b : BlockId} {blk : Block}
    {rc : Nat} (href : slot.ref = some b) (hb : s.heap.blocks[b]? = some (blk.counted rc)) :
    rc = s.refs b ∧ 0 < s.refs b := by
  have hpos := ref_pos hi href
  have := inv.counted b _ hb hpos
  simp only [Block.counted, Option.some.injEq, Header.mk.injEq] at this
  exact ⟨this.1, hpos⟩

/-- A clone is the same handle once more, and shows the same bytes. -/
theorem Shows.clone {h : Heap} {this : SharedAlignedBuffer Home} {xs : List UInt8}
    {data : List (Option UInt8)} (hs : Shows p h this xs data) :
    (∃ h', this.clone p h = .ok (h', this) ∧ Shows p h' this xs data) ∨
    this.clone p h = .error .refcountAbort := by
  obtain ⟨hg, hbytes⟩ := hs
  obtain ⟨buf⟩ := this
  dsimp only at hg
  generalize hv : xs.length = v at hg
  cases hg with
  | empty alloc =>
      obtain rfl : xs = [] := List.length_eq_zero_iff.mp hv
      exact Or.inl ⟨h, SharedAlignedBuffer.clone_newIn, .empty alloc, rfl⟩
  | @block b blk rc v alloc hb ok hle =>
      subst hv
      have hlt := ok.data_lt
      rw [SharedAlignedBuffer.clone_onBlock hb ok (by omega)]
      by_cases hmax : p.maxRefcount < rc
      · rw [if_pos hmax]; exact Or.inr rfl
      · rw [if_neg hmax]
        have hget : (h.update b (blk.counted (rc + 1))).blocks[b]? = some (blk.counted (rc + 1)) :=
          List.getElem?_set_self (List.getElem?_eq_some_iff.mp hb).1
        exact Or.inl ⟨_, rfl, .block alloc hget ok hle, hbytes⟩

/-- **`clone`**: one more handle on the block, and one more in its count. -/
theorem clone_proceeds (A : Allocator p.toTarget) (inv : Inv p cfg s) (i : Nat) :
    Proceeds p cfg s (step A cfg s (.clone i)) := by
  simp only [step]
  cases hi : s.slots[i]? with
  | none => exact inv.stays
  | some slot =>
      cases slot with
      | shared this =>
          obtain ⟨⟨xs, data, hshows⟩, hhome⟩ := inv.slots i _ hi
          obtain ⟨hg, hbytes⟩ := hshows
          obtain ⟨buf⟩ := this
          dsimp only at hg hhome ⊢
          have hgone := inv.addGone (n := s.slots.length)
          generalize hv : xs.length = v at hg
          cases hg with
          | empty alloc =>
              obtain rfl : xs = [] := List.length_eq_zero_iff.mp hv
              rw [SharedAlignedBuffer.clone_newIn, ok_bind]
              refine Evolves.proceeds (hgone.trans (hgone.inv.relabel (slots_addGone s)
                (.added rfl rfl rfl) (.same hgone.inv rfl rfl) rfl rfl rfl ?_ (Or.inl (Nat.le_refl _))
                inv.given))
              exact ⟨⟨[], [], .empty alloc, rfl⟩, hhome⟩
          | @block b blk rc v alloc hb ok hle =>
              subst hv
              have hlt := ok.data_lt
              obtain ⟨rfl, hpos⟩ := inv.count_eq hi rfl hb
              rw [SharedAlignedBuffer.clone_onBlock hb ok (by omega)]
              -- one more handle refers to the block, unless the count would leave no room for it
              by_cases hmax : p.maxRefcount < s.refs b
              · rw [if_pos hmax]; exact Or.inr ⟨_, rfl, Or.inr rfl⟩
              · rw [if_neg hmax, ok_bind]
                have hmax' : p.maxRefcount = p.half - 1 := rfl
                have hhalf := p.half_pos
                refine Evolves.proceeds (hgone.trans (hgone.inv.countUp (slots_addGone s)
                  (.added rfl rfl rfl) (.same hgone.inv rfl rfl) hb ?_ ?_ ⟨rfl, rfl⟩ rfl rfl ?_ ?_
                  (Nat.le_refl _) rfl))
                all_goals have hrefs : (s.addSlot .gone).refs b = s.refs b := State.refs_addSlot b
                · rw [hrefs]; exact hpos
                · rw [hrefs]; rfl
                · rw [hrefs]; omega
                · have hget : (s.heap.update b (blk.counted (s.refs b + 1))).blocks[b]?
                      = some (blk.counted (s.refs b + 1)) :=
                    List.getElem?_set_self (List.getElem?_eq_some_iff.mp hb).1
                  exact ⟨⟨xs, blk.data, .block alloc hget ok hle, hbytes⟩, hhome⟩
      | _ => exact inv.stays

/-- **`try_unique`**: with a count of 1 nobody else is on the block. -/
theorem tryUnique_proceeds (inv : Inv p cfg s) {this : SharedAlignedBuffer Home}
    (hi : s.slots[i]? = some (.shared this)) : Proceeds p cfg s (tryUnique p s i this) := by
  obtain ⟨⟨xs, data, hg, hbytes⟩, hhome⟩ := inv.slots i _ hi
  obtain ⟨buf⟩ := this
  dsimp only at hg hhome
  unfold tryUnique
  generalize hv : xs.length = v at hg
  cases hg with
  | empty alloc =>
      obtain rfl : xs = [] := List.length_eq_zero_iff.mp hv
      rw [SharedAlignedBuffer.tryUnique_newIn]
      cases hd : p.debug with
      | true =>
          -- the assertion of `ref_count` panics, and the buffer is dropped
          rw [if_pos rfl]
          dsimp only
          rw [if_pos ⟨rfl, isAllocated_newIn alloc⟩]
          refine Evolves.proceeds (inv.relabel hi (.set rfl rfl rfl) (.same inv rfl rfl) rfl rfl rfl ?_
            (Or.inr fun other he => ?_) inv.given)
          · exact ⟨⟨_, _, .empty alloc⟩, hhome, fun _ he => by cases he⟩
          · cases he
      | false =>
          rw [if_neg (by simp)]
          obtain ⟨s₁, hev, hj, hput, hheap, hgiven, hstrong, -⟩ :=
            inv.relocate hi (.unique ⟨RawAlignedBuffer.newIn alloc, 0⟩)
          refine Evolves.proceeds (hev.trans (hev.inv.toSole hj hput (.same hev.inv hstrong.symm rfl)
            hheap.symm rfl rfl rfl (fun b hb => by cases hb) ?_ (Or.inl (Nat.le_refl _)) hgiven.symm))
          exact ⟨⟨none, [], [], .empty alloc, rfl, rfl⟩, hhome⟩
  | @block b blk rc v alloc hb ok hle =>
      have hlt := ok.data_lt
      obtain ⟨rfl, hpos⟩ := inv.count_eq hi rfl hb
      rw [SharedAlignedBuffer.tryUnique_onBlock hb ok (by omega)]
      -- the only one who refers to the block becomes its sole owner; any other keeps the buffer
      by_cases h1 : s.refs b = 1
      · rw [if_pos h1]
        obtain ⟨s₁, hev, hj, hput, hheap, hgiven, hstrong, hrefs⟩ :=
          inv.relocate hi (.unique ⟨onBlock p blk b blk.data.length alloc, v⟩)
        refine Evolves.proceeds (hev.trans (hev.inv.toSole hj hput (.same hev.inv hstrong.symm rfl)
          hheap.symm rfl rfl rfl ?_ ?_ (Or.inl (Nat.le_refl _)) hgiven.symm))
        · intro c hc
          cases hc
          rw [hrefs, h1]
        · rw [hheap]
          rw [h1] at hb
          have hh : RawAlignedBuffer.Holds p s.heap ⟨(blk.counted 1).dataPtr p b,
              .pack p.toTarget (blk.counted 1).data.length true, alloc⟩ (some b)
              (blk.counted 1).data := .block alloc hb (ok.counted 1) rfl
          exact ⟨⟨some b, xs, _, hh, hv.symm, hv ▸ hbytes⟩, hhome⟩
      · rw [if_neg h1]; exact inv.stays

/-- **A read** changes nothing. -/
theorem read_proceeds (A : Allocator p.toTarget) (inv : Inv p cfg s) (i : Nat) :
    Proceeds p cfg s (step A cfg s (.read i)) := by
  simp only [step]
  cases hi : s.slots[i]? with
  | none => exact inv.stays
  | some slot =>
      cases slot with
      | unique this =>
          obtain ⟨⟨o, xs, data, hs⟩, -⟩ := inv.slots i _ hi
          dsimp only
          rw [hs.asSlice_eq, ok_bind]
          exact inv.stays
      | shared this =>
          obtain ⟨⟨xs, data, hshows⟩, -⟩ := inv.slots i _ hi
          dsimp only
          rw [hshows.asSlice_eq.1, ok_bind]
          exact inv.stays
      | _ => exact inv.stays

/-- **`drop`** starts to give the block up, or is over when there is none. -/
theorem drop_proceeds (A : Allocator p.toTarget) (inv : Inv p cfg s) (i : Nat) :
    Proceeds p cfg s (step A cfg s (.drop i)) := by
  simp only [step]
  cases hi : s.slots[i]? with
  | none => exact inv.stays
  | some slot =>
      cases slot with
      | unique this =>
          obtain ⟨⟨o, xs, data, hs⟩, hhome⟩ := inv.slots i _ hi
          refine Evolves.proceeds (inv.toRef hi (.set rfl rfl rfl) (.same inv rfl rfl) rfl rfl rfl rfl
            (fun b hb => Stores.counted hs hb) ?_ (Or.inr fun other he => ?_) rfl)
          · exact ⟨⟨_, _, Stores.grips hs⟩, hhome, fun _ he => by cases he⟩
          · cases he
      | shared this =>
          obtain ⟨⟨xs, data, hshows⟩, hhome⟩ := inv.slots i _ hi
          refine Evolves.proceeds (inv.relabel hi (.set rfl rfl rfl) (.same inv rfl rfl) rfl rfl rfl ?_
            (Or.inr fun other he => ?_) inv.given)
          · exact ⟨⟨_, _, hshows.grips⟩, hhome, fun _ he => by cases he⟩
          · cases he
      | _ => exact inv.stays

end

/-! ## Giving a block up, step by step -/

section

variable {i : Nat} {this : RawAlignedBuffer Home} {after : After}

@[simp] theorem sole_finishSlot : (finishSlot this after).sole = none := by cases after <;> rfl

@[simp] theorem ref_finishSlot : (finishSlot this after).ref = none := by cases after <;> rfl

@[simp] theorem upgraded_finishSlot : (finishSlot this after).upgraded = 0 := by cases after <;> rfl

/-- A handle that is done with is no shared buffer. -/
theorem finishSlot_ne_shared (other : SharedAlignedBuffer Home) :
    finishSlot this after ≠ .shared other := by
  cases after <;> exact fun he => by cases he

/-- What is left of a buffer whose block is given up. -/
theorem finishSlot_ok {h : Heap} (hhome : HomeOk cfg this.alloc)
    (hafter : ∀ len, after = .emptied len → len = 0) : SlotOk p cfg h (finishSlot this after) := by
  cases after with
  | dropped => trivial
  | emptied len =>
      obtain rfl := hafter len rfl
      exact ⟨⟨none, [], [], .empty this.alloc, rfl, rfl⟩, hhome⟩

theorem Puts.finish {t : State} (hslots : t.slots = s.slots) (hqueues : t.queues = s.queues)
    (hhandle : t.handle = s.handle) :
    Puts s (finish t i this after) i (finishSlot this after) :=
  ⟨by rw [← hslots]; rfl, hqueues, hhandle⟩

/-- **Deallocation** by the sole owner of a block. -/
theorem deallocate_confined {h : Heap} {b : BlockId} {blk : Block} :
    Confined Block.Live h.blocks (h.update b { blk with status := .deallocated }).blocks (some b) none :=
  Confined.release (fun hl : BlockStatus.deallocated = .allocated => by cases hl)

/-- The books of the deallocated blocks after one more. -/
theorem dead_deallocate {h : Heap} {b : BlockId} {blk : Block} (hb : h.blocks[b]? = some blk)
    (hlive : blk.Live) (c : BlockId) :
    (h.update b { blk with status := .deallocated }).dead c = h.dead c + hit (some b) c := by
  by_cases he : b = c
  · subst he
    have hget : (h.update b { blk with status := .deallocated }).blocks[b]?
        = some { blk with status := .deallocated } :=
      List.getElem?_set_self (List.getElem?_eq_some_iff.mp hb).1
    rw [hit_self, dead_eq_zero (mark_eq_one.mpr ⟨blk, hb, hlive⟩)]
    exact mark_eq_one.mpr ⟨_, hget, rfl⟩
  · rw [hit_ne he, Nat.add_zero]
    exact mark_congr (List.getElem?_set_ne he)

/-- **The decrement**: the last handle goes on alone, the others are done. -/
theorem fetchSub_proceeds (inv : Inv p cfg s)
    (hi : s.slots[i]? = some (.releasing this .fetchSub after)) :
    Proceeds p cfg s (advance p cfg s i this after .fetchSub) := by
  obtain ⟨⟨v, data, hg⟩, hhome, hafter⟩ := inv.slots i _ hi
  simp only [advance]
  cases hg with
  | empty alloc =>
      rw [isAllocated_newIn, if_pos (by simp)]
      refine Evolves.proceeds (inv.relabel hi (.finish rfl rfl rfl)
        (.same inv rfl upgraded_finishSlot.symm) rfl sole_finishSlot ref_finishSlot
        (finishSlot_ok hhome hafter) (Or.inr finishSlot_ne_shared) inv.given)
  | @block b blk rc v alloc hb ok hle =>
      have hlt := ok.data_lt
      obtain ⟨rfl, hpos⟩ := inv.count_eq hi rfl hb
      have hbound := inv.bound b
      have hhalf := p.half_add_half
      have hhalf' := p.half_pos
      have hget : (s.heap.update b (blk.counted (s.refs b - 1))).blocks[b]?
          = some (blk.counted (s.refs b - 1)) :=
        List.getElem?_set_self (List.getElem?_eq_some_iff.mp hb).1
      rw [isAllocated_onBlock _ _ _ (by omega), if_neg (by simp), headerPtr_onBlock,
        fetchSub_counted hb ok, ok_bind, wrappingSub_of_le (by omega) (by omega)]
      dsimp only
      -- the last reference makes the handle the sole owner; otherwise it is done
      by_cases h1 : s.refs b = 1
      · rw [if_neg (not_not_intro h1)]
        refine Evolves.proceeds (inv.countDown hi (.set rfl rfl rfl) (.same inv rfl rfl) hb hpos rfl rfl
          rfl ?_ rfl ?_ (fun other he => by cases he) rfl)
        · rw [if_pos h1]; rfl
        · rw [h1] at hget ⊢
          exact ⟨⟨b, blk, v, alloc, rfl, hget, ok, hle⟩, hhome, hafter⟩
      · rw [if_pos h1]
        refine Evolves.proceeds (inv.countDown hi (.finish rfl rfl rfl)
          (.same inv rfl upgraded_finishSlot.symm) hb hpos rfl rfl rfl ?_ ref_finishSlot
          (finishSlot_ok hhome hafter) finishSlot_ne_shared rfl)
        rw [if_neg h1]; exact sole_finishSlot

/-- **The fence** of the last handle. -/
theorem load_proceeds (inv : Inv p cfg s) (hi : s.slots[i]? = some (.releasing this .load after)) :
    Proceeds p cfg s (advance p cfg s i this after .load) := by
  obtain ⟨hheld, hhome, hafter⟩ := inv.slots i _ hi
  obtain ⟨b, blk, v, alloc, rfl, hb, ok, hle⟩ := id hheld
  simp only [advance]
  rw [headerPtr_onBlock, loadRefCount_counted hb ok, ok_bind]
  exact Evolves.proceeds (inv.relabel hi (.set rfl rfl rfl) (.same inv rfl rfl) rfl rfl rfl
    ⟨hheld, hhome, hafter⟩ (Or.inr fun other he => by cases he) inv.given)

/-- **The count is set back to 1**, for the next owner of the block. -/
theorem store_proceeds (inv : Inv p cfg s) (hi : s.slots[i]? = some (.releasing this .store after)) :
    Proceeds p cfg s (advance p cfg s i this after .store) := by
  obtain ⟨⟨b, blk, v, alloc, rfl, hb, ok, hle⟩, hhome, hafter⟩ := inv.slots i _ hi
  have hget : (s.heap.update b (blk.counted 1)).blocks[b]? = some (blk.counted 1) :=
    List.getElem?_set_self (List.getElem?_eq_some_iff.mp hb).1
  simp only [advance]
  rw [headerPtr_onBlock, storeRefCount_counted hb ok, ok_bind, dropRaw_onBlock hget ok, ok_bind]
  refine Evolves.proceeds (inv.exclusive hi (.set rfl rfl rfl) (.same inv rfl rfl)
    (show Confined Block.Live _ _ (some b) (some b) from .set_self (blk.counted 1)) (fun _ h => h) rfl rfl
    rfl ?_ ?_ ?_
    (fun other he => by cases he) ?_)
  · intro c hc
    cases hc
    exact alive_of_block hb (ok.counted 0)
  · intro c hc
    cases hc
    exact alive_of_block hget (ok.counted 1)
  · exact ⟨⟨b, blk, rfl, hget, ok⟩, hhome, hafter⟩
  · intro hz c
    exact (inv.given hz c).trans (dead_counted hb 1 c).symm

/-- **The deallocation step**, at the end of `drop`, or under an upgraded reference: `t heap` is the state
    after it. -/
theorem Inv.deallocate (inv : Inv p cfg s) (t : Heap → State) {pc : Pc} {raw : RawBuffer} {slot' : Slot}
    (hi : s.slots[i]? = some (.releasing this pc after))
    (hsole : (Slot.releasing this pc after).sole = raw.buf.prov)
    (href : (Slot.releasing this pc after).ref = none) (hraw : Given p s.heap raw)
    (hput : ∀ heap, Puts s (t heap) i slot') (hheap : ∀ heap, (t heap).heap = heap)
    (hstrong : ∀ heap, (t heap).strong = s.strong)
    (hup : (Slot.releasing this pc after).upgraded = slot'.upgraded) (hsole' : slot'.sole = none)
    (href' : slot'.ref = none) (hok : ∀ heap, SlotOk p cfg heap slot')
    (hview : ∀ other, slot' ≠ .shared other)
    (hgiven : cfg.queues = 0 → ∀ heap, (t heap).given = s.given ++ raw.buf.prov.toList) :
    ∃ heap, deallocateBuffer p s.heap raw = .ok heap ∧ Evolves p cfg s.slots.length s (t heap) := by
  obtain ⟨b, blk, rfl, hb, ok⟩ := hraw
  have hlive : (blk.counted 1).Live := ok.status
  have hdealloc : deallocateBuffer p s.heap ⟨(blk.counted 1).dataPtr p b,
      .pack p.toTarget (blk.counted 1).data.length true⟩
      = .ok (s.heap.update b { blk.counted 1 with status := .deallocated }) :=
    deallocateBuffer_eq hb (ok.counted 1) rfl
  refine ⟨_, hdealloc, ?_⟩
  have hsome : (Slot.releasing this pc after).sole = some b := hsole
  have hconf : Confined Block.Live s.heap.blocks
      (t (s.heap.update b { blk.counted 1 with status := .deallocated })).heap.blocks
      (Slot.releasing this pc after).sole none := by
    rw [hheap, hsome]; exact deallocate_confined
  refine inv.exclusive hi (hput _) (.same inv (hstrong _) hup) hconf (fun _ h => h) hsole' href href' ?_
    ?_ (hok _) hview ?_
  · intro c hc
    rw [hsome] at hc
    cases hc
    exact alive_of_block hb (ok.counted 1)
  · intro c hc; cases hc
  · intro hz c
    rw [hheap, hgiven hz, dead_deallocate hb hlive, List.count_append, inv.given hz]
    congr 1
    by_cases he : b = c
    · subst he
      simp [Block.dataPtr]
    · rw [hit_ne he]
      simp [Block.dataPtr, he]

/-- **`deallocate_buffer`** is called: the pool may be there, and keep the block, or not. -/
theorem call_proceeds {raw : RawBuffer} (inv : Inv p cfg s)
    (hi : s.slots[i]? = some (.releasing this (.call raw) after)) :
    Proceeds p cfg s (advance p cfg s i this after (.call raw)) := by
  obtain ⟨hraw, hhome, hafter⟩ := inv.slots i _ hi
  obtain ⟨buf, capOrLen, alloc⟩ := this
  simp only [advance]
  cases alloc with
  | global =>
      obtain ⟨heap, hd, hev⟩ := inv.deallocate (fun heap => finish { s with
          given := s.given ++ raw.buf.prov.toList
          heap } i ⟨buf, capOrLen, .global⟩ after)
        hi rfl rfl hraw (fun _ => .finish rfl rfl rfl) (fun _ => rfl) (fun _ => rfl)
        upgraded_finishSlot.symm sole_finishSlot ref_finishSlot (fun _ => finishSlot_ok hhome hafter)
        finishSlot_ne_shared (fun _ _ => rfl)
      dsimp only
      rw [hd, ok_bind]
      exact hev.proceeds
  | pool queue =>
      have hne : cfg.queues ≠ 0 := Nat.ne_of_gt (Nat.zero_lt_of_lt (show queue < cfg.queues from hhome))
      have hgiven : cfg.queues = 0 → ∀ b, (s.given ++ raw.buf.prov.toList).count b = s.heap.dead b :=
        fun hz => absurd hz hne
      dsimp only
      -- the policy refuses, there is no pool to upgrade to, or the upgraded reference is one more
      by_cases hpolicy : cfg.policy (raw.cap.value p.toTarget) = false
      · rw [if_pos hpolicy]
        exact Evolves.proceeds (inv.relabel hi (.set rfl rfl rfl) (.same inv rfl rfl) rfl rfl rfl
          ⟨⟨hraw, hne⟩, hhome, hafter⟩ (Or.inr fun other he => by cases he) hgiven)
      · rw [if_neg hpolicy]
        by_cases hstrong : s.strong = 0
        · rw [if_pos hstrong]
          exact Evolves.proceeds (inv.relabel hi (.set rfl rfl rfl) (.same inv rfl rfl) rfl rfl rfl
            ⟨⟨hraw, hne⟩, hhome, hafter⟩ (Or.inr fun other he => by cases he) hgiven)
        · rw [if_neg hstrong]
          refine Evolves.proceeds (inv.relabel hi (.set rfl rfl rfl) ⟨rfl, fun hz => ?_⟩ rfl rfl rfl
            ⟨⟨hraw, hhome, Bool.eq_true_of_not_eq_false hpolicy⟩, hhome, hafter⟩
            (Or.inr fun other he => by cases he) hgiven)
          exact absurd hz (Nat.succ_ne_zero s.strong)

/-- **A block that is not kept** is deallocated. -/
theorem dealloc_proceeds {raw : RawBuffer} (inv : Inv p cfg s)
    (hi : s.slots[i]? = some (.releasing this (.dealloc raw) after)) :
    Proceeds p cfg s (advance p cfg s i this after (.dealloc raw)) := by
  obtain ⟨⟨hraw, hne⟩, hhome, hafter⟩ := inv.slots i _ hi
  obtain ⟨heap, hd, hev⟩ := inv.deallocate (fun heap => finish { s with heap } i this after) hi rfl rfl
    hraw (fun _ => .finish rfl rfl rfl) (fun _ => rfl) (fun _ => rfl) upgraded_finishSlot.symm
    sole_finishSlot ref_finishSlot (fun _ => finishSlot_ok hhome hafter) finishSlot_ne_shared
    (fun hz => absurd hz hne)
  simp only [advance]
  rw [hd, ok_bind]
  exact hev.proceeds

/-- **A block that the queue refuses** is deallocated too. -/
theorem reject_proceeds {raw : RawBuffer} (inv : Inv p cfg s)
    (hi : s.slots[i]? = some (.releasing this (.reject raw) after)) :
    Proceeds p cfg s (advance p cfg s i this after (.reject raw)) := by
  obtain ⟨⟨hraw, hne⟩, hrest⟩ := inv.slots i _ hi
  have hput : ∀ heap, Puts s ({ s with heap }.setSlot i (.releasing this .unref after)) i
      (.releasing this .unref after) := fun _ => .set rfl rfl rfl
  obtain ⟨heap, hd, hev⟩ := inv.deallocate _ hi rfl rfl hraw hput (fun _ => rfl) (fun _ => rfl) rfl rfl
    rfl (fun _ => ⟨trivial, hrest⟩) (fun other he => by cases he) (fun hz => absurd hz hne)
  simp only [advance]
  rw [hd, ok_bind]
  exact hev.proceeds

/-- A handle with an upgraded reference keeps the pool alive. -/
theorem Inv.strong_pos {slot : Slot} (inv : Inv p cfg s) (hi : s.slots[i]? = some slot)
    (hup : slot.upgraded = 1) : 0 < s.strong := by
  have h₁ := inv.strong
  have h₂ : slot.upgraded ≤ s.upgrades := le_total hi
  omega

/-- **A block is put into the queue**, if that has room. -/
theorem push_proceeds {queue : Nat} {raw : RawBuffer} (inv : Inv p cfg s)
    (hi : s.slots[i]? = some (.releasing this (.push queue raw) after)) :
    Proceeds p cfg s (advance p cfg s i this after (.push queue raw)) := by
  obtain ⟨⟨hraw, hlt, hpolicy⟩, hhome, hafter⟩ := inv.slots i _ hi
  have hlt' : queue < s.queues.length := by rw [inv.queues_length]; exact hlt
  have hq : s.queues[queue]? = some (s.queues.getD queue []) := by
    rw [List.getD_eq_getElem?_getD, List.getElem?_eq_getElem hlt']
    rfl
  simp only [advance]
  generalize s.queues.getD queue [] = entries at hq ⊢
  by_cases hroom : entries.length < cfg.capacity
  · rw [if_pos hroom]
    -- the stake goes from the handle to the end of the queue
    refine Evolves.proceeds (inv.requeue hi hq rfl ?_ rfl (inv.strong_pos hi rfl) ?_ ?_
      ⟨trivial, hhome, hafter⟩ (Or.inr fun other he => by cases he))
    · intro b
      rw [total_append, total_singleton]
      show hit none b + (_ + hit raw.buf.prov b) = hit raw.buf.prov b + _
      rw [hit_none]; omega
    · rw [List.length_append, List.length_singleton]; omega
    · intro other hmem
      rcases List.mem_append.mp hmem with hmem | hmem
      · exact inv.queues queue _ hq other hmem
      · obtain rfl := List.mem_singleton.mp hmem
        exact ⟨rfl, rfl, hraw, hpolicy⟩
  · rw [if_neg hroom]
    exact Evolves.proceeds (inv.relabel hi (.set rfl rfl rfl) (.same inv rfl rfl) rfl rfl rfl
      ⟨⟨hraw, Nat.ne_of_gt (Nat.zero_lt_of_lt hlt)⟩, hhome, hafter⟩
      (Or.inr fun other he => by cases he) inv.given)

/-- The queues of a dropped pool are empty. -/
theorem drained_dropInner {q : Nat} {entries : List (UniqueAlignedBuffer Home)}
    (hq : (dropInner cfg s).queues[q]? = some entries) : entries = [] := by
  simp only [dropInner, List.getElem?_map, Option.map_eq_some_iff] at hq
  obtain ⟨_, -, rfl⟩ := hq
  rfl

/-- **The upgraded reference is dropped**, and the pool with the last of them. -/
theorem unref_proceeds (inv : Inv p cfg s) (hi : s.slots[i]? = some (.releasing this .unref after)) :
    Proceeds p cfg s (advance p cfg s i this after .unref) := by
  obtain ⟨-, hhome, hafter⟩ := inv.slots i _ hi
  have hpos := inv.strong_pos hi rfl
  have hcount : s.strong - 1 + Slot.upgraded (.releasing this .unref after)
      = s.strong + (finishSlot this after).upgraded := by
    rw [upgraded_finishSlot]
    show s.strong - 1 + 1 = _
    omega
  simp only [advance, releaseStrong]
  by_cases hz : s.strong - 1 = 0
  · -- the last reference: the pool is dropped first, then the handle is done
    rw [if_pos hz]
    have hev := inv.dropInner (n := s.slots.length)
    have hi' : (dropInner cfg s).slots[i]? = some (.releasing this .unref after) :=
      (List.getElem?_append_left (List.getElem?_eq_some_iff.mp hi).1).trans hi
    refine Evolves.proceeds (hev.trans (hev.inv.relabel hi'
      (.finish (t := dropInner cfg { s with strong := s.strong - 1 }) rfl rfl rfl)
      ⟨hcount, fun _ q entries hq => drained_dropInner hq⟩ rfl sole_finishSlot ref_finishSlot
      (finishSlot_ok hhome hafter) (Or.inr finishSlot_ne_shared) hev.inv.given))
  · rw [if_neg hz]
    exact Evolves.proceeds (inv.relabel hi (.finish rfl rfl rfl) ⟨hcount, fun h => absurd h hz⟩ rfl
      sole_finishSlot ref_finishSlot (finishSlot_ok hhome hafter) (Or.inr finishSlot_ne_shared)
      inv.given)

/-- **Every step** of giving a block up. -/
theorem advance_proceeds (A : Allocator p.toTarget) (inv : Inv p cfg s) (i : Nat) :
    Proceeds p cfg s (step A cfg s (.advance i)) := by
  simp only [step]
  cases hi : s.slots[i]? with
  | none => exact inv.stays
  | some slot =>
      cases slot with
      | releasing this pc after =>
          cases pc with
          | fetchSub => exact fetchSub_proceeds inv hi
          | load => exact load_proceeds inv hi
          | store => exact store_proceeds inv hi
          | call raw => exact call_proceeds inv hi
          | dealloc raw => exact dealloc_proceeds inv hi
          | push queue raw => exact push_proceeds inv hi
          | reject raw => exact reject_proceeds inv hi
          | unref => exact unref_proceeds inv hi
      | _ => exact inv.stays

end

/-- **The pool is dropped** by its owner. -/
theorem dropPool_proceeds (A : Allocator p.toTarget) (inv : Inv p cfg s) :
    Proceeds p cfg s (step A cfg s .dropPool) := by
  simp only [step]
  by_cases hhandle : s.handle = false
  · rw [if_pos hhandle]; exact inv.stays
  · rw [if_neg hhandle]
    have hstrong := inv.strong
    rw [Bool.eq_true_of_not_eq_false hhandle, Bool.toNat_true] at hstrong
    simp only [releaseStrong]
    by_cases hz : s.strong - 1 = 0
    -- the owner's was the only strong reference, so the queued buffers go too
    · rw [if_pos hz]
      have hev := inv.dropInner (n := s.slots.length)
      have hups := hev.inv.strong
      refine Evolves.proceeds ⟨hev.inv.setStrong false (s.strong - 1) ?_
        (fun _ q entries hq => drained_dropInner hq), hev.views.grows, hev.views.same⟩
      have hup : (dropInner cfg s).strong = (dropInner cfg s).handle.toNat + (dropInner cfg s).upgrades :=
        hev.inv.strong
      rw [show (dropInner cfg s).strong = s.strong from rfl,
        show (dropInner cfg s).handle = s.handle from rfl,
        Bool.eq_true_of_not_eq_false hhandle, Bool.toNat_true] at hup
      rw [Bool.toNat_false]; omega
    · rw [if_neg hz]
      have hviews := (Evolves.refl (n := s.slots.length) inv).views
      refine Evolves.proceeds ⟨inv.setStrong false (s.strong - 1) ?_ (fun h => absurd h hz),
        hviews.grows, hviews.same⟩
      rw [Bool.toNat_false]; omega

/-! ## What an action has done -/

section

variable {t : State} {i : Nat} (A : Allocator p.toTarget)

theorem step_mutate {op : BufferOp} (h : step A cfg s (.mutate i op) = .ok t) :
    t = s ∨ ∃ this, s.slots[i]? = some (.unique this) ∧ mutate A s i this op = .ok t := by
  simp only [step] at h
  split at h
  case h_1 this hi => exact Or.inr ⟨this, hi, h⟩
  case h_2 => cases h; exact Or.inl rfl

/-- What a call on a unique buffer comes to. -/
theorem mutate_done {this : UniqueAlignedBuffer Home} {op : BufferOp} (h : mutate A s i this op = .ok t) :
    op.frees p this = true ∧
        t = s.setSlot i (.releasing this.buf (.call this.buf.rawBuffer) (.emptied this.len)) ∨
      op.frees p this = false ∧ ∃ heap this' e, op.apply A s.heap this = (heap, this', e) ∧
        t = { s with heap }.setSlot i (.unique this') := by
  unfold mutate at h
  cases hfrees : op.frees p this with
  | true =>
      rw [if_pos hfrees] at h
      obtain ⟨_, -, h⟩ := bind_eq_ok h
      cases h
      exact Or.inl ⟨rfl, rfl⟩
  | false =>
      rw [if_neg (by simp [hfrees])] at h
      refine Or.inr ⟨rfl, ?_⟩
      split at h
      case h_1 heap this' happ => cases h; exact ⟨heap, this', none, happ, rfl⟩
      case h_2 heap this' f happ =>
        split at h
        · cases h; exact ⟨heap, this', some f, happ, rfl⟩
        · cases h

theorem step_intoShared (h : step A cfg s (.intoShared i) = .ok t) :
    t = s ∨ ∃ this shared, s.slots[i]? = some (.unique this) ∧ this.intoShared p = .ok shared ∧
      t = (s.setSlot i .gone).addSlot (.shared shared) := by
  simp only [step] at h
  split at h
  case h_1 this hi =>
    obtain ⟨shared, hshared, h⟩ := bind_eq_ok h
    cases h
    exact Or.inr ⟨this, shared, hi, hshared, rfl⟩
  case h_2 => cases h; exact Or.inl rfl

theorem step_clone (h : step A cfg s (.clone i) = .ok t) :
    t = s ∨ ∃ this heap copy, s.slots[i]? = some (.shared this) ∧
      this.clone p s.heap = .ok (heap, copy) ∧
      t = { s with heap, allocMade := s.allocMade + this.buf.alloc.weight }.addSlot (.shared copy) := by
  simp only [step] at h
  split at h
  case h_1 this hi =>
    obtain ⟨⟨heap, copy⟩, hcopy, h⟩ := bind_eq_ok h
    cases h
    exact Or.inr ⟨this, heap, copy, hi, hcopy, rfl⟩
  case h_2 => cases h; exact Or.inl rfl

theorem step_tryUnique (h : step A cfg s (.tryUnique i) = .ok t) :
    t = s ∨ ∃ this, s.slots[i]? = some (.shared this) ∧
      ((∃ unique, this.tryUnique p s.heap = .ok (.ok unique) ∧
          t = (s.setSlot i .gone).addSlot (.unique unique)) ∨
        t = s.setSlot i (.releasing this.buf .fetchSub .dropped)) := by
  simp only [step] at h
  split at h
  case h_1 this hi =>
    unfold tryUnique at h
    split at h
    case h_1 unique hunique => cases h; exact Or.inr ⟨this, hi, Or.inl ⟨unique, hunique, rfl⟩⟩
    case h_2 => cases h; exact Or.inl rfl
    case h_3 =>
      split at h
      · cases h; exact Or.inr ⟨this, hi, Or.inr rfl⟩
      · cases h
  case h_2 => cases h; exact Or.inl rfl

/-- A read changes nothing. -/
theorem step_read (h : step A cfg s (.read i) = .ok t) : t = s := by
  simp only [step] at h
  split at h
  case h_1 | h_2 =>
    obtain ⟨_, -, h⟩ := bind_eq_ok h
    cases h; rfl
  case h_3 => cases h; rfl

theorem step_drop (h : step A cfg s (.drop i) = .ok t) :
    t = s ∨
      (∃ this, s.slots[i]? = some (.unique this) ∧
        t = s.setSlot i (.releasing this.buf .fetchSub .dropped)) ∨
      ∃ this, s.slots[i]? = some (.shared this) ∧
        t = s.setSlot i (.releasing this.buf .fetchSub .dropped) := by
  simp only [step] at h
  split at h
  case h_1 this hi => cases h; exact Or.inr (Or.inl ⟨this, hi, rfl⟩)
  case h_2 this hi => cases h; exact Or.inr (Or.inr ⟨this, hi, rfl⟩)
  case h_3 => cases h; exact Or.inl rfl

theorem step_advance (h : step A cfg s (.advance i) = .ok t) :
    (t = s ∧ ∀ this pc after, s.slots[i]? ≠ some (.releasing this pc after)) ∨
      ∃ this pc after, s.slots[i]? = some (.releasing this pc after) ∧
        advance p cfg s i this after pc = .ok t := by
  simp only [step] at h
  split at h
  case h_1 this pc after hi => exact Or.inr ⟨this, pc, after, hi, h⟩
  case h_2 hnot => cases h; exact Or.inl ⟨rfl, hnot⟩

end

/-! ## All actions, and whole runs -/

variable (A : Allocator p.toTarget)

/-- **Every action** keeps the invariant and what the shared buffers show, or aborts. -/
theorem step_proceeds (inv : Inv p cfg s) (action : Action) :
    Proceeds p cfg s (step A cfg s action) := by
  cases action with
  | new => exact (inv.addNew (show HomeOk cfg .global from trivial) _ _).proceeds
  | withCapacity capacity => exact withCapacity_proceeds A inv capacity
  | get queue => exact get_proceeds A inv queue
  | mutate i op =>
      simp only [step]
      cases hi : s.slots[i]? with
      | none => exact inv.stays
      | some slot =>
          cases slot with
          | unique this => exact mutate_proceeds A inv hi op
          | _ => exact inv.stays
  | intoShared i => exact intoShared_proceeds A inv i
  | clone i => exact clone_proceeds A inv i
  | tryUnique i =>
      simp only [step]
      cases hi : s.slots[i]? with
      | none => exact inv.stays
      | some slot =>
          cases slot with
          | shared this => exact tryUnique_proceeds inv hi
          | _ => exact inv.stays
  | read i => exact read_proceeds A inv i
  | drop i => exact drop_proceeds A inv i
  | advance i => exact advance_proceeds A inv i
  | dropPool => exact dropPool_proceeds A inv

/-- A new pool satisfies the invariant. -/
theorem Inv.init : Inv p cfg (State.init cfg) where
  slots i slot hi := by simp [State.init] at hi
  queues_length := by simp [State.init]
  queue_le q entries hq := by
    obtain rfl := (List.mem_replicate.mp (List.mem_of_getElem? hq)).2
    exact Nat.zero_le _
  queues q entries hq this hmem := by
    obtain rfl := (List.mem_replicate.mp (List.mem_of_getElem? hq)).2
    cases hmem
  own b := by
    have hq : (State.init cfg).queued b = 0 := total_eq_zero.mpr fun q entries hq => by
      obtain rfl := (List.mem_replicate.mp (List.mem_of_getElem? hq)).2
      rfl
    unfold State.soles
    rw [hq]
    rfl
  counted b blk hb := by simp [State.init, Heap.empty] at hb
  bound b := Nat.zero_le _
  strong := rfl
  drained hz := by cases hz
  given _ b := rfl

variable (cfg) in
/-- **Every run** keeps the invariant, or ends with an abort. -/
theorem run_proceeds (actions : List Action) :
    (∃ s, runFrom A cfg actions = .ok s ∧ Inv p cfg s) ∨
    ∃ f, runFrom A cfg actions = .error f ∧ f.Aborts :=
  Run.run_rule (Inv p cfg) Fault.Aborts (fun _ action inv =>
    (step_proceeds A inv action).imp_left (fun ⟨s', hs', hev⟩ => ⟨s', hs', hev.inv⟩)) actions _ Inv.init

end BufferPool

end RkyvUtils
