import RkyvUtils.AlignedBufferPool.Invariant

/-!
# `AlignedBufferPool.Moves` — the ways a stake can move, and that each keeps the invariant

A step of the system moves at most one stake: it changes hands, turns from sole ownership into a counted
reference or back, passes through an operation on its block, or goes in or out of a queue. Here is one
lemma for each way. All say `Evolves`: the invariant holds again, and whatever shared buffer there was
among the first `n` handles is still there with the same bytes, or gone.
-/

namespace RkyvUtils

open Word Ownership SlotTable

namespace BufferPool

open UniqueAlignedBuffer RawAlignedBuffer

variable {p : Params} {cfg : Config} {s s' s'' : State}

/-! ## What the invariant excludes -/

section

variable {i j : Nat} {slot slot' : Slot} {b : BlockId}

theorem alive_le_one (h : Heap) (b : BlockId) : h.alive b ≤ 1 := mark_le_one _ _

/-- A handle's stake counts. -/
theorem sole_pos (hi : s.slots[i]? = some slot) (hb : slot.sole = some b) : 0 < s.soles b := by
  have := le_total (f := fun slot => hit slot.sole b) hi
  simp only [hb, hit_self] at this
  unfold State.soles
  omega

theorem ref_pos (hi : s.slots[i]? = some slot) (hb : slot.ref = some b) : 0 < s.refs b := by
  have := le_total (f := fun slot => hit slot.ref b) hi
  simp only [hb, hit_self] at this
  exact this

theorem queued_pos {q : Nat} {entries : List (UniqueAlignedBuffer Home)}
    {this : UniqueAlignedBuffer Home} (hq : s.queues[q]? = some entries) (hmem : this ∈ entries)
    (hb : this.buf.buf.prov = some b) : 0 < s.queued b := by
  obtain ⟨k, hk⟩ := List.mem_iff_getElem?.mp hmem
  have h₁ := le_total (f := fun this : UniqueAlignedBuffer Home => hit this.buf.buf.prov b) hk
  have h₂ := le_total
    (f := total (fun this : UniqueAlignedBuffer Home => hit this.buf.buf.prov b)) hq
  simp only [hb, hit_self] at h₁
  unfold State.queued
  omega

variable (inv : Inv p cfg s)
include inv

/-- A block somebody has a stake in is in the heap. -/
theorem Inv.lt_of_stake (hpos : 0 < s.soles b + s.refs b) : b < s.heap.blocks.length := by
  have := inv.own b
  exact lt_of_mark_pos (P := Block.Live) (show 0 < s.heap.alive b by omega)

/-- A sole owner shares with nobody who refers to the block. -/
theorem Inv.refs_eq_zero (hpos : 0 < s.soles b) : s.refs b = 0 := by
  have := inv.own b
  have := alive_le_one s.heap b
  omega

theorem Inv.soles_eq_zero (hpos : 0 < s.refs b) : s.soles b = 0 := by
  have := inv.own b
  have := alive_le_one s.heap b
  omega

/-- Two handles are not sole owners of one block. -/
theorem Inv.sole_ne (hij : j ≠ i) (hi : s.slots[i]? = some slot) (hj : s.slots[j]? = some slot')
    (hb : slot'.sole = some b) : slot.sole ≠ some b := by
  intro hb'
  have h := add_le_total (f := fun slot => hit slot.sole b) hij hj hi
  simp only [hb, hb', hit_self] at h
  have hown := inv.own b
  have := alive_le_one s.heap b
  unfold State.soles at hown
  omega

/-- A queued buffer is not on the block of a sole owner. -/
theorem Inv.sole_ne_queued {q : Nat} {entries : List (UniqueAlignedBuffer Home)}
    {this : UniqueAlignedBuffer Home} (hi : s.slots[i]? = some slot) (hq : s.queues[q]? = some entries)
    (hmem : this ∈ entries) (hb : this.buf.buf.prov = some b) : slot.sole ≠ some b := by
  intro hb'
  have h := le_total (f := fun slot => hit slot.sole b) hi
  simp only [hb', hit_self] at h
  have := queued_pos hq hmem hb
  have hown := inv.own b
  have := alive_le_one s.heap b
  unfold State.soles at hown
  omega

/-- **Others are not touched** by an operation confined to the block of a sole owner. -/
theorem Inv.kept_of_confined {h' : Heap} {o' : Option BlockId} {live : Block → Prop}
    (hi : s.slots[i]? = some slot)
    (hconf : Confined live s.heap.blocks h'.blocks slot.sole o') (hij : j ≠ i)
    (hj : s.slots[j]? = some slot') : Kept s.heap h' slot' where
  sole b hb := hconf.frame b
    (inv.lt_of_stake (Nat.add_pos_left (sole_pos hj hb) _)) (inv.sole_ne hij hi hj hb)
  ref b hb := by
    have hpos := ref_pos hj hb
    refine Or.inl (hconf.frame b (inv.lt_of_stake (by omega)) (fun hb' => ?_))
    have := sole_pos hi hb'
    have := inv.soles_eq_zero hpos
    omega

theorem Inv.queued_kept_of_confined {h' : Heap} {o' : Option BlockId} {live : Block → Prop}
    (hi : s.slots[i]? = some slot)
    (hconf : Confined live s.heap.blocks h'.blocks slot.sole o') {q : Nat}
    {entries : List (UniqueAlignedBuffer Home)} {this : UniqueAlignedBuffer Home}
    (hq : s.queues[q]? = some entries) (hmem : this ∈ entries) (hb : this.buf.buf.prov = some b) :
    h'.blocks[b]? = s.heap.blocks[b]? := by
  have hpos := queued_pos hq hmem hb
  refine hconf.frame b (inv.lt_of_stake ?_) (inv.sole_ne_queued hi hq hmem hb)
  unfold State.soles
  omega

/-- **Others are not broken** by a change of the count of a block that is referred to. -/
theorem Inv.kept_of_count {blk : Block} {rc : Nat} (hb : s.heap.blocks[b]? = some blk)
    (hpos : 0 < s.refs b) (hj : s.slots[j]? = some slot') :
    Kept s.heap (s.heap.update b (blk.counted rc)) slot' where
  sole c hc := by
    have hne : b ≠ c := by
      intro he
      have := sole_pos hj (he ▸ hc)
      have := inv.soles_eq_zero hpos
      omega
    exact List.getElem?_set_ne hne
  ref c hc := by
    by_cases he : b = c
    · subst he
      exact Or.inr ⟨blk, rc, hb, List.getElem?_set_self (List.getElem?_eq_some_iff.mp hb).1⟩
    · exact Or.inl (List.getElem?_set_ne he)

theorem Inv.queued_kept_of_count {blk : Block} (hpos : 0 < s.refs b) {q : Nat}
    {entries : List (UniqueAlignedBuffer Home)} {this : UniqueAlignedBuffer Home} {c : BlockId}
    (hq : s.queues[q]? = some entries) (hmem : this ∈ entries) (hc : this.buf.buf.prov = some c) :
    (s.heap.update b blk).blocks[c]? = s.heap.blocks[c]? := by
  refine List.getElem?_set_ne (fun he => ?_)
  have hq' := queued_pos hq hmem (he ▸ hc)
  have := inv.soles_eq_zero hpos
  unfold State.soles at this
  omega

end

/-! ## Evolution -/

/-- A shared buffer shows its bytes. -/
theorem Shows.asSlice_eq {h : Heap} {this : SharedAlignedBuffer Home} {xs : List UInt8}
    {data : List (Option UInt8)} (hs : Shows p h this xs data) :
    this.asSlice p h = .ok xs ∧ this.len p = xs.length := by
  obtain ⟨hg, hbytes⟩ := hs
  obtain ⟨buf⟩ := this
  dsimp only at hg
  generalize hv : xs.length = v at hg
  unfold SharedAlignedBuffer.asSlice SharedAlignedBuffer.len
  dsimp only
  cases hg with
  | empty alloc =>
      obtain rfl : xs = [] := List.length_eq_zero_iff.mp hv
      rw [value_newIn]
      exact ⟨rfl, rfl⟩
  | @block b blk rc v alloc hb ok hle =>
      have := ok.data_lt
      rw [value_onBlock (by omega), ← hv]
      exact ⟨Heap.read_eq (i := 0) hb (ok.counted rc).status hbytes, rfl⟩

/-- Among the first `n` handles, what is shared was so before, and shows the same bytes. -/
structure Views (p : Params) (n : Nat) (s s' : State) : Prop where
  grows : s.slots.length ≤ s'.slots.length
  same : ∀ (i : Nat) (this : SharedAlignedBuffer Home), i < n →
    s'.slots[i]? = some (.shared this) →
      s.slots[i]? = some (.shared this) ∧ this.asSlice p s'.heap = this.asSlice p s.heap

/-- The invariant again, and the shared buffers as before. -/
structure Evolves (p : Params) (cfg : Config) (n : Nat) (s s' : State) : Prop where
  inv : Inv p cfg s'
  views : Views p n s s'

variable {n : Nat}

theorem Evolves.trans (h₁ : Evolves p cfg n s s') (h₂ : Evolves p cfg n s' s'') :
    Evolves p cfg n s s'' where
  inv := h₂.inv
  views :=
    { grows := Nat.le_trans h₁.views.grows h₂.views.grows
      same := by
        intro i this hi hs
        obtain ⟨hs', hread'⟩ := h₂.views.same i this hi hs
        obtain ⟨hs, hread⟩ := h₁.views.same i this hi hs'
        exact ⟨hs, hread'.trans hread⟩ }

theorem Evolves.refl (inv : Inv p cfg s) : Evolves p cfg n s s :=
  ⟨inv, Nat.le_refl _, fun _ _ _ h => ⟨h, rfl⟩⟩

/-- `s'` differs from `s` in the heap and slot `i`, and perhaps in the counters. -/
structure Puts (s s' : State) (i : Nat) (slot' : Slot) : Prop where
  slots : s'.slots = s.slots.set i slot'
  queues : s'.queues = s.queues
  handle : s'.handle = s.handle

variable {i : Nat} {slot slot' : Slot}

theorem Puts.refs (hp : Puts s s' i slot') (hi : s.slots[i]? = some slot) (b : BlockId) :
    s'.refs b + hit slot.ref b = s.refs b + hit slot'.ref b := by
  unfold State.refs
  rw [hp.slots]
  exact total_set hi slot'

theorem Puts.soles (hp : Puts s s' i slot') (hi : s.slots[i]? = some slot) (b : BlockId) :
    s'.soles b + hit slot.sole b = s.soles b + hit slot'.sole b := by
  have := total_set (f := fun slot => hit slot.sole b) hi slot'
  unfold State.soles State.queued
  rw [hp.slots, hp.queues]
  omega

theorem Puts.upgrades (hp : Puts s s' i slot') (hi : s.slots[i]? = some slot) :
    s'.upgrades + slot.upgraded = s.upgrades + slot'.upgraded := by
  unfold State.upgrades
  rw [hp.slots]
  exact total_set hi slot'

/-- The strong count after a change of slot `i`. -/
structure Strong (s s' : State) (slot slot' : Slot) : Prop where
  count : s'.strong + slot.upgraded = s.strong + slot'.upgraded
  drained : s'.strong = 0 → ∀ (q : Nat) (entries : List (UniqueAlignedBuffer Home)),
    s.queues[q]? = some entries → entries = []

/-- The strong count is as it was. -/
theorem Strong.same (inv : Inv p cfg s) (hstrong : s'.strong = s.strong)
    (hup : slot.upgraded = slot'.upgraded) : Strong s s' slot slot' :=
  ⟨by omega, fun hz => inv.drained (by omega)⟩

/-- **The general move**: slot `i` changes, nobody else is broken, and the books balance. -/
theorem Inv.evolve (inv : Inv p cfg s) (hi : s.slots[i]? = some slot) (hp : Puts s s' i slot')
    (hst : Strong s s' slot slot')
    (hkept : ∀ (j : Nat) (other : Slot), j ≠ i → s.slots[j]? = some other →
      Kept s.heap s'.heap other)
    (hqueued : ∀ (q : Nat) (entries : List (UniqueAlignedBuffer Home)), s.queues[q]? = some entries →
      ∀ this ∈ entries, ∀ b, this.buf.buf.prov = some b → s'.heap.blocks[b]? = s.heap.blocks[b]?)
    (hok : SlotOk p cfg s'.heap slot')
    (hview : n ≤ i ∨ (∀ this, slot' ≠ .shared this) ∨ (slot' = slot ∧ Kept s.heap s'.heap slot))
    (hown : ∀ b, s'.soles b + min 1 (s'.refs b) = s'.heap.alive b)
    (hcounted : ∀ (b : BlockId) (blk : Block), s'.heap.blocks[b]? = some blk → 0 < s'.refs b →
      blk.header = some ⟨s'.refs b, blk.data.length⟩)
    (hbound : ∀ b, s'.refs b ≤ p.half)
    (hgiven : cfg.queues = 0 → ∀ b, s'.given.count b = s'.heap.dead b) :
    Evolves p cfg n s s' where
  inv :=
    { slots := by
        intro j other hj
        rw [hp.slots] at hj
        rcases getElem?_set_cases hi hj with ⟨rfl, rfl⟩ | ⟨hji, hj⟩
        · exact hok
        · exact (inv.slots j other hj).kept (hkept j other hji hj)
      queues_length := by rw [hp.queues]; exact inv.queues_length
      queue_le := by rw [hp.queues]; exact inv.queue_le
      queues := by
        intro q entries hq this hmem
        rw [hp.queues] at hq
        exact (inv.queues q entries hq this hmem).kept (hqueued q entries hq this hmem)
      own := hown
      counted := hcounted
      bound := hbound
      strong := by
        have h₁ := inv.strong
        have h₂ := hst.count
        have h₃ := hp.upgrades hi
        rw [hp.handle]; omega
      drained := by rw [hp.queues]; exact hst.drained
      given := hgiven }
  views :=
    { grows := by rw [hp.slots, List.length_set]
      same := by
        intro j this hj hs
        -- a shared buffer that is not broken shows the bytes it did
        have hread : ∀ other : Slot, s.slots[j]? = some other → other = .shared this →
            Kept s.heap s'.heap other → this.asSlice p s'.heap = this.asSlice p s.heap := by
          intro other hother he hk
          subst he
          obtain ⟨⟨xs, data, hshows⟩, -⟩ := inv.slots j _ hother
          rw [hshows.asSlice_eq.1]
          exact (Shows.asSlice_eq ⟨hshows.grips.kept hk.ref, hshows.bytes⟩).1
        rw [hp.slots] at hs
        rcases getElem?_set_cases hi hs with ⟨rfl, he⟩ | ⟨hji, hs⟩
        · rcases hview with hle | hne | ⟨hsame, hk⟩
          · omega
          · exact absurd he.symm (hne this)
          · subst hsame
            exact ⟨he ▸ hi, hread _ hi he.symm hk⟩
        · exact ⟨hs, hread _ hs rfl (hkept j _ hji hs)⟩ }

/-! ## Moves in one slot -/

section

variable (inv : Inv p cfg s) (hi : s.slots[i]? = some slot) (hp : Puts s s' i slot')
  (hst : Strong s s' slot slot')
include inv hi hp hst

/-- **A relabelling**: the heap and the stake stay, only what the handle is about to do changes. -/
theorem Inv.relabel (hheap : s'.heap = s.heap) (hsole : slot'.sole = slot.sole)
    (href : slot'.ref = slot.ref) (hok : SlotOk p cfg s.heap slot')
    (hview : n ≤ i ∨ ∀ this, slot' ≠ .shared this)
    (hgiven : cfg.queues = 0 → ∀ b, s'.given.count b = s.heap.dead b) : Evolves p cfg n s s' := by
  have hrefs : ∀ b, s'.refs b = s.refs b := by
    intro b
    have := hp.refs hi b
    rw [href] at this; omega
  have hsoles : ∀ b, s'.soles b = s.soles b := by
    intro b
    have := hp.soles hi b
    rw [hsole] at this; omega
  refine inv.evolve hi hp hst ?kept ?queued ?ok ?view ?own ?counted ?bound ?given
  case kept =>
    intro j other _ _
    rw [hheap]
    exact .refl _ _
  case queued =>
    intro q entries _ this _ b _
    rw [hheap]
  case ok =>
    rw [hheap]
    exact hok
  case view => exact hview.imp_right Or.inl
  case own =>
    intro b
    rw [hrefs, hsoles, hheap]
    exact inv.own b
  case counted =>
    intro b blk hb hpos
    rw [hheap] at hb
    rw [hrefs] at hpos ⊢
    exact inv.counted b blk hb hpos
  case bound =>
    intro b
    rw [hrefs]
    exact inv.bound b
  case given =>
    rw [hheap]
    exact hgiven

/-- **A sole owner becomes one who refers to the block**, the only one; its count is 1. -/
theorem Inv.toRef (hheap : s'.heap = s.heap) (hsole : slot'.sole = none)
    (href₀ : slot.ref = none) (href : slot'.ref = slot.sole)
    (hone : ∀ b, slot.sole = some b → ∃ blk, s.heap.blocks[b]? = some (Block.counted blk 1))
    (hok : SlotOk p cfg s.heap slot') (hview : n ≤ i ∨ ∀ this, slot' ≠ .shared this)
    (hgiven : s'.given = s.given) : Evolves p cfg n s s' := by
  have hrefs : ∀ b, s'.refs b = s.refs b + hit slot.sole b := by
    intro b
    have := hp.refs hi b
    rw [href, href₀, hit_none] at this; omega
  have hsoles : ∀ b, s'.soles b + hit slot.sole b = s.soles b := by
    intro b
    have := hp.soles hi b
    rw [hsole, hit_none] at this; omega
  -- the block has no other owner, so the new reference is the first
  have hfirst : ∀ b, slot.sole = some b → s.refs b = 0 := fun b hb =>
    inv.refs_eq_zero (sole_pos hi hb)
  refine inv.evolve hi hp hst ?kept ?queued ?ok ?view ?own ?counted ?bound ?given
  case kept =>
    intro j other _ _
    rw [hheap]
    exact .refl _ _
  case queued =>
    intro q entries _ this _ b _
    rw [hheap]
  case ok =>
    rw [hheap]
    exact hok
  case view => exact hview.imp_right Or.inl
  case own =>
    intro b
    have h₁ := hrefs b
    have h₂ := hsoles b
    have h₃ := inv.own b
    rw [hheap]
    by_cases hb : slot.sole = some b
    · have := hfirst b hb
      rw [hb, hit_self] at h₁ h₂
      omega
    · have hz : hit slot.sole b = 0 := if_neg hb
      rw [hz] at h₁ h₂
      omega
  case counted =>
    intro b blk hb hpos
    rw [hheap] at hb
    rw [hrefs] at hpos ⊢
    by_cases hsb : slot.sole = some b
    · obtain ⟨blk', hb'⟩ := hone b hsb
      rw [hb] at hb'
      cases hb'
      rw [hfirst b hsb, hsb, hit_self]
      rfl
    · have hz : hit slot.sole b = 0 := if_neg hsb
      rw [hz, Nat.add_zero] at hpos ⊢
      exact inv.counted b blk hb hpos
  case bound =>
    intro b
    rw [hrefs]
    by_cases hsb : slot.sole = some b
    · have := p.le_half
      rw [hfirst b hsb, hsb, hit_self]; omega
    · have hz : hit slot.sole b = 0 := if_neg hsb
      rw [hz]; exact inv.bound b
  case given =>
    rw [hheap, hgiven]
    exact inv.given

/-- **The only one who refers to a block becomes its sole owner.** -/
theorem Inv.toSole (hheap : s'.heap = s.heap) (hsole₀ : slot.sole = none) (hsole : slot'.sole = slot.ref)
    (href : slot'.ref = none) (hone : ∀ b, slot.ref = some b → s.refs b = 1)
    (hok : SlotOk p cfg s.heap slot') (hview : n ≤ i ∨ ∀ this, slot' ≠ .shared this)
    (hgiven : s'.given = s.given) : Evolves p cfg n s s' := by
  have hrefs : ∀ b, s'.refs b + hit slot.ref b = s.refs b := by
    intro b
    have := hp.refs hi b
    rw [href, hit_none] at this; omega
  have hsoles : ∀ b, s'.soles b = s.soles b + hit slot.ref b := by
    intro b
    have := hp.soles hi b
    rw [hsole, hsole₀, hit_none] at this; omega
  -- a block that somebody still refers to is not the one that changes hands
  have hstay : ∀ b, 0 < s'.refs b → hit slot.ref b = 0 := by
    intro b hpos
    refine if_neg (fun hb => ?_)
    have h₁ := hrefs b
    have h₂ := hone b hb
    rw [hb, hit_self] at h₁
    omega
  refine inv.evolve hi hp hst ?kept ?queued ?ok ?view ?own ?counted ?bound ?given
  case kept =>
    intro j other _ _
    rw [hheap]
    exact .refl _ _
  case queued =>
    intro q entries _ this _ b _
    rw [hheap]
  case ok =>
    rw [hheap]
    exact hok
  case view => exact hview.imp_right Or.inl
  case own =>
    intro b
    have h₁ := hrefs b
    have h₂ := hsoles b
    have h₃ := inv.own b
    rw [hheap]
    by_cases hb : slot.ref = some b
    · have := hone b hb
      rw [hb, hit_self] at h₁ h₂
      omega
    · have hz : hit slot.ref b = 0 := if_neg hb
      rw [hz] at h₁ h₂
      omega
  case counted =>
    intro b blk hb hpos
    have h₁ := hrefs b
    rw [hstay b hpos, Nat.add_zero] at h₁
    rw [hheap] at hb
    rw [h₁] at hpos ⊢
    exact inv.counted b blk hb hpos
  case bound =>
    intro b
    have h₁ := hrefs b
    have h₂ := inv.bound b
    omega
  case given =>
    rw [hheap, hgiven]
    exact inv.given

/-- **An operation on its own block** by a sole owner, which may end up with another block or none. -/
theorem Inv.exclusive {o' : Option BlockId} {live : Block → Prop}
    (hconf : Confined live s.heap.blocks s'.heap.blocks slot.sole o')
    (hlive : ∀ blk, Block.Live blk → live blk)
    (hsole : slot'.sole = o') (href₀ : slot.ref = none) (href : slot'.ref = none)
    (halive : ∀ b, slot.sole = some b → s.heap.alive b = 1)
    (halive' : ∀ b, o' = some b → s'.heap.alive b = 1)
    (hok : SlotOk p cfg s'.heap slot') (hview : ∀ this, slot' ≠ .shared this)
    (hgiven : cfg.queues = 0 → ∀ b, s'.given.count b = s'.heap.dead b) : Evolves p cfg n s s' := by
  have hrefs : ∀ b, s'.refs b = s.refs b := by
    intro b
    have := hp.refs hi b
    rw [href, href₀] at this; omega
  refine inv.evolve hi hp hst ?kept ?queued hok (Or.inr (Or.inl hview)) ?own ?counted ?bound hgiven
  case kept =>
    intro j other hji hj
    exact inv.kept_of_confined hi hconf hji hj
  case queued =>
    intro q entries hq this hmem b hb
    exact inv.queued_kept_of_confined hi hconf hq hmem hb
  case own =>
    intro b
    have h₁ := hp.soles hi b
    have h₂ : s'.heap.alive b + hit slot.sole b = s.heap.alive b + hit o' b :=
      hconf.balance hlive halive halive' b
    have h₃ := inv.own b
    rw [hsole] at h₁
    rw [hrefs]
    -- a sole owner shares with nobody, so the block it gives up has no reference
    by_cases hb : slot.sole = some b
    · have := inv.refs_eq_zero (sole_pos hi hb)
      omega
    · have hz : hit slot.sole b = 0 := if_neg hb
      by_cases hb' : o' = some b
      · have := halive' b hb'
        rw [hb', hit_self] at h₁ h₂
        omega
      · have hz' : hit o' b = 0 := if_neg hb'
        omega
  case counted =>
    intro b blk hb hpos
    rw [hrefs] at hpos ⊢
    have hlt := inv.lt_of_stake (show 0 < s.soles b + s.refs b by omega)
    have hne : slot.sole ≠ some b := by
      intro he
      have := inv.refs_eq_zero (sole_pos hi he)
      omega
    rw [hconf.frame b hlt hne] at hb
    exact inv.counted b blk hb hpos
  case bound =>
    intro b
    rw [hrefs]
    exact inv.bound b

end

/-! ## Counting -/

/-- A block's count is no part of its status. -/
theorem mark_update_counted {P : Block → Prop} [DecidablePred P]
    (hP : ∀ (blk : Block) (rc : Nat), P (blk.counted rc) ↔ P blk) {h : Heap} {b : BlockId} {blk : Block}
    (hb : h.blocks[b]? = some blk) (rc : Nat) (c : BlockId) :
    mark P (h.update b (blk.counted rc)).blocks c = mark P h.blocks c := by
  by_cases he : b = c
  · subst he
    have hget : (h.update b (blk.counted rc)).blocks[b]? = some (blk.counted rc) :=
      List.getElem?_set_self (List.getElem?_eq_some_iff.mp hb).1
    rw [mark_of_some hget, mark_of_some hb]
    by_cases hp : P blk
    · rw [if_pos hp, if_pos ((hP blk rc).mpr hp)]
    · rw [if_neg hp, if_neg (fun hq => hp ((hP blk rc).mp hq))]
  · exact mark_congr (List.getElem?_set_ne he)

theorem alive_counted {h : Heap} {b : BlockId} {blk : Block} (hb : h.blocks[b]? = some blk) (rc : Nat)
    (c : BlockId) : (h.update b (blk.counted rc)).alive c = h.alive c :=
  mark_update_counted (P := Block.Live) (fun _ _ => Iff.rfl) hb rc c

theorem dead_counted {h : Heap} {b : BlockId} {blk : Block} (hb : h.blocks[b]? = some blk) (rc : Nat)
    (c : BlockId) : (h.update b (blk.counted rc)).dead c = h.dead c :=
  mark_update_counted (P := Block.Dead) (fun _ _ => Iff.rfl) hb rc c

section

variable {b : BlockId} {blk : Block} (inv : Inv p cfg s) (hi : s.slots[i]? = some slot)
  (hp : Puts s s' i slot') (hst : Strong s s' slot slot') (hb : s.heap.blocks[b]? = some blk)
  (hpos : 0 < s.refs b)
include inv hi hp hst hb hpos

/-- **A change of the count of block `b`** along with the stake of slot `i` in it: `rc` is the number of
    references there are then. -/
theorem Inv.recount {rc : Nat} (hheap : s'.heap = s.heap.update b (blk.counted rc))
    (hrc : s'.refs b = rc) (hbound : rc ≤ p.half)
    (hown : s'.soles b + min 1 rc = 1) (hother : ∀ c, c ≠ b → s'.refs c = s.refs c ∧
      s'.soles c = s.soles c) (hok : SlotOk p cfg s'.heap slot')
    (hview : n ≤ i ∨ ∀ this, slot' ≠ .shared this) (hgiven : s'.given = s.given) :
    Evolves p cfg n s s' := by
  have hpair : ∀ c, s'.heap.alive c = s.heap.alive c := by
    intro c
    rw [hheap]; exact alive_counted hb rc c
  refine inv.evolve hi hp hst ?kept ?queued hok (hview.imp_right Or.inl) ?own ?counted ?bound ?given
  case kept =>
    intro j other _ hj
    rw [hheap]
    exact inv.kept_of_count hb hpos hj
  case queued =>
    intro q entries hq this hmem c hc
    rw [hheap]
    exact inv.queued_kept_of_count hpos hq hmem hc
  case own =>
    intro c
    rw [hpair]
    by_cases he : c = b
    · subst he
      have h₁ := inv.own c
      have h₂ := inv.soles_eq_zero hpos
      rw [hrc]; omega
    · rw [(hother c he).1, (hother c he).2]; exact inv.own c
  case counted =>
    intro c blk' hc hpos'
    rw [hheap] at hc
    by_cases he : c = b
    · subst he
      rw [Heap.blocks_update, List.getElem?_set_self (List.getElem?_eq_some_iff.mp hb).1] at hc
      cases hc
      rw [hrc]
      rfl
    · rw [Heap.blocks_update, List.getElem?_set_ne (Ne.symm he)] at hc
      rw [(hother c he).1] at hpos' ⊢
      exact inv.counted c blk' hc hpos'
  case bound =>
    intro c
    by_cases he : c = b
    · rw [he, hrc]; exact hbound
    · rw [(hother c he).1]; exact inv.bound c
  case given =>
    intro hz c
    rw [hgiven, hheap, dead_counted hb]
    exact inv.given hz c

/-- **`fetch_add`**: a fresh handle refers to the block too. -/
theorem Inv.countUp (hheap : s'.heap = s.heap.update b (blk.counted (s.refs b + 1)))
    (hnone : slot.sole = none ∧ slot.ref = none) (hsole : slot'.sole = none) (href : slot'.ref = some b)
    (hbound : s.refs b < p.half) (hok : SlotOk p cfg s'.heap slot') (hview : n ≤ i)
    (hgiven : s'.given = s.given) : Evolves p cfg n s s' := by
  have hrefs := hp.refs hi
  have hsoles := hp.soles hi
  simp only [hnone.1, hnone.2, hsole, href, hit_none, Nat.add_zero] at hrefs hsoles
  refine inv.recount hi hp hst hb hpos hheap ?_ hbound ?_ ?_ hok (Or.inl hview) hgiven
  · rw [hrefs, hit_self]
  · rw [hsoles, inv.soles_eq_zero hpos]; omega
  · intro c hc
    rw [hrefs, hsoles, hit_ne (Ne.symm hc)]
    exact ⟨rfl, rfl⟩

/-- **`fetch_sub`**: the handle refers to the block no more, and is its sole owner if it was the last. -/
theorem Inv.countDown (hheap : s'.heap = s.heap.update b (blk.counted (s.refs b - 1)))
    (hsole₀ : slot.sole = none) (href₀ : slot.ref = some b)
    (hsole : slot'.sole = if s.refs b = 1 then some b else none) (href : slot'.ref = none)
    (hok : SlotOk p cfg s'.heap slot') (hview : ∀ this, slot' ≠ .shared this)
    (hgiven : s'.given = s.given) : Evolves p cfg n s s' := by
  have hrefs := hp.refs hi
  have hsoles := hp.soles hi
  simp only [hsole₀, href₀, href, hit_none, Nat.add_zero] at hrefs hsoles
  have hz := inv.soles_eq_zero hpos
  have hbound := inv.bound b
  have hb' := hrefs b
  rw [hit_self] at hb'
  refine inv.recount hi hp hst hb hpos hheap (by omega) (by omega) ?_ ?_ hok (Or.inr hview) hgiven
  · rw [hsoles, hz, hsole]
    by_cases h1 : s.refs b = 1
    · rw [if_pos h1, hit_self]; omega
    · rw [if_neg h1, hit_none]; omega
  · intro c hc
    have hc' := hrefs c
    rw [hit_ne (Ne.symm hc), Nat.add_zero] at hc'
    refine ⟨hc', ?_⟩
    rw [hsoles, hsole]
    split
    · rw [hit_ne (Ne.symm hc)]; rfl
    · rfl

end

/-! ## Moves between slots and queues -/

/-- A fresh place in the table of handles. -/
theorem Inv.addGone (inv : Inv p cfg s) : Evolves p cfg n s (s.addSlot .gone) where
  inv :=
    { slots := by
        intro j other hj
        rcases getElem?_push_cases hj with hj | ⟨-, rfl⟩
        · exact inv.slots j other hj
        · trivial
      queues_length := inv.queues_length
      queue_le := inv.queue_le
      queues := inv.queues
      own := by
        intro b
        rw [State.refs_addSlot, State.soles_addSlot]
        exact inv.own b
      counted := by
        intro b blk hb hpos
        rw [State.refs_addSlot] at hpos ⊢
        exact inv.counted b blk hb hpos
      bound := fun b => by rw [State.refs_addSlot]; exact inv.bound b
      strong := by rw [State.upgrades_addSlot]; exact inv.strong
      drained := inv.drained
      given := inv.given }
  views :=
    { grows := by simp [State.addSlot]
      same := by
        intro j this hj hs
        rcases getElem?_push_cases hs with hs | ⟨-, he⟩
        · exact ⟨hs, rfl⟩
        · cases he }

/-- **A handle moves** to a fresh place `j`. -/
theorem Inv.move {j : Nat} (inv : Inv p cfg s) (hi : s.slots[i]? = some slot)
    (hj : s.slots[j]? = some .gone) (hij : i ≠ j) (hnj : n ≤ j) :
    Evolves p cfg n s ((s.setSlot i .gone).setSlot j slot) := by
  have hj' : (s.setSlot i .gone).slots[j]? = some .gone := (List.getElem?_set_ne hij).trans hj
  have hrefs : ∀ b, ((s.setSlot i .gone).setSlot j slot).refs b = s.refs b := by
    intro b
    have h₁ := State.refs_setSlot .gone hi b
    have h₂ := State.refs_setSlot slot hj' b
    simp only [Slot.ref, hit_none] at h₁ h₂
    omega
  have hsoles : ∀ b, ((s.setSlot i .gone).setSlot j slot).soles b = s.soles b := by
    intro b
    have h₁ := State.soles_setSlot .gone hi b
    have h₂ := State.soles_setSlot slot hj' b
    simp only [Slot.sole, hit_none] at h₁ h₂
    omega
  have hups : ((s.setSlot i .gone).setSlot j slot).upgrades = s.upgrades := by
    have h₁ := State.upgrades_setSlot .gone hi
    have h₂ := State.upgrades_setSlot slot hj'
    simp only [Slot.upgraded] at h₁ h₂
    omega
  refine ⟨⟨?slots, inv.queues_length, inv.queue_le, inv.queues, ?own, ?counted, ?bound, ?strong,
    inv.drained, inv.given⟩,
    ⟨?grows, ?same⟩⟩
  case slots =>
    intro k other hk
    rcases getElem?_set_cases hj' hk with ⟨rfl, rfl⟩ | ⟨-, hk⟩
    · exact inv.slots i other hi
    · rcases getElem?_set_cases hi hk with ⟨rfl, rfl⟩ | ⟨-, hk⟩
      · trivial
      · exact inv.slots k other hk
  case own =>
    intro b
    rw [hrefs, hsoles]
    exact inv.own b
  case counted =>
    intro b blk hb hpos
    rw [hrefs] at hpos ⊢
    exact inv.counted b blk hb hpos
  case bound =>
    intro b
    rw [hrefs]
    exact inv.bound b
  case strong =>
    rw [hups]
    exact inv.strong
  case grows => simp [State.setSlot]
  case same =>
    intro k this hk hs
    rcases getElem?_set_cases hj' hs with ⟨rfl, -⟩ | ⟨-, hs⟩
    · omega
    · rcases getElem?_set_cases hi hs with ⟨-, he⟩ | ⟨-, hs⟩
      · cases he
      · exact ⟨hs, rfl⟩

/-- A queued buffer is a unique buffer that stores nothing. -/
theorem Queued.slotOk {q : Nat} {this : UniqueAlignedBuffer Home} {h : Heap}
    (hq : Queued p cfg h q this) (hlt : q < cfg.queues) : SlotOk p cfg h (.unique this) := by
  obtain ⟨hlen, halloc, ⟨b, blk, hraw, hb, ok⟩, -⟩ := hq
  obtain ⟨⟨buf, capOrLen, alloc⟩, len⟩ := this
  dsimp only at hlen halloc
  subst hlen halloc
  cases hraw
  have hh : Holds p h ⟨(blk.counted 1).dataPtr p b,
      .pack p.toTarget (blk.counted 1).data.length true, Home.pool q⟩ (some b) (blk.counted 1).data :=
    Holds.block _ hb (ok.counted 1) rfl
  exact ⟨⟨some b, [], _, hh, rfl, rfl⟩, hlt⟩

/-- The queue side of the books when queue `q` changes. -/
theorem queued_set {q : Nat} {entries : List (UniqueAlignedBuffer Home)}
    (entries' : List (UniqueAlignedBuffer Home)) (hq : s.queues[q]? = some entries) (b : BlockId) :
    total (total (fun this : UniqueAlignedBuffer Home => hit this.buf.buf.prov b))
        (s.queues.set q entries') +
      total (fun this : UniqueAlignedBuffer Home => hit this.buf.buf.prov b) entries =
    s.queued b + total (fun this : UniqueAlignedBuffer Home => hit this.buf.buf.prov b) entries' :=
  total_set hq entries'

section

variable {q : Nat} {entries : List (UniqueAlignedBuffer Home)} {this : UniqueAlignedBuffer Home}
  (inv : Inv p cfg s) (hi : s.slots[i]? = some slot)
include inv hi

/-- **A stake goes through a queue**: slot `i` and queue `q` change, and together they have the stakes
    they had. -/
theorem Inv.requeue {entries' : List (UniqueAlignedBuffer Home)}
    (hq : s.queues[q]? = some entries) (href : slot'.ref = slot.ref)
    (hsole : ∀ b, hit slot'.sole b +
        total (fun this : UniqueAlignedBuffer Home => hit this.buf.buf.prov b) entries' =
      hit slot.sole b +
        total (fun this : UniqueAlignedBuffer Home => hit this.buf.buf.prov b) entries)
    (hup : slot'.upgraded = slot.upgraded) (hstrong : 0 < s.strong)
    (hle : entries'.length ≤ cfg.capacity) (hentries : ∀ this ∈ entries', Queued p cfg s.heap q this)
    (hok : SlotOk p cfg s.heap slot') (hview : n ≤ i ∨ ∀ this, slot' ≠ .shared this) :
    Evolves p cfg n s ({ s with queues := s.queues.set q entries' }.setSlot i slot') := by
  have hrefs : ∀ b, ({ s with queues := s.queues.set q entries' }.setSlot i slot').refs b
      = s.refs b := by
    intro b
    have h : ({ s with queues := s.queues.set q entries' }.setSlot i slot').refs b + hit slot.ref b
      = s.refs b + hit slot'.ref b := total_set hi slot'
    rw [href] at h; omega
  have hsoles : ∀ b, ({ s with queues := s.queues.set q entries' }.setSlot i slot').soles b
      = s.soles b := by
    intro b
    have h₁ := total_set (f := fun slot => hit slot.sole b) hi slot'
    have h₂ := queued_set entries' hq b
    have h₃ := hsole b
    show total (fun slot => hit slot.sole b) (s.slots.set i slot') + total _ (s.queues.set q entries')
      = total _ s.slots + s.queued b
    omega
  have hups : ({ s with queues := s.queues.set q entries' }.setSlot i slot').upgrades
      = s.upgrades := by
    have h : ({ s with queues := s.queues.set q entries' }.setSlot i slot').upgrades + slot.upgraded
      = s.upgrades + slot'.upgraded := total_set hi slot'
    omega
  refine ⟨⟨?slots, ?queues_length, ?queue_le, ?queues, ?own, ?counted, ?bound, ?strong, ?drained,
    inv.given⟩, ⟨?grows, ?same⟩⟩
  case slots =>
    intro k other hk
    rcases getElem?_set_cases hi hk with ⟨rfl, rfl⟩ | ⟨-, hk⟩
    · exact hok
    · exact inv.slots k other hk
  case queues_length =>
    simp only [State.setSlot, List.length_set]
    exact inv.queues_length
  case queue_le =>
    intro k es hk
    rcases getElem?_set_cases hq hk with ⟨rfl, rfl⟩ | ⟨-, hk⟩
    · exact hle
    · exact inv.queue_le k es hk
  case queues =>
    intro k es hk
    rcases getElem?_set_cases hq hk with ⟨rfl, rfl⟩ | ⟨-, hk⟩
    · exact hentries
    · exact inv.queues k es hk
  case own =>
    intro b
    rw [hrefs, hsoles]
    exact inv.own b
  case counted =>
    intro b blk hb hpos
    rw [hrefs] at hpos ⊢
    exact inv.counted b blk hb hpos
  case bound =>
    intro b
    rw [hrefs]
    exact inv.bound b
  case strong =>
    rw [hups]
    exact inv.strong
  case drained =>
    intro hz
    exact absurd hz (Nat.ne_of_gt hstrong)
  case grows => simp [State.setSlot]
  case same =>
    intro k other hk hs
    rcases getElem?_set_cases hi hs with ⟨rfl, he⟩ | ⟨-, hs⟩
    · rcases hview with hle | hne
      · omega
      · exact absurd he.symm (hne other)
    · exact ⟨hs, rfl⟩

end

/-! ## The drop of the pool -/

/-- The strong count and the owner's handle change, and the queues are empty if the count is 0. -/
theorem Inv.setStrong (inv : Inv p cfg s) (handle : Bool) (strong : Nat)
    (hstrong : strong = handle.toNat + s.upgrades)
    (hdrained : strong = 0 → ∀ (q : Nat) (entries : List (UniqueAlignedBuffer Home)),
      s.queues[q]? = some entries → entries = []) :
    Inv p cfg { s with handle := handle, strong := strong } :=
  ⟨inv.1, inv.2, inv.3, inv.4, inv.5, inv.6, inv.7, hstrong, hdrained, inv.10⟩

/-- **The queued buffers start to be dropped**, all of them. -/
theorem Inv.dropInner (inv : Inv p cfg s) : Evolves p cfg n s (dropInner cfg s) := by
  have hslots : (BufferPool.dropInner cfg s).slots = s.slots ++ s.queues.flatten.map
      (fun this => .releasing this.buf .fetchSub .dropped) := rfl
  have hempty : ∀ (q : Nat) (entries : List (UniqueAlignedBuffer Home)),
      (BufferPool.dropInner cfg s).queues[q]? = some entries → entries = [] := by
    intro q entries hq
    simp only [BufferPool.dropInner, List.getElem?_map, Option.map_eq_some_iff] at hq
    obtain ⟨_, -, rfl⟩ := hq
    rfl
  -- a queued buffer knows of its block what a handle must that starts to give it up
  have hentry : ∀ this ∈ s.queues.flatten, ∃ q, q < cfg.queues ∧ Queued p cfg s.heap q this :=
    fun this hmem => by
      obtain ⟨entries, hentries, hthis⟩ := List.mem_flatten.mp hmem
      obtain ⟨q, hq⟩ := List.mem_iff_getElem?.mp hentries
      refine ⟨q, ?_, inv.queues q entries hq this hthis⟩
      rw [← inv.queues_length]
      exact (List.getElem?_eq_some_iff.mp hq).1
  have hrefs : ∀ b, (BufferPool.dropInner cfg s).refs b = s.refs b + s.queued b := by
    intro b
    unfold State.refs
    rw [hslots, total_append, total_map]
    simp only [Slot.ref]
    rw [total_flatten]
    rfl
  have hsoles : ∀ b, (BufferPool.dropInner cfg s).soles b + s.queued b = s.soles b := by
    intro b
    have hq : (BufferPool.dropInner cfg s).queued b = 0 := by
      refine total_eq_zero.mpr (fun q entries hq => ?_)
      rw [hempty q entries hq]
      rfl
    unfold State.soles
    rw [hq, hslots, total_append, total_map]
    simp only [Slot.sole, hit_none]
    rw [total_eq_zero.mpr (fun _ _ _ => rfl)]
    omega
  have hups : (BufferPool.dropInner cfg s).upgrades = s.upgrades := by
    unfold State.upgrades
    rw [hslots, total_append, total_map]
    simp only [Slot.upgraded]
    rw [total_eq_zero.mpr (fun _ _ _ => rfl)]
    rfl
  refine ⟨⟨?slots, ?queues_length, ?queue_le, ?queues, ?own, ?counted, ?bound, ?strong,
    fun _ => hempty, inv.given⟩, ⟨?grows, ?same⟩⟩
  case slots =>
    intro k other hk
    rw [hslots] at hk
    rcases List.mem_append.mp (List.mem_of_getElem? hk) with hmem | hmem
    · obtain ⟨j, hj⟩ := List.mem_iff_getElem?.mp hmem
      exact inv.slots j other hj
    · obtain ⟨this, hthis, rfl⟩ := List.mem_map.mp hmem
      obtain ⟨q, hlt, hq⟩ := hentry this hthis
      obtain ⟨b, blk, hraw, hb, ok⟩ := hq.given
      have halloc := hq.alloc
      obtain ⟨⟨buf, capOrLen, alloc⟩, len⟩ := this
      cases hraw
      refine ⟨⟨_, _, .block alloc hb ok (Nat.le_refl _)⟩, ?_, fun _ he => by cases he⟩
      dsimp only at halloc
      rw [halloc]
      exact hlt
  case queues_length =>
    simp only [BufferPool.dropInner, List.length_map]
    exact inv.queues_length
  case queue_le =>
    intro q entries hq
    rw [hempty q entries hq]
    exact Nat.zero_le _
  case queues =>
    intro q entries hq this hmem
    rw [hempty q entries hq] at hmem
    cases hmem
  case own =>
    intro b
    have h₁ := hrefs b
    have h₂ := hsoles b
    have h₃ := inv.own b
    have h₄ := alive_le_one s.heap b
    show _ = s.heap.alive b
    omega
  case counted =>
    intro b blk hb hpos
    rw [hrefs] at hpos ⊢
    by_cases hz : s.queued b = 0
    · rw [hz, Nat.add_zero] at hpos ⊢
      exact inv.counted b blk hb hpos
    · -- a queued buffer is the sole owner of its block, and its count is 1
      obtain ⟨q, entries, hq, hpos'⟩ := exists_of_total_pos (Nat.pos_of_ne_zero hz)
      obtain ⟨k, this, hk, hhit⟩ := exists_of_total_pos hpos'
      obtain ⟨b', blk', hraw, hb', -⟩ := (inv.queues q entries hq this (List.mem_of_getElem? hk)).given
      have hprov := hit_pos.mp hhit
      have hbuf : this.buf.buf = blk'.dataPtr p b' := congrArg RawBuffer.buf hraw
      rw [hbuf] at hprov
      cases hprov
      rw [show s.heap.blocks[b]? = some blk from hb] at hb'
      cases hb'
      have h₁ := hsoles b
      have h₃ := inv.own b
      have h₄ := alive_le_one s.heap b
      rw [show s.refs b + s.queued b = 1 by omega]
      rfl
  case bound =>
    intro b
    have h₁ := hrefs b
    have h₂ := hsoles b
    have h₃ := inv.own b
    have h₄ := alive_le_one s.heap b
    have h₅ := inv.bound b
    have h₆ := p.le_half
    omega
  case strong =>
    rw [hups]
    exact inv.strong
  case grows =>
    rw [hslots, List.length_append]
    omega
  case same =>
    intro k this hk hs
    rw [hslots] at hs
    by_cases hlt : k < s.slots.length
    · rw [List.getElem?_append_left hlt] at hs
      exact ⟨hs, rfl⟩
    · rw [List.getElem?_append_right (by omega), List.getElem?_map, Option.map_eq_some_iff] at hs
      obtain ⟨_, -, he⟩ := hs
      cases he

end BufferPool

end RkyvUtils
