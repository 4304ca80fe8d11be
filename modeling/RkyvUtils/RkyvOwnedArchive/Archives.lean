import RkyvUtils.AlignedBufferPool.Retention
import RkyvUtils.RkyvOwnedArchive.Chains

/-!
# `RkyvOwnedArchive.Archives` — archives in use, over the buffers of the system

An `OwnedArchive` has one handle of a shared buffer and nobody else touches it. Here the archives are a table
over a `BufferPool`: they are built, cloned, mapped and dropped while everything else goes on, in particular
the recycling of the buffers that other archives gave back. The closure of a map runs between two events, so
it can do anything the system can before it answers, and it may answer with any reference, return `Err` or
panic; the last two, and a reference outside the buffer, drop the buffer.
-/

namespace RkyvUtils

open Word Run BufferPool

variable {ε C : Type} {p : Params}

/-- The bytes of the value that `deref` refers to. -/
def OwnedArchive.view (h : Heap) (this : OwnedArchive p Home) : Except Fault (List UInt8) := do
  let addr ← this.deref
  h.read p ⟨addr, this.buffer.buf.buf.prov⟩ this.phantom.sizeOf

/-- An archive and the handle of its buffer. -/
structure Held (p : Params) where
  handle : Nat
  this : OwnedArchive p Home

inductive ArchiveEntry (p : Params) where
  | held (a : Held p)
  /-- the closure of a map runs -/
  | mapping (a : Held p)
  | gone

def ArchiveEntry.held? : ArchiveEntry p → Option (Held p)
  | .held a | .mapping a => some a
  | .gone => none

structure Archives (p : Params) where
  buffers : BufferPool.State
  archives : List (ArchiveEntry p)

namespace Archives

inductive Event (p : Params) (C ε : Type) where
  /-- a checked constructor on the shared buffer of handle `i` -/
  | build (i : Nat) (ctor : OwnedArchive.Constructor C) (T : Portable p.toTarget)
  | clone (c : Nat)
  /-- a map, up to the call of its closure -/
  | callMap (c : Nat)
  /-- the closure returns a `&U` or `Err`, or panics -/
  | returnMap (c : Nat) (U : Portable p.toTarget) (answer : Option (Except ε Nat))
  | drop (c : Nat)
  /-- anything that is done to other handles and to the pool -/
  | buffers (action : Action)

variable (A : Allocator p.toTarget) (cfg : Config) (checked : OwnedArchive.CheckedAccess p C ε)

def init : Archives p := ⟨BufferPool.State.init cfg, []⟩

/-- The archive of entry `c`. -/
def holding (s : Archives p) (c : Nat) : Option (Held p) := s.archives[c]?.bind ArchiveEntry.held?

/-- The buffer of handle `i` is an archive's. -/
def owns (s : Archives p) (i : Nat) : Bool :=
  s.archives.any fun entry => entry.held?.any fun a => a.handle = i

/-- The buffers of archives are reached through the archives only. -/
def allowed (s : Archives p) (action : Action) : Bool := action.handle.all fun i => !s.owns i

/-- The archive of entry `c` drops its buffer. -/
def giveUp (s : Archives p) (c : Nat) (a : Held p) : Except Fault (Archives p) := do
  let buffers ← BufferPool.step A cfg s.buffers (.drop a.handle)
  return ⟨buffers, s.archives.set c .gone⟩

def step (s : Archives p) : Event p C ε → Except Fault (Archives p)
  | .build i ctor T =>
      match s.buffers.slots[i]? with
      | some (.shared buffer) =>
          if s.owns i then return s
          else match ctor.build checked.access buffer T with
            | .ok this => return { s with archives := s.archives ++ [.held ⟨i, this⟩] }
            | .error _ => do
                -- the buffer was moved into the constructor
                let buffers ← BufferPool.step A cfg s.buffers (.drop i)
                return { s with buffers }
      | _ => return s
  | .clone c =>
      match s.archives[c]? with
      | some (.held a) => do
          let (_, copy) ← a.this.clone s.buffers.heap
          let buffers ← BufferPool.step A cfg s.buffers (.clone a.handle)
          return ⟨buffers, s.archives ++ [.held ⟨s.buffers.slots.length, copy⟩]⟩
      | _ => return s
  | .callMap c =>
      match s.archives[c]? with
      | some (.held a) => do
          let _ ← a.this.deref
          return { s with archives := s.archives.set c (.mapping a) }
      | _ => return s
  | .returnMap c U answer =>
      match s.archives[c]? with
      | some (.mapping a) =>
          match answer with
          | some (.ok ptrStart) =>
              match a.this.relocate (ε := ε) U ptrStart with
              | .ok mapped => return { s with archives := s.archives.set c (.held ⟨a.handle, mapped⟩) }
              | .error _ => giveUp A cfg s c a
          | _ => giveUp A cfg s c a
      | _ => return s
  | .drop c =>
      match s.archives[c]? with
      | some (.held a) => giveUp A cfg s c a
      | _ => return s
  | .buffers action =>
      if s.allowed action = true then do
        let buffers ← BufferPool.step A cfg s.buffers action
        return { s with buffers }
      else return s

def runFrom (events : List (Event p C ε)) : Except Fault (Archives p) :=
  run (step A cfg checked) (init cfg) events

/-! ## The archives of a table -/

section

variable {s t u : Archives p} {c d i : Nat} {a b : Held p} {entry : ArchiveEntry p} {buffers : BufferPool.State}

theorem holding_eq_some : s.holding c = some a ↔ ∃ entry, s.archives[c]? = some entry ∧ entry.held? = some a :=
  Option.bind_eq_some_iff

theorem lt_of_holding (h : s.holding c = some a) : c < s.archives.length := by
  obtain ⟨entry, hc, -⟩ := holding_eq_some.mp h
  exact (List.getElem?_eq_some_iff.mp hc).1

/-- One entry changes. -/
theorem holding_set (hc : c < s.archives.length) :
    (⟨buffers, s.archives.set c entry⟩ : Archives p).holding d = if d = c then entry.held? else s.holding d := by
  unfold holding
  by_cases hdc : d = c
  · subst hdc
    rw [if_pos rfl, List.getElem?_set_self hc, Option.bind_some]
  · rw [if_neg hdc, List.getElem?_set_ne (Ne.symm hdc)]

/-- One entry is added. -/
theorem holding_push :
    (⟨buffers, s.archives ++ [entry]⟩ : Archives p).holding d
      = if d = s.archives.length then entry.held? else s.holding d := by
  unfold holding
  rcases Nat.lt_trichotomy d s.archives.length with hlt | rfl | hgt
  · rw [if_neg (by omega), List.getElem?_append_left hlt]
  · rw [if_pos rfl, List.getElem?_concat_length, Option.bind_some]
  · rw [if_neg (by omega), List.getElem?_eq_none (by simp; omega), List.getElem?_eq_none (by omega)]

theorem owns_of_holding (h : s.holding c = some a) : s.owns a.handle = true := by
  obtain ⟨entry, hc, hentry⟩ := holding_eq_some.mp h
  refine List.any_eq_true.mpr ⟨entry, List.mem_of_getElem? hc, ?_⟩
  rw [hentry]
  exact decide_eq_true rfl

end

/-! ## The invariant -/

/-- The archive has its buffer in its handle, and the value lies inside. -/
structure Sits (buffers : BufferPool.State) (a : Held p) : Prop where
  slot : buffers.slots[a.handle]? = some (.shared a.this.buffer)
  inside : a.this.pos + a.this.phantom.sizeOf ≤ a.this.buffer.len p

structure Inv (cfg : Config) (s : Archives p) : Prop where
  buffers : BufferPool.Inv p cfg s.buffers
  each : ∀ (c : Nat) (a : Held p), s.holding c = some a → Sits s.buffers a
  apart : ∀ (c d : Nat) (a b : Held p), s.holding c = some a → s.holding d = some b → a.handle = b.handle → c = d

/-- What later events leave: shared buffers show the same, and an archive stays with its buffer. -/
structure Follows (cfg : Config) (s t : Archives p) : Prop where
  evolves : Evolves p cfg s.buffers.slots.length s.buffers t.buffers
  grows : s.archives.length ≤ t.archives.length
  same : ∀ (c : Nat) (b : Held p), c < s.archives.length → t.holding c = some b →
    ∃ a, s.holding c = some a ∧ a.handle = b.handle ∧ a.this.buffer = b.this.buffer

section

variable {cfg : Config} {s t u : Archives p} {c d i : Nat} {a b : Held p} {entry : ArchiveEntry p}
  {buffers : BufferPool.State}

theorem Follows.refl (inv : Inv cfg s) : Follows cfg s s :=
  ⟨.refl inv.buffers, Nat.le_refl _, fun _ b _ hb => ⟨b, hb, rfl, rfl⟩⟩

theorem Follows.trans (h : Follows cfg s t) (h' : Follows cfg t u) : Follows cfg s u where
  evolves := by
    have hgrows := h.evolves.views.grows
    exact h.evolves.trans ⟨h'.evolves.inv, h'.evolves.views.grows, fun i this hi =>
      h'.evolves.views.same i this (Nat.lt_of_lt_of_le hi hgrows)⟩
  grows := Nat.le_trans h.grows h'.grows
  same c b hc hb := by
    obtain ⟨a', ha', hhandle', hbuffer'⟩ := h'.same c b (Nat.lt_of_lt_of_le hc h.grows) hb
    obtain ⟨a, ha, hhandle, hbuffer⟩ := h.same c a' hc ha'
    exact ⟨a, ha, hhandle.trans hhandle', hbuffer.trans hbuffer'⟩

theorem Sits.kept {action : Action} {buffers' : BufferPool.State} (A : Allocator p.toTarget)
    (hstep : BufferPool.step A cfg buffers action = .ok buffers') (hsits : Sits buffers a)
    (hne : action.handle ≠ some a.handle) : Sits buffers' a where
  slot := ((step_changes A hstep).others a.handle (List.getElem?_eq_some_iff.mp hsits.slot).1 hne).trans hsits.slot
  inside := hsits.inside

/-- The buffers change under the archives. -/
theorem Inv.under (inv : Inv cfg s) (hev : Evolves p cfg s.buffers.slots.length s.buffers buffers)
    (hsits : ∀ d b, s.holding d = some b → Sits buffers b) :
    Inv cfg ⟨buffers, s.archives⟩ ∧ Follows cfg s ⟨buffers, s.archives⟩ :=
  ⟨⟨hev.inv, hsits, inv.apart⟩, hev, Nat.le_refl _, fun _ b _ hb => ⟨b, hb, rfl, rfl⟩⟩

/-- An archive changes, and keeps its buffer if it stays one. -/
theorem Inv.setEntry (inv : Inv cfg s) (hc : s.holding c = some a)
    (hev : Evolves p cfg s.buffers.slots.length s.buffers buffers)
    (hothers : ∀ d b, d ≠ c → s.holding d = some b → Sits buffers b)
    (hentry : ∀ b, entry.held? = some b → Sits buffers b ∧ a.handle = b.handle ∧ a.this.buffer = b.this.buffer) :
    Inv cfg ⟨buffers, s.archives.set c entry⟩ ∧ Follows cfg s ⟨buffers, s.archives.set c entry⟩ := by
  have hlt := lt_of_holding hc
  have hget : ∀ {d : Nat} {b : Held p}, (⟨buffers, s.archives.set c entry⟩ : Archives p).holding d = some b →
      Sits buffers b ∧ ∃ a, s.holding d = some a ∧ a.handle = b.handle ∧ a.this.buffer = b.this.buffer := by
    intro d b hd
    rw [holding_set hlt] at hd
    by_cases hdc : d = c
    · subst hdc
      rw [if_pos rfl] at hd
      obtain ⟨hsits, hsame⟩ := hentry b hd
      exact ⟨hsits, a, hc, hsame⟩
    · rw [if_neg hdc] at hd
      exact ⟨hothers d b hdc hd, b, hd, rfl, rfl⟩
  refine ⟨⟨hev.inv, fun d b hd => (hget hd).1, fun d e b b' hd he hhandle => ?_⟩, hev,
    (List.length_set).ge, fun d b _ hd => (hget hd).2⟩
  -- handles do not change, so archives that were apart still are
  obtain ⟨-, x, hx, hxb, -⟩ := hget hd
  obtain ⟨-, y, hy, hyb, -⟩ := hget he
  exact inv.apart d e x y hx hy (by rw [hxb, hyb, hhandle])

/-- A new archive, on a handle that no other has. -/
theorem Inv.pushEntry (inv : Inv cfg s) (hev : Evolves p cfg s.buffers.slots.length s.buffers buffers)
    (hothers : ∀ d b, s.holding d = some b → Sits buffers b) (hsits : Sits buffers a)
    (hfresh : ∀ d b, s.holding d = some b → b.handle ≠ a.handle) :
    Inv cfg ⟨buffers, s.archives ++ [.held a]⟩ ∧ Follows cfg s ⟨buffers, s.archives ++ [.held a]⟩ := by
  have hget : ∀ {d : Nat} {b : Held p}, (⟨buffers, s.archives ++ [.held a]⟩ : Archives p).holding d = some b →
      (d = s.archives.length ∧ b = a) ∨ d ≠ s.archives.length ∧ s.holding d = some b := by
    intro d b hd
    rw [holding_push] at hd
    by_cases hdc : d = s.archives.length
    · rw [if_pos hdc] at hd
      exact .inl ⟨hdc, (Option.some.inj hd).symm⟩
    · rw [if_neg hdc] at hd
      exact .inr ⟨hdc, hd⟩
  refine ⟨⟨hev.inv, fun d b hd => ?_, fun d e b b' hd he hhandle => ?_⟩, hev, ?_, fun d b hlt hd => ?_⟩
  · rcases hget hd with ⟨-, rfl⟩ | ⟨-, hd⟩
    · exact hsits
    · exact hothers d b hd
  · rcases hget hd with ⟨hd', hb⟩ | ⟨-, hold⟩ <;> rcases hget he with ⟨he', hb'⟩ | ⟨-, hold'⟩
    · rw [hd', he']
    · exact absurd (by rw [← hhandle, hb]) (hfresh e b' hold')
    · exact absurd (by rw [hhandle, hb']) (hfresh d b hold)
    · exact inv.apart d e b b' hold hold' hhandle
  · rw [List.length_append]
    exact Nat.le_add_right _ _
  · rcases hget hd with ⟨rfl, -⟩ | ⟨-, hd⟩
    · exact absurd hlt (Nat.lt_irrefl _)
    · exact ⟨b, hd, rfl, rfl⟩

end

/-! ## Events -/

/-- How an event ends. -/
def Proceeds (cfg : Config) (s : Archives p) (r : Except Fault (Archives p)) : Prop :=
  (∃ t, r = .ok t ∧ Inv cfg t ∧ Follows cfg s t) ∨ ∃ f, r = .error f ∧ f.Aborts

section

variable {cfg : Config} {s : Archives p} {c i : Nat} {a : Held p} (A : Allocator p.toTarget)

theorem Inv.stays (inv : Inv cfg s) : Proceeds cfg s (.ok s) := .inl ⟨s, rfl, inv, .refl inv⟩

/-- A step of the buffers on a handle that is no archive's. -/
theorem Inv.others (inv : Inv cfg s) (action : Action)
    (hne : ∀ c a, s.holding c = some a → action.handle ≠ some a.handle) :
    Proceeds cfg s (do
      let buffers ← BufferPool.step A cfg s.buffers action
      return { s with buffers }) := by
  rcases step_proceeds A inv.buffers action with ⟨buffers, hstep, hev⟩ | ⟨f, hstep, hf⟩
  · rw [hstep, ok_bind]
    exact .inl ⟨_, rfl, inv.under hev fun d b hd => (inv.each d b hd).kept A hstep (hne d b hd)⟩
  · rw [hstep]
    exact .inr ⟨f, rfl, hf⟩

/-- **An archive goes.** -/
theorem Inv.giveUp (inv : Inv cfg s) (hc : s.holding c = some a) : Proceeds cfg s (giveUp A cfg s c a) := by
  unfold Archives.giveUp
  rcases step_proceeds A inv.buffers (.drop a.handle) with ⟨buffers, hstep, hev⟩ | ⟨f, hstep, hf⟩
  · rw [hstep, ok_bind]
    refine .inl ⟨_, rfl, inv.setEntry hc hev (fun d b hdc hd => (inv.each d b hd).kept A hstep ?_) ?_⟩
    · -- no other archive is on the handle that is dropped
      intro he
      exact hdc (inv.apart d c b a hd hc (Option.some.inj he).symm)
    · intro b hb
      cases hb
  · rw [hstep]
    exact .inr ⟨f, rfl, hf⟩

/-- **The clone of an archive** has a handle of its own, and the same buffer behind it. -/
theorem Inv.clone (inv : Inv cfg s) (hc : s.holding c = some a) :
    (∃ buffers h', a.this.clone s.buffers.heap = .ok (h', a.this) ∧
      BufferPool.step A cfg s.buffers (.clone a.handle) = .ok buffers ∧
      Inv cfg ⟨buffers, s.archives ++ [.held ⟨s.buffers.slots.length, a.this⟩]⟩ ∧
      Follows cfg s ⟨buffers, s.archives ++ [.held ⟨s.buffers.slots.length, a.this⟩]⟩) ∨
    a.this.clone s.buffers.heap = .error .refcountAbort := by
  have hsits := inv.each c a hc
  obtain ⟨⟨xs, data, hshows⟩, -⟩ := inv.buffers.slots _ _ hsits.slot
  rcases hshows.clone with ⟨h', hclone, -⟩ | hclone
  case inr =>
    refine .inr ?_
    unfold OwnedArchive.clone
    rw [hclone]
    rfl
  left
  obtain ⟨buffers, hstep, hslots⟩ : ∃ buffers, BufferPool.step A cfg s.buffers (.clone a.handle) = .ok buffers ∧
      buffers.slots = s.buffers.slots ++ [.shared a.this.buffer] := by
    simp only [BufferPool.step, hsits.slot]
    rw [hclone, ok_bind]
    exact ⟨_, rfl, rfl⟩
  have hev : Evolves p cfg s.buffers.slots.length s.buffers buffers := by
    rcases BufferPool.step_proceeds A inv.buffers (.clone a.handle) with ⟨buffers', hstep', hev⟩ | ⟨f, hstep', -⟩
    · rw [hstep] at hstep'
      cases hstep'
      exact hev
    · rw [hstep] at hstep'
      cases hstep'
  have hold : ∀ d b, s.holding d = some b → b.handle < s.buffers.slots.length := fun d b hd =>
    (List.getElem?_eq_some_iff.mp (inv.each d b hd).slot).1
  refine ⟨buffers, h', ?_, hstep, inv.pushEntry hev (fun d b hd => ?_) ⟨?_, hsits.inside⟩ fun d b hd => ?_⟩
  · unfold OwnedArchive.clone
    rw [hclone]
    rfl
  · refine ⟨?_, (inv.each d b hd).inside⟩
    rw [hslots, List.getElem?_append_left (hold d b hd)]
    exact (inv.each d b hd).slot
  · rw [hslots]
    exact List.getElem?_concat_length
  · exact Nat.ne_of_lt (hold d b hd)

variable (checked : OwnedArchive.CheckedAccess p C ε)

/-- **Every event** keeps the invariant, or aborts. -/
theorem step_proceeds (inv : Inv cfg s) (event : Event p C ε) : Proceeds cfg s (step A cfg checked s event) := by
  cases event with
  | build i ctor T =>
      simp only [step]
      split
      case h_2 => exact inv.stays
      case h_1 buffer hi =>
        split
        case isTrue => exact inv.stays
        case isFalse howns =>
          have hfresh : ∀ d b, s.holding d = some b → b.handle ≠ i := by
            rintro d b hd rfl
            exact howns (owns_of_holding hd)
          -- a check that passes has found the value inside; one that fails drops the buffer
          split
          case h_1 this hbuild =>
            obtain ⟨hthis, hinside⟩ := OwnedArchive.build_ok checked.inside hbuild
            refine .inl ⟨_, rfl, inv.pushEntry (.refl inv.buffers) inv.each ⟨?_, ?_⟩ hfresh⟩
            · rw [hthis]
              exact hi
            · rw [hthis]
              exact hinside
          case h_2 =>
            exact inv.others A (.drop i) fun d b hd he => hfresh d b hd (Option.some.inj he).symm
  | clone c =>
      simp only [step]
      split
      case h_2 => exact inv.stays
      case h_1 a hc =>
        have hholding : s.holding c = some a := holding_eq_some.mpr ⟨_, hc, rfl⟩
        rcases inv.clone A hholding with ⟨buffers, h', hclone, hstep, hinv, hfollows⟩ | hclone
        · rw [hclone, ok_bind]
          dsimp only
          rw [hstep, ok_bind]
          exact .inl ⟨_, rfl, hinv, hfollows⟩
        · rw [hclone]
          exact .inr ⟨_, rfl, .inr rfl⟩
  | callMap c =>
      simp only [step]
      split
      case h_2 => exact inv.stays
      case h_1 a hc =>
        have hholding : s.holding c = some a := holding_eq_some.mpr ⟨_, hc, rfl⟩
        have hsits := inv.each c a hholding
        -- `deref` before the closure runs, which sees the value inside the buffer
        have hderef : a.this.deref = .ok (a.this.buffer.buf.buf.addr + a.this.pos) := if_pos hsits.inside
        rw [hderef, ok_bind]
        refine .inl ⟨_, rfl, inv.setEntry hholding (.refl inv.buffers) (fun d b _ hd => inv.each d b hd) ?_⟩
        intro b hb
        cases hb
        exact ⟨hsits, rfl, rfl⟩
  | returnMap c U answer =>
      simp only [step]
      split
      case h_2 => exact inv.stays
      case h_1 a hc =>
        have hholding : s.holding c = some a := holding_eq_some.mpr ⟨_, hc, rfl⟩
        split
        case h_2 => exact inv.giveUp A hholding
        case h_1 ptrStart =>
          have hsits := inv.each c a hholding
          rcases OwnedArchive.relocate_cases (ε := ε) a.this U ptrStart with ⟨⟨hstart, hend⟩, hrel⟩ | hrel | hrel
          · rw [hrel]
            refine .inl ⟨_, rfl, inv.setEntry hholding (.refl inv.buffers) (fun d b _ hd => inv.each d b hd) ?_⟩
            intro b hb
            cases hb
            refine ⟨⟨hsits.slot, ?_⟩, rfl, rfl⟩
            -- the two assertions, less the start of the buffer
            dsimp only
            omega
          · rw [hrel]
            exact inv.giveUp A hholding
          · rw [hrel]
            exact inv.giveUp A hholding
  | drop c =>
      simp only [step]
      split
      case h_2 => exact inv.stays
      case h_1 a hc => exact inv.giveUp A (holding_eq_some.mpr ⟨_, hc, rfl⟩)
  | buffers action =>
      simp only [step]
      split
      case isFalse => exact inv.stays
      case isTrue hallowed =>
        -- the handles of archives are theirs alone
        refine inv.others A action fun d b hd he => ?_
        have hnot := hallowed
        rw [allowed, he, Option.all_some, owns_of_holding hd] at hnot
        cases hnot

end

/-! ## What archives show -/

/-- The buffer of the archive shows `xs`, and the value is its part of them. -/
structure ShowsBytes (h : Heap) (this : OwnedArchive p Home) (xs : List UInt8) : Prop where
  buffer : this.buffer.asSlice p h = .ok xs
  inside : this.pos + this.phantom.sizeOf ≤ xs.length
  view : this.view h = .ok ((xs.drop this.pos).take this.phantom.sizeOf)

/-- A part of what a shared buffer shows, read through a pointer into it. -/
theorem read_of_shows {h : Heap} {buffer : SharedAlignedBuffer Home} {xs : List UInt8}
    {data : List (Option UInt8)} (hs : Shows p h buffer xs data) {pos n : Nat} (hin : pos + n ≤ xs.length) :
    h.read p (buffer.buf.buf.add pos) n = .ok ((xs.drop pos).take n) := by
  obtain ⟨hg, hbytes⟩ := hs
  obtain ⟨buf⟩ := buffer
  dsimp only at hg ⊢
  have hlength : ((xs.drop pos).take n).length = n := by
    rw [List.length_take, List.length_drop]
    omega
  generalize hv : xs.length = v at hg
  cases hg with
  | empty alloc =>
      obtain rfl : n = 0 := by omega
      rfl
  | @block b blk rc v alloc hb ok hle =>
      have hdata : (blk.data.drop pos).take ((xs.drop pos).take n).length = ((xs.drop pos).take n).map some := by
        have hpart : ((blk.data.take xs.length).drop pos).take n = (blk.data.drop pos).take n := by
          rw [List.drop_take, List.take_take, Nat.min_eq_left (by omega)]
        rw [hlength, ← hpart, hbytes, ← List.map_drop, ← List.map_take]
      have hread := Heap.read_eq (p := p) hb (ok.counted rc).status hdata
      rw [hlength] at hread
      exact hread

section

variable {cfg : Config} {s t : Archives p} {c : Nat} {a b : Held p} (A : Allocator p.toTarget)
  (checked : OwnedArchive.CheckedAccess p C ε)

/-- **An archive shows** its part of what its buffer shows. -/
theorem Inv.shows (inv : Inv cfg s) (hc : s.holding c = some a) : ∃ xs, ShowsBytes s.buffers.heap a.this xs := by
  obtain ⟨hslot, hinside⟩ := inv.each c a hc
  obtain ⟨⟨xs, data, hshows⟩, -⟩ := inv.buffers.slots _ _ hslot
  obtain ⟨hslice, hlen⟩ := hshows.asSlice_eq
  have hderef : a.this.deref = .ok (a.this.buffer.buf.buf.addr + a.this.pos) := if_pos hinside
  rw [hlen] at hinside
  refine ⟨xs, hslice, hinside, ?_⟩
  unfold OwnedArchive.view
  rw [hderef, ok_bind]
  exact read_of_shows hshows hinside

/-- **What the user of an archive can rely on**, from one state on. -/
structure Keeps (cfg : Config) (s : Archives p) (c : Nat) (a : Held p) (xs : List UInt8) : Prop where
  shows : ShowsBytes s.buffers.heap a.this xs
  /-- a clone is a new archive of the same value, on a handle of its own -/
  clone : s.archives[c]? = some (.held a) → ∀ t, step A cfg checked s (.clone c) = .ok t →
    t.holding s.archives.length = some ⟨s.buffers.slots.length, a.this⟩ ∧ ShowsBytes t.buffers.heap a.this xs
  /-- the archive, mapped or not, has the same buffer, and that shows the same bytes -/
  later : ∀ events : List (Event p C ε),
    match run (step A cfg checked) s events with
    | .ok t => ∀ b, t.holding c = some b → b.this.buffer = a.this.buffer ∧ ShowsBytes t.buffers.heap b.this xs
    | .error f => f.Aborts

/-- What an archive shows after further events. -/
theorem Follows.shows (h : Follows cfg s t) (invs : Inv cfg s) (inv : Inv cfg t) (hc : s.holding c = some a)
    (hb : t.holding c = some b) {xs : List UInt8} (hshows : ShowsBytes s.buffers.heap a.this xs) :
    b.this.buffer = a.this.buffer ∧ ShowsBytes t.buffers.heap b.this xs := by
  obtain ⟨a', ha', hhandle, hbuffer⟩ := h.same c b (lt_of_holding hc) hb
  rw [hc] at ha'
  cases ha'
  have hlt : b.handle < s.buffers.slots.length := by
    rw [← hhandle]
    exact (List.getElem?_eq_some_iff.mp (invs.each c a hc).slot).1
  -- a buffer that is shared before and after shows the same
  have hsame := (h.evolves.views.same b.handle b.this.buffer hlt (inv.each c b hb).slot).2
  obtain ⟨ys, hys⟩ := inv.shows hb
  have heq : (.ok ys : Except Fault (List UInt8)) = .ok xs := by
    rw [← hys.buffer, hsame, ← hbuffer, hshows.buffer]
  cases heq
  exact ⟨hbuffer.symm, hys⟩

end

end Archives

end RkyvUtils
