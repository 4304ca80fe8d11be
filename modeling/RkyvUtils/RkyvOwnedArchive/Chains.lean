import RkyvUtils.AlignedBufferPool.Safety
import RkyvUtils.RkyvOwnedArchive.OwnedArchive

/-!
# `RkyvOwnedArchive.Chains` — what `deref` yields after any chain of clones and maps

Every map is `try_map_with_buffer` of its closure in the most general form (`Step.closure`), so one lemma
about `relocate` serves the four of them: a position comes back exactly for a reference that lies inside
the buffer, and adding the start of the buffer gives the reference back. A chain carries the address of the
reference last returned next to the archive; `archives_stay_inside` says that `deref` yields this address
all along.
-/

namespace RkyvUtils

open Word Run BufferPool

namespace OwnedArchive

variable {ε C : Type} {p : Params}

/-! ## Chains -/

/-- One step of a chain. The type is the one that the closure returns a reference to. -/
inductive Step (p : Params) (ε : Type) where
  | clone
  | map (U : Portable p.toTarget) (f : Heap → Nat → Option (Heap × Nat))
  | mapWithBuffer (U : Portable p.toTarget) (f : Heap → Nat → ByteSlice → Option (Heap × Nat))
  | tryMap (U : Portable p.toTarget) (f : Heap → Nat → Option (Heap × Except ε Nat))
  | tryMapWithBuffer (U : Portable p.toTarget)
      (f : Heap → Nat → ByteSlice → Option (Heap × Except ε Nat))

/-- A closure in the most general of the four forms. -/
abbrev Closure (ε : Type) := Heap → Nat → ByteSlice → Option (Heap × Except ε Nat)

/-- A closure that never returns `Err`. -/
def infallible (f : Heap → Nat → ByteSlice → Option (Heap × Nat)) : Closure ε :=
  fun h value bytes => (f h value bytes).map fun r => (r.1, .ok r.2)

/-- The closure of a step and the type it maps to; `clone` has none. -/
def Step.closure : Step p ε → Option (Portable p.toTarget × Closure ε)
  | clone => none
  | map U f => some (U, infallible fun h value _ => f h value)
  | mapWithBuffer U f => some (U, infallible f)
  | tryMap U f => some (U, fun h value _ => f h value)
  | tryMapWithBuffer U f => some (U, f)

def Step.apply {α : Type} (this : OwnedArchive p α) (h : Heap) :
    Step p ε → Except (ArchiveStop ε) (Heap × OwnedArchive p α)
  | clone => (this.clone h).mapError .fault
  | map U f => this.map h U f
  | mapWithBuffer U f => this.mapWithBuffer h U f
  | tryMap U f => this.tryMap h U f
  | tryMapWithBuffer U f => this.tryMapWithBuffer h U f

/-- The type and the address of the reference that the closure of a step returns. -/
def Step.returned {α : Type} (this : OwnedArchive p α) (h : Heap) (step : Step p ε) :
    Option (Portable p.toTarget × Nat) := do
  let (U, f) ← step.closure
  let value ← this.deref.toOption
  match f h value (this.buffer.slice p) with
  | some (_, .ok ptrStart) => some (U, ptrStart)
  | _ => none

/-- An archive in a chain: memory, the archive, and the address of the reference it was last mapped to. -/
structure Link (p : Params) (α : Type) where
  heap : Heap
  archive : OwnedArchive p α
  address : Nat

/-- One step of a chain. After `clone` it goes on with the clone. -/
def follow {α : Type} (l : Link p α) (step : Step p ε) : Except (ArchiveStop ε) (Link p α) := do
  let (heap, archive) ← step.apply l.archive l.heap
  let address := match step.returned l.archive l.heap with
    | some (_, ptrStart) => ptrStart
    | none => l.address
  return ⟨heap, archive, address⟩

/-- The closure that passes the reference of `f` on to `g`. -/
def Closure.andThen (f g : Closure ε) : Closure ε := fun h value bytes =>
  (f h value bytes).bind fun r =>
    match r.2 with
    | .ok ptrStart => g r.1 ptrStart bytes
    | .error e => some (r.1, .error e)

/-- Mapping by the composition of the closures of two steps: by the same method where they agree. -/
def Step.andThen : Step p ε → Step p ε → Option (Step p ε)
  | map _ f, map V g => some (map V fun h value => (f h value).bind fun r => g r.1 r.2)
  | mapWithBuffer _ f, mapWithBuffer V g =>
      some (mapWithBuffer V fun h value bytes => (f h value bytes).bind fun r => g r.1 r.2 bytes)
  | tryMap _ f, tryMap V g =>
      some (tryMap V fun h value => (f h value).bind fun r =>
        match r.2 with
        | .ok ptrStart => g r.1 ptrStart
        | .error e => some (r.1, .error e))
  | step, step' =>
      match step.closure, step'.closure with
      | some (_, f), some (V, g) => some (tryMapWithBuffer V (f.andThen g))
      | _, _ => none

/-! ## One step -/

section

variable {α : Type} {this that : OwnedArchive p α} {h h' : Heap} {U V : Portable p.toTarget} {q : Nat}

/-- The reference to a `U` at address `q` lies wholly inside the buffer. -/
def Within (buffer : SharedAlignedBuffer α) (U : Portable p.toTarget) (q : Nat) : Prop :=
  buffer.buf.buf.addr ≤ q ∧ q + U.sizeOf ≤ buffer.buf.buf.addr + buffer.len p

/-- A sum of words, unless its overflow is checked. A sum that wrapped has lost at least `2 ^ bits`. -/
theorem usizeAdd_cases (t : Target) (overflow : ε) (a b : Nat) :
    t.usizeAdd overflow a b = .error overflow ∨
      ∃ c, t.usizeAdd overflow a b = .ok c ∧ (c = a + b ∨ c + 2 ^ t.bits ≤ a + b) := by
  unfold Target.usizeAdd
  by_cases hlt : a + b < 2 ^ t.bits
  · rw [if_pos hlt]
    exact Or.inr ⟨a + b, rfl, Or.inl rfl⟩
  · rw [if_neg hlt]
    cases t.debug with
    | true => exact Or.inl rfl
    | false =>
        refine Or.inr ⟨_, rfl, Or.inr ?_⟩
        unfold wrappingAdd
        rw [Nat.mod_eq_sub_mod (by omega)]
        have := Nat.mod_le (a + b - 2 ^ t.bits) (2 ^ t.bits)
        omega

theorem assertContains_cases (start stop x : Nat) :
    (start ≤ x ∧ x ≤ stop ∧ assertContains (ε := ε) start stop x = .ok ()) ∨
      assertContains (ε := ε) start stop x = .error .outside := by
  unfold assertContains
  by_cases hx : start ≤ x ∧ x ≤ stop
  · rw [if_pos hx]
    exact Or.inl ⟨hx.1, hx.2, rfl⟩
  · rw [if_neg hx]
    exact Or.inr rfl

/-- The length of a shared buffer is the value of a tagged word. -/
theorem len_lt (buffer : SharedAlignedBuffer α) : buffer.len p < p.half := by
  show buffer.buf.capOrLen.word &&& TaggedCap.valueMask p.toTarget < p.half
  rw [TaggedCap.and_valueMask]
  exact Nat.mod_lt _ p.half_pos

/-- **What becomes of a reference**: an archive when it lies inside the buffer, a panic otherwise. A sum
    that wraps passes no assertion: an end of the buffer that wrapped is in front of its start, and an end
    of the value that wrapped is too, since neither is longer than half the address space. -/
theorem relocate_cases (this : OwnedArchive p α) (U : Portable p.toTarget) (q : Nat) :
    (Within this.buffer U q ∧ this.relocate (ε := ε) U q
      = .ok ⟨this.buffer, q - this.buffer.buf.buf.addr, U⟩) ∨
    this.relocate (ε := ε) U q = .error .overflow ∨ this.relocate (ε := ε) U q = .error .outside := by
  have hlen := len_lt (p := p) this.buffer
  have hsize := U.sizeOf_lt
  have hhalf := p.half_add_half
  unfold relocate
  rcases usizeAdd_cases p.toTarget (ArchiveStop.overflow (ε := ε)) q U.sizeOf with hend | ⟨ptrEnd, hend, hptr⟩
  · rw [hend]
    exact Or.inr (Or.inl rfl)
  rw [hend, ok_bind]
  dsimp only
  rcases usizeAdd_cases p.toTarget (ArchiveStop.overflow (ε := ε)) this.buffer.buf.buf.addr
    (this.buffer.len p) with hstop | ⟨bufEnd, hstop, hbuf⟩
  · rw [hstop]
    exact Or.inr (Or.inl rfl)
  rw [hstop, ok_bind]
  rcases assertContains_cases this.buffer.buf.buf.addr bufEnd q with ⟨hle, hge, hq⟩ | hq
  case inr => rw [hq]; exact Or.inr (Or.inr rfl)
  rw [hq, ok_bind]
  rcases assertContains_cases this.buffer.buf.buf.addr bufEnd ptrEnd with ⟨hle', hge', hq'⟩ | hq'
  case inr => rw [hq']; exact Or.inr (Or.inr rfl)
  rw [hq', ok_bind]
  refine Or.inl ⟨⟨hle, ?_⟩, rfl⟩
  omega

/-- Every map is `try_map_with_buffer` of its closure. -/
theorem apply_closure {step : Step p ε} {f : Closure ε} (hstep : step.closure = some (U, f)) :
    step.apply this h = this.tryMapWithBuffer h U f := by
  have hplain (g : Heap → Nat → ByteSlice → Option (Heap × Nat)) :
      this.mapWithBuffer (ε := ε) h U g = this.tryMapWithBuffer h U (infallible g) := by
    unfold mapWithBuffer tryMapWithBuffer infallible
    cases this.deref with
    | error f => rfl
    | ok value =>
        simp only [Except.mapError, ok_bind]
        cases g h value (this.buffer.slice p) with
        | none => rfl
        | some r => rfl
  cases step with
  | clone => cases hstep
  | map U f => cases hstep; exact hplain fun h value _ => f h value
  | mapWithBuffer U f => cases hstep; exact hplain f
  | tryMap U f => cases hstep; rfl
  | tryMapWithBuffer U f => cases hstep; rfl

/-- **A map that returns** called its closure with the value and the slice, and the reference that the
    closure returned lies inside the buffer. -/
theorem tryMapWithBuffer_ok {f : Closure ε} (hmap : this.tryMapWithBuffer h U f = .ok (h', that)) :
    ∃ value ptrStart, this.deref = .ok value ∧
      f h value (this.buffer.slice p) = some (h', .ok ptrStart) ∧ Within this.buffer U ptrStart ∧
      that = ⟨this.buffer, ptrStart - this.buffer.buf.buf.addr, U⟩ ∧
      this.relocate (ε := ε) U ptrStart = .ok that := by
  unfold tryMapWithBuffer at hmap
  cases hderef : this.deref with
  | error f => rw [hderef] at hmap; cases hmap
  | ok value =>
      simp only [hderef, Except.mapError, ok_bind] at hmap
      cases hf : f h value (this.buffer.slice p) with
      | none => rw [hf] at hmap; cases hmap
      | some r =>
          obtain ⟨h₁, e | ptrStart⟩ := r
          · rw [hf] at hmap; cases hmap
          · rw [hf] at hmap
            dsimp only at hmap
            rcases relocate_cases (ε := ε) this U ptrStart with ⟨hin, hrel⟩ | hrel | hrel
            · rw [hrel] at hmap
              cases hmap
              exact ⟨value, ptrStart, rfl, hf, hin, rfl, hrel⟩
            · rw [hrel] at hmap; cases hmap
            · rw [hrel] at hmap; cases hmap

/-- What a map does with the reference that its closure returned. -/
theorem tryMapWithBuffer_eq {f : Closure ε} {value ptrStart : Nat} (hderef : this.deref = .ok value)
    (hf : f h value (this.buffer.slice p) = some (h', .ok ptrStart)) :
    this.tryMapWithBuffer h U f = (this.relocate U ptrStart).map fun mapped => (h', mapped) := by
  unfold tryMapWithBuffer
  simp only [hderef, Except.mapError, ok_bind, hf]
  rfl

theorem returned_eq {step : Step p ε} {f : Closure ε} {value ptrStart : Nat}
    (hstep : step.closure = some (U, f)) (hderef : this.deref = .ok value)
    (hf : f h value (this.buffer.slice p) = some (h', .ok ptrStart)) :
    step.returned this h = some (U, ptrStart) := by
  unfold Step.returned
  simp only [hstep, hderef, Except.toOption, Option.bind_eq_bind, Option.bind_some, hf]

/-- **A step of a chain with a closure** that returned. -/
theorem follow_closure {l l' : Link p α} {step : Step p ε} {f : Closure ε}
    (hstep : step.closure = some (U, f)) (hfollow : follow l step = .ok l') :
    ∃ value ptrStart, l.archive.deref = .ok value ∧
      f l.heap value (l.archive.buffer.slice p) = some (l'.heap, .ok ptrStart) ∧
      Within l.archive.buffer U ptrStart ∧
      l'.archive = ⟨l.archive.buffer, ptrStart - l.archive.buffer.buf.buf.addr, U⟩ ∧
      l'.address = ptrStart ∧ l.archive.relocate (ε := ε) U ptrStart = .ok l'.archive := by
  unfold follow at hfollow
  rw [apply_closure hstep] at hfollow
  cases hmap : l.archive.tryMapWithBuffer l.heap U f with
  | error stop => rw [hmap] at hfollow; cases hfollow
  | ok r =>
      obtain ⟨h', that⟩ := r
      obtain ⟨value, ptrStart, hderef, hf, hin, hthat, hrel⟩ := tryMapWithBuffer_ok hmap
      rw [hmap, ok_bind, returned_eq hstep hderef hf] at hfollow
      cases hfollow
      exact ⟨value, ptrStart, hderef, hf, hin, hthat, rfl, hrel⟩

/-- The same the other way round. -/
theorem follow_eq {l : Link p α} {that : OwnedArchive p α} {step : Step p ε} {f : Closure ε}
    {value ptrStart : Nat} (hstep : step.closure = some (U, f)) (hderef : l.archive.deref = .ok value)
    (hf : f l.heap value (l.archive.buffer.slice p) = some (h', .ok ptrStart))
    (hrel : l.archive.relocate (ε := ε) U ptrStart = .ok that) :
    follow l step = .ok ⟨h', that, ptrStart⟩ := by
  unfold follow
  rw [apply_closure hstep, tryMapWithBuffer_eq hderef hf, hrel]
  simp only [Except.map, ok_bind, returned_eq hstep hderef hf]
  rfl

/-- The clone of a shared buffer that is made as buffers are is the same pointer and length. -/
theorem clone_eq {buffer copy : SharedAlignedBuffer Home} {h₀ : Heap} {v : Nat}
    {data : List (Option UInt8)} (hgrips : Grips p h₀ buffer.buf v data)
    (hclone : buffer.clone p h = .ok (h', copy)) : copy = buffer := by
  obtain ⟨buf⟩ := buffer
  dsimp only at hgrips
  cases hgrips with
  | empty alloc =>
      rw [SharedAlignedBuffer.clone_newIn] at hclone
      cases hclone
      rfl
  | @block b blk rc v alloc hb ok hv =>
      have hlt := ok.data_lt
      unfold SharedAlignedBuffer.clone RawAlignedBuffer.refClone at hclone
      dsimp only at hclone
      rw [RawAlignedBuffer.isAllocated_onBlock _ _ _ (by omega), if_neg (by simp)] at hclone
      obtain ⟨⟨h₁, buf⟩, hclone, hcopy⟩ := bind_eq_ok hclone
      obtain ⟨⟨h₂, oldSize⟩, -, hclone⟩ := bind_eq_ok hclone
      dsimp only at hclone
      by_cases hmax : p.maxRefcount < oldSize
      · rw [if_pos hmax] at hclone
        cases hclone
      · rw [if_neg hmax] at hclone
        cases hclone
        cases hcopy
        rfl

end

/-! ## Chains -/

/-- What holds of every archive of a chain that starts from `buffer`. -/
structure Sound (buffer : SharedAlignedBuffer Home) (l : Link p Home) : Prop where
  buffer_eq : l.archive.buffer = buffer
  inside : l.archive.pos + l.archive.phantom.sizeOf ≤ l.archive.buffer.len p
  deref_eq : l.archive.deref = .ok l.address

section

variable {buffer : SharedAlignedBuffer Home} {l l' : Link p Home}

/-- Inside the buffer, a position and the address it stands for determine each other. -/
theorem Sound.of_within {U : Portable p.toTarget} {ptrStart : Nat} (hin : Within buffer U ptrStart)
    (heap : Heap) : Sound buffer ⟨heap, ⟨buffer, ptrStart - buffer.buf.buf.addr, U⟩, ptrStart⟩ := by
  obtain ⟨hstart, hend⟩ := hin
  have hinside : ptrStart - buffer.buf.buf.addr + U.sizeOf ≤ buffer.len p := by omega
  refine ⟨rfl, hinside, ?_⟩
  unfold deref
  dsimp only
  rw [if_pos hinside, Nat.add_sub_cancel' hstart]

/-- **One step of a chain** keeps what holds of its archives. -/
theorem Sound.follow {h₀ : Heap} {v : Nat} {data : List (Option UInt8)} {step : Step p ε}
    (hgrips : Grips p h₀ buffer.buf v data) (hs : Sound buffer l) (hfollow : follow l step = .ok l') :
    Sound buffer l' := by
  obtain ⟨h', that, address⟩ := l'
  cases hclosure : step.closure with
  | some c =>
      obtain ⟨U, f⟩ := c
      obtain ⟨_, ptrStart, -, -, hin, hthat, haddress, -⟩ := follow_closure hclosure hfollow
      dsimp only at hthat haddress
      rw [hs.buffer_eq] at hin hthat
      rw [hthat, haddress]
      exact .of_within hin h'
  | none =>
      cases step with
      | clone =>
          cases hclone : l.archive.buffer.clone p l.heap with
          | error f =>
              unfold OwnedArchive.follow Step.apply clone at hfollow
              rw [hclone] at hfollow
              cases hfollow
          | ok r =>
              obtain ⟨h₁, copy⟩ := r
              unfold OwnedArchive.follow Step.apply clone at hfollow
              rw [hclone] at hfollow
              cases hfollow
              obtain rfl : copy = buffer := by
                rw [hs.buffer_eq] at hclone
                exact clone_eq hgrips hclone
              refine ⟨rfl, ?_, ?_⟩
              · have := hs.inside
                rw [hs.buffer_eq] at this
                exact this
              · have := hs.deref_eq
                unfold deref at this ⊢
                rw [hs.buffer_eq] at this
                exact this
      | _ => cases hclosure

/-- A whole chain keeps it. -/
theorem Sound.run {h₀ : Heap} {v : Nat} {data : List (Option UInt8)} (steps : List (Step p ε))
    (hgrips : Grips p h₀ buffer.buf v data) (hs : Sound buffer l)
    (hrun : Run.run OwnedArchive.follow l steps = .ok l') : Sound buffer l' := by
  have hone (l : Link p Home) (step : Step p ε) (hs : Sound buffer l) :
      (∃ l₁, OwnedArchive.follow l step = .ok l₁ ∧ Sound buffer l₁) ∨
        ∃ stop, OwnedArchive.follow l step = .error stop ∧ True := by
    cases hfollow : OwnedArchive.follow l step with
    | ok l₁ => exact Or.inl ⟨l₁, rfl, hs.follow hgrips hfollow⟩
    | error stop => exact Or.inr ⟨stop, rfl, trivial⟩
  rcases run_rule (Sound buffer) (fun _ => True) hone steps l hs with ⟨l₁, hok, hs₁⟩ | ⟨stop, herr, -⟩
  · rw [hrun] at hok
    cases hok
    exact hs₁
  · rw [hrun] at herr
    cases herr

/-- **A reference outside the buffer** ends the step with a panic. -/
theorem apply_outside {step : Step p ε} {U : Portable p.toTarget} {ptrStart : Nat}
    (hreturned : step.returned l.archive l.heap = some (U, ptrStart))
    (hout : ¬Within l.archive.buffer U ptrStart) :
    step.apply l.archive l.heap = .error .overflow ∨ step.apply l.archive l.heap = .error .outside := by
  unfold Step.returned at hreturned
  simp only [Option.bind_eq_bind, Option.bind_eq_some_iff] at hreturned
  obtain ⟨⟨U', f⟩, hclosure, value, hvalue, hreturned⟩ := hreturned
  have hderef : l.archive.deref = .ok value := by
    cases hd : l.archive.deref with
    | ok value' => rw [hd] at hvalue; cases hvalue; rfl
    | error f => rw [hd] at hvalue; cases hvalue
  dsimp only at hreturned
  cases hf : f l.heap value (l.archive.buffer.slice p) with
  | none => rw [hf] at hreturned; cases hreturned
  | some r =>
      obtain ⟨h₁, e | q⟩ := r
      · rw [hf] at hreturned; cases hreturned
      · rw [hf] at hreturned
        cases hreturned
        rw [apply_closure hclosure, tryMapWithBuffer_eq hderef hf]
        rcases relocate_cases (ε := ε) l.archive U ptrStart with ⟨hin, -⟩ | hrel | hrel
        · exact absurd hin hout
        · rw [hrel]; exact Or.inl rfl
        · rw [hrel]; exact Or.inr rfl

theorem infallible_andThen (f g : Heap → Nat → ByteSlice → Option (Heap × Nat)) :
    infallible (ε := ε) (fun h value bytes => (f h value bytes).bind fun r => g r.1 r.2 bytes)
      = (infallible f).andThen (infallible g) := by
  funext h value bytes
  unfold infallible Closure.andThen
  dsimp only
  cases f h value bytes with
  | none => rfl
  | some r => rfl

/-- The closure of a composition is the composition of the closures. -/
theorem closure_andThen {step step' both : Step p ε} (hboth : step.andThen step' = some both) :
    ∃ U f V g, step.closure = some (U, f) ∧ step'.closure = some (V, g) ∧
      both.closure = some (V, f.andThen g) := by
  unfold Step.andThen at hboth
  split at hboth
  next U f V g =>
    cases hboth
    exact ⟨_, _, _, _, rfl, rfl, congrArg (fun c => some (V, c))
      (infallible_andThen (fun h value _ => f h value) fun h value _ => g h value)⟩
  next U f V g =>
    cases hboth
    exact ⟨_, _, _, _, rfl, rfl, congrArg (fun c => some (V, c)) (infallible_andThen f g)⟩
  next =>
    cases hboth
    exact ⟨_, _, _, _, rfl, rfl, rfl⟩
  next =>
    split at hboth
    next U f V g hstep hstep' =>
      cases hboth
      exact ⟨U, f, V, g, hstep, hstep', rfl⟩
    next => cases hboth

/-- **Mapping twice is mapping once** by the composition, whenever both maps return. -/
theorem follow_andThen {l₂ : Link p Home} {step step' both : Step p ε} (hs : Sound buffer l)
    (hboth : step.andThen step' = some both) (hfollow : OwnedArchive.follow l step = .ok l')
    (hfollow' : OwnedArchive.follow l' step' = .ok l₂) : OwnedArchive.follow l both = .ok l₂ := by
  obtain ⟨U, f, V, g, hclosure, hclosure', hcomp⟩ := closure_andThen hboth
  obtain ⟨value, q, hderef, hf, hin, hthat, haddress, -⟩ := follow_closure hclosure hfollow
  obtain ⟨value', q', hderef', hg, -, hthat', haddress', hrel⟩ := follow_closure hclosure' hfollow'
  -- the second closure is given what the first returned
  have hvalue : value' = q := by
    rw [hs.buffer_eq] at hin hthat
    have := (Sound.of_within hin l'.heap).deref_eq
    rw [hthat, this] at hderef'
    exact (Except.ok.inj hderef').symm
  have hbuffer : l'.archive.buffer = l.archive.buffer := by rw [hthat]
  have hboth : (f.andThen g) l.heap value (l.archive.buffer.slice p) = some (l₂.heap, .ok q') := by
    unfold Closure.andThen
    rw [hf]
    rw [hbuffer, hvalue] at hg
    exact hg
  obtain ⟨heap, that, address⟩ := l₂
  dsimp only at hthat' haddress' hboth hrel
  subst haddress'
  refine follow_eq hcomp hderef hboth ?_
  -- `relocate` goes by the buffer only
  unfold relocate at hrel ⊢
  rw [hbuffer] at hrel
  exact hrel

/-- What a checked constructor builds, when the check accepts positions of values inside the slice only. -/
theorem build_ok {access : Access p C ε} {T : Portable p.toTarget} {ctor : Constructor C}
    {this : OwnedArchive p Home}
    (haccess : ∀ (T : Portable p.toTarget) (bytes : ByteSlice) (pos : Nat) (context : C),
      (access T bytes pos context).2 = .ok () → pos + T.sizeOf ≤ bytes.len)
    (hbuild : ctor.build access buffer T = .ok this) :
    this = ⟨buffer, this.pos, T⟩ ∧ this.pos + T.sizeOf ≤ buffer.len p := by
  have hchecked {pos : Nat} {context : C}
      (hnew : (newWithPosAndContext access buffer T pos context).2 = .ok this) :
      this = ⟨buffer, this.pos, T⟩ ∧ this.pos + T.sizeOf ≤ buffer.len p := by
    have hin := haccess T (buffer.slice p) pos context
    unfold newWithPosAndContext at hnew
    generalize access T (buffer.slice p) pos context = r at hnew hin
    obtain ⟨context', e | _⟩ := r
    · cases hnew
    · cases hnew
      exact ⟨rfl, hin rfl⟩
  have hpooled {pos : Nat} {validatorPool : ByteSlice → C}
      (hnew : newWithPosAndPooledValidator access buffer T validatorPool pos = .ok this) :
      this = ⟨buffer, this.pos, T⟩ ∧ this.pos + T.sizeOf ≤ buffer.len p := by
    have hin := haccess T (buffer.slice p) pos (validatorPool (buffer.slice p))
    unfold newWithPosAndPooledValidator at hnew
    generalize access T (buffer.slice p) pos (validatorPool (buffer.slice p)) = r at hnew hin
    obtain ⟨context', e | _⟩ := r
    · cases hnew
    · cases hnew
      exact ⟨rfl, hin rfl⟩
  cases ctor with
  | new validator => exact hchecked hbuild
  | newWithPos validator pos => exact hchecked hbuild
  | newWithContext context => exact hchecked hbuild
  | newWithPosAndContext pos context => exact hchecked hbuild
  | newWithPooledValidator validatorPool => exact hpooled hbuild
  | newWithPosAndPooledValidator validatorPool pos => exact hpooled hbuild

end

/-! ## Every chain -/

section

variable (A : Allocator p.toTarget) (cfg : Config)

/-- **An archive stays inside its buffer, and `deref` yields the reference last returned.** From any
    checked constructor on any shared buffer of the system, and through any chain of clones and maps by any
    closures: the buffer is the one the archive was built from, the value lies inside it, and `deref` is the
    address that the last closure returned. A reference that does not lie inside the buffer ends the map
    with a panic, and mapping twice is mapping once by the composition. -/
theorem archives_stay_inside {access : Access p C ε}
    (haccess : ∀ (T : Portable p.toTarget) (bytes : ByteSlice) (pos : Nat) (context : C),
      (access T bytes pos context).2 = .ok () → pos + T.sizeOf ≤ bytes.len)
    {actions : List Action} {s : State} (hrun : runFrom A cfg actions = .ok s)
    {i : Nat} {buffer : SharedAlignedBuffer Home} (hi : s.slots[i]? = some (.shared buffer))
    {ctor : Constructor C} {T : Portable p.toTarget} {this : OwnedArchive p Home}
    (hbuild : ctor.build access buffer T = .ok this) (h : Heap) (steps : List (Step p ε))
    {l : Link p Home}
    (hsteps : run follow ⟨h, this, buffer.buf.buf.addr + this.pos⟩ steps = .ok l) :
    Sound buffer l ∧
      (∀ (step : Step p ε) (U : Portable p.toTarget) (ptrStart : Nat),
        step.returned l.archive l.heap = some (U, ptrStart) → ¬Within buffer U ptrStart →
          step.apply l.archive l.heap = .error .overflow ∨
            step.apply l.archive l.heap = .error .outside) ∧
      ∀ (step step' both : Step p ε) (l₁ l₂ : Link p Home), step.andThen step' = some both →
        follow l step = .ok l₁ → follow l₁ step' = .ok l₂ → follow l both = .ok l₂ := by
  rcases run_proceeds cfg A actions with ⟨s', hr, inv⟩ | ⟨f, hr, -⟩
  case inr => rw [hrun] at hr; cases hr
  rw [hrun] at hr
  cases hr
  obtain ⟨⟨xs, data, hshows⟩, -⟩ := inv.slots i _ hi
  obtain ⟨hthis, hpos⟩ := build_ok haccess hbuild
  have hstart : Sound buffer ⟨h, this, buffer.buf.buf.addr + this.pos⟩ := by
    rw [hthis]
    refine ⟨rfl, hpos, ?_⟩
    unfold deref
    dsimp only
    rw [if_pos hpos]
  have hl := hstart.run steps hshows.grips hsteps
  refine ⟨hl, ?_, ?_⟩
  · intro step U ptrStart hreturned hout
    exact apply_outside hreturned (by rw [hl.buffer_eq]; exact hout)
  · intro step step' both l₁ l₂ hboth hfollow hfollow'
    exact follow_andThen hl hboth hfollow hfollow'

/-- A type of at most 255 bytes. -/
def small (size : Nat) (hsize : size < 256) : Portable (Params.x86_64 true).toTarget :=
  ⟨size, Nat.lt_trans hsize (by decide)⟩

/-- An access that checks the bounds alone. -/
def boundsOnly : CheckedAccess (.x86_64 true) Unit Unit where
  access T bytes pos context := (context, if pos + T.sizeOf ≤ bytes.len then .ok () else .error ())
  inside T bytes pos context hok := by
    by_contra hout
    dsimp only at hok
    rw [if_neg hout] at hok
    cases hok

/-- A shared buffer of two bytes. -/
def twoBytes : List Action :=
  [.withCapacity 4, .mutate 0 (.unique (.extendFromSlice [7, 9])), .intoShared 0]

/-- An archive of the two bytes, mapped to the second, cloned, and mapped to nothing at the very end. -/
theorem archives_stay_inside_atEnd :
    ∃ l : Link (.x86_64 true) Home, l.address = 386 ∧ l.archive.pos = 2 ∧
      Sound ⟨.onBlock (.x86_64 true) ⟨128, 260, ⟨260, 128⟩, none, [], .allocated⟩ 0 2 .global⟩ l := by
  have hrun : ∃ s, runFrom (.bump (Params.x86_64 true).toTarget) ⟨0, 0, fun _ => true⟩ twoBytes = .ok s ∧
      s.slots[1]? = some (.shared
        ⟨.onBlock (.x86_64 true) ⟨128, 260, ⟨260, 128⟩, none, [], .allocated⟩ 0 2 .global⟩) :=
    ⟨_, rfl, rfl⟩
  obtain ⟨s, hrun, hi⟩ := hrun
  exact ⟨_, rfl, rfl, (archives_stay_inside _ _ boundsOnly.inside hrun hi
    (show Constructor.build boundsOnly.access _ (small 2 (by decide)) (.new fun _ => ())
      = .ok ⟨_, 0, small 2 (by decide)⟩ from rfl)
    ⟨[⟨128, 260, ⟨260, 128⟩, some ⟨1, 4⟩, [some 7, some 9, none, none], .allocated⟩], 1⟩
    [.map (small 1 (by decide)) fun h value => some (h, value + 1), .clone,
      .tryMapWithBuffer (ε := Unit) (small 0 (by decide)) fun h _ bytes =>
        some (h, .ok (bytes.addr + bytes.len))]
    (show run follow _ _ = .ok
      ⟨⟨[⟨128, 260, ⟨260, 128⟩, some ⟨2, 4⟩, [some 7, some 9, none, none], .allocated⟩], 1⟩,
        ⟨⟨.onBlock (.x86_64 true) ⟨128, 260, ⟨260, 128⟩, none, [], .allocated⟩ 0 2 .global⟩, 2,
          small 0 (by decide)⟩, 386⟩ from rfl)).1⟩

end

end OwnedArchive

end RkyvUtils
