import RkyvUtils.AlignedBuffer.ArchiveRoundTrip
import RkyvUtils.AlignedBufferPool.SerializeRuns

/-!
# `AlignedBufferPool.PooledArchive` — buffers archived by `SerializerPool::serialize`

A value that has aligned buffers in it lets each of them serialize itself (`rkyv.rs`), and goes on with the
positions in any way. In the buffer that `serialize` returns each of them is archived: at a multiple of its
alignment, readable where the whole is loaded at such a multiple, whatever else the pool serializes at the
same time and whatever the value writes behind.

`align` comes from `rkyv`; it is a parameter, of which `Aligns` says what is asked.
-/

namespace RkyvUtils

open Word Placement Run

namespace SerializerPool

variable {ε α : Type} {p : Params} (align : Nat → Value ε → Value ε)

/-- `serializer.pos()`, and what follows. -/
def askPos (k : Nat → Value ε) : Value ε :=
  .ask .pos fun
    | .pos n => k n
    | _ => .done (.error .panic)

/-- `serializer.write(bytes)?`, and what follows. -/
def askWrite (bytes : List UInt8) (k : Value ε) : Value ε :=
  .ask (.write bytes) fun
    | .done => k
    | _ => .done (.error .panic)

/-- The body that both `serialize` functions of buffers have: `align`, `pos`, `write`. -/
def askSlice (alignment : Nat) (bytes : List UInt8) (k : BoxResolver → Value ε) : Value ε :=
  align alignment <|
    askPos fun pos =>
      askWrite bytes (k ⟨pos⟩)

/-- Buffers in the heap `h` that serialize themselves one after the other. -/
def askBuffers (h : Heap) : List (AlignedBuffer α) → (List BoxResolver → Value ε) → Value ε
  | [], k => k []
  | this :: rest, k =>
      match this.asSlice h with
      | .ok bytes =>
          askSlice align this.params.alignment bytes fun resolver =>
            askBuffers h rest fun resolvers => k (resolver :: resolvers)
      | .error _ => .done (.error .panic)

/-- What is asked of `align`: a value that returns behind it has padded to the next multiple. -/
def Aligns (p : Params) (align : Nat → Value ε → Value ε) : Prop :=
  ∀ (a : Nat) (k : Value ε) (t t' : Alone) (pos : Nat), a.isPowerOfTwo →
    Program.Goes (Serves p) (.error .panic) t (align a k) t' (.done (.ok pos)) →
      ∃ pad t₁, pad.length = padding t.out.length a ∧ t₁.out = t.out ++ pad ∧
        Program.Goes (Serves p) (.error .panic) t₁ k t' (.done (.ok pos))

/-! ## What a value has written stays -/

section

variable {t t' : Alone} {rest rest' : Value ε} {crash : Except (Failure ε) Nat}

/-- A serializer only appends. -/
theorem Serves.out_prefix {request : Request} {answer : Option Reply} (h : Serves p t request answer t') :
    t.out <+: t'.out := by
  cases h with
  | write bytes => exact List.prefix_append _ _
  | _ => exact List.prefix_rfl

theorem out_prefix_of_goes (h : Program.Goes (Serves p) crash t rest t' rest') : t.out <+: t'.out :=
  h.keeps (P := fun u => t.out <+: u.out)
    (fun _ _ _ _ hprefix hserves => hprefix.trans hserves.out_prefix) List.prefix_rfl

/-- A value that asked for the position and has returned was told how much is written. -/
theorem goes_askPos {k : Nat → Value ε} {pos : Nat}
    (h : Program.Goes (Serves p) (.error .panic) t (askPos k) t' (.done (.ok pos))) :
    Program.Goes (Serves p) (.error .panic) t (k t.out.length) t' (.done (.ok pos)) := by
  rcases h.head with ⟨-, he⟩ | ⟨answer, t₁, hserves, hgoes⟩
  · cases he
  · cases hserves
    exact hgoes

/-- A value that wrote and has returned wrote all the bytes. -/
theorem goes_askWrite {bytes : List UInt8} {k : Value ε} {pos : Nat}
    (h : Program.Goes (Serves p) (.error .panic) t (askWrite bytes k) t' (.done (.ok pos))) :
    ∃ t₁, t₁.out = t.out ++ bytes ∧ Program.Goes (Serves p) (.error .panic) t₁ k t' (.done (.ok pos)) := by
  rcases h.head with ⟨-, he⟩ | ⟨answer, t₁, hserves, hgoes⟩
  · cases he
  · cases hserves with
    | write bytes hmakes => exact ⟨_, rfl, hgoes⟩
    | writePanics hrefuses => cases hgoes.of_done.2

/-- **One slice**: it stands behind the padding to the next multiple of its alignment. -/
theorem goes_askSlice {align : Nat → Value ε → Value ε} (haligns : Aligns p align) {alignment : Nat}
    {bytes : List UInt8} {k : BoxResolver → Value ε} {pos : Nat} (hpow : alignment.isPowerOfTwo)
    (h : Program.Goes (Serves p) (.error .panic) t (askSlice align alignment bytes k) t' (.done (.ok pos))) :
    ∃ pad t₁, pad.length = padding t.out.length alignment ∧ t₁.out = t.out ++ pad ++ bytes ∧
      Program.Goes (Serves p) (.error .panic) t₁ (k ⟨roundUp t.out.length alignment⟩) t' (.done (.ok pos)) := by
  -- the requests of `serialize`, from the outside in
  obtain ⟨pad, t₁, hpad, hout, haligned⟩ := haligns alignment _ t t' pos hpow h
  obtain ⟨t₂, hout₂, hwritten⟩ := goes_askWrite (goes_askPos haligned)
  rw [hout, List.length_append, hpad] at hwritten
  exact ⟨pad, t₂, hpad, by rw [hout₂, hout], hwritten⟩

end

/-- **All buffers**: their bytes are placed in whatever the value has written in the end. -/
theorem goes_askBuffers {align : Nat → Value ε → Value ε} (haligns : Aligns p align) {h : Heap}
    {sources : List (AlignedBuffer α)} {contents : List (List UInt8)}
    (hcontents : sources.map (AlignedBuffer.asSlice h) = contents.map .ok) {t t' : Alone} {pos : Nat}
    {k : List BoxResolver → Value ε}
    (hgoes : Program.Goes (Serves p) (.error .panic) t (askBuffers align h sources k) t'
      (.done (.ok pos))) :
    ∃ positions, Writer.Placed t'.out t.out.length
      (List.zip (sources.map fun this => this.params.alignment) contents) positions := by
  -- over the buffers; what the value goes on with is the rest of them
  induction sources generalizing contents t k with
  | nil =>
      obtain rfl : contents = [] := by
        cases contents with
        | nil => rfl
        | cons => cases hcontents
      exact ⟨[], .nil (out_prefix_of_goes hgoes).length_le⟩
  | cons this sources ih =>
      cases contents with
      | nil => cases hcontents
      | cons b contents =>
          simp only [List.map_cons, List.cons.injEq] at hcontents
          obtain ⟨hthis, hrest⟩ := hcontents
          simp only [askBuffers, hthis] at hgoes
          obtain ⟨pad, t₁, hpad, hout, hgoes₁⟩ :=
            goes_askSlice haligns this.params.alignment_isPowerOfTwo hgoes
          obtain ⟨positions, hplaced⟩ := ih hrest hgoes₁
          have hlen : (t.out ++ pad).length = roundUp t.out.length this.params.alignment := by
            rw [List.length_append, hpad]
            rfl
          have hend : t₁.out.length = roundUp t.out.length this.params.alignment + b.length := by
            rw [hout, List.length_append, hlen]
          rw [hend] at hplaced
          refine ⟨roundUp t.out.length this.params.alignment :: positions, .cons (Nat.le_add_right _ _) ?_ ?_ hplaced⟩
          · exact dvd_roundUp _ this.params.alignment_pos
          · -- what was written so far is a prefix of what is written in the end
            obtain ⟨more, hmore⟩ := out_prefix_of_goes hgoes₁
            rw [← hmore, hout, ← hlen, List.append_assoc (_ ++ _), List.drop_left, List.take_left]

/-! ## The buffer that is returned -/

/-- The buffers `sources`, with the bytes `contents`, archived in `ys` one behind the other. -/
def AllArchived (fixedBits : Nat) (sources : List (AlignedBuffer α)) (contents : List (List UInt8))
    (ys : List UInt8) : Prop :=
  ∃ resolvers : List BoxResolver, resolvers.length = sources.length ∧
    (∀ (i : Nat) (this : AlignedBuffer α) (b : List UInt8) (resolver : BoxResolver),
      sources[i]? = some this → contents[i]? = some b → resolvers[i]? = some resolver →
        Archived fixedBits ys this b resolver) ∧
    ∀ (i j : Nat) (b : List UInt8) (resolver resolver' : BoxResolver), i < j → contents[i]? = some b →
      resolvers[i]? = some resolver → resolvers[j]? = some resolver' → resolver.pos + b.length ≤ resolver'.pos

/-- Buffers whose bytes are placed are archived. -/
theorem AllArchived.of_placed {h : Heap} {fixedBits : Nat} {sources : List (AlignedBuffer α)}
    {contents : List (List UInt8)} {ys : List UInt8} {start : Nat} {positions : List Nat}
    (hcontents : sources.map (AlignedBuffer.asSlice h) = contents.map .ok)
    (hfits : ∀ b ∈ contents, b.length < 2 ^ fixedBits)
    (hplaced : Writer.Placed ys start (List.zip (sources.map fun this => this.params.alignment) contents)
      positions) : AllArchived fixedBits sources contents ys := by
  have hlength : contents.length = sources.length := by
    have := congrArg List.length hcontents
    simpa using this.symm
  have hpositions : positions.length = sources.length := by
    have := hplaced.length_eq
    simp only [List.length_zip, List.length_map] at this
    omega
  refine ⟨positions.map BoxResolver.mk, by rw [List.length_map, hpositions], ?_, ?_⟩
  · intro i this b resolver hi hb hr
    obtain ⟨hzip, hslice⟩ := AlignedBuffer.item_eq hcontents hi hb
    obtain ⟨-, hdvd, hstored, hinside⟩ := hplaced.get hzip (BoxResolver.getElem?_pos hr)
    exact .of_placed hslice (hfits b (List.mem_of_getElem? hb)) hdvd hinside hstored
  · intro i j b resolver resolver' hij hb hr hr'
    have hj : j < sources.length := by
      have := (List.getElem?_eq_some_iff.mp hr').1
      rw [List.length_map, hpositions] at this
      exact this
    obtain ⟨hzip, -⟩ :=
      AlignedBuffer.item_eq hcontents (List.getElem?_eq_getElem (show i < sources.length by omega)) hb
    obtain ⟨hzip', -⟩ := AlignedBuffer.item_eq hcontents (List.getElem?_eq_getElem hj)
      (List.getElem?_eq_getElem (show j < contents.length by omega))
    exact hplaced.ordered hij hzip hzip' (BoxResolver.getElem?_pos hr) (BoxResolver.getElem?_pos hr')

/-- **Archives through the pool.** A value serializes the buffers `sources` and whatever else it likes behind
    them. Once its call has returned, in any interleaving with other calls and other uses of the pool, each
    source is archived in the bytes that the returned buffer shows, for as long as that is shared. -/
theorem buffers_archived (A : Allocator p.toTarget) (capacity : Nat) (policy : Nat → Bool)
    {align : Nat → Value ε → Value ε} (haligns : Aligns p align) (h : Heap) (fixedBits : Nat)
    {sources : List (AlignedBuffer α)} {contents : List (List UInt8)} (k : List BoxResolver → Value ε)
    (hcontents : sources.map (AlignedBuffer.asSlice h) = contents.map .ok)
    (hfits : ∀ b ∈ contents, b.length < 2 ^ fixedBits) (moves : List (Move ε)) :
    match Callers.runFrom A capacity policy moves with
    | .ok s => ∀ (c pos buffer : Nat) (call : Serialization ε) (this : SharedAlignedBuffer Home),
        s.calls[c]? = some call → call.value = askBuffers align h sources k →
        call.progress = .returned pos buffer → s.pool.buffers.slots[buffer]? = some (.shared this) →
          ∃ ys, this.asSlice p s.pool.buffers.heap = .ok ys ∧ AllArchived fixedBits sources contents ys
    | .error f => f.Aborts := by
  rcases Callers.run_follows A capacity policy moves with ⟨s, vs, hs, inv⟩ | ⟨f, hf, habort⟩
  · rw [hs]
    intro c pos buffer call this hc hvalue hprogress hbuffer
    obtain ⟨t, halone⟩ := (inv.follows c call hc).goesAlone inv.reads
    rw [hprogress, hvalue] at halone
    obtain ⟨hruns, hshows⟩ := halone
    obtain ⟨positions, hplaced⟩ := goes_askBuffers haligns hcontents hruns
    exact ⟨t.out, (hshows this hbuffer).1, .of_placed hcontents hfits hplaced⟩
  · rw [hf]
    exact habort

/-! ## Padding with zeros -/

/-- Padding with zeros, of which there are never 32 to pad with. -/
def padZeroes (a : Nat) (k : Value ε) : Value ε :=
  askPos fun n =>
    if padding n a < 32 then
      askWrite (List.replicate (padding n a) 0) <|
        askPos fun _ => k
    else .done (.error .panic)

theorem aligns_padZeroes : Aligns p (padZeroes : Nat → Value ε → Value ε) := by
  intro a k t t' pos _ h
  have hasked := goes_askPos h
  by_cases hlt : padding t.out.length a < 32
  · rw [if_pos hlt] at hasked
    obtain ⟨t₁, hout, hwritten⟩ := goes_askWrite hasked
    exact ⟨_, t₁, List.length_replicate, hout, goes_askPos hwritten⟩
  · rw [if_neg hlt] at hasked
    cases hasked.of_done.2

/-- Forty bytes and none are serialized, with 24 bytes of padding between them, while another value writes a
    byte. -/
def inTurns : List (Move Unit) :=
  [.serialize (askBuffers padZeroes fortyAndNone.1 fortyAndNone.2 fun _ => .done (.ok 0)),
    .serialize (askWrite [5] (.done (.ok 0))),
    .next 0, .next 0, .next 0, .next 1, .next 0, .next 0, .next 0, .next 1, .next 0, .next 0, .next 0, .next 0,
    .next 0]

/-- The buffer that the first call returns. -/
theorem buffers_archived_inTurns :
    ∃ s this ys, Callers.runFrom (.bump (Params.x86_64 true).toTarget) 1 (fun _ => true) inTurns = .ok s ∧
      s.pool.buffers.slots[5]? = some (.shared this) ∧
      this.asSlice (.x86_64 true) s.pool.buffers.heap = .ok ys ∧
      AllArchived 32 fortyAndNone.2 [List.replicate 40 9, []] ys := by
  obtain ⟨s, call, this, hrun, hcall, hvalue, hprogress, hbuffer⟩ : ∃ s call this,
      Callers.runFrom (.bump (Params.x86_64 true).toTarget) 1 (fun _ => true) inTurns = .ok s ∧
      s.calls[0]? = some call ∧
      call.value = askBuffers padZeroes fortyAndNone.1 fortyAndNone.2 (fun _ => .done (.ok 0)) ∧
      call.progress = .returned 0 5 ∧ s.pool.buffers.slots[5]? = some (.shared this) :=
    ⟨_, _, _, rfl, rfl, rfl, rfl, rfl⟩
  have hcontents : fortyAndNone.2.map (AlignedBuffer.asSlice fortyAndNone.1)
      = List.map .ok [List.replicate 40 9, []] := rfl
  have harchived := buffers_archived (ε := Unit) (.bump (Params.x86_64 true).toTarget) 1 (fun _ => true)
    aligns_padZeroes fortyAndNone.1 32 (fun _ => .done (.ok 0)) hcontents (by decide) inTurns
  rw [hrun] at harchived
  obtain ⟨ys, hys, harchived⟩ := harchived 0 0 5 call this hcall hvalue hprogress hbuffer
  exact ⟨s, this, ys, hrun, hbuffer, hys, harchived⟩

end SerializerPool

end RkyvUtils
