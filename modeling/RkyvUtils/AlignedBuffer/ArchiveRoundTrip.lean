import RkyvUtils.AlignedBuffer.Archive
import RkyvUtils.AlignedBuffer.UniqueSpec

/-!
# `AlignedBuffer.ArchiveRoundTrip` — what is archived is read back, at every base that fits

Serializing buffers is placing their bytes (`Placement.placeAll`), so the stored regions, their order and
what was in the writer before come from there. The check adds the base address to a position that is a
multiple of `ALIGNMENT`, so only the base counts. Reading back is `with_capacity` of the right length and an
`extend_from_slice` that finds the room there.
-/

namespace RkyvUtils

open Word Placement

/-! ## Lengths and slices -/

/-- A slice that was read has the length asked for. -/
theorem Heap.length_of_read {p : Params} {h : Heap} {q : Ptr} {n : Nat} {bs : List UInt8}
    (hr : h.read p q n = .ok bs) : bs.length = n := by
  unfold Heap.read at hr
  by_cases hz : n = 0
  · rw [if_pos hz] at hr
    cases hr
    exact hz.symm
  · rw [if_neg hz] at hr
    obtain ⟨⟨b, blk⟩, -, hr⟩ := bind_eq_ok hr
    dsimp only at hr
    by_cases hin : q.addr < blk.base + p.bufferOffset ∨
        blk.data.length < q.addr - (blk.base + p.bufferOffset) + n
    · rw [if_pos hin] at hr
      cases hr
    · rw [if_neg hin] at hr
      by_cases hall : ((blk.data.drop (q.addr - (blk.base + p.bufferOffset))).take n).all Option.isSome = true
      · rw [if_pos hall] at hr
        cases hr
        -- every byte is initialised, so none is filtered out
        have hlen := (List.filterMap_length_eq_length (f := id)).mpr (List.all_eq_true.mp hall)
        rw [hlen, List.length_take, List.length_drop]
        omega
      · rw [if_neg hall] at hr
        cases hr

/-- **`into_shared`** shows the same bytes. -/
theorem UniqueAlignedBuffer.Stores.intoShared_asSlice {α : Type} {p : Params} {h : Heap}
    {this : UniqueAlignedBuffer α} {o : Option BlockId} {xs : List UInt8} {data : List (Option UInt8)}
    (hs : Stores p h this o xs data) :
    ∃ shared, this.intoShared p = .ok shared ∧ shared.asSlice p h = .ok xs := by
  have hle := hs.length_le
  have hlt := hs.holds.length_lt
  have hread := hs.holds.read 0 xs hs.bytes
  obtain ⟨hh, hlen, hbytes⟩ := hs
  obtain ⟨buf, len⟩ := this
  dsimp only at hlen hh hread
  subst hlen
  cases hh with
  | empty alloc =>
      obtain rfl : xs = [] := List.length_eq_zero_iff.mp (Nat.le_zero.mp hle)
      refine ⟨_, intoShared_newIn, ?_⟩
      unfold SharedAlignedBuffer.asSlice SharedAlignedBuffer.len
      rw [RawAlignedBuffer.value_newIn]
      rfl
  | @block b blk alloc hb ok header =>
      refine ⟨_, intoShared_onBlock b alloc ok.data_lt hle, ?_⟩
      unfold SharedAlignedBuffer.asSlice SharedAlignedBuffer.len
      rw [RawAlignedBuffer.value_onBlock (by omega)]
      exact hread

/-! ## Serializing -/

namespace AlignedBuffer

variable {α σ ε : Type} {h : Heap} {w : Writer UInt8 σ (SerializeError ε)}
  {Contents : σ → List UInt8 → Prop} {s s' : σ} {xs : List UInt8}

theorem serialize_eq {this : AlignedBuffer α} {b : List UInt8} (hb : this.asSlice h = .ok b) (s : σ) :
    this.serialize h w s = (w.place s this.params.alignment b).map fun r => (r.1, ⟨r.2⟩) := by
  have hslice : this.serialize h w s = serializeSlice w s this.params.alignment (this.asSlice h) := by
    cases this <;> rfl
  rw [hslice, hb]
  unfold serializeSlice Writer.place
  cases w.align s this.params.alignment with
  | error e => rfl
  | ok s₁ =>
      show (w.write s₁ b >>= _) = Except.map _ (w.write s₁ b >>= _)
      cases w.write s₁ b <;> rfl

/-- The length that `resolve` records is the length of the bytes. -/
theorem resolve_eq {this : AlignedBuffer α} {b : List UInt8} (hb : this.asSlice h = .ok b)
    {fixedBits : Nat} (hlen : b.length < 2 ^ fixedBits) (resolver : BoxResolver) :
    this.resolve fixedBits resolver = some ⟨resolver.pos, b.length⟩ := by
  cases this with
  | unique p this =>
      have hl : b.length = this.len := Heap.length_of_read hb
      simp only [resolve, UniqueAlignedBuffer.resolve, resolveLen]
      rw [← hl, if_pos hlen]
  | shared p this =>
      have hl : b.length = this.len p := Heap.length_of_read hb
      simp only [resolve, SharedAlignedBuffer.resolve, resolveLen]
      rw [← hl, if_pos hlen]

/-- **Serializing buffers is placing their bytes.** -/
theorem serializeAll_eq {sources : List (AlignedBuffer α)} {contents : List (List UInt8)}
    (hb : sources.map (asSlice h) = contents.map .ok) (s : σ) :
    serializeAll h w s sources =
      (w.placeAll s (List.zip (sources.map fun this => this.params.alignment) contents)).map
        fun r => (r.1, r.2.map BoxResolver.mk) := by
  induction sources generalizing contents s with
  | nil =>
      cases contents with
      | nil => rfl
      | cons => cases hb
  | cons this sources ih =>
      cases contents with
      | nil => cases hb
      | cons b contents =>
          simp only [List.map_cons, List.cons.injEq] at hb
          obtain ⟨hthis, hrest⟩ := hb
          simp only [serializeAll, List.map_cons, List.zip_cons_cons, Writer.placeAll]
          rw [serialize_eq hthis]
          cases w.place s this.params.alignment b with
          | error e => rfl
          | ok r =>
              obtain ⟨s₁, pos⟩ := r
              show (serializeAll h w s₁ sources >>= _) = Except.map _ (w.placeAll s₁ _ >>= _)
              rw [ih hrest]
              cases w.placeAll s₁ _ <;> rfl

end AlignedBuffer

namespace UniqueAlignedBuffer

variable {α ε : Type} {p : Params}

/-- What a buffer has written as a writer is what it stores. -/
def Written (p : Params) (s : Heap × UniqueAlignedBuffer α) (xs : List UInt8) : Prop :=
  ∃ o data, Stores p s.1 s.2 o xs data

theorem Written.pos_eq (s : Heap × UniqueAlignedBuffer α) (xs : List UInt8) (hs : Written p s xs) :
    pos s = xs.length := by
  obtain ⟨o, data, hs⟩ := hs
  exact hs.length_eq

theorem Written.write (A : Allocator p.toTarget) (s : Heap × UniqueAlignedBuffer α) (xs bs : List UInt8)
    (s' : Heap × UniqueAlignedBuffer α) (hs : Written p s xs)
    (hw : UniqueAlignedBuffer.write (ε := ε) A s bs = .ok s') : Written p s' (xs ++ bs) := by
  obtain ⟨o, data, hs⟩ := hs
  unfold UniqueAlignedBuffer.write at hw
  rcases appendElements_spec A hs bs with ⟨h₁, this₁, o₁, data₁, hr, hl, -⟩ | hr | hr
  · rw [show extendFromSlice A s.1 s.2 bs = _ from hr] at hw
    cases hw
    exact ⟨o₁, data₁, hl.stores⟩
  · rw [show extendFromSlice A s.1 s.2 bs = _ from hr] at hw
    cases hw
  · rw [show extendFromSlice A s.1 s.2 bs = _ from hr] at hw
    cases hw

/-- **The crate's own writer is lawful** where `align` pads. -/
theorem writer_lawful (A : Allocator p.toTarget)
    {align : Heap × UniqueAlignedBuffer α → Nat → Except (SerializeError ε) (Heap × UniqueAlignedBuffer α)}
    (halign : Writer.Pads (Written p) align) : (writer A align).Lawful (Written p) where
  pos_eq := Written.pos_eq
  write := Written.write A
  align := halign

end UniqueAlignedBuffer

/-! ## Checking and deserializing -/

namespace ArchivedAlignedBuffer

variable {α : Type} {p : Params} (A : Allocator p.toTarget)

/-- **The alignment test** of data at a multiple of `ALIGNMENT` is a test of the base. -/
theorem checkBytes_eq {ε : Type} {checkBox : ArchivedBox → Except ε Unit} {alignment : Nat}
    {value : ArchivedBox} (hbox : checkBox value = .ok ()) (hdvd : alignment ∣ value.pos)
    (archive : Loaded) : checkBytes checkBox alignment value archive =
      if alignment ∣ archive.base then .ok () else .error .misaligned := by
  unfold checkBytes ArchivedBox.asPtr
  rw [hbox]
  show (if _ then _ else _) = _
  have htest : (archive.base + value.pos) % alignment ≠ 0 ↔ ¬alignment ∣ archive.base := by
    rw [ne_eq, ← Nat.dvd_iff_mod_eq_zero, Nat.dvd_add_left hdvd]
  by_cases hbase : alignment ∣ archive.base
  · rw [if_neg (fun h => htest.mp h hbase), if_pos hbase]
    rfl
  · rw [if_pos (htest.mpr hbase), if_neg hbase]

/-- Deserializing gives back the bytes `b`, in a buffer of either kind; it stops only where the allocation
    of `b.length` bytes does. -/
def Restores (h : Heap) (alloc : α) (inner : ArchivedBox) (archive : Loaded) (b : List UInt8) : Prop :=
  match UniqueAlignedBuffer.withCapacityIn A h b.length alloc with
  | .ok _ => ∃ h' buf shared,
      deserializeUnique A h alloc inner archive = .ok (h', buf) ∧ buf.asSlice p h' = .ok b ∧
      deserializeShared A h alloc inner archive = .ok (h', shared) ∧ shared.asSlice p h' = .ok b
  | .error f => (f = .capacityOverflow ∨ f = .allocError) ∧
      deserializeUnique A h alloc inner archive = .error f ∧
      deserializeShared A h alloc inner archive = .error f

/-- **Deserializing** what a box points to. -/
theorem restores (h : Heap) (alloc : α) {inner : ArchivedBox} {archive : Loaded} {b : List UInt8}
    (hlen : inner.len = b.length) (hget : inner.get archive = b) : Restores A h alloc inner archive b := by
  unfold Restores deserializeShared deserializeUnique
  rw [hlen, hget]
  rcases UniqueAlignedBuffer.withCapacityIn_spec A alloc h b.length with
    ⟨h₁, buf₁, o₁, data₁, hcap, hl, hroom⟩ | hcap | hcap
  · rw [hcap]
    -- the capacity asked for is there, so the second reservation cannot fail
    obtain ⟨h₂, buf₂, data₂, hext, hl₂⟩ :=
      UniqueAlignedBuffer.extendFromSlice_room A hl.stores b (by rw [List.length_nil]; omega)
    have hs₂ := hl₂.stores
    rw [List.nil_append] at hs₂
    obtain ⟨shared, hshared, hslice⟩ := hs₂.intoShared_asSlice
    dsimp only
    rw [ok_bind]
    dsimp only
    rw [hext, ok_bind]
    dsimp only
    rw [hshared]
    exact ⟨h₂, buf₂, shared, rfl, hs₂.asSlice_eq, rfl, hslice⟩
  · rw [hcap]
    exact ⟨Or.inl rfl, rfl, rfl⟩
  · rw [hcap]
    exact ⟨Or.inr rfl, rfl, rfl⟩

end ArchivedAlignedBuffer

/-! ## The round trip -/

open ArchivedAlignedBuffer

/-- The bytes `b` of buffer `this`, archived at `resolver` in the bytes `ys`. -/
structure Archived {α : Type} (fixedBits : Nat) (ys : List UInt8) (this : AlignedBuffer α) (b : List UInt8)
    (resolver : BoxResolver) : Prop where
  /-- the recorded position is a multiple of `ALIGNMENT` -/
  aligned : this.params.alignment ∣ resolver.pos
  inside : resolver.pos + b.length ≤ ys.length
  stored : (ys.drop resolver.pos).take b.length = b
  /-- the box is resolved with the recorded position and the length -/
  resolved : this.resolve fixedBits resolver = some ⟨resolver.pos, b.length⟩
  /-- loaded at any base, the alignment test passes exactly at multiples of `ALIGNMENT` -/
  checked : ∀ {ε : Type} (checkBox : ArchivedBox → Except ε Unit) (base : Nat),
    checkBox ⟨resolver.pos, b.length⟩ = .ok () →
      checkBytes checkBox this.params.alignment ⟨resolver.pos, b.length⟩ ⟨base, ys⟩
        = if this.params.alignment ∣ base then .ok () else .error .misaligned
  /-- deserializing gives the bytes back -/
  restored : ∀ (A : Allocator this.params.toTarget) (h : Heap) (alloc : α) (base : Nat),
    Restores A h alloc ⟨resolver.pos, b.length⟩ ⟨base, ys⟩ b

variable {α σ ε : Type}

/-- Bytes that were placed at a multiple of the alignment are archived. -/
theorem Archived.of_placed {this : AlignedBuffer α} {h : Heap} {fixedBits : Nat} {b ys : List UInt8}
    {resolver : BoxResolver} (hslice : this.asSlice h = .ok b) (hfit : b.length < 2 ^ fixedBits)
    (hdvd : this.params.alignment ∣ resolver.pos) (hinside : resolver.pos + b.length ≤ ys.length)
    (hstored : (ys.drop resolver.pos).take b.length = b) : Archived fixedBits ys this b resolver where
  aligned := hdvd
  inside := hinside
  stored := hstored
  resolved := AlignedBuffer.resolve_eq hslice hfit resolver
  checked _ _ hbox := checkBytes_eq hbox hdvd _
  restored A h₂ alloc _ := restores A h₂ alloc rfl hstored

/-- What is known of place `i`, as an item to be placed and as a buffer. -/
theorem AlignedBuffer.item_eq {h : Heap} {sources : List (AlignedBuffer α)} {contents : List (List UInt8)}
    (hcontents : sources.map (AlignedBuffer.asSlice h) = contents.map .ok) {i : Nat}
    {this : AlignedBuffer α} {b : List UInt8} (hi : sources[i]? = some this) (hb : contents[i]? = some b) :
    (List.zip (sources.map fun this => this.params.alignment) contents)[i]?
        = some (this.params.alignment, b) ∧ this.asSlice h = .ok b := by
  refine ⟨List.getElem?_zip_eq_some.mpr ⟨by rw [List.getElem?_map, hi]; rfl, hb⟩, ?_⟩
  have := congrArg (fun l => l[i]?) hcontents
  simp only [List.getElem?_map, hi, hb, Option.map_some, Option.some.injEq] at this
  exact this

theorem BoxResolver.getElem?_pos {positions : List Nat} {i : Nat} {resolver : BoxResolver}
    (hi : (positions.map BoxResolver.mk)[i]? = some resolver) : positions[i]? = some resolver.pos := by
  rw [List.getElem?_map, Option.map_eq_some_iff] at hi
  obtain ⟨pos, hpos, rfl⟩ := hi
  exact hpos

/-- Serializing stopped: `align` or `write` failed for one of the buffers, those before it being
    serialized. -/
def StoppedAt (h : Heap) (w : Placement.Writer UInt8 σ (SerializeError ε)) (s : σ)
    (sources : List (AlignedBuffer α)) (e : SerializeError ε) : Prop :=
  ∃ done this rest b s₁ resolvers, sources = done ++ this :: rest ∧
    AlignedBuffer.serializeAll h w s done = .ok (s₁, resolvers) ∧ this.asSlice h = .ok b ∧
    w.Fails s₁ this.params.alignment b e

/-- **Serializing readable buffers** stops nowhere else. -/
theorem AlignedBuffer.stoppedAt_of_error {h : Heap} {w : Placement.Writer UInt8 σ (SerializeError ε)} {s : σ}
    {sources : List (AlignedBuffer α)} {contents : List (List UInt8)} {e : SerializeError ε}
    (hcontents : sources.map (AlignedBuffer.asSlice h) = contents.map .ok)
    (he : serializeAll h w s sources = .error e) : StoppedAt h w s sources e := by
  induction sources generalizing contents s with
  | nil => cases he
  | cons this sources ih =>
      cases contents with
      | nil => cases hcontents
      | cons b contents =>
          simp only [List.map_cons, List.cons.injEq] at hcontents
          obtain ⟨hthis, hrest⟩ := hcontents
          simp only [serializeAll] at he
          cases hone : this.serialize h w s with
          | error e' =>
              -- the first buffer is the one
              rw [hone] at he
              cases he
              rw [serialize_eq hthis] at hone
              refine ⟨[], this, sources, b, s, [], rfl, rfl, hthis, ?_⟩
              cases hplace : w.place s this.params.alignment b with
              | error e' =>
                  rw [hplace] at hone
                  cases hone
                  exact Writer.place_error hplace
              | ok r =>
                  rw [hplace] at hone
                  cases hone
          | ok r =>
              obtain ⟨s₁, resolver⟩ := r
              rw [hone, ok_bind] at he
              dsimp only at he
              cases hall : serializeAll h w s₁ sources with
              | ok r =>
                  rw [hall] at he
                  cases he
              | error e' =>
                  rw [hall] at he
                  cases he
                  obtain ⟨done, that, rest, b', s₂, resolvers, rfl, hdone, hthat, hfails⟩ := ih hrest hall
                  refine ⟨this :: done, that, rest, b', s₂, resolver :: resolvers, rfl, ?_, hthat, hfails⟩
                  simp only [serializeAll, hone, ok_bind, hdone]
                  rfl

/-- **The archive round trip.** Buffers of any kind, contents and alignments are serialized one after the
    other into a lawful writer that has written `xs`. Unless the writer fails to align or to write, they
    are: in the end it has written `ys`, which begins with `xs`; every buffer is archived in `ys`, and the
    regions are behind `xs`, disjoint and in order. -/
theorem archived_round_trip {w : Placement.Writer UInt8 σ (SerializeError ε)}
    {Contents : σ → List UInt8 → Prop} (law : w.Lawful Contents) (h : Heap) (fixedBits : Nat) {s : σ}
    {xs : List UInt8} {sources : List (AlignedBuffer α)} {contents : List (List UInt8)} (hs : Contents s xs)
    (hcontents : sources.map (AlignedBuffer.asSlice h) = contents.map .ok)
    (hfits : ∀ b ∈ contents, b.length < 2 ^ fixedBits) :
    match AlignedBuffer.serializeAll h w s sources with
    | .ok (s', resolvers) =>
        ∃ ys, Contents s' ys ∧ xs <+: ys ∧ resolvers.length = sources.length ∧
          (∀ (i : Nat) (this : AlignedBuffer α) (b : List UInt8) (resolver : BoxResolver),
            sources[i]? = some this → contents[i]? = some b → resolvers[i]? = some resolver →
              Archived fixedBits ys this b resolver ∧ xs.length ≤ resolver.pos) ∧
          ∀ (i j : Nat) (b : List UInt8) (resolver resolver' : BoxResolver), i < j →
            contents[i]? = some b → resolvers[i]? = some resolver → resolvers[j]? = some resolver' →
              resolver.pos + b.length ≤ resolver'.pos
    | .error e => StoppedAt h w s sources e := by
  cases hrun : AlignedBuffer.serializeAll h w s sources with
  | error e => exact AlignedBuffer.stoppedAt_of_error hcontents hrun
  | ok r =>
  obtain ⟨s', resolvers⟩ := r
  rw [AlignedBuffer.serializeAll_eq hcontents] at hrun
  cases hall : w.placeAll s (List.zip (sources.map fun this => this.params.alignment) contents) with
  | error e =>
      rw [hall] at hrun
      cases hrun
  | ok r =>
  obtain ⟨s₁, positions⟩ := r
  rw [hall] at hrun
  cases hrun
  obtain ⟨ys, hys, hprefix, hplaced⟩ := law.placeAll hs (by
    intro item hmem
    obtain ⟨this, -, halign⟩ := List.mem_map.mp (List.of_mem_zip hmem).1
    rw [← halign]
    exact this.params.alignment_isPowerOfTwo) hall
  have hlength : contents.length = sources.length := by
    have := congrArg List.length hcontents
    simpa using this.symm
  refine ⟨ys, hys, hprefix, ?_, ?_, ?_⟩
  · have := hplaced.length_eq
    simp only [List.length_zip, List.length_map] at this ⊢
    omega
  · intro i this b resolver hi hb hr
    obtain ⟨hzip, hslice⟩ := AlignedBuffer.item_eq hcontents hi hb
    obtain ⟨hstart, hdvd, hstored, hinside⟩ := hplaced.get hzip (BoxResolver.getElem?_pos hr)
    exact ⟨.of_placed hslice (hfits b (List.mem_of_getElem? hb)) hdvd hinside hstored, hstart⟩
  · intro i j b resolver resolver' hij hb hr hr'
    have hj : j < sources.length := by
      have := (List.getElem?_eq_some_iff.mp hr').1
      have := hplaced.length_eq
      simp only [List.length_zip, List.length_map] at *
      omega
    obtain ⟨hzip, -⟩ := AlignedBuffer.item_eq hcontents (List.getElem?_eq_getElem (i := i) (by omega)) hb
    obtain ⟨hzip', -⟩ := AlignedBuffer.item_eq hcontents (List.getElem?_eq_getElem hj)
      (List.getElem?_eq_getElem (i := j) (by omega))
    exact hplaced.ordered hij hzip hzip' (BoxResolver.getElem?_pos hr) (BoxResolver.getElem?_pos hr')

/-- Padding with zeros, of which there are never 32 to pad with. -/
def UniqueAlignedBuffer.padZeroes {p : Params} (A : Allocator p.toTarget) :
    Heap × UniqueAlignedBuffer α → Nat → Except (SerializeError ε) (Heap × UniqueAlignedBuffer α) :=
  Writer.padFrom 32 (.panic .debugAssert) pos (write A) 0

/-- A buffer of forty bytes in its only block, and an empty one. -/
def fortyAndNone : Heap × List (AlignedBuffer Unit) :=
  (⟨[⟨128, 296, ⟨296, 128⟩, some ⟨1, 40⟩, List.replicate 40 (some 9), .allocated⟩], 1⟩,
    [.unique (.x86_64 true) ⟨⟨⟨384, some 0⟩, .pack (Params.x86_64 true).toTarget 40 true, ()⟩, 40⟩,
      .shared (.x86_64 true) ⟨.newIn ()⟩])

set_option maxRecDepth 4000 in
/-- They are serialized into a buffer that holds forty bytes already: both times 24 bytes of padding are
    needed. -/
theorem archived_round_trip_pair :
    ∃ (s s' : Heap × UniqueAlignedBuffer Unit) (ys : List UInt8),
      AlignedBuffer.serializeAll (ε := Unit) fortyAndNone.1
        (UniqueAlignedBuffer.writer (.bump (Params.x86_64 true).toTarget)
          (UniqueAlignedBuffer.padZeroes (.bump (Params.x86_64 true).toTarget))) s fortyAndNone.2
        = .ok (s', [⟨64⟩, ⟨128⟩]) ∧
      UniqueAlignedBuffer.Written (.x86_64 true) s' ys ∧ List.replicate 40 7 <+: ys ∧
      (∀ this, fortyAndNone.2[0]? = some this → Archived 32 ys this (List.replicate 40 9) ⟨64⟩) ∧
      ∀ this, fortyAndNone.2[1]? = some this → Archived 32 ys this [] ⟨128⟩ := by
  obtain ⟨s, s', hforty, hrun⟩ : ∃ s s' : Heap × UniqueAlignedBuffer Unit,
      UniqueAlignedBuffer.extendFromSlice (.bump (Params.x86_64 true).toTarget) Heap.empty (.newIn ())
        (List.replicate 40 7) = .ok s ∧
      AlignedBuffer.serializeAll (ε := Unit) fortyAndNone.1
        (UniqueAlignedBuffer.writer (.bump (Params.x86_64 true).toTarget)
          (UniqueAlignedBuffer.padZeroes (.bump (Params.x86_64 true).toTarget))) s fortyAndNone.2
        = .ok (s', [⟨64⟩, ⟨128⟩]) := ⟨_, _, rfl, rfl⟩
  have hs : UniqueAlignedBuffer.Written (.x86_64 true) s ([] ++ List.replicate 40 7) :=
    UniqueAlignedBuffer.Written.write (ε := Unit) (.bump (Params.x86_64 true).toTarget)
      (Heap.empty, .newIn ()) [] (List.replicate 40 7) s ⟨none, [], .empty (), rfl, rfl⟩
      (by unfold UniqueAlignedBuffer.write; rw [hforty]; rfl)
  have law : (UniqueAlignedBuffer.writer (.bump (Params.x86_64 true).toTarget)
      (UniqueAlignedBuffer.padZeroes (ε := Unit) (.bump (Params.x86_64 true).toTarget))).Lawful
        (UniqueAlignedBuffer.Written (α := Unit) (.x86_64 true)) :=
    UniqueAlignedBuffer.writer_lawful _
      (Writer.padFrom_pads UniqueAlignedBuffer.Written.pos_eq (UniqueAlignedBuffer.Written.write _))
  have hcontents : fortyAndNone.2.map (AlignedBuffer.asSlice fortyAndNone.1)
      = [List.replicate 40 9, []].map .ok := rfl
  have hround := archived_round_trip law fortyAndNone.1 32 hs hcontents (by decide)
  rw [show AlignedBuffer.serializeAll _ _ _ _ = _ from hrun] at hround
  obtain ⟨ys, hys, hprefix, -, harchived, -⟩ := hround
  exact ⟨s, s', ys, hrun, hys, hprefix, fun this hi => (harchived 0 this _ _ hi rfl rfl).1,
    fun this hi => (harchived 1 this _ _ hi rfl rfl).1⟩

end RkyvUtils
