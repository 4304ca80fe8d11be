import RkyvUtils.AlignedBufferPool.ValidatorPool

/-!
# `AlignedBufferPool.SharedTypes` — what the answers of a `SharedValidator` rest on

A validator that is told `Finished` skips the bytes behind a pointer, so each answer of `start_shared` and
`finish_shared` has to be earned by the calls before it. `Justified` says what an answer needs of the log
so far; `Recorded` is the invariant between the table and the log that gives it.
-/

namespace RkyvUtils

open Recycle

namespace SharedCall

variable {τ : Type}

def address : SharedCall τ → Nat
  | startShared address _ | finishShared address _ => address

def typeId : SharedCall τ → τ
  | startShared _ typeId | finishShared _ typeId => typeId

end SharedCall

namespace SharedAnswer

variable {τ : Type}

def isOk : SharedAnswer τ → Bool
  | started (.ok _) | finished (.ok _) => true
  | _ => false

end SharedAnswer

namespace SharedValidator

open ValidatorPool

variable {τ : Type}

/-- A `start_shared` that returned `Ok(Started)`. -/
abbrev reportedStarted (address : Nat) (typeId : τ) : SharedCall τ × SharedAnswer τ :=
  (.startShared address typeId, .started (.ok .started))

/-! ## What an answer needs -/

/-- The answer to a call, given the calls before it with theirs. -/
structure Justified (before : List (SharedCall τ × SharedAnswer τ))
    (entry : SharedCall τ × SharedAnswer τ) : Prop where
  /-- `Finished` is reported only of what a `finish_shared` has finished -/
  finished : ∀ address typeId, entry = reportedFinished address typeId →
    finishedOk address typeId ∈ before
  /-- `Started` is reported exactly on the first `start_shared` of an address -/
  started : ∀ address typeId, entry.1 = .startShared address typeId →
    (entry.2 = .started (.ok .started) ↔
      ∀ typeId' answer, (SharedCall.startShared address typeId', answer) ∉ before)
  /-- no call accepts an address with another type than a call before it -/
  oneType : entry.2.isOk = true → ∀ entry' ∈ before, entry'.2.isOk = true →
    entry'.1.address = entry.1.address → entry'.1.typeId = entry.1.typeId
  /-- `finish_shared` succeeds once, after a start with the same type -/
  once : ∀ address typeId, entry = finishedOk address typeId →
    (∀ typeId', finishedOk address typeId' ∉ before) ∧ reportedStarted address typeId ∈ before

/-- What the table has for an address, and what the log says of it. -/
def Recorded (log : List (SharedCall τ × SharedAnswer τ)) (address : Nat) : Option (τ × Bool) → Prop
  | none => ∀ entry ∈ log, entry.1.address = address →
      entry.2.isOk = false ∧ ∀ typeId, entry.1 ≠ .startShared address typeId
  | some (typeId, finished) => reportedStarted address typeId ∈ log ∧
      (∀ entry ∈ log, entry.2.isOk = true → entry.1.address = address → entry.1.typeId = typeId) ∧
      (finished = true ↔ finishedOk address typeId ∈ log)

section

variable {log : List (SharedCall τ × SharedAnswer τ)} {address : Nat} {typeId : τ} {finished : Bool}
  {entry : SharedCall τ × SharedAnswer τ}

/-- A call for another address says nothing of this one. -/
theorem Recorded.other {recorded : Option (τ × Bool)} (h : Recorded log address recorded)
    (hne : entry.1.address ≠ address) : Recorded (log ++ [entry]) address recorded := by
  cases recorded with
  | none =>
      intro entry' hmem haddress
      rcases List.mem_append.mp hmem with hmem | hmem
      · exact h entry' hmem haddress
      · rw [List.mem_singleton.mp hmem] at haddress
        exact absurd haddress hne
  | some recorded =>
      obtain ⟨typeId, finished⟩ := recorded
      obtain ⟨hstarted, htypes, hfinished⟩ := h
      refine ⟨List.mem_append_left _ hstarted, ?_, ?_⟩
      · intro entry' hmem hok haddress
        rcases List.mem_append.mp hmem with hmem | hmem
        · exact htypes entry' hmem hok haddress
        · rw [List.mem_singleton.mp hmem] at haddress
          exact absurd haddress hne
      · rw [hfinished, List.mem_append, List.mem_singleton]
        refine ⟨Or.inl, fun hmem => hmem.resolve_right ?_⟩
        rintro rfl
        exact hne rfl

/-- A failing `finish_shared` of an address nobody has claimed. -/
theorem Recorded.unclaimed (h : Recorded log address none) (hok : entry.2.isOk = false)
    (hcall : ∀ typeId, entry.1 ≠ .startShared address typeId) : Recorded (log ++ [entry]) address none := by
  intro entry' hmem haddress
  rcases List.mem_append.mp hmem with hmem | hmem
  · exact h entry' hmem haddress
  · rw [List.mem_singleton.mp hmem]
    exact ⟨hok, hcall⟩

/-- One more call for a claimed address: it has the right type if it succeeds, and it finishes the address
    if it is a `finish_shared` that does. -/
theorem Recorded.claimed {finished' : Bool} (h : Recorded log address (some (typeId, finished)))
    (htype : entry.2.isOk = true → entry.1.typeId = typeId)
    (hfinish : finished' = true ↔ finished = true ∨ entry = finishedOk address typeId) :
    Recorded (log ++ [entry]) address (some (typeId, finished')) := by
  obtain ⟨hstarted, htypes, hfinished⟩ := h
  refine ⟨List.mem_append_left _ hstarted, ?_, ?_⟩
  · intro entry' hmem hok haddress
    rcases List.mem_append.mp hmem with hmem | hmem
    · exact htypes entry' hmem hok haddress
    · rw [List.mem_singleton.mp hmem] at hok ⊢
      exact htype hok
  · rw [hfinish, hfinished, List.mem_append, List.mem_singleton, eq_comm (a := entry)]

/-- **What a claimed address can answer**: nothing but errors to another type, `Finished` once it is
    finished, and success of `finish_shared` before that. -/
theorem Recorded.justified (h : Recorded log entry.1.address (some (typeId, finished)))
    (hstarted : entry.2 ≠ .started (.ok .started))
    (htype : entry.2.isOk = true → entry.1.typeId = typeId)
    (hfinished : ∀ address typeId, entry = reportedFinished address typeId → finished = true)
    (honce : ∀ address typeId, entry = finishedOk address typeId → finished = false) :
    Justified log entry := by
  obtain ⟨hstart, htypes, hfinish⟩ := h
  constructor
  · rintro address typeId' rfl
    obtain rfl : typeId' = typeId := htype rfl
    exact hfinish.mp (hfinished _ _ rfl)
  · intro address typeId' hcall
    refine ⟨fun hanswer => absurd hanswer hstarted, fun hnone => ?_⟩
    rw [hcall] at hstart
    exact absurd hstart (hnone _ _)
  · intro hok entry' hmem hok' haddress
    exact (htypes entry' hmem hok' haddress).trans (htype hok).symm
  · rintro address typeId' rfl
    obtain rfl : typeId' = typeId := htype rfl
    have hopen : finished = false := honce _ _ rfl
    refine ⟨fun typeId'' hmem => ?_, hstart⟩
    -- an earlier success would have had the same type, and the table would show it
    obtain rfl : typeId'' = typeId' := htypes _ hmem rfl rfl
    rw [hfinish.mpr hmem] at hopen
    cases hopen

/-! ## One call -/

variable {shared : SharedValidator τ}

/-- The table and the log agree on every address. -/
def Agrees (log : List (SharedCall τ × SharedAnswer τ)) (shared : SharedValidator τ) : Prop :=
  ∀ address, Recorded log address (shared.shared.lookup address)

/-- The table is as before. -/
theorem Agrees.keep (h : Agrees log shared) {recorded : Option (τ × Bool)}
    (hl : shared.shared.lookup entry.1.address = recorded)
    (hown : Recorded (log ++ [entry]) entry.1.address recorded) : Agrees (log ++ [entry]) shared := by
  intro address
  by_cases he : address = entry.1.address
  · subst he
    rw [hl]
    exact hown
  · exact (h address).other (Ne.symm he)

variable (entry) in
/-- The table has a new entry for the address of the call. -/
theorem Agrees.insert (h : Agrees log shared) {recorded : τ × Bool}
    (hown : Recorded (log ++ [entry]) entry.1.address (some recorded)) :
    Agrees (log ++ [entry]) ⟨shared.shared.insert entry.1.address recorded⟩ := by
  intro address
  by_cases he : address = entry.1.address
  · subst he
    rw [AList.lookup_insert]
    exact hown
  · rw [AList.lookup_insert_ne he]
    exact (h address).other (Ne.symm he)

/-- A call for a claimed address that changes nothing. -/
theorem Agrees.claimed (h : Agrees log shared)
    (hl : shared.shared.lookup entry.1.address = some (typeId, finished))
    (hstarted : entry.2 ≠ .started (.ok .started))
    (htype : entry.2.isOk = true → entry.1.typeId = typeId)
    (hfinished : ∀ address typeId, entry = reportedFinished address typeId → finished = true)
    (hfinish : ∀ address typeId, entry ≠ finishedOk address typeId) :
    Justified log entry ∧ Agrees (log ++ [entry]) shared := by
  have hown := h entry.1.address
  rw [hl] at hown
  constructor
  · exact hown.justified hstarted htype hfinished fun address typeId he => absurd he (hfinish _ _)
  · exact h.keep hl (hown.claimed htype ⟨Or.inl, fun hor => hor.resolve_right (hfinish _ _)⟩)

/-- The first call for an address is a start, and claims it. -/
theorem Agrees.first (h : Agrees log shared) {address : Nat} (typeId : τ)
    (hl : shared.shared.lookup address = none) :
    Justified log (reportedStarted address typeId) ∧
      Agrees (log ++ [reportedStarted address typeId])
        ⟨shared.shared.insert address (typeId, false)⟩ := by
  have hown := h address
  rw [hl] at hown
  have hfail : ∀ entry ∈ log, entry.1.address = address → entry.2.isOk ≠ true := by
    intro entry hmem haddress hok
    rw [(hown entry hmem haddress).1] at hok
    cases hok
  constructor
  · constructor
    · intro address' typeId' he
      cases he
    · intro address' typeId' hcall
      cases hcall
      exact ⟨fun _ typeId' answer hmem => (hown _ hmem rfl).2 typeId' rfl, fun _ => rfl⟩
    · intro _ entry hmem hok haddress
      exact absurd hok (hfail entry hmem haddress)
    · intro address' typeId' he
      cases he
  · refine h.insert (reportedStarted address typeId) ⟨?_, ?_, ?_⟩
    · exact List.mem_append_right _ (List.mem_singleton.mpr rfl)
    · intro entry hmem hok haddress
      rcases List.mem_append.mp hmem with hmem | hmem
      · exact absurd hok (hfail entry hmem haddress)
      · rw [List.mem_singleton.mp hmem]
        rfl
    · refine ⟨nofun, fun hmem => ?_⟩
      rcases List.mem_append.mp hmem with hmem | hmem
      · exact absurd rfl (hfail _ hmem rfl)
      · cases List.mem_singleton.mp hmem

variable [DecidableEq τ]

theorem Agrees.startShared (h : Agrees log shared) (address : Nat) (typeId : τ) :
    Justified log (.startShared address typeId, .started (shared.startShared address typeId).2) ∧
      Agrees (log ++ [(.startShared address typeId, .started (shared.startShared address typeId).2)])
        (shared.startShared address typeId).1 := by
  unfold SharedValidator.startShared
  cases hl : shared.shared.lookup address with
  | none => exact h.first typeId hl
  | some recorded =>
      obtain ⟨previousTypeId, finished⟩ := recorded
      dsimp only
      by_cases htype : previousTypeId ≠ typeId
      · rw [if_pos htype]
        exact h.claimed hl nofun nofun nofun nofun
      · obtain rfl := not_ne_iff.mp htype
        rw [if_neg htype]
        cases finished with
        | false => exact h.claimed hl nofun (fun _ => rfl) nofun nofun
        | true => exact h.claimed hl nofun (fun _ => rfl) (fun _ _ _ => rfl) nofun

theorem Agrees.finishShared (h : Agrees log shared) (address : Nat) (typeId : τ) :
    Justified log (.finishShared address typeId, .finished (shared.finishShared address typeId).2) ∧
      Agrees (log ++ [(.finishShared address typeId, .finished (shared.finishShared address typeId).2)])
        (shared.finishShared address typeId).1 := by
  have hown := h address
  unfold SharedValidator.finishShared
  cases hl : shared.shared.lookup address with
  | none =>
      rw [hl] at hown
      exact ⟨⟨nofun, nofun, nofun, nofun⟩, h.keep hl (hown.unclaimed rfl nofun)⟩
  | some recorded =>
      obtain ⟨previousTypeId, finished⟩ := recorded
      rw [hl] at hown
      dsimp only
      by_cases htype : previousTypeId ≠ typeId
      · rw [if_pos htype]
        exact h.claimed hl nofun nofun nofun nofun
      · obtain rfl := not_ne_iff.mp htype
        rw [if_neg htype]
        cases finished with
        | true => exact h.claimed hl nofun nofun nofun nofun
        | false =>
            -- the call finishes the address
            constructor
            · exact hown.justified nofun (fun _ => rfl) nofun fun _ _ _ => rfl
            · exact h.insert (finishedOk address previousTypeId)
                (hown.claimed (fun _ => rfl) ⟨fun _ => Or.inr rfl, fun _ => rfl⟩)

/-- **One call** is answered as the log allows, and the table still agrees with the log. -/
theorem Agrees.call (h : Agrees log shared) (c : SharedCall τ) :
    Justified log (c, (shared.call c).2) ∧ Agrees (log ++ [(c, (shared.call c).2)]) (shared.call c).1 := by
  cases c with
  | startShared address typeId => exact h.startShared address typeId
  | finishShared address typeId => exact h.finishShared address typeId

/-- A failing call leaves the table exactly as it was. -/
theorem call_failed {c : SharedCall τ} (hfail : (shared.call c).2.isOk = false) :
    (shared.call c).1 = shared := by
  cases c with
  | startShared address typeId =>
      simp only [SharedValidator.call, SharedValidator.startShared] at hfail ⊢
      cases hl : shared.shared.lookup address with
      | none =>
          rw [hl] at hfail
          cases hfail
      | some recorded =>
          obtain ⟨previousTypeId, finished⟩ := recorded
          dsimp only
          split
          · rfl
          · split <;> rfl
  | finishShared address typeId =>
      simp only [SharedValidator.call, SharedValidator.finishShared] at hfail ⊢
      cases hl : shared.shared.lookup address with
      | none => rfl
      | some recorded =>
          obtain ⟨previousTypeId, finished⟩ := recorded
          rw [hl] at hfail
          dsimp only at hfail ⊢
          by_cases htype : previousTypeId ≠ typeId
          · rw [if_pos htype]
          · rw [if_neg htype] at hfail ⊢
            cases finished with
            | true => rfl
            | false => cases hfail

end

/-! ## Every sequence of calls -/

theorem Agrees.empty : Agrees ([] : List (SharedCall τ × SharedAnswer τ)) SharedValidator.default := by
  intro address
  rw [show (SharedValidator.default : SharedValidator τ).shared.lookup address = none from
    AList.lookup_empty address]
  intro entry hmem
  cases hmem

variable [DecidableEq τ]

/-- **The answers of a validator are earned**, in every sequence of calls from the empty table, over any
    addresses and types: each is justified by the calls before it and their answers, a failing call leaves
    the table as it was, and the sequence without the failing calls ends with the same table and has the
    same answers. -/
theorem answers_earned (history : List (SharedCall τ)) :
    (∀ (k : Nat) (entry : SharedCall τ × SharedAnswer τ),
      (logOf SharedValidator.call SharedValidator.default history)[k]? = some entry →
        Justified ((logOf SharedValidator.call SharedValidator.default history).take k) entry) ∧
      (∀ (shared : SharedValidator τ) (c : SharedCall τ), (shared.call c).2.isOk = false →
        (shared.call c).1 = shared) ∧
      let succeeded := (logOf SharedValidator.call SharedValidator.default history).filter (·.2.isOk)
      calls SharedValidator.call SharedValidator.default (succeeded.map Prod.fst)
        = ((calls SharedValidator.call SharedValidator.default history).1, succeeded.map Prod.snd) := by
  have hlog := explains_logOf SharedValidator.call (SharedValidator.default : SharedValidator τ) history
  refine ⟨fun k entry hk => ?_, fun shared c hfail => call_failed hfail, ?_⟩
  · exact hlog.each Agrees.empty (fun log shared c hagrees => Agrees.call hagrees c) hk
  · exact hlog.filter fun shared c hfail => call_failed hfail

end SharedValidator

end RkyvUtils
