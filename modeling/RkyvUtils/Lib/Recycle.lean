import Mathlib.Data.List.Induction

/-!
# `Lib.Recycle` — resources that are used, put back and handed out again

A bounded first-in-first-out queue of resources: `take` gives the oldest one, or a fresh one if there is
none, `put` gives one back, and a full queue refuses it. What everything in the queue satisfies, and a
fresh resource too, is satisfied by what is handed out (`take_clean`, `put_clean`).

A resource that answers calls is a function `act`; `calls` answers a sequence of them. A log `Explains`
the state of a resource when it is what the calls of the log make of the first state, with the answers of
the log: what another user of the same resource did before can show in the log only through that first
state.
-/

namespace Recycle

variable {ρ ω β : Type}

/-! ## The queue -/

/-- The oldest resource, or a fresh one. -/
def take (fresh : ρ) : List ρ → ρ × List ρ
  | [] => (fresh, [])
  | r :: rest => (r, rest)

/-- A resource goes to the end of the queue; a full queue refuses it, and it is lost. -/
def put (capacity : Nat) (queue : List ρ) (r : ρ) : List ρ :=
  if queue.length < capacity then queue ++ [r] else queue

variable {P : ρ → Prop} {queue : List ρ}

/-- **What is handed out is clean** if the fresh and the queued resources are. -/
theorem take_clean {fresh : ρ} (hfresh : P fresh) (hqueue : ∀ r ∈ queue, P r) :
    P (take fresh queue).1 ∧ ∀ r ∈ (take fresh queue).2, P r := by
  cases queue with
  | nil => exact ⟨hfresh, hqueue⟩
  | cons r rest =>
      refine ⟨hqueue r (List.mem_cons_self ..), ?_⟩
      intro r' hr'
      exact hqueue r' (List.mem_cons_of_mem _ hr')

/-- **The queue stays clean** if what it accepts is. -/
theorem put_clean {capacity : Nat} {r : ρ} (hqueue : ∀ r ∈ queue, P r)
    (hr : queue.length < capacity → P r) : ∀ r' ∈ put capacity queue r, P r' := by
  unfold put
  intro r' hr'
  split at hr'
  case isTrue hroom =>
    rcases List.mem_append.mp hr' with hmem | hmem
    · exact hqueue r' hmem
    · rw [List.mem_singleton.mp hmem]; exact hr hroom
  case isFalse => exact hqueue r' hr'

/-! ## Calls -/

variable (act : ρ → ω → ρ × β)

/-- The resource after a sequence of calls, and the answers. -/
def calls : ρ → List ω → ρ × List β
  | r, [] => (r, [])
  | r, c :: cs => ((calls (act r c).1 cs).1, (act r c).2 :: (calls (act r c).1 cs).2)

/-- One more call at the end. -/
theorem calls_snoc (r : ρ) (cs : List ω) (c : ω) :
    calls act r (cs ++ [c])
      = ((act (calls act r cs).1 c).1, (calls act r cs).2 ++ [(act (calls act r cs).1 c).2]) := by
  induction cs generalizing r with
  | nil => rfl
  | cons c' cs ih =>
      simp only [List.cons_append, calls]
      rw [ih]

/-- The log of the calls and answers of a resource that was `first` and is `now`. -/
def Explains (first : ρ) (log : List (ω × β)) (now : ρ) : Prop :=
  calls act first (log.map Prod.fst) = (now, log.map Prod.snd)

variable {act} {first now : ρ} {log : List (ω × β)}

theorem Explains.nil : Explains act first [] first := rfl

/-- The next call, with its answer. -/
theorem Explains.snoc (h : Explains act first log now) (c : ω) :
    Explains act first (log ++ [(c, (act now c).2)]) (act now c).1 := by
  unfold Explains at h ⊢
  rw [List.map_append, List.map_append, List.map_singleton, List.map_singleton, calls_snoc, h]

/-- **Induction along a log**: what holds of a resource with an empty log and is kept by every call,
    answer included, holds of every resource with its log. -/
theorem Explains.induct {Q : List (ω × β) → ρ → Prop} (hfirst : Q [] first)
    (hcall : ∀ log r c, Q log r → Q (log ++ [(c, (act r c).2)]) (act r c).1)
    (h : Explains act first log now) : Q log now := by
  induction log using List.reverseRecOn generalizing now with
  | nil =>
      cases h
      exact hfirst
  | append_singleton log entry ih =>
      obtain ⟨c, b⟩ := entry
      unfold Explains at h
      rw [List.map_append, List.map_append, List.map_singleton, List.map_singleton, calls_snoc,
        Prod.mk.injEq] at h
      obtain ⟨hnow, hanswers⟩ := h
      obtain ⟨hlog, hb⟩ := List.append_inj' hanswers rfl
      have hQ := ih (Prod.ext rfl hlog)
      have := hcall log _ c hQ
      rw [List.singleton_inj.mp hb, hnow] at this
      exact this

/-! ## The log of a sequence of calls -/

variable (act) in
/-- Each call with its answer. -/
def logOf : ρ → List ω → List (ω × β)
  | _, [] => []
  | r, c :: cs => (c, (act r c).2) :: logOf (act r c).1 cs

variable (act) in
theorem logOf_fst (r : ρ) (cs : List ω) : (logOf act r cs).map Prod.fst = cs := by
  induction cs generalizing r with
  | nil => rfl
  | cons c cs ih =>
      simp only [logOf, List.map_cons]
      rw [ih]

variable (act) in
theorem logOf_snd (r : ρ) (cs : List ω) : (logOf act r cs).map Prod.snd = (calls act r cs).2 := by
  induction cs generalizing r with
  | nil => rfl
  | cons c cs ih =>
      simp only [logOf, calls, List.map_cons]
      rw [ih]

variable (act) in
theorem explains_logOf (r : ρ) (cs : List ω) : Explains act r (logOf act r cs) (calls act r cs).1 := by
  unfold Explains
  rw [logOf_fst, logOf_snd]

/-- **What each entry of a log owes to those before it**: if `I` holds of every resource with its log, and
    under `I` the next entry is justified by the log so far, then every entry is. -/
theorem Explains.each {I : List (ω × β) → ρ → Prop} {J : List (ω × β) → ω × β → Prop}
    (hfirst : I [] first)
    (hcall : ∀ log r c, I log r →
      J log (c, (act r c).2) ∧ I (log ++ [(c, (act r c).2)]) (act r c).1)
    (h : Explains act first log now) {k : Nat} {entry : ω × β} (hk : log[k]? = some entry) :
    J (log.take k) entry := by
  have hall : I log now ∧ ∀ k entry, log[k]? = some entry → J (log.take k) entry := by
    refine h.induct (Q := fun log now => I log now ∧ ∀ k entry, log[k]? = some entry →
      J (log.take k) entry) ⟨hfirst, fun k entry hk => by cases hk⟩ ?_
    rintro log r c ⟨hI, hbefore⟩
    obtain ⟨hJ, hI'⟩ := hcall log r c hI
    refine ⟨hI', fun k entry hk => ?_⟩
    rcases Nat.lt_trichotomy k log.length with hlt | rfl | hgt
    · rw [List.getElem?_append_left hlt] at hk
      rw [List.take_append_of_le_length (Nat.le_of_lt hlt)]
      exact hbefore k entry hk
    · rw [List.getElem?_concat_length] at hk
      cases hk
      rw [List.take_left]
      exact hJ
    · rw [List.getElem?_eq_none (by rw [List.length_append, List.length_singleton]; omega)] at hk
      cases hk
  exact hall.2 k entry hk

/-- **Calls without effect may be left out**: the others have the same answers without them, and leave the
    resource the same. -/
theorem Explains.filter {keep : ω × β → Bool}
    (hskip : ∀ r c, keep (c, (act r c).2) = false → (act r c).1 = r) (h : Explains act first log now) :
    Explains act first (log.filter keep) now := by
  refine h.induct (Q := fun log now => Explains act first (log.filter keep) now) .nil ?_
  intro log r c hlog
  rw [List.filter_append]
  cases hkeep : keep (c, (act r c).2) with
  | true =>
      simp only [List.filter_cons, hkeep, if_true, List.filter_nil]
      exact hlog.snoc c
  | false =>
      rw [hskip r c hkeep]
      simp only [List.filter_cons, hkeep, Bool.false_eq_true, if_false, List.filter_nil, List.append_nil]
      exact hlog

end Recycle
