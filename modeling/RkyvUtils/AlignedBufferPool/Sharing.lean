import RkyvUtils.Lib.Keyed
import RkyvUtils.AlignedBufferPool.SerializerPool

/-!
# `AlignedBufferPool.Sharing` — the sharing table of a serializer and what it stands for

The reference machine keeps, for each address, whether sharing was started and the position it was
finished with; it knows nothing of masks. The table of the code stores a position complemented, in a word
that is not zero, with `None` as the pending mark. `Tracks` relates the two, and every call keeps it.
-/

namespace RkyvUtils

open Recycle

/-! ## The reference machine -/

/-- What is known of one address. -/
inductive AddressState where
  | untouched
  | pending
  | finished (pos : Nat)
deriving DecidableEq, Repr

namespace SharingCall

def address : SharingCall → Nat
  | startSharing address | finishSharing address _ => address

def isStart : SharingCall → Bool
  | startSharing _ => true
  | finishSharing _ _ => false

def pos? : SharingCall → Option Nat
  | startSharing _ => none
  | finishSharing _ pos => some pos

/-- No object is serialized at the position `usize::MAX`. -/
def Legal (p : Params) : SharingCall → Prop
  | startSharing _ => True
  | finishSharing _ pos => pos ≠ SharingMap.usizeMax p

instance (p : Params) (c : SharingCall) : Decidable (c.Legal p) := by
  cases c <;> unfold Legal <;> infer_instance

end SharingCall

namespace AddressState

def call : AddressState → SharingCall → AddressState × SharingAnswer
  | untouched, .startSharing _ => (pending, .state .started)
  | untouched, .finishSharing _ _ => (untouched, .failed .notStarted)
  | pending, .startSharing _ => (pending, .state .pending)
  | pending, .finishSharing _ pos => (finished pos, .done)
  | finished pos, .startSharing _ => (finished pos, .state (.finished pos))
  | finished pos, .finishSharing _ _ => (finished pos, .failed .alreadyFinished)

/-- The state of an address, read off the calls for it: nothing counts in front of the first start, and
    the first finish behind that gives the position. -/
def ofCalls (own : List SharingCall) : AddressState :=
  match own.dropWhile fun c => !c.isStart with
  | [] => untouched
  | _ :: later =>
      match later.findSome? SharingCall.pos? with
      | none => pending
      | some pos => finished pos

theorem calls_finished (pos : Nat) (own : List SharingCall) :
    (calls call (finished pos) own).1 = finished pos := by
  induction own with
  | nil => rfl
  | cons c own ih => cases c <;> exact ih

theorem calls_pending (own : List SharingCall) :
    (calls call pending own).1 =
      match own.findSome? SharingCall.pos? with
      | none => pending
      | some pos => finished pos := by
  induction own with
  | nil => rfl
  | cons c own ih =>
      cases c with
      | startSharing address => exact ih
      | finishSharing address pos => exact calls_finished pos own

/-- **The closed form of the machine.** -/
theorem calls_untouched (own : List SharingCall) : (calls call untouched own).1 = ofCalls own := by
  induction own with
  | nil => rfl
  | cons c own ih =>
      cases c with
      | startSharing address => exact calls_pending own
      | finishSharing address pos => exact ih

theorem done_finished (pos : Nat) (own : List SharingCall) :
    .done ∉ (calls call (finished pos) own).2 := by
  induction own with
  | nil => nofun
  | cons c own ih =>
      cases c with
      | startSharing _ | finishSharing _ _ =>
          intro hmem
          rcases List.mem_cons.mp hmem with hnow | hlater
          · cases hnow
          · exact ih hlater

/-- **An address is finished at most once.** -/
theorem count_done (s : AddressState) (own : List SharingCall) :
    (calls call s own).2.count .done ≤ 1 := by
  induction own generalizing s with
  | nil => exact Nat.zero_le 1
  | cons c own ih =>
      cases s with
      | untouched =>
          cases c with
          | startSharing address => exact ih pending
          | finishSharing address pos => exact ih untouched
      | pending =>
          cases c with
          | startSharing address => exact ih pending
          | finishSharing address pos =>
              have hnone := List.count_eq_zero.mpr (done_finished pos own)
              show List.count .done (.done :: (calls call (finished pos) own).2) ≤ 1
              rw [List.count_cons_self, hnone]
      | finished pos =>
          cases c with
          | startSharing _ | finishSharing _ _ => exact ih (finished pos)

/-! ## The table of the code -/

/-- What the table stores for an address. -/
def stored (p : Params) : AddressState → Option (Option Nat)
  | untouched => none
  | pending => some none
  | finished pos => some (some (pos ^^^ SharingMap.usizeMax p))

end AddressState

namespace SharingMap

variable {p : Params} {map : SharingMap} {f : Nat → AddressState} {c : SharingCall}

/-- The table has what the machine of each address is at. -/
def Tracks (p : Params) (map : SharingMap) (f : Nat → AddressState) : Prop :=
  ∀ address, map.lookup address = (f address).stored p

theorem Tracks.empty : Tracks p ∅ fun _ => .untouched := fun _ => AList.lookup_empty _

/-- The mask is its own inverse. -/
theorem unmask (pos : Nat) : (pos ^^^ usizeMax p) ^^^ usizeMax p = pos := by
  rw [Nat.xor_assoc, Nat.xor_self, Nat.xor_zero]

/-- The masked position is zero for one position only. -/
theorem mask_ne_zero {pos : Nat} (h : pos ≠ usizeMax p) : pos ^^^ usizeMax p ≠ 0 :=
  fun hzero => h (Nat.xor_eq_zero_iff.mp hzero)

theorem Tracks.insert (h : Tracks p map f) {address : Nat} {entry : Option Nat} {s : AddressState}
    (hs : s.stored p = some entry) : Tracks p (map.insert address entry) (Function.update f address s) := by
  intro other
  by_cases he : other = address
  · subst he
    rw [AList.lookup_insert, Function.update_self, hs]
  · rw [AList.lookup_insert_ne he, Function.update_of_ne he]
    exact h other

theorem Tracks.keep (h : Tracks p map f) {address : Nat} {s : AddressState} (hs : f address = s) :
    Tracks p map (Function.update f address s) := by
  rw [← hs, Function.update_eq_self]
  exact h

theorem Tracks.startSharing (h : Tracks p map f) (address : Nat) :
    Tracks p (SharingMap.startSharing p map address).1
        (keyed SharingCall.address AddressState.call f (.startSharing address)).1 ∧
      (SharingMap.startSharing p map address).2
        = (keyed SharingCall.address AddressState.call f (.startSharing address)).2 := by
  unfold SharingMap.startSharing keyed
  rw [h address]
  dsimp only [SharingCall.address]
  cases hf : f address with
  | untouched => exact ⟨h.insert rfl, rfl⟩
  | pending => exact ⟨h.keep hf, rfl⟩
  | finished pos =>
      simp only [AddressState.stored, AddressState.call, unmask]
      exact ⟨h.keep hf, trivial⟩

theorem Tracks.finishSharing (h : Tracks p map f) (address : Nat) {pos : Nat}
    (hpos : pos ≠ usizeMax p) :
    Tracks p (SharingMap.finishSharing p map address pos).1
        (keyed SharingCall.address AddressState.call f (.finishSharing address pos)).1 ∧
      (SharingMap.finishSharing p map address pos).2
        = (keyed SharingCall.address AddressState.call f (.finishSharing address pos)).2 := by
  unfold SharingMap.finishSharing keyed
  rw [h address]
  dsimp only [SharingCall.address]
  cases hf : f address with
  | untouched => exact ⟨h.keep hf, rfl⟩
  | pending =>
      -- the one place that a position is stored
      simp only [AddressState.stored, AddressState.call, if_neg (mask_ne_zero hpos)]
      exact ⟨h.insert rfl, trivial⟩
  | finished _ => exact ⟨h.keep hf, rfl⟩

/-- **One call** is answered as by the reference machine of its address, and keeps the relation. -/
theorem Tracks.call (h : Tracks p map f) (hc : c.Legal p) :
    Tracks p (SharingMap.call p map c).1 (keyed SharingCall.address AddressState.call f c).1 ∧
      (SharingMap.call p map c).2 = (keyed SharingCall.address AddressState.call f c).2 := by
  cases c with
  | startSharing address => exact h.startSharing address
  | finishSharing address pos => exact h.finishSharing address hc

/-- A call that fails leaves the table as it was. -/
theorem call_failed {error : SharingError} (he : (SharingMap.call p map c).2 = .failed error) :
    (SharingMap.call p map c).1 = map := by
  cases c with
  | startSharing address =>
      simp only [SharingMap.call, SharingMap.startSharing] at he
      split at he <;> cases he
  | finishSharing address pos =>
      simp only [SharingMap.call, SharingMap.finishSharing] at he ⊢
      cases hl : map.lookup address with
      | none => rfl
      | some entry =>
          cases entry with
          | some masked => rfl
          | none =>
              rw [hl] at he
              dsimp only at he
              split at he <;> cases he

/-- **The sharing table answers like the reference machine**: every sequence of `start_sharing` and
    `finish_sharing`, over any addresses and any positions but `usize::MAX`, from an empty table. An
    address sees its own calls only, it is finished at most once, and the answer to the next call is that
    of the state read off the calls before; a call that fails leaves the table as it was. -/
theorem sharing_follows_reference (p : Params) (history : List SharingCall)
    (hlegal : ∀ c ∈ history, c.Legal p) :
    (calls (SharingMap.call p) ∅ history).2
        = (calls (keyed SharingCall.address AddressState.call) (fun _ => .untouched) history).2 ∧
      (∀ address,
        answersAt SharingCall.address address history (calls (SharingMap.call p) ∅ history).2
            = (calls AddressState.call .untouched (callsAt SharingCall.address address history)).2 ∧
          (answersAt SharingCall.address address history
            (calls (SharingMap.call p) ∅ history).2).count .done ≤ 1) ∧
      ∀ c : SharingCall, c.Legal p →
        (SharingMap.call p (calls (SharingMap.call p) ∅ history).1 c).2
            = (AddressState.call (.ofCalls (callsAt SharingCall.address c.address history)) c).2 ∧
          ∀ error, (SharingMap.call p (calls (SharingMap.call p) ∅ history).1 c).2 = .failed error →
            (SharingMap.call p (calls (SharingMap.call p) ∅ history).1 c).1
              = (calls (SharingMap.call p) ∅ history).1 := by
  have hstep (map : SharingMap) (f : Nat → AddressState) (c : SharingCall) (hc : c.Legal p)
      (h : Tracks p map f) := h.call hc
  obtain ⟨htracks, hanswers⟩ := calls_simulation (SharingCall.Legal p) (Tracks p) hstep hlegal Tracks.empty
  refine ⟨hanswers, fun address => ?_, fun c hc => ⟨?_, fun error => call_failed⟩⟩
  · obtain ⟨-, hown⟩ :=
      calls_keyed_at SharingCall.address AddressState.call (fun _ => .untouched) history address
    rw [hanswers, hown]
    exact ⟨rfl, AddressState.count_done _ _⟩
  · obtain ⟨hstate, -⟩ :=
      calls_keyed_at SharingCall.address AddressState.call (fun _ => .untouched) history c.address
    rw [(htracks.call hc).2, ← AddressState.calls_untouched, ← hstate]
    rfl

theorem sharing_follows_reference_zero :
    (calls (SharingMap.call (.x86_64 true)) ∅ [.startSharing 64, .startSharing 8, .finishSharing 64 0,
        .startSharing 64]).2
      = [.state .started, .state .started, .done, .state (.finished 0)] := by
  rw [(sharing_follows_reference (.x86_64 true) [.startSharing 64, .startSharing 8,
    .finishSharing 64 0, .startSharing 64] (by decide)).1]
  decide

end SharingMap

end RkyvUtils
