import Hiway.Transport.Operation

/-!
# Reuse of an operation slot

A ledger beside the slot holds every request that the backend accepted, with the
preparation it belongs to counted without wrapping. A completion belongs to the request
of its id that is still outstanding; what has no such request completes nothing. The
ledger shows that a generation is reused only when nothing of any earlier one is
outstanding.

* `Inv.completed`: a completion is recognised when its request is outstanding, and then
  counted.
* `stale`: an id that is not the current one changes nothing.
* `run_safe`: for every order of calls a slot is safe to reuse.
-/

namespace Hiway.Transport

/-- A call of the host on the slot, with any id. -/
inductive OperationCall where
  | prepare
  | accepted (id : OpId)
  | cancel
  | cancelAccepted (id : OpId)
  | completed (id : OpId)
  | cancelCompleted (id : OpId)
  | reclaim
  deriving DecidableEq, Repr

namespace Operation

/-- What a call answers. `cancel` has no answer. -/
def call (o : Operation) : OperationCall → Bool × Operation
  | .prepare => (o.prepare.1.isSome, o.prepare.2)
  | .accepted id => o.accepted id
  | .cancel => (true, o.cancel)
  | .cancelAccepted id => o.cancelAccepted id
  | .completed id => o.completed id
  | .cancelCompleted id => o.cancelCompleted id
  | .reclaim => o.reclaim

end Operation

/-- An accepted request. `epoch` is the number of preparations up to its own. -/
structure OperationRequest where
  id : OpId
  epoch : Nat
  complete : Bool
  deriving DecidableEq, Repr

namespace OperationRequest

/-- The requests after the environment has completed the outstanding one of an id. -/
def report (id : OpId) : List OperationRequest → List OperationRequest
  | [] => []
  | r :: rest =>
    if r.id = id ∧ r.complete = false then { r with complete := true } :: rest
    else r :: report id rest

def outstanding (requests : List OperationRequest) : List OperationRequest :=
  requests.filter fun r => !r.complete

/-- A completion that no request waits for. -/
theorem report_of_forall {id : OpId} {requests : List OperationRequest}
    (h : ∀ r ∈ outstanding requests, r.id ≠ id) : report id requests = requests := by
  induction requests with
  | nil => rfl
  | cons r rest ih =>
    have hrest : ∀ q ∈ outstanding rest, q.id ≠ id := fun q hq => h q (by
      unfold outstanding at hq ⊢
      rw [List.filter_cons]
      split
      · exact List.mem_cons_of_mem r hq
      · exact hq)
    have hr : ¬(r.id = id ∧ r.complete = false) := by
      rintro ⟨hid, hopen⟩
      exact h r (List.mem_filter.mpr ⟨List.mem_cons_self, by simp [hopen]⟩) hid
    rw [report, if_neg hr, ih hrest]

/-- The completion of the only request that is outstanding. -/
theorem report_of_outstanding {requests : List OperationRequest} {r q : OperationRequest} {n : Nat}
    (h : outstanding requests = [q]) (hn : requests[n]? = some r) (hr : r.complete = false) :
    r = q ∧ report r.id requests = requests.set n { r with complete := true } ∧
      outstanding (requests.set n { r with complete := true }) = [] := by
  induction requests generalizing n with
  | nil => cases hn
  | cons first rest ih =>
    unfold outstanding at h
    rw [List.filter_cons] at h
    cases n with
    | zero =>
      cases hn
      rw [if_pos (by simp [hr])] at h
      obtain ⟨rfl, hrest⟩ := List.cons.inj h
      refine ⟨rfl, if_pos ⟨rfl, hr⟩, ?_⟩
      rw [List.set_cons_zero, outstanding, List.filter_cons_of_neg (by simp)]
      exact hrest
    | succ n =>
      have hfirst : first.complete = true := by
        by_contra hopen
        rw [if_pos (by simp [hopen])] at h
        have hmem : r ∈ rest.filter fun r => !r.complete :=
          List.mem_filter.mpr ⟨List.mem_of_getElem? hn, by simp [hr]⟩
        rw [(List.cons.inj h).2] at hmem
        cases hmem
      rw [if_neg (by simp [hfirst])] at h
      obtain ⟨heq, hset, hnone⟩ := ih h hn
      refine ⟨heq, ?_, ?_⟩
      · rw [report, if_neg (by simp [hfirst]), hset, List.set_cons_succ]
      · rw [List.set_cons_succ, outstanding, List.filter_cons_of_neg (by simp [hfirst])]
        exact hnone

/-- How many requests have been completed. -/
def completions (requests : List OperationRequest) : Nat :=
  requests.countP fun r => r.complete

theorem completions_set {requests : List OperationRequest} {r : OperationRequest} {n : Nat}
    (hn : requests[n]? = some r) (hr : r.complete = false) :
    completions (requests.set n { r with complete := true }) = completions requests + 1 := by
  induction requests generalizing n with
  | nil => cases hn
  | cons first rest ih =>
    cases n with
    | zero =>
      cases hn
      simp [completions, hr]
    | succ n =>
      have hrest := ih hn
      simp only [completions, List.set_cons_succ, List.countP_cons] at hrest ⊢
      omega

theorem completions_snoc {requests : List OperationRequest} {id : OpId} {epoch : Nat} :
    completions (requests ++ [⟨id, epoch, false⟩]) = completions requests := by
  simp [completions]

theorem outstanding_snoc {requests : List OperationRequest} {id : OpId} {epoch : Nat}
    (h : outstanding requests = []) :
    outstanding (requests ++ [⟨id, epoch, false⟩]) = [⟨id, epoch, false⟩] := by
  unfold outstanding at h ⊢
  rw [List.filter_append, h]
  rfl

/-- What is outstanding can be found. -/
theorem exists_of_outstanding {requests : List OperationRequest} {q : OperationRequest}
    (h : outstanding requests = [q]) :
    ∃ n : Nat, requests[n]? = some q ∧ q.complete = false := by
  have hmem : q ∈ outstanding requests := by
    rw [h]
    exact List.mem_singleton_self q
  obtain ⟨hq, hopen⟩ := List.mem_filter.mp hmem
  obtain ⟨n, hn⟩ := List.getElem?_of_mem hq
  exact ⟨n, hn, by simpa using hopen⟩

/-- The completion of what is outstanding leaves nothing outstanding and counts once. -/
theorem report_only {requests : List OperationRequest} {q : OperationRequest}
    (h : outstanding requests = [q]) :
    outstanding (report q.id requests) = [] ∧
      completions (report q.id requests) = completions requests + 1 := by
  obtain ⟨n, hn, hq⟩ := exists_of_outstanding h
  obtain ⟨-, hset, hnone⟩ := report_of_outstanding h hn hq
  rw [hset]
  exact ⟨hnone, completions_set hn hq⟩

end OperationRequest

/-- A slot, the originals and the cancellations accepted for it, the preparations for
which a cancellation was requested, and how many completions it has recognised. -/
structure OperationLedger where
  operation : Operation
  epoch : Nat
  originals : List OperationRequest
  cancels : List OperationRequest
  requested : List Nat
  recognised : Nat
  deriving DecidableEq, Repr

namespace OperationLedger

def start (slot : UInt32) : OperationLedger := ⟨.new slot, 0, [], [], [], 0⟩

/-- One call. Every completion is entered, whether or not the slot recognises it. -/
def step (s : OperationLedger) (c : OperationCall) : OperationLedger :=
  let (answer, o) := s.operation.call c
  let recognised := s.recognised + if answer then 1 else 0
  match c with
  | .prepare =>
    { s with operation := o, epoch := if answer then s.epoch + 1 else s.epoch }
  | .accepted id =>
    { s with
      operation := o
      originals := if answer then s.originals ++ [⟨id, s.epoch, false⟩] else s.originals }
  | .cancel =>
    { s with
      operation := o
      requested :=
        if s.operation.cancellation.isNone ∧ o.cancellation.isSome then s.requested ++ [s.epoch]
        else s.requested }
  | .cancelAccepted id =>
    { s with
      operation := o
      cancels := if answer then s.cancels ++ [⟨id, s.epoch, false⟩] else s.cancels }
  | .completed id =>
    { s with
      operation := o
      originals := OperationRequest.report id s.originals
      recognised := recognised }
  | .cancelCompleted id =>
    { s with
      operation := o
      cancels := OperationRequest.report id s.cancels
      recognised := recognised }
  | .reclaim => { s with operation := o }

def run (s : OperationLedger) (calls : List OperationCall) : OperationLedger :=
  calls.foldl step s

/-! ## What the slot knows of the ledger -/

open OperationRequest

/-- The phases of the slot and of its cancellation say what is outstanding. -/
structure Inv (slot : UInt32) (s : OperationLedger) : Prop where
  id : s.operation.id = ⟨slot, UInt32.ofNat s.epoch⟩
  originals : outstanding s.originals =
    if s.operation.phase = .submitted then [⟨s.operation.id, s.epoch, false⟩] else []
  cancels : outstanding s.cancels =
    if s.operation.cancellationState = .submitted then [⟨s.operation.id, s.epoch, false⟩] else []
  idle : s.operation.phase = .available ∨ s.operation.phase = .prepared →
    s.operation.cancellationState = .none
  past : ∀ e ∈ s.requested, e ≤ s.epoch
  once : s.requested.Nodup
  unrequested : s.operation.phase = .prepared ∨
      s.operation.phase = .submitted ∧ s.operation.cancellationState = .none →
    s.epoch ∉ s.requested
  recognised : s.recognised = completions s.originals + completions s.cancels

theorem inv_start (slot : UInt32) : (start slot).Inv slot where
  id := rfl
  originals := rfl
  cancels := rfl
  idle _ := rfl
  past _ h := nomatch h
  once := List.nodup_nil
  unrequested _ := List.not_mem_nil
  recognised := rfl

section Steps

variable {slot : UInt32} {s : OperationLedger}

theorem Inv.prepare (h : s.Inv slot) : (s.step .prepare).Inv slot := by
  obtain ⟨⟨id, phase, cancellation⟩, epoch, originals, cancels, requested, recognised⟩ := s
  obtain ⟨hid, horiginals, hcancels, hidle, hpast, honce, hunrequested, hrecognised⟩ := h
  dsimp only at *
  by_cases hphase : phase = .available
  · subst hphase
    have hnone : cancellation = .none := hidle (Or.inl rfl)
    subst hnone hid
    refine ⟨?_, horiginals, hcancels, fun _ => rfl, fun e he => Nat.le_succ_of_le (hpast e he),
      honce, fun _ he => ?_, hrecognised⟩
    · simp [step, Operation.call, Operation.prepare, UInt32.ofNat_add]
    · exact absurd (hpast _ he) (Nat.not_succ_le_self epoch)
  · have hsame : step ⟨⟨id, phase, cancellation⟩, epoch, originals, cancels, requested, recognised⟩
        .prepare = ⟨⟨id, phase, cancellation⟩, epoch, originals, cancels, requested, recognised⟩ := by
      simp [step, Operation.call, Operation.prepare, hphase]
    rw [hsame]
    exact ⟨hid, horiginals, hcancels, hidle, hpast, honce, hunrequested, hrecognised⟩

theorem Inv.accepted (h : s.Inv slot) (id : OpId) : (s.step (.accepted id)).Inv slot := by
  by_cases hok : id ≠ s.operation.id ∨ s.operation.phase ≠ .prepared
  · simpa [step, Operation.call, Operation.accepted, if_pos hok] using h
  · obtain ⟨⟨current, phase, cancellation⟩, epoch, originals, cancels, requested, recognised⟩ := s
    obtain ⟨hid, horiginals, hcancels, hidle, hpast, honce, hunrequested, hrecognised⟩ := h
    dsimp only at *
    rw [not_or, not_not, not_not] at hok
    obtain ⟨rfl, rfl⟩ := hok
    have hnone : cancellation = .none := hidle (Or.inr rfl)
    subst hnone
    simp only [step, Operation.call, Operation.accepted, ne_eq, not_true_eq_false, or_self, if_false,
      if_true]
    refine ⟨hid, outstanding_snoc horiginals, hcancels, fun _ => rfl, hpast, honce,
      fun _ => hunrequested (Or.inl rfl), ?_⟩
    rw [completions_snoc]
    exact hrecognised

theorem Inv.cancel (h : s.Inv slot) : (s.step .cancel).Inv slot := by
  obtain ⟨⟨id, phase, cancellation⟩, epoch, originals, cancels, requested, recognised⟩ := s
  obtain ⟨hid, horiginals, hcancels, hidle, hpast, honce, hunrequested, hrecognised⟩ := h
  dsimp only at *
  cases phase with
  | available =>
    have hnone : cancellation = .none := hidle (Or.inl rfl)
    subst hnone
    exact ⟨hid, horiginals, hcancels, hidle, hpast, honce, hunrequested, hrecognised⟩
  | prepared =>
    have hnone : cancellation = .none := hidle (Or.inr rfl)
    subst hnone
    exact ⟨hid, horiginals, hcancels, nofun, hpast, honce, nofun, hrecognised⟩
  | completed =>
    have hsame : step ⟨⟨id, .completed, cancellation⟩, epoch, originals, cancels, requested,
        recognised⟩ .cancel =
          ⟨⟨id, .completed, cancellation⟩, epoch, originals, cancels, requested, recognised⟩ := by
      cases cancellation <;> rfl
    rw [hsame]
    exact ⟨hid, horiginals, hcancels, hidle, hpast, honce, hunrequested, hrecognised⟩
  | submitted =>
    by_cases hnone : cancellation = .none
    · subst hnone
      have hnew : epoch ∉ requested := hunrequested (Or.inr ⟨rfl, rfl⟩)
      refine ⟨hid, horiginals, hcancels, nofun, fun e he => ?_, ?_, nofun, hrecognised⟩
      · rcases List.mem_append.mp he with he | he
        · exact hpast e he
        · exact (List.mem_singleton.mp he).le
      · refine List.nodup_append.mpr ⟨honce, List.nodup_singleton epoch, fun a ha b hb heq => ?_⟩
        obtain rfl : a = epoch := heq.trans (List.mem_singleton.mp hb)
        exact hnew ha
    · have hsame : step ⟨⟨id, .submitted, cancellation⟩, epoch, originals, cancels, requested,
          recognised⟩ .cancel =
            ⟨⟨id, .submitted, cancellation⟩, epoch, originals, cancels, requested, recognised⟩ := by
        cases cancellation <;> first | rfl | exact absurd rfl hnone
      rw [hsame]
      exact ⟨hid, horiginals, hcancels, hidle, hpast, honce, hunrequested, hrecognised⟩

theorem Inv.cancelAccepted (h : s.Inv slot) (id : OpId) :
    (s.step (.cancelAccepted id)).Inv slot := by
  by_cases hok : s.operation.cancellation = some id
  · obtain ⟨⟨current, phase, cancellation⟩, epoch, originals, cancels, requested, recognised⟩ := s
    obtain ⟨hid, horiginals, hcancels, hidle, hpast, honce, hunrequested, hrecognised⟩ := h
    have hrequested : cancellation = .requested := by
      by_contra hne
      simp [Operation.cancellation, hne] at hok
    subst hrequested
    obtain rfl : current = id := by simpa [Operation.cancellation] using hok
    dsimp only at *
    simp only [step, Operation.call, Operation.cancelAccepted, hok, ne_eq, not_true_eq_false,
      if_false, if_true]
    refine ⟨hid, horiginals, outstanding_snoc hcancels, fun hphase => ?_, hpast, honce, ?_, ?_⟩
    · cases hidle hphase
    · rintro (rfl | ⟨-, hnone⟩)
      · exact hunrequested (Or.inl rfl)
      · cases hnone
    · rw [completions_snoc]
      exact hrecognised
  · simpa [step, Operation.call, Operation.cancelAccepted, hok] using h

/-- A completion is recognised when the request is outstanding, and then counted. -/
theorem Inv.completed (h : s.Inv slot) (id : OpId) : (s.step (.completed id)).Inv slot := by
  obtain ⟨⟨current, phase, cancellation⟩, epoch, originals, cancels, requested, recognised⟩ := s
  obtain ⟨hid, horiginals, hcancels, hidle, hpast, honce, hunrequested, hrecognised⟩ := h
  dsimp only at *
  by_cases hok : current ≠ id ∨ phase ≠ .submitted
  · have hnone : ∀ r ∈ outstanding originals, r.id ≠ id := by
      intro r hr
      rw [horiginals] at hr
      split at hr
      · rename_i hphase
        rw [List.mem_singleton.mp hr]
        exact hok.resolve_right (not_not.mpr hphase)
      · cases hr
    simp only [step, Operation.call, Operation.completed, if_pos hok, report_of_forall hnone]
    exact ⟨hid, horiginals, hcancels, hidle, hpast, honce, hunrequested, hrecognised⟩
  · rw [not_or, not_not, not_not] at hok
    obtain ⟨rfl, rfl⟩ := hok
    obtain ⟨hempty, hcount⟩ := report_only horiginals
    simp only [step, Operation.call, Operation.completed, ne_eq, not_true_eq_false, or_self,
      if_false, if_true]
    refine ⟨hid, hempty, ?_, nofun, hpast, honce, nofun, ?_⟩
    · cases cancellation <;> exact hcancels
    · change recognised + 1 = completions (report current originals) + completions cancels
      rw [hcount, hrecognised]
      omega

theorem Inv.cancelCompleted (h : s.Inv slot) (id : OpId) :
    (s.step (.cancelCompleted id)).Inv slot := by
  obtain ⟨⟨current, phase, cancellation⟩, epoch, originals, cancels, requested, recognised⟩ := s
  obtain ⟨hid, horiginals, hcancels, hidle, hpast, honce, hunrequested, hrecognised⟩ := h
  dsimp only at *
  by_cases hok : current ≠ id ∨ cancellation ≠ .submitted
  · have hnone : ∀ r ∈ outstanding cancels, r.id ≠ id := by
      intro r hr
      rw [hcancels] at hr
      split at hr
      · rename_i hsubmitted
        rw [List.mem_singleton.mp hr]
        exact hok.resolve_right (not_not.mpr hsubmitted)
      · cases hr
    simp only [step, Operation.call, Operation.cancelCompleted, if_pos hok, report_of_forall hnone]
    exact ⟨hid, horiginals, hcancels, hidle, hpast, honce, hunrequested, hrecognised⟩
  · rw [not_or, not_not, not_not] at hok
    obtain ⟨rfl, rfl⟩ := hok
    obtain ⟨hempty, hcount⟩ := report_only hcancels
    simp only [step, Operation.call, Operation.cancelCompleted, ne_eq, not_true_eq_false, or_self,
      if_false, if_true]
    refine ⟨hid, horiginals, hempty, fun hphase => ?_, hpast, honce, ?_, ?_⟩
    · cases hidle hphase
    · rintro (rfl | ⟨-, hnone⟩)
      · exact hunrequested (Or.inl rfl)
      · cases hnone
    · change recognised + 1 = completions originals + completions (report current cancels)
      rw [hcount, hrecognised]
      omega

theorem Inv.reclaim (h : s.Inv slot) : (s.step .reclaim).Inv slot := by
  by_cases hok : s.operation.phase ≠ .completed ∨ s.operation.cancellationState = .submitted
  · simpa [step, Operation.call, Operation.reclaim, if_pos hok] using h
  · obtain ⟨⟨id, phase, cancellation⟩, epoch, originals, cancels, requested, recognised⟩ := s
    obtain ⟨hid, horiginals, hcancels, hidle, hpast, honce, hunrequested, hrecognised⟩ := h
    dsimp only at *
    rw [not_or, not_not] at hok
    obtain ⟨rfl, hcancellation⟩ := hok
    simp only [step, Operation.call, Operation.reclaim, hcancellation, ne_eq, not_true_eq_false,
      or_self, if_false]
    rw [if_neg hcancellation] at hcancels
    exact ⟨hid, horiginals, hcancels, fun _ => rfl, hpast, honce, nofun, hrecognised⟩

theorem Inv.step (h : s.Inv slot) (c : OperationCall) : (s.step c).Inv slot := by
  cases c with
  | prepare => exact h.prepare
  | accepted id => exact h.accepted id
  | cancel => exact h.cancel
  | cancelAccepted id => exact h.cancelAccepted id
  | completed id => exact h.completed id
  | cancelCompleted id => exact h.cancelCompleted id
  | reclaim => exact h.reclaim

theorem Inv.run (h : s.Inv slot) (calls : List OperationCall) : (s.run calls).Inv slot := by
  induction calls generalizing s with
  | nil => exact h
  | cons c rest ih => exact ih (h.step c)

end Steps

/-! ## Reuse -/

/-- A slot is reused only when nothing is outstanding, recognises each completion that a
request waits for and no other, and asks for at most one cancellation a generation. -/
structure Safe (slot : UInt32) (s : OperationLedger) : Prop where
  generation : s.operation.id = ⟨slot, UInt32.ofNat s.epoch⟩
  reuse : s.operation.prepare.1.isSome →
    (∀ r ∈ s.originals, r.complete = true) ∧ ∀ r ∈ s.cancels, r.complete = true
  stale : ∀ id, id ≠ s.operation.id →
    s.operation.accepted id = (false, s.operation) ∧
      s.operation.completed id = (false, s.operation) ∧
        s.operation.cancelAccepted id = (false, s.operation) ∧
          s.operation.cancelCompleted id = (false, s.operation)
  original : ∀ (n : Nat) r, s.originals[n]? = some r → r.complete = false →
    (s.operation.completed r.id).1 = true ∧
      (s.step (.completed r.id)).originals = s.originals.set n { r with complete := true }
  originalOnce : ∀ id, (∀ r ∈ s.originals, r.id = id → r.complete = true) →
    s.operation.completed id = (false, s.operation)
  cancel : ∀ (n : Nat) r, s.cancels[n]? = some r → r.complete = false →
    (s.operation.cancelCompleted r.id).1 = true ∧
      (s.step (.cancelCompleted r.id)).cancels = s.cancels.set n { r with complete := true }
  cancelOnce : ∀ id, (∀ r ∈ s.cancels, r.id = id → r.complete = true) →
    s.operation.cancelCompleted id = (false, s.operation)
  recognised : s.recognised = completions s.originals + completions s.cancels
  requested : s.requested.Nodup
  abandoned : s.operation.phase = .prepared → s.operation.cancel.reclaim.1 = true

theorem Inv.original {slot : UInt32} {s : OperationLedger} (h : s.Inv slot) {n : Nat}
    {r : OperationRequest} (hn : s.originals[n]? = some r) (hr : r.complete = false) :
    (s.operation.completed r.id).1 = true ∧
      (s.step (.completed r.id)).originals = s.originals.set n { r with complete := true } := by
  have hmem : r ∈ outstanding s.originals :=
    List.mem_filter.mpr ⟨List.mem_of_getElem? hn, by simp [hr]⟩
  have horiginals := h.originals
  split at horiginals
  · rename_i hphase
    obtain ⟨rfl, hset, -⟩ := report_of_outstanding horiginals hn hr
    exact ⟨by simp [Operation.completed, hphase], hset⟩
  · rw [horiginals] at hmem
    cases hmem

theorem Inv.cancelled {slot : UInt32} {s : OperationLedger} (h : s.Inv slot) {n : Nat}
    {r : OperationRequest} (hn : s.cancels[n]? = some r) (hr : r.complete = false) :
    (s.operation.cancelCompleted r.id).1 = true ∧
      (s.step (.cancelCompleted r.id)).cancels = s.cancels.set n { r with complete := true } := by
  have hmem : r ∈ outstanding s.cancels :=
    List.mem_filter.mpr ⟨List.mem_of_getElem? hn, by simp [hr]⟩
  have hcancels := h.cancels
  split at hcancels
  · rename_i hsubmitted
    obtain ⟨rfl, hset, -⟩ := report_of_outstanding hcancels hn hr
    exact ⟨by simp [Operation.cancelCompleted, hsubmitted], hset⟩
  · rw [hcancels] at hmem
    cases hmem

theorem complete_of_outstanding {requests : List OperationRequest} (h : outstanding requests = []) :
    ∀ r ∈ requests, r.complete = true := by
  intro r hr
  simpa using List.filter_eq_nil_iff.mp h r hr

/-- An id that is not the current one changes nothing. -/
theorem stale (o : Operation) {id : OpId} (h : id ≠ o.id) :
    o.accepted id = (false, o) ∧ o.completed id = (false, o) ∧
      o.cancelAccepted id = (false, o) ∧ o.cancelCompleted id = (false, o) := by
  refine ⟨if_pos (Or.inl h), if_pos (Or.inl h.symm), if_pos ?_, if_pos (Or.inl h.symm)⟩
  unfold Operation.cancellation
  split
  · exact fun heq => h (Option.some.inj heq).symm
  · exact nofun

/-- For every order of calls a slot is safe to reuse. -/
theorem run_safe (slot : UInt32) (calls : List OperationCall) :
    ((start slot).run calls).Safe slot := by
  generalize hs : (start slot).run calls = s
  have h : s.Inv slot := hs ▸ (inv_start slot).run calls
  constructor
  case generation => exact h.id
  case recognised => exact h.recognised
  case requested => exact h.once
  case stale => exact fun id hid => stale s.operation hid
  case original => exact fun n r hn hr => h.original hn hr
  case cancel => exact fun n r hn hr => h.cancelled hn hr
  case reuse =>
    intro hprepare
    have hphase : s.operation.phase = .available := by
      by_contra hne
      rw [Operation.prepare, if_pos hne] at hprepare
      cases hprepare
    have horiginals := h.originals
    have hcancels := h.cancels
    rw [if_neg (by simp [hphase])] at horiginals
    rw [if_neg (by simp [h.idle (Or.inl hphase)])] at hcancels
    exact ⟨complete_of_outstanding horiginals, complete_of_outstanding hcancels⟩
  case originalOnce =>
    intro id hall
    refine if_pos (not_and_or.mp ?_)
    rintro ⟨hid, hphase⟩
    have horiginals := h.originals
    rw [if_pos hphase] at horiginals
    obtain ⟨n, hn, hopen⟩ := exists_of_outstanding horiginals
    rw [hall _ (List.mem_of_getElem? hn) hid] at hopen
    cases hopen
  case cancelOnce =>
    intro id hall
    refine if_pos (not_and_or.mp ?_)
    rintro ⟨hid, hsubmitted⟩
    have hcancels := h.cancels
    rw [if_pos hsubmitted] at hcancels
    obtain ⟨n, hn, hopen⟩ := exists_of_outstanding hcancels
    rw [hall _ (List.mem_of_getElem? hn) hid] at hopen
    cases hopen
  case abandoned =>
    intro hphase
    simp [Operation.cancel, Operation.reclaim, hphase, h.idle (Or.inr hphase)]

end OperationLedger

end Hiway.Transport
