import Hiway.Uring.Dispatch
import Hiway.Uring.Runs

/-!
# Dispatching in runs of a host

Nothing that a host does between two dispatches takes work out of a slot or moves the
cursor: attachments, passes, cancellation and what futures do can only add work. The
dispatches of a run are therefore calls in a row as `Driver.Calls` has them, whatever
happens between them.

* `Driver.Queues.advanceWith`: a pass queues work and takes none, as does each function that
  it is made of.
* `Host.step_queues`: the same for every event that is not a dispatch.
* `Host.calls_calls`: the dispatches of a run are calls in a row.
* `Host.run_dispatch_fair`: in every run each dispatch is fair, and from any state of it on
  a slot with work is dispatched by one of the next `links` dispatches.
-/

namespace Hiway.Uring

open Exec Target Transport

namespace Shared

/-! ## The shared state -/

namespace Keeps

variable {G : Type} {links : Nat} {s t : Shared G links} {index : Fin links}

theorem setOperation (s : Shared G links) (index : Fin links) (lane : Lane)
    (operation : Operation) : s.Keeps (s.update index (·.setOperation lane operation)) :=
  update (f := (·.setOperation lane operation)) index fun h => h

/-- A closed slot may ask for its reclamation. -/
theorem refresh (s : Shared G links) (index : Fin links) : s.Keeps (s.refresh index) := by
  refine update index fun h => ?_
  unfold Slot.refresh
  split
  · rw [Work.isEmpty_eq_false] at h ⊢
    refine h.imp_right (Or.imp_left fun hreclaim => ?_)
    change ((s.slots index).work.reclaim || _) = true
    rw [hreclaim, Bool.true_or]
  · exact h

theorem popRecord (s : Shared G links) : s.Keeps s.popRecord.2 := by
  intro other h
  obtain ⟨protocol, hslot, -⟩ := s.popRecord_slots other
  rw [hslot]
  exact h

theorem attached [NeZero links] (s : Shared G links) (index : Fin links) (a : Attachment G)
    (p : Protocol) : s.Keeps (s.attached index a p) := by
  intro other h
  by_cases heq : other = index
  · subst heq
    rw [attached_self]
    exact h
  · rw [attached_of_ne heq]
    exact h

variable [Target]

theorem refuse {error : TopicError} (h : Driver.refuse s index error = .ok t) : s.Keeps t := by
  unfold Driver.refuse at h
  split at h
  · cases h
    exact contended s index true
  · split at h
    · cases h
      exact refl s
    · obtain ⟨⟨q, result, u⟩, hinput, h⟩ := bind_eq_ok.mp h
      cases h
      exact (input hinput).trans (wakeIf u index true)

variable [NeZero links]

theorem shut (h : s.shut index = .ok t) : s.Keeps t := by
  unfold Shared.shut at h
  split at h
  · cases h
    exact refl s
  · rename_i p hp
    obtain ⟨⟨q, result, u⟩, hinput, h⟩ := bind_eq_ok.mp h
    have hkeeps := ((wakeIf s index p.closed.isNone).trans (input hinput)).trans
      (contended u index false)
    dsimp only at h
    split at h
    · cases h
      exact hkeeps.trans (queue _ index)
    · cases h
      exact hkeeps

theorem cancelSlot (h : s.cancelSlot index = .ok t) : s.Keeps t := by
  obtain ⟨u, hshut, h⟩ := bind_eq_ok.mp h
  cases h
  exact (shut hshut).trans (refresh u index)

theorem cancelAll (h : s.cancelAll = .ok t) : s.Keeps t := by
  have hstop : s.Keeps s.stopAdmission := fun _ h => h
  exact steps_preserves (P := s.Keeps) (fun _ _ _ hu hslot => hu.trans (cancelSlot hslot)) hstop h

theorem scanSlot {replies replies' : List (Reply links)}
    (h : Driver.scanSlot index replies s = .ok (replies', t)) : s.Keeps t := by
  have hclear := contended s index false
  unfold Driver.scanSlot at h
  dsimp only at h
  split at h
  · obtain ⟨u, hacts, h⟩ := bind_eq_ok.mp h
    have hkeeps := hclear.trans (acts hacts)
    split at h
    · split at h
      · obtain ⟨⟨q, result, v⟩, hinput, h⟩ := bind_eq_ok.mp h
        cases h
        exact (hkeeps.trans (input hinput)).trans ((wakeIf v index true).trans (queue _ index))
      · cases h
        exact hkeeps
    · cases h
      exact hkeeps
  · cases h
    exact hclear

theorem scanAuthority {replies replies' : List (Reply links)}
    (h : Driver.scanAuthority replies s = .ok (replies', t)) : s.Keeps t :=
  steps_preserves (P := fun x : List (Reply links) × Shared G links => s.Keeps x.2)
    (fun _ _ _ hu hslot => hu.trans (scanSlot hslot)) (refl s) h

end Keeps

end Shared

namespace Driver

/-! ## A pass -/

namespace Queues

variable {G : Type} {links : Nat} {d d' : Driver G links} {index : Fin links} {lane : Lane}
  {id : OpId} {cqe : Cqe} {mode : Admission} {budget : Budget} {replies : List (Reply links)}
  {bytes round : Nat}

theorem setOperation (d : Driver G links) (index : Fin links) (lane : Lane)
    (operation : Operation) : d.Queues (d.update index (·.setOperation lane operation)) :=
  ⟨rfl, .setOperation d.shared index lane operation⟩

theorem defer (d : Driver G links) (mode : Admission) (index : Fin links) :
    d.Queues (d.defer mode index) := by
  unfold Driver.defer
  split
  · refine ⟨rfl, Shared.Keeps.update (f := fun slot =>
      { slot with work := { slot.work with notifyAuthority := true } }) index fun _ => ?_⟩
    rw [Work.isEmpty_eq_false]
    exact Or.inr (Or.inr rfl)
  · exact refl d

theorem conclude [NeZero links] {submitted : Option Lane}
    (h : d.conclude index submitted = .ok d') : d.Queues d' := by
  have hend : ∀ (e : Driver G links) (pending : Option Lane), d.Queues e →
      d.Queues (if pending.isSome then
          { e with shared := (e.shared.refresh index).queue index }
        else { e with shared := e.shared.refresh index }) := by
    intro e pending he
    have hrefresh : d.Queues { e with shared := e.shared.refresh index } :=
      he.trans ⟨rfl, .refresh e.shared index⟩
    split
    · exact hrefresh.trans ⟨rfl, .queue _ index⟩
    · exact hrefresh
  unfold Driver.conclude at h
  obtain ⟨pending, -, h⟩ := bind_eq_ok.mp h
  cases submitted with
  | some lane =>
    have hlane : d.Queues (d.update index fun slot =>
        { slot with nextLane := (laneNumber lane + 1) % 3 }) :=
      ⟨rfl, Shared.Keeps.update (f := fun slot =>
        { slot with nextLane := (laneNumber lane + 1) % 3 }) index fun h => h⟩
    cases h
    exact hend _ pending hlane
  | none =>
    cases h
    exact hend d pending (refl d)

theorem wait [NeZero links] (d : Driver G links) (taken : Option Nat) :
    d.Queues (d.wait taken) := by
  unfold Driver.wait
  split
  · exact refl d
  · exact ⟨rfl, .refl _⟩

variable [Target]

theorem completeRequest (h : d.completeRequest index lane id cqe = .ok d') : d.Queues d' := by
  unfold Driver.completeRequest at h
  split at h
  · cases h
    exact refl d
  · obtain ⟨effect, -, h⟩ := bind_eq_ok.mp h
    obtain ⟨⟨q, result, u⟩, hinput, h⟩ := bind_eq_ok.mp h
    obtain ⟨after, -, h⟩ := bind_eq_ok.mp h
    cases h
    have hhint : d.shared.Keeps (d.takeHint index lane cqe.result).shared :=
      Shared.Keeps.update (f := fun slot => { slot with receiveHints := _ }) index fun h => h
    exact ⟨rfl, (hhint.trans (.input hinput)).trans (.wakeIf u index _)⟩

theorem settle (h : d.settle index lane id cqe = .ok d') : d.Queues d' := by
  unfold Driver.settle at h
  dsimp only at h
  split at h
  -- a cancellation has completed
  · cases h
    exact setOperation d index lane _
  · split at h
    · exact (setOperation d index lane _).trans (completeRequest h)
    · cases h
      exact refl d

theorem cancel {attempt : Attempt} (h : d.cancel index lane = .ok (attempt, d')) :
    d.Queues d' := by
  unfold Driver.cancel at h
  dsimp only at h
  split at h
  · cases h
    exact refl d
  · split at h
    · cases h
      exact refl d
    · obtain ⟨pending, -, h⟩ := bind_eq_ok.mp h
      cases h
      exact ⟨rfl, .setOperation d.shared index lane _⟩

theorem submitEntered {attempt : Attempt}
    (h : d.submitEntered index lane bytes = .ok (attempt, d')) : d.Queues d' := by
  unfold Driver.submitEntered at h
  dsimp only at h
  split at h
  · cases h
    exact refl d
  · obtain ⟨effect, -, h⟩ := bind_eq_ok.mp h
    split at h
    · cases h
      exact refl d
    · split at h
      · cases h
        exact refl d
      · split at h
        · cases h
          exact refl d
        · split at h
          -- the generations of the operation are spent, and the link closes
          · obtain ⟨⟨q, result, u⟩, hinput, h⟩ := bind_eq_ok.mp h
            cases h
            exact ⟨rfl, (Shared.Keeps.input hinput).trans (.wakeIf u index true)⟩
          · rename_i id operation hprepared
            have hoperation := setOperation d index lane operation
            obtain ⟨sockets, -, h⟩ := bind_eq_ok.mp h
            split at h
            · cases h
              exact hoperation
            · rename_i opcode hint hrequest
              split at h
              · cases h
                exact hoperation
              · obtain ⟨pending, -, h⟩ := bind_eq_ok.mp h
                obtain ⟨⟨q, result, u⟩, hinput, h⟩ := bind_eq_ok.mp h
                cases h
                have haccepted := Shared.Keeps.update
                  (s := d.shared.update index (·.setOperation lane operation))
                  (f := fun slot => { slot.setOperation lane (operation.accepted id).2 with
                    receiveHints := slot.receiveHints.set lane hint }) index fun h => h
                exact ⟨rfl, (hoperation.work.trans haccepted).trans (.input hinput)⟩

variable [NeZero links]

theorem complete (h : d.complete cqe = .ok d') : d.Queues d' := by
  unfold Driver.complete at h
  dsimp only at h
  split at h
  · obtain ⟨e, hsettle, h⟩ := bind_eq_ok.mp h
    cases h
    have hrecycle : ∀ index lane, e.Queues (e.recycle index lane) := fun index lane =>
      ⟨rfl, (Shared.Keeps.setOperation e.shared index lane _).trans (.queue _ index)⟩
    exact (settle hsettle).trans (hrecycle _ _)
  · cases h
    exact refl d

theorem consume {fuel completed : Nat} (h : d.consume fuel = .ok (completed, d')) :
    d.Queues d' := by
  induction fuel generalizing d completed with
  | zero =>
    cases h
    exact refl _
  | succ fuel ih =>
    unfold Driver.consume at h
    split at h
    · cases h
      exact refl _
    · rename_i cqe ring hnext
      obtain ⟨pending, -, h⟩ := bind_eq_ok.mp h
      obtain ⟨e, hcomplete, h⟩ := bind_eq_ok.mp h
      obtain ⟨⟨count, e'⟩, hconsume, h⟩ := bind_eq_ok.mp h
      cases h
      have hring : d.Queues { d with ring := ring, pendingCompletions := pending } :=
        ⟨rfl, .refl _⟩
      exact (hring.trans (complete hcomplete)).trans (ih hconsume)

theorem submit {submission : Submission G links}
    (h : Driver.submit mode d index lane bytes replies = .ok submission) :
    d.Queues submission.driver := by
  unfold Driver.submit at h
  obtain ⟨offers, -, h⟩ := bind_eq_ok.mp h
  split at h
  · cases h
    exact refl d
  · split at h
    · cases h
      exact refl d
    · split at h
      · cases h
        exact refl d
      · obtain ⟨s, hacts, h⟩ := bind_eq_ok.mp h
        have hentered : d.Queues { d.defer mode index with shared := s } :=
          (defer d mode index).trans ⟨rfl, .acts hacts⟩
        dsimp only at h
        split at h
        · obtain ⟨⟨attempt, e⟩, hsubmit, h⟩ := bind_eq_ok.mp h
          obtain ⟨u, hafter, h⟩ := bind_eq_ok.mp h
          cases h
          exact (hentered.trans (submitEntered hsubmit)).trans ⟨rfl, .acts hafter⟩
        · obtain ⟨u, hrefuse, h⟩ := bind_eq_ok.mp h
          cases h
          exact hentered.trans ⟨rfl, .refuse hrefuse⟩

theorem attempt {lane : Option Lane} {submission : Submission G links}
    (h : Driver.attempt mode d index bytes replies = .ok (lane, submission)) :
    d.Queues submission.driver := by
  unfold Driver.attempt at h
  obtain ⟨chosen, -, h⟩ := bind_eq_ok.mp h
  split at h
  · cases h
    exact refl d
  · split at h
    · obtain ⟨⟨attempt, e⟩, hcancel, h⟩ := bind_eq_ok.mp h
      cases h
      exact cancel hcancel
    · obtain ⟨submission', hsubmit, h⟩ := bind_eq_ok.mp h
      cases h
      exact submit hsubmit

variable {p q : Pass G links}

theorem turn (h : Driver.turn mode budget round p = .ok q) : p.driver.Queues q.driver := by
  unfold Driver.turn at h
  obtain ⟨⟨index, ready⟩, -, h⟩ := bind_eq_ok.mp h
  obtain ⟨bytes, -, h⟩ := bind_eq_ok.mp h
  obtain ⟨⟨lane, submission⟩, hattempt, h⟩ := bind_eq_ok.mp h
  obtain ⟨e, hconclude, h⟩ := bind_eq_ok.mp h
  cases h
  have hpop : p.driver.Queues { p.driver with
      shared := { p.driver.shared with ready := ready }.refresh index } :=
    ⟨rfl, Shared.Keeps.refresh { p.driver.shared with ready := ready } index⟩
  exact (hpop.trans (attempt hattempt)).trans (conclude hconclude)

theorem turns {fuel : Nat} (h : Driver.turns mode budget round fuel p = .ok q) :
    p.driver.Queues q.driver := by
  induction fuel generalizing p with
  | zero =>
    cases h
    exact refl _
  | succ fuel ih =>
    unfold Driver.turns at h
    split at h
    · cases h
      exact refl _
    · obtain ⟨p', hturn, h⟩ := bind_eq_ok.mp h
      exact (turn hturn).trans (ih h)

theorem rounds {fuel : Nat} (h : Driver.rounds mode budget round fuel p = .ok q) :
    p.driver.Queues q.driver := by
  induction fuel generalizing p round with
  | zero =>
    cases h
    exact refl _
  | succ fuel ih =>
    unfold Driver.rounds at h
    obtain ⟨p', hturns, h⟩ := bind_eq_ok.mp h
    split at h
    · cases h
      exact turns hturns
    · exact (turns hturns).trans (ih h)

/-- A pass queues work and takes none. -/
theorem advanceWith {script : Script links} {progress : Progress G links}
    (h : d.advanceWith mode budget script = .ok (some progress)) :
    d.Queues progress.driver := by
  unfold Driver.advanceWith at h
  split at h
  · cases h
  · obtain ⟨⟨completed, e⟩, hconsume, h⟩ := bind_eq_ok.mp h
    obtain ⟨⟨replies, s⟩, hscan, h⟩ := bind_eq_ok.mp h
    obtain ⟨p, hrounds, h⟩ := bind_eq_ok.mp h
    obtain ⟨ready, -, h⟩ := bind_eq_ok.mp h
    cases h
    have hscanned : e.Queues { e with shared := s } := ⟨rfl, .scanAuthority hscan⟩
    have hpass := ((consume hconsume).trans hscanned).trans (rounds hrounds)
    dsimp only
    split
    · exact ⟨hpass.cursor, hpass.work⟩
    · exact ⟨hpass.cursor, hpass.work⟩

end Queues

end Driver

/-! ## Runs -/

/-- A call of `dispatch_with_budget` with a budget. -/
def Event.dispatches {G : Type} {links : Nat} : Event G links → Bool
  | .dispatch budget _ => budget ≠ 0
  | _ => false

namespace Host

variable [Target] {G : Type} {links bytes : Nat} [NeZero links] {h h' : Host G links}

/-- The call of `dispatch_with_budget` that an event is, if it is one with a budget. -/
def called (h : Host G links) : Event G links → List (Driver.Dispatch G links)
  | .dispatch budget during =>
    match h.driver.dispatchWithBudget budget during with
    | .ok (dispatched, driver) =>
      if budget = 0 then [] else [⟨h.driver, budget, during, dispatched, driver⟩]
    | .error _ => []
  | _ => []

/-- The calls of `dispatch_with_budget` that a run makes with a budget. -/
def calls (bytes : Nat) : Host G links → List (Event G links) → List (Driver.Dispatch G links)
  | _, [] => []
  | h, e :: rest =>
    h.called e ++
      match h.step bytes e with
      | .ok h' => calls bytes h' rest
      | .error _ => []

/-- Between two dispatches work is only added, and the cursor stays. -/
theorem step_queues (hh : h.driver.Inv) {e : Event G links} (he : e.dispatches = false)
    (hstep : h.step bytes e = .ok h') : h.driver.Queues h'.driver := by
  cases e with
  | attach a =>
    obtain ⟨⟨result, s⟩, hattach, hstep⟩ := bind_eq_ok.mp hstep
    cases hstep
    have hreturns : (∃ error, h.driver.shared.attach bytes a = .ok (.error error, _)) ∨ _ :=
      Shared.attach_returns hh.shared a
    rcases hreturns with ⟨error, hrefused⟩ | ⟨index, p, hattached, -, -⟩
    · rw [hattach] at hrefused
      cases hrefused
      exact .refl _
    · rw [hattach] at hattached
      cases hattached
      exact ⟨rfl, .attached h.driver.shared index a p⟩
  | advance mode budget script =>
    obtain ⟨progress, hadvance, hstep⟩ := bind_eq_ok.mp hstep
    cases progress with
    | none =>
      cases hstep
      exact .refl _
    | some progress =>
      cases hstep
      exact .advanceWith hadvance
  | dispatch budget during =>
    have hbudget : budget = 0 := by simpa [Event.dispatches] using he
    subst hbudget
    cases hstep
    exact .refl _
  | act a =>
    obtain ⟨s, hact, hstep⟩ := bind_eq_ok.mp hstep
    cases hstep
    exact ⟨rfl, .act hact⟩
  | enter index =>
    unfold step at hstep
    dsimp only at hstep
    split at hstep
    · cases hstep
      exact ⟨rfl, fun _ hwork => hwork⟩
    · cases hstep
      exact .refl _
  | exit index =>
    cases hstep
    exact ⟨rfl, fun _ hwork => hwork⟩
  | cancelAll =>
    obtain ⟨s, hcancel, hstep⟩ := bind_eq_ok.mp hstep
    cases hstep
    exact ⟨rfl, .cancelAll hcancel⟩
  | stopAdmission =>
    cases hstep
    exact ⟨rfl, fun _ hwork => hwork⟩
  | popRecord =>
    cases hstep
    exact ⟨rfl, .popRecord h.driver.shared⟩
  | wait taken =>
    cases hstep
    exact .wait h.driver taken
  | post index result buffer =>
    cases hstep
    exact ⟨rfl, .refl _⟩

theorem called_eq_nil {e : Event G links} (he : e.dispatches = false) : h.called e = [] := by
  cases e with
  | dispatch budget during =>
    have hbudget : budget = 0 := by simpa [Event.dispatches] using he
    subst hbudget
    rfl
  | _ => rfl

/-- The dispatches of a run are calls in a row. -/
theorem calls_calls (hf : Fits links bytes) (hh : h.driver.Inv) (events : List (Event G links)) :
    h.driver.Calls (h.calls bytes events) ∧
      (h.calls bytes events).length = events.countP Event.dispatches := by
  induction events generalizing h with
  | nil => exact ⟨trivial, rfl⟩
  | cons e rest ih =>
    obtain ⟨h', hstep, hdid⟩ := step_did hf hh e
    obtain ⟨hcalls, hlength⟩ := ih (hdid.inv hf hh)
    unfold calls
    rw [hstep]
    dsimp only
    cases he : e.dispatches with
    | false =>
      rw [called_eq_nil he, List.nil_append, List.countP_cons_of_neg (by rw [he]; decide)]
      exact ⟨hcalls.queued (step_queues hh he hstep), hlength⟩
    | true =>
      cases e with
      | dispatch budget during =>
        have hbudget : budget ≠ 0 := by simpa [Event.dispatches] using he
        obtain ⟨⟨dispatched, d⟩, hcall, hstep⟩ := bind_eq_ok.mp hstep
        cases hstep
        have hcalled : h.called (.dispatch budget during) =
            [⟨h.driver, budget, during, dispatched, d⟩] := by
          unfold called
          dsimp only
          rw [hcall]
          exact if_neg hbudget
        rw [hcalled, List.singleton_append, List.length_cons, List.countP_cons_of_pos he, hlength]
        exact ⟨⟨.refl _, ⟨hbudget, hcall⟩, hcalls⟩, rfl⟩
      | _ => cases he

/-- In every run each dispatch is fair, and from any state of the run on a slot with work
is dispatched by one of the next `links` dispatches. -/
theorem run_dispatch_fair (hf : Fits links bytes) {capacity cqEntries : Nat} {room : 2 ≤ capacity}
    {before : List (Event G links)} (hrun : run bytes capacity cqEntries room before = .ok h)
    (after : List (Event G links)) :
    (∀ c ∈ h.calls bytes after, c.Fair) ∧
      (links ≤ after.countP Event.dispatches → ∀ index ∈ h.driver.waiting,
        ∃ c ∈ (h.calls bytes after).take links, index ∈ c.before.due c.budget) := by
  obtain ⟨h', hrun', hinv⟩ := run_returns hf capacity cqEntries room before
  rw [hrun] at hrun'
  cases hrun'
  obtain ⟨hcalls, hlength⟩ := calls_calls hf hinv after
  exact ⟨fun c hc => (hcalls.valid c hc).fair, fun hafter => hcalls.reached (hlength ▸ hafter)⟩

end Host

end Hiway.Uring
