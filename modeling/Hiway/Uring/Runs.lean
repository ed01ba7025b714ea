import Hiway.Transport.Closure
import Hiway.Uring.Passes

/-!
# Runs of a driver

A host attaches links, polls their futures, runs passes and dispatches, in any order; the
kernel completes what it has been handed when it likes. No such run panics, and the
invariant of the driver holds all along it.

* `Host`, `Event`: a driver with what its host has got from it, and what can happen to it.
* `step_did`: every event returns: it moves the driver, attaches a link or drains a record.
* `run_returns`: no run panics, and the invariant holds at its end.
* `run_requests_in_flight`: the records of the requests in flight agree, and no step takes
  from a slot what they need.
* `run_pass_fair`: every pass is bounded and fair.
-/

namespace Hiway.Uring

open Exec Target Transport

/-- What `schedule` advises. -/
inductive Schedule where
  | continued
  | retry
  | wait
  deriving DecidableEq, Repr

/-- What a host does with a driver and the futures of its links, piece by piece, and what
the kernel does. `enter` and `exit` are the two ends of a callback of a future during
which it borrows the reservation of its link. -/
inductive Event (G : Type) (links : Nat) where
  | attach (a : Shared.Attachment G)
  | advance (mode : Admission) (budget : Budget) (script : Driver.Script links)
  | dispatch (budget : Nat) (during : List (List (Act links)))
  | act (a : Act links)
  | enter (index : Fin links)
  | exit (index : Fin links)
  | cancelAll
  | stopAdmission
  | popRecord
  /-- The host waits, and the kernel takes some entries. -/
  | wait (taken : Option Nat)
  | post (index : Nat) (result : Int) (buffer : List UInt8)

namespace Driver

variable {G : Type} {links : Nat}

def shutdownComplete (d : Driver G links) : Bool :=
  !d.shared.admitting && d.pendingCompletions = 0 &&
    (List.finRange links).all (fun index =>
      (d.slot index).idle && (d.slot index).sockets.isNone && (d.slot index).work.isEmpty &&
        (d.slot index).protocol.all fun p => p.closed.isSome) &&
    (List.finRange links).all fun index => (d.shared.reservations index).isNone

variable [NeZero links]

def schedule (d : Driver G links) : Schedule :=
  if !d.ring.completions.isEmpty || !d.ring.queue.isEmpty then .continued
  else if (List.range d.shared.ready.len).any fun offset =>
      !(d.slot (d.shared.ready.get offset)).contended then .continued
  else if d.shared.ready.len ≠ 0 then .retry
  else .wait

/-- `submit_and_wait`, unless something else is to be done first. -/
def wait (d : Driver G links) (taken : Option Nat) : Driver G links :=
  if d.pendingCompletions = 0 ∨ d.schedule ≠ .wait ∨
      (List.finRange links).any (fun index => !(d.slot index).work.isEmpty) then d
  else { d with ring := d.ring.submit taken }

end Driver

/-- A driver with what its host has got from it: the connections of the links attached,
and the records drained. -/
structure Host (G : Type) (links : Nat) where
  driver : Driver G links
  attached : List Connection
  drained : List Record

namespace Host

variable [Target] {G : Type} {links : Nat} [NeZero links]

def start (capacity cqEntries : Nat) (room : 2 ≤ capacity) : Host G links :=
  ⟨Driver.new capacity cqEntries room, [], []⟩

/-- `s` in the place of the shared state. -/
def withShared (h : Host G links) (s : Shared G links) : Host G links :=
  { h with driver := h.driver.withShared s }

def step (bytes : Nat) (h : Host G links) : Event G links → Exec (Host G links)
  | .attach a => do
    let (result, s) ← h.driver.shared.attach bytes a
    return { h.withShared s with
      attached := h.attached ++ match result with
        | .ok connection => [connection]
        | .error _ => [] }
  | .advance mode budget script => do
    match ← h.driver.advanceWith mode budget script with
    | some progress => return { h with driver := progress.driver }
    | none => return h
  | .dispatch budget during => do
    let (_, driver) ← h.driver.dispatchWithBudget budget during
    return { h with driver := driver }
  | .act a => do
    let s ← h.driver.shared.act a
    return h.withShared s
  | .enter index =>
    if (h.driver.slot index).alive then
      .ok (h.withShared { h.driver.shared with
        borrows := Function.update h.driver.shared.borrows index (h.driver.shared.borrows index + 1) })
    else .ok h
  | .exit index =>
    .ok (h.withShared { h.driver.shared with
      borrows := Function.update h.driver.shared.borrows index (h.driver.shared.borrows index - 1) })
  | .cancelAll => do
    let s ← h.driver.shared.cancelAll
    return h.withShared s
  | .stopAdmission => .ok (h.withShared h.driver.shared.stopAdmission)
  | .popRecord =>
    let popped := h.driver.shared.popRecord
    .ok { h.withShared popped.2 with drained := h.drained ++ popped.1.toList }
  | .wait taken => .ok { h with driver := h.driver.wait taken }
  | .post index result buffer =>
    .ok { h with driver := { h.driver with ring := h.driver.ring.post index result buffer } }

/-- The host after a sequence of events, from a driver that has just been set up. -/
def run (bytes capacity cqEntries : Nat) (room : 2 ≤ capacity) (events : List (Event G links)) :
    Exec (Host G links) :=
  steps (step bytes) (start capacity cqEntries room) events

end Host

namespace Shared

variable {G : Type} {links : Nat} {s t u : Shared G links}

/-! ## What a slot keeps -/

/-- No move brings sockets or a reservation into a slot, or moves it to a new generation. -/
structure Held (s t : Shared G links) : Prop where
  generation : ∀ index, (t.slots index).generation = (s.slots index).generation
  sockets : ∀ index, (t.slots index).sockets = (s.slots index).sockets ∨
    (t.slots index).sockets = none
  reservation : ∀ index, t.reservations index = s.reservations index ∨ t.reservations index = none

theorem Held.refl (s : Shared G links) : s.Held s :=
  ⟨fun _ => rfl, fun _ => Or.inl rfl, fun _ => Or.inl rfl⟩

theorem Held.trans (h : s.Held t) (h' : t.Held u) : s.Held u where
  generation index := (h'.generation index).trans (h.generation index)
  sockets index := by
    rcases h'.sockets index with heq | hnone
    · rw [heq]
      exact h.sockets index
    · exact Or.inr hnone
  reservation index := by
    rcases h'.reservation index with heq | hnone
    · rw [heq]
      exact h.reservation index
    · exact Or.inr hnone

theorem Held.update (index : Fin links) {f : Slot → Slot}
    (hgeneration : (f (s.slots index)).generation = (s.slots index).generation)
    (hsockets : (f (s.slots index)).sockets = (s.slots index).sockets ∨
      (f (s.slots index)).sockets = none) : s.Held (s.update index f) where
  generation other := by
    by_cases heq : other = index
    · subst heq
      rw [update_self]
      exact hgeneration
    · rw [update_of_ne heq]
  sockets other := by
    by_cases heq : other = index
    · subst heq
      rw [update_self]
      exact hsockets
    · exact Or.inl (by rw [update_of_ne heq])
  reservation _ := Or.inl rfl

theorem Held.answered [Target] {index : Fin links} {p q : Protocol} {i : Input} :
    s.Held (s.answered index p i q) := by
  have hupdate := Held.update (s := s) index
    (f := fun slot => { slot with protocol := some q }) rfl (Or.inl rfl)
  exact ⟨hupdate.generation, hupdate.sockets, hupdate.reservation⟩

/-- Draining records changes machines only. -/
theorem popLive_slots (s : Shared G links) (indices : List (Fin links)) (other : Fin links) :
    ∃ protocol, (s.popLive indices).2.slots other = { s.slots other with protocol := protocol } ∧
      (s.popLive indices).2.reservations = s.reservations := by
  induction indices generalizing s with
  | nil => exact ⟨_, rfl, rfl⟩
  | cons index rest ih =>
    have hupdate : ∀ p : Protocol, ∃ protocol,
        (s.update index fun slot => { slot with protocol := some p }).slots other =
          { s.slots other with protocol := protocol } := by
      intro p
      by_cases heq : other = index
      · subst heq
        exact ⟨some p, update_self⟩
      · exact ⟨_, update_of_ne heq⟩
    unfold popLive
    split
    · exact ih s
    · rename_i p hp
      dsimp only
      obtain ⟨protocol, hslot⟩ := hupdate p.popRecord.2
      split
      · exact ⟨protocol, hslot, rfl⟩
      · obtain ⟨protocol', hslot', hreservations⟩ :=
          ih (s.update index fun slot => { slot with protocol := some p.popRecord.2 })
        exact ⟨protocol', by rw [hslot', hslot], hreservations⟩

theorem popRecord_slots (s : Shared G links) (other : Fin links) :
    ∃ protocol, s.popRecord.2.slots other = { s.slots other with protocol := protocol } ∧
      s.popRecord.2.reservations = s.reservations := by
  unfold popRecord
  dsimp only
  split
  · exact ⟨_, rfl, rfl⟩
  · exact popLive_slots { s with archived := s.archived.pop.2 } _ other

/-! ## What an attachment leaves behind -/

variable [NeZero links]

/-- A machine in a vacant slot. -/
def attached (s : Shared G links) (index : Fin links) (a : Attachment G) (p : Protocol) :
    Shared G links :=
  { s.update index fun slot =>
      { slot with
        generation := slot.generation + 1
        protocol := some p
        sockets := some a.sockets
        alive := true
        nextLane := 0
        contended := false } with
    reservations := Function.update s.reservations index (some a.reservation)
    ready := s.ready.push index }

theorem attached_self {index : Fin links} {a : Attachment G} {p : Protocol} :
    (s.attached index a p).slots index =
      { s.slots index with
        generation := (s.slots index).generation + 1
        protocol := some p
        sockets := some a.sockets
        alive := true
        nextLane := 0
        contended := false } := by
  unfold attached
  dsimp only
  exact update_self

theorem attached_of_ne {index other : Fin links} {a : Attachment G} {p : Protocol}
    (h : other ≠ index) : (s.attached index a p).slots other = s.slots other := by
  unfold attached
  dsimp only
  exact update_of_ne h

theorem attached_operations {index : Fin links} {a : Attachment G} {p : Protocol}
    (other : Fin links) :
    ((s.attached index a p).slots other).operations = (s.slots other).operations := by
  by_cases heq : other = index
  · subst heq
    unfold attached
    dsimp only
    rw [update_self]
  · rw [attached_of_ne heq]

end Shared

/-! ## Attachment -/

namespace Shared

variable [Target] {G : Type} {links bytes : Nat} [NeZero links] {s : Shared G links}

theorem attach_returns (hs : s.Inv) (a : Attachment G) :
    (∃ error, s.attach bytes a = .ok (.error error, s)) ∨
    ∃ index p, s.attach bytes a = .ok (.ok ⟨index.val, (s.slots index).generation + 1⟩,
        s.attached index a p) ∧ (s.slots index).protocol = none ∧
      Protocol.withConnection a.contract a.direction bytes
        ⟨index.val, (s.slots index).generation + 1⟩ = .ok p := by
  unfold attach
  split
  · exact Or.inl ⟨_, rfl⟩
  · split
    · exact Or.inl ⟨_, rfl⟩
    · split
      · exact Or.inl ⟨_, rfl⟩
      · split
        · exact Or.inl ⟨_, rfl⟩
        · rename_i index hposition
          dsimp only
          split
          · exact Or.inl ⟨_, rfl⟩
          · rename_i p hp
            have hvacant := List.find?_some hposition
            have hnone : (s.slots index).protocol = none := by
              have hvacant := of_decide_eq_true hvacant
              exact Option.isNone_iff_eq_none.mp hvacant.1
            have hborrows : s.borrows index = 0 := by
              by_contra hb
              have halive := hs.borrowed index hb
              rw [((hs.slot index).vacant hnone).2] at halive
              cases halive
            refine Or.inr ⟨index, p, ?_, hnone, hp⟩
            rw [hborrows]
            rfl

theorem attached_inv (hf : Fits links bytes) (hs : s.Inv) {index : Fin links} {a : Attachment G}
    {p : Protocol} (hnone : (s.slots index).protocol = none)
    (hp : Protocol.withConnection a.contract a.direction bytes
      ⟨index.val, (s.slots index).generation + 1⟩ = .ok p) : (s.attached index a p).Inv := by
  have hsafe := (Protocol.provisioned_safe hf.bytes_word (Or.inr ⟨_, hp⟩)).1
  obtain ⟨q, hq, rfl⟩ := Protocol.withConnection_eq hp
  have hactive : q.active = PerLane.fill none := by
    unfold Protocol.new at hq
    split at hq
    · cases hq
    · cases hq
      rfl
  have hslot := hs.slot index
  have hidle := Slot.idle_iff.mp (hslot.vacant hnone).1
  refine ⟨fun other => ?_, hs.ready.push index, fun other hb => ?_⟩
  · by_cases heq : other = index
    · subst heq
      unfold attached
      dsimp only
      rw [update_self, Function.update_self]
      refine ⟨hslot.number, hslot.settled, fun h => (by cases h), ?_, ?_, ?_, fun _ => ⟨rfl, rfl⟩⟩
      · rintro _ ⟨⟩
        exact hsafe
      · rintro _ ⟨⟩
        exact ⟨_, rfl, rfl⟩
      · rintro _ ⟨⟩ lane
        dsimp only
        rw [hactive, PerLane.get_fill, hidle lane]
        rfl
    · unfold attached
      dsimp only
      rw [update_of_ne heq, Function.update_of_ne heq]
      exact hs.slot other
  · by_cases heq : other = index
    · subst heq
      unfold attached
      dsimp only
      rw [update_self]
    · unfold attached
      dsimp only
      rw [update_of_ne heq]
      exact hs.borrowed other hb

/-! ## Records -/

/-- The accountability of a machine is read. -/
theorem Inv.account (hs : s.Inv) {index : Fin links} {p : Protocol}
    (hp : (s.slots index).protocol = some p) :
    (s.update index fun slot => { slot with protocol := some p.popRecord.2 }).Inv := by
  rw [Protocol.popRecord_eq]
  have hslot := hs.slot index
  refine hs.update (f := fun slot => { slot with protocol := some (p.account fun a => a.pop.2) })
    (hslot.machine hp (Protocol.safe_account (hslot.safe p hp) _) (fun a ha => ?_) id (fun _ => rfl)
      hslot.settled (hslot.active p hp) fun hfree _ => hfree) (hs.borrowed index)
  exact ⟨a.pop.2, by simp [Protocol.account, ha], rfl⟩

theorem popLive_inv (hs : s.Inv) (indices : List (Fin links)) : (s.popLive indices).2.Inv := by
  induction indices generalizing s with
  | nil => exact hs
  | cons index rest ih =>
    unfold popLive
    split
    · exact ih hs
    · rename_i p hp
      dsimp only
      split
      · exact hs.account hp
      · exact ih (hs.account hp)

theorem popRecord_inv (hs : s.Inv) : s.popRecord.2.Inv := by
  have harchived : ({ s with archived := s.archived.pop.2 } : Shared G links).Inv :=
    ⟨hs.slot, hs.ready, hs.borrowed⟩
  unfold popRecord
  dsimp only
  split
  · exact harchived
  · exact popLive_inv harchived _

/-! ## Runs -/

theorem Move.held {t : Shared G links} (h : s.Move t) : s.Held t := by
  cases h with
  | flags index f hf => exact .update index hf.generation (Or.inl hf.sockets)
  | input hp hi hinput =>
    obtain ⟨-, rfl⟩ := input_eq.mp hinput
    exact .answered
  | observe sequence hp =>
    exact .update _ (f := fun slot => { slot with protocol := some _ }) rfl (Or.inl rfl)
  | refresh index =>
    refine .update index ?_ (Or.inl ?_)
    · unfold Slot.refresh
      split <;> rfl
    · unfold Slot.refresh
      split <;> rfl
  | queue | borrow | stop => exact ⟨fun _ => rfl, fun _ => Or.inl rfl, fun _ => Or.inl rfl⟩
  | release index => exact .update index (f := fun slot => { slot with alive := false }) rfl (Or.inl rfl)
  | reclaim index =>
    have hupdate := Held.update (s := s) index
      (f := fun slot => { slot with sockets := none }) rfl (Or.inr rfl)
    refine ⟨hupdate.generation, hupdate.sockets, fun other => ?_⟩
    by_cases heq : other = index
    · subst heq
      exact Or.inr (Function.update_self ..)
    · exact Or.inl (Function.update_of_ne heq _ _)
  | retire index p =>
    have hupdate := Held.update (s := s) index
      (f := fun slot => { slot with protocol := none }) rfl (Or.inl rfl)
    exact ⟨hupdate.generation, hupdate.sockets, hupdate.reservation⟩

end Shared

namespace Driver

variable [Target] {G : Type} {links bytes : Nat} [NeZero links] {d d' : Driver G links}

theorem Move.held (h : d.Move d') : d.shared.Held d'.shared := by
  cases h with
  | shared hs => exact hs.held
  | ring | ready | hint => exact ⟨fun _ => rfl, fun _ => Or.inl rfl, fun _ => Or.inl rfl⟩
  | prepare hp h => exact .update _ (f := (·.setOperation _ _)) rfl (Or.inl rfl)
  | accept hp hid hphase heffect hpush hinput =>
    obtain ⟨-, rfl⟩ := Shared.input_eq.mp hinput
    exact (Shared.Held.update _ (f := (·.setOperation _ _)) rfl (Or.inl rfl)).trans .answered
  | cancel hid hpush => exact .update _ (f := (·.setOperation _ _)) rfl (Or.inl rfl)
  | complete hp hid hphase hnext hu hinput =>
    obtain ⟨-, rfl⟩ := Shared.input_eq.mp hinput
    exact (Shared.Held.update _ (f := (·.setOperation _ _)) rfl (Or.inl rfl)).trans .answered
  | cancelled hid hstate hnext hu => exact .update _ (f := (·.setOperation _ _)) rfl (Or.inl rfl)

theorem Reaches.held (h : d.Reaches d') : d.shared.Held d'.shared := by
  induction h with
  | refl => exact .refl _
  | tail _ hmove ih => exact ih.trans hmove.held

/-- Nothing but the machines changes, or a slot without requests. -/
theorem Inv.withShared (h : d.Inv) {s : Shared G links} (hs : s.Inv)
    (hoperations : ∀ index, (s.slots index).operations = (d.slot index).operations) :
    (d.withShared s).Inv := by
  refine ⟨hs, h.ledger.congr fun index lane b => ?_, h.pending⟩
  change Uring.expected ((s.slots index).operations.get lane) b = _
  rw [hoperations]
  rfl

theorem dispatch_reaches (h : d.Inv) (budget : Nat) (during : List (List (Act links))) :
    ∃ n d', d.dispatchWithBudget budget during = .ok (n, d') ∧ d.Reaches d' := by
  unfold dispatchWithBudget
  split
  · exact ⟨0, d, rfl, .refl⟩
  · obtain ⟨cursor, n, s, hloop, hreaches⟩ := Shared.dispatchFrom_returns d.shared.pendingWork budget
      links h.shared d.dispatchCursor 0 during
    rw [hloop]
    exact ⟨n, _, rfl, (Reaches.shared hreaches).tail (.hint d.receiveIoprio cursor)⟩

end Driver

namespace Host

variable [Target] {G : Type} {links bytes : Nat} [NeZero links] {h h' : Host G links}

/-- What an event can do to the driver. -/
inductive Did (bytes : Nat) (h : Host G links) : Host G links → Prop
  | moved {d : Driver G links} (hd : h.driver.Reaches d) : Did bytes h { h with driver := d }
  | attached {index : Fin links} {a : Shared.Attachment G} {p : Protocol}
      (hnone : (h.driver.slot index).protocol = none)
      (hp : Protocol.withConnection a.contract a.direction bytes
        ⟨index.val, (h.driver.slot index).generation + 1⟩ = .ok p) :
      Did bytes h
        { h.withShared (h.driver.shared.attached index a p) with
          attached := h.attached ++ [⟨index.val, (h.driver.slot index).generation + 1⟩] }
  | drained : Did bytes h
      { h.withShared h.driver.shared.popRecord.2 with
        drained := h.drained ++ h.driver.shared.popRecord.1.toList }

theorem Did.refl (h : Host G links) : Did bytes h h := .moved .refl

theorem step_did (hf : Fits links bytes) (hh : h.driver.Inv) (e : Event G links) :
    ∃ h', h.step bytes e = .ok h' ∧ Did bytes h h' := by
  cases e with
  | attach a =>
    unfold step
    dsimp only
    rcases Shared.attach_returns hh.shared a with ⟨error, hattach⟩ | ⟨index, p, hattach, hnone, hp⟩
    · rw [hattach, ok_bind]
      refine ⟨h, ?_, .refl h⟩
      dsimp only
      rw [List.append_nil]
      rfl
    · rw [hattach, ok_bind]
      exact ⟨_, rfl, .attached hnone hp⟩
  | advance mode budget script =>
    unfold step
    by_cases hbudget : budget.completions = 0 ∨ budget.submissions = 0 ∨ budget.bytes = 0
    · have hnone : h.driver.advanceWith mode budget script = .ok none := if_pos hbudget
      dsimp only
      rw [hnone]
      exact ⟨_, rfl, .refl h⟩
    · obtain ⟨p, hp, hreaches, -⟩ := Driver.advanceWith_returns hf hh mode budget script hbudget
      dsimp only
      rw [hp]
      exact ⟨_, rfl, .moved hreaches⟩
  | dispatch budget during =>
    obtain ⟨n, d, hd, hreaches⟩ := Driver.dispatch_reaches hh budget during
    unfold step
    dsimp only
    rw [hd]
    exact ⟨_, rfl, .moved hreaches⟩
  | act a =>
    obtain ⟨s, hs, hreaches⟩ := Shared.act_returns hh.shared a
    unfold step
    dsimp only
    rw [hs]
    exact ⟨_, rfl, .moved (Driver.Reaches.shared hreaches)⟩
  | enter index =>
    unfold step
    dsimp only
    split
    · rename_i halive
      exact ⟨_, rfl, .moved (.single (.shared (.borrow index _ fun _ => halive)))⟩
    · exact ⟨_, rfl, .refl h⟩
  | exit index =>
    refine ⟨_, rfl, .moved (.single (.shared (.borrow index _ fun hcount => ?_)))⟩
    exact hh.shared.borrowed index fun hb => hcount (by rw [hb])
  | cancelAll =>
    obtain ⟨s, hs, hreaches⟩ := Shared.cancelAll_returns hh.shared
    unfold step
    dsimp only
    rw [hs]
    exact ⟨_, rfl, .moved (Driver.Reaches.shared hreaches)⟩
  | stopAdmission => exact ⟨_, rfl, .moved (.single (.shared .stop))⟩
  | popRecord => exact ⟨_, rfl, .drained⟩
  | wait taken =>
    refine ⟨_, rfl, .moved ?_⟩
    unfold Driver.wait
    split
    · exact .refl
    · exact .single (.ring _ (Ring.outstanding_submit _ _))
  | post index result buffer =>
    exact ⟨_, rfl, .moved (.single (.ring _ (Ring.outstanding_post _ _ _ _)))⟩

theorem Did.inv (hf : Fits links bytes) (hh : h.driver.Inv) (hdid : Did bytes h h') :
    h'.driver.Inv := by
  cases hdid with
  | moved hd => exact hd.inv hf hh
  | attached hnone hp =>
    exact hh.withShared (Shared.attached_inv hf hh.shared hnone hp) Shared.attached_operations
  | drained =>
    refine hh.withShared (Shared.popRecord_inv hh.shared) fun index => ?_
    obtain ⟨protocol, hslot, -⟩ := h.driver.shared.popRecord_slots index
    rw [hslot]
    rfl

theorem start_inv (capacity cqEntries : Nat) (room : 2 ≤ capacity) :
    (start capacity cqEntries room : Host G links).driver.Inv where
  shared := ⟨fun index => Slot.new_inv index.val, Ready.new_inv, fun _ hb => absurd rfl hb⟩
  ledger := by
    refine ⟨fun u hu => absurd hu (Multiset.notMem_zero u), fun b index lane => ?_⟩
    cases b <;> cases lane <;> rfl
  pending := rfl

/-- No run panics, and the invariant holds at its end. -/
theorem run_returns (hf : Fits links bytes) (capacity cqEntries : Nat) (room : 2 ≤ capacity)
    (events : List (Event G links)) :
    ∃ h, run bytes capacity cqEntries room events = .ok h ∧ h.driver.Inv := by
  refine steps_invariant (P := fun h : Host G links => h.driver.Inv) (fun h e hh => ?_)
    (start_inv capacity cqEntries room) events
  obtain ⟨h', hstep, hdid⟩ := step_did hf hh e
  exact ⟨h', hstep, hdid.inv hf hh⟩

end Host

/-! ## Requests in flight -/

namespace Driver

variable {G : Type} {links : Nat}

/-- A request of a slot has not been completed. -/
def Busy (d : Driver G links) (index : Fin links) : Prop :=
  ∃ u ∈ d.ring.outstanding, (slotOf u).toNat / 3 = index.val

/-- The records of the requests in flight agree. -/
structure InFlight (d : Driver G links) : Prop where
  original : ∀ index lane, requestsOf d.ring.outstanding false (number index.val lane) =
    if (d.operation index lane).phase = .submitted then {token (d.operation index lane).id} else 0
  cancellation : ∀ index lane, requestsOf d.ring.outstanding true (number index.val lane) =
    if (d.operation index lane).cancellationState = .submitted then
      {cancelToken (d.operation index lane).id} else 0
  /-- The user data of every request is decoded to a lane and its current id. -/
  decode : ∀ u ∈ d.ring.outstanding, ∃ index : Fin links, ∃ lane,
    (slotOf u).toNat / 3 = index.val ∧ laneAt (slotOf u).toNat = lane ∧
      (⟨slotOf u, generationOf u⟩ : OpId) = (d.operation index lane).id ∧
      u = if isCancel u then cancelToken (d.operation index lane).id
        else token (d.operation index lane).id
  active : ∀ index p, (d.slot index).protocol = some p → ∀ lane,
    (p.active.get lane).map Prod.fst =
      if (d.operation index lane).phase = .submitted then some (d.operation index lane).id else none
  vacant : ∀ index, (d.slot index).protocol = none → ∀ lane,
    (d.operation index lane).phase = .available
  pending : d.pendingCompletions = d.ring.outstanding.card
  held : ∀ index, d.Busy index → (d.slot index).sockets.isSome = true ∧
    (d.shared.reservations index).isSome = true ∧ (d.slot index).protocol.isSome = true
  shutdown : d.shutdownComplete = true → d.ring.outstanding = 0

/-- What a step does to the slots of a driver: a slot with a request holds what it held, and a
slot that is attached anew had no request and no handle. -/
structure Retains (d d' : Driver G links) : Prop where
  held : ∀ index, d'.Busy index → (d'.slot index).sockets = (d.slot index).sockets ∧
    d'.shared.reservations index = d.shared.reservations index ∧
    (d'.slot index).generation = (d.slot index).generation
  attached : ∀ index, (d'.slot index).generation ≠ (d.slot index).generation →
    ¬d.Busy index ∧ (d.slot index).alive = false

variable [Target] [NeZero links] {bytes : Nat} {d d' : Driver G links} {index : Fin links}

/-- A slot with a request is in use. -/
theorem Inv.busy (hf : Fits links bytes) (h : d.Inv) (hbusy : d.Busy index) :
    (d.slot index).idle = false := by
  obtain ⟨u, hu, hindex⟩ := hbusy
  obtain ⟨other, lane, hother, -, -, hmine⟩ := h.decode hf hu
  obtain rfl : other = index := Fin.ext (hother.symm.trans hindex)
  rw [← Bool.not_eq_true, Slot.idle_iff]
  intro hidle
  have havailable := hidle lane
  have hnone := (h.settled other lane).available havailable
  split at hmine
  · rw [hnone] at hmine
    cases hmine.1
  · rw [show (d.operation other lane).phase = .available from havailable] at hmine
    cases hmine.1

theorem Inv.inFlight (hf : Fits links bytes) (h : d.Inv) : d.InFlight where
  original index lane := h.ledger.exact false index lane
  cancellation index lane := h.ledger.exact true index lane
  decode u hu := by
    obtain ⟨index, lane, hindex, hlane, hid, hmine⟩ := h.decode hf hu
    refine ⟨index, lane, hindex, hlane, hid, ?_⟩
    split at hmine
    · rename_i hcancel
      rw [if_pos hcancel]
      exact hmine.2
    · rename_i hcancel
      rw [if_neg hcancel]
      exact hmine.2
  active index p hp lane := (h.shared.slot index).active p hp lane
  pending := h.pending
  held index hbusy := by
    have hidle := h.busy hf hbusy
    obtain ⟨hsockets, hreserved⟩ := (h.shared.slot index).held (Or.inr hidle)
    refine ⟨hsockets, hreserved, ?_⟩
    rw [Option.isSome_iff_ne_none]
    intro hnone
    exact absurd (((h.shared.slot index).vacant hnone).1.symm.trans hidle) (by decide)
  vacant index hnone lane := Slot.idle_iff.mp ((h.shared.slot index).vacant hnone).1 lane
  shutdown hcomplete := by
    unfold shutdownComplete at hcomplete
    simp only [Bool.and_eq_true, decide_eq_true_eq] at hcomplete
    rw [← Multiset.card_eq_zero, ← h.pending]
    exact hcomplete.1.1.2

end Driver

namespace Host

variable [Target] {G : Type} {links bytes : Nat} [NeZero links] {h h' : Host G links}

theorem Did.retains (hf : Fits links bytes) (hh : h.driver.Inv) (hdid : Did bytes h h') :
    h.driver.Retains h'.driver := by
  have hheld := fun index => ((hdid.inv hf hh).inFlight hf).held index
  cases hdid with
  | moved hd =>
    have hkept := hd.held
    refine ⟨fun index hbusy => ?_, fun index hne => absurd (hkept.generation index) hne⟩
    obtain ⟨hsockets, hreserved, -⟩ := hheld index hbusy
    refine ⟨(hkept.sockets index).resolve_right fun hnone => ?_,
      (hkept.reservation index).resolve_right fun hnone => ?_, hkept.generation index⟩
    · change ((_ : Driver G links).shared.slots index).sockets.isSome = true at hsockets
      rw [hnone] at hsockets
      cases hsockets
    · dsimp only at hreserved
      rw [hnone] at hreserved
      cases hreserved
  | @attached other a p hnone hp =>
    obtain ⟨hidle, halive⟩ := (hh.shared.slot other).vacant hnone
    have hfree : ¬h.driver.Busy other := fun hbusy =>
      absurd (hidle.symm.trans (hh.busy hf hbusy)) (by decide)
    have hsame : ∀ index, index ≠ other →
        (h.driver.shared.attached other a p).slots index = h.driver.shared.slots index :=
      fun index hne => Shared.attached_of_ne hne
    refine ⟨fun index hbusy => ?_, fun index hne => ?_⟩
    · have hne : index ≠ other := fun heq => hfree (heq ▸ hbusy)
      exact ⟨congrArg Slot.sockets (hsame index hne), Function.update_of_ne hne _ _,
        congrArg Slot.generation (hsame index hne)⟩
    · obtain rfl : index = other := by
        by_contra hother
        exact hne (congrArg Slot.generation (hsame index hother))
      exact ⟨hfree, halive⟩
  | drained =>
    have hsame : ∀ index, (h.driver.shared.popRecord.2.slots index).sockets =
        (h.driver.slot index).sockets ∧ h.driver.shared.popRecord.2.reservations index =
          h.driver.shared.reservations index ∧
        (h.driver.shared.popRecord.2.slots index).generation = (h.driver.slot index).generation := by
      intro index
      obtain ⟨protocol, hslot, hreservations⟩ := h.driver.shared.popRecord_slots index
      rw [hslot, hreservations]
      exact ⟨rfl, rfl, rfl⟩
    exact ⟨fun index _ => hsame index, fun index hne => absurd (hsame index).2.2 hne⟩

/-- In every state of every run the records of the requests in flight agree, and no step
takes from a slot what its requests need. -/
theorem run_requests_in_flight (hf : Fits links bytes) (capacity cqEntries : Nat)
    (room : 2 ≤ capacity) (events : List (Event G links)) :
    ∃ h, run bytes capacity cqEntries room events = .ok h ∧ h.driver.InFlight ∧
      ∀ e, ∃ h', h.step bytes e = .ok h' ∧ h.driver.Retains h'.driver := by
  obtain ⟨h, hrun, hinv⟩ := run_returns hf capacity cqEntries room events
  refine ⟨h, hrun, hinv.inFlight hf, fun e => ?_⟩
  obtain ⟨h', hstep, hdid⟩ := step_did hf hinv e
  exact ⟨h', hstep, hdid.retains hf hinv⟩

/-- Every pass is bounded and fair. -/
theorem run_pass_fair (hf : Fits links bytes) {capacity cqEntries : Nat} {room : 2 ≤ capacity}
    {events : List (Event G links)} (hrun : run bytes capacity cqEntries room events = .ok h)
    (mode : Admission) (budget : Budget) (script : Driver.Script links)
    (hcompletions : budget.completions ≠ 0) (hsubmissions : budget.submissions ≠ 0)
    (hbytes : budget.bytes ≠ 0) :
    ∃ p, h.driver.advanceWith mode budget script = .ok (some p) ∧ Driver.Fair budget h.driver p := by
  obtain ⟨h', hrun', hinv⟩ := run_returns hf capacity cqEntries room events
  rw [hrun] at hrun'
  cases hrun'
  obtain ⟨p, hp, -, hfair⟩ := Driver.advanceWith_returns hf hinv mode budget script
    (by
      rintro (h0 | h0 | h0)
      · exact hcompletions h0
      · exact hsubmissions h0
      · exact hbytes h0)
  exact ⟨p, hp, hfair⟩

end Host

namespace Host

/-- An importing link of a reservation that allows everything. -/
def importing : Shared.Attachment Unit where
  contract := ⟨⟨7⟩, 1, 1, .ordered⟩
  direction := .importing
  sockets := (3, 4)
  reservation := ()
  checked := .ok ()
  entered := .ok ()

/-- A link is attached, its receive is submitted, and it closes. -/
def closing : List (Event Unit 2) :=
  [.attach importing, .advance .immediate ⟨1, 1, 64⟩ ⟨[], false, some 1⟩,
    .act (.close ⟨0, Nat.zero_lt_two⟩ .closed),
    .advance .immediate ⟨1, 1, 64⟩ ⟨[], false, none⟩]

theorem run_requests_in_flight_closing : let _ := Target.x64
    ∃ h, run 64 4 16 (by decide) closing = .ok h ∧ h.driver.InFlight ∧
      h.driver.pendingCompletions = 2 := by
  intro _
  have hf : Fits 2 64 := ⟨by decide, by decide, by decide, by decide, by decide⟩
  obtain ⟨h, hrun, hflight, -⟩ := run_requests_in_flight (G := Unit) hf
    4 16 (by decide) closing
  refine ⟨h, hrun, hflight, ?_⟩
  have hpending : (run 64 4 16 (by decide) closing).map (fun h => h.driver.pendingCompletions) =
      .ok 2 := by
    decide +kernel
  rw [hrun] at hpending
  exact Except.ok.inj hpending

/-- Two links are ready, and the bytes are enough for one of them. -/
theorem run_pass_fair_blocked : let _ := Target.x64
    ∃ h : Host Unit 2, run 64 4 16 (by decide) [.attach importing, .attach importing] = .ok h ∧
      ∃ p, h.driver.advanceWith .immediate ⟨1, 2, 38⟩ ⟨[], false, some 1⟩ = .ok (some p) ∧
        Driver.Fair ⟨1, 2, 38⟩ h.driver p ∧ p.log.map (fun t => (t.index, t.attempt)) =
          [(0, some (.submitted 38)), (1, some .blocked), (0, some .blocked),
            (1, some .blocked)] := by
  intro _
  have hf : Fits 2 64 := ⟨by decide, by decide, by decide, by decide, by decide⟩
  obtain ⟨h, hrun, -⟩ := run_returns (G := Unit) hf 4 16 (by decide)
    [.attach importing, .attach importing]
  obtain ⟨p, hp, hfair⟩ := run_pass_fair hf hrun .immediate ⟨1, 2, 38⟩ ⟨[], false, some 1⟩
    (by decide) (by decide) (by decide)
  refine ⟨h, hrun, p, hp, hfair, ?_⟩
  have hlog : (run 64 4 16 (by decide) [.attach importing, .attach importing] >>= fun h : Host Unit 2 =>
      h.driver.advanceWith .immediate ⟨1, 2, 38⟩ ⟨[], false, some 1⟩).map
        (fun p => p.map fun p => p.log.map fun t => (t.index, t.attempt)) =
      .ok (some [(0, some (.submitted 38)), (1, some .blocked), (0, some .blocked),
        (1, some .blocked)]) := by
    decide +kernel
  rw [hrun, ok_bind, hp] at hlog
  exact Option.some.inj (Except.ok.inj hlog)

end Host

end Hiway.Uring
