import Hiway.Uring.Driver

/-!
# What the driver's functions can do

Every function of the driver is a chain of a few kinds of moves. What all moves keep,
every function keeps.

* `Shared.Move`: the moves that concern no request of the ring.
* `Driver.Move`: all moves; what they can lead to is `Reaches`.
* `Reaches.shared`: moves of the shared state are moves of the driver.
-/

namespace Hiway.Uring

open Exec Target Transport

/-- Inputs that neither accept nor complete an operation. -/
def isLocal : Input → Bool
  | .accepted .. | .completed .. => false
  | _ => true

/-- Slots that differ in flags, wakers and hints only. -/
structure Slot.Alike (a b : Slot) : Prop where
  generation : b.generation = a.generation
  protocol : b.protocol = a.protocol
  sockets : b.sockets = a.sockets
  operations : b.operations = a.operations
  alive : b.alive = a.alive

namespace Shared

variable [Target] {G : Type} {links : Nat} [NeZero links]

/-- A move that concerns no request of the ring. -/
inductive Move : Shared G links → Shared G links → Prop
  | flags {s : Shared G links} (index : Fin links) (f : Slot → Slot)
      (h : (s.slots index).Alike (f (s.slots index))) : Move s (s.update index f)
  | input {s s' : Shared G links} {index : Fin links} {p q : Protocol} {i : Input}
      {result : Except Error Unit} (hp : (s.slots index).protocol = some p) (hi : isLocal i = true)
      (h : s.input index p i = .ok (q, result, s')) : Move s s'
  | observe {s : Shared G links} {index : Fin links} {p : Protocol} (sequence : UInt64)
      (hp : (s.slots index).protocol = some p) (heffect : p.effect .data = .ok (some .provide)) :
      Move s (s.update index fun slot =>
        { slot with protocol := some (p.observeSequence sequence) })
  | refresh {s : Shared G links} (index : Fin links) : Move s (s.refresh index)
  | queue {s : Shared G links} (index : Fin links) : Move s (s.queue index)
  | release {s : Shared G links} (index : Fin links) (hb : s.borrows index = 0)
      (hc : ∀ p, (s.slots index).protocol = some p → p.closed.isSome) :
      Move s (s.update index fun slot => { slot with alive := false })
  | borrow {s : Shared G links} (index : Fin links) (count : Nat)
      (h : count ≠ 0 → (s.slots index).alive = true) :
      Move s { s with borrows := Function.update s.borrows index count }
  | stop {s : Shared G links} : Move s s.stopAdmission
  | reclaim {s : Shared G links} (index : Fin links) (hidle : (s.slots index).idle = true)
      (hclosed : (s.slots index).isClosed = true) (hb : s.borrows index = 0) :
      Move s { s.update index fun slot => { slot with sockets := none } with
        reservations := Function.update s.reservations index none }
  | retire {s : Shared G links} (index : Fin links) (p : Protocol)
      (hp : (s.slots index).protocol = some p) (hc : p.closed.isSome = true)
      (hidle : (s.slots index).idle = true) (halive : (s.slots index).alive = false)
      (hsockets : (s.slots index).sockets = none) :
      Move s { s.update index fun slot => { slot with protocol := none } with
        archived := (archive 8 p s.archived).2
        retiredLost := saturatingAdd s.retiredLost (archive 8 p s.archived).1.lostRecords }

/-- What can come of a state by moves. -/
abbrev Reaches : Shared G links → Shared G links → Prop := Relation.ReflTransGen Move

end Shared

/-- The user data of the requests whose completions have not been consumed. -/
def Ring.outstanding (r : Ring) : Multiset UInt64 :=
  ↑(r.queue.map Entry.userData) + ↑(r.kernel.map Entry.userData) +
    ↑(r.completions.map Cqe.userData)

namespace Driver

variable [Target] {G : Type} {links : Nat} [NeZero links]

/-- `shared` in the place of the driver's. -/
def withShared (d : Driver G links) (s : Shared G links) : Driver G links := { d with shared := s }

/-- A ring with a request more or less, and as many pending completions as that makes. -/
def withRing (d : Driver G links) (r : Ring) (pending : Nat) : Driver G links :=
  { d with ring := r, pendingCompletions := pending }

inductive Move : Driver G links → Driver G links → Prop
  | shared {d : Driver G links} {s : Shared G links} (h : d.shared.Move s) : Move d (d.withShared s)
  | ring {d : Driver G links} (r : Ring) (h : r.outstanding = d.ring.outstanding) :
      Move d (d.withRing r d.pendingCompletions)
  | ready {d : Driver G links} (r : Ready links) (h : d.shared.ready.Inv → r.Inv) :
      Move d (d.withShared { d.shared with ready := r })
  | hint {d : Driver G links} (ioprio : Nat) (cursor : Fin links) :
      Move d { d with receiveIoprio := ioprio, dispatchCursor := cursor }
  | prepare {d : Driver G links} {index : Fin links} {lane : Lane} {id : OpId}
      {operation : Operation} (hp : (d.slot index).isOpen = true)
      (h : ((d.slot index).operations.get lane).prepare = (some id, operation)) :
      Move d (d.update index (·.setOperation lane operation))
  /-- A request enters the queue. -/
  | accept {d : Driver G links} {index : Fin links} {lane : Lane} {p q : Protocol}
      {opcode : Opcode} {r : Ring} {result : Except Error Unit} {s : Shared G links} {id : OpId}
      (hp : (d.slot index).protocol = some p)
      (hid : ((d.slot index).operations.get lane).id = id)
      (hphase : ((d.slot index).operations.get lane).phase = .prepared)
      (heffect : ∃ e, p.effect lane = .ok (some e) ∧ e.isRequest = true)
      (hpush : d.ring.push ⟨opcode, token id⟩ = some r)
      (h : (d.shared.update index (·.setOperation lane
        (((d.slot index).operations.get lane).accepted id).2)).input index p (.accepted lane id) =
          .ok (q, result, s)) :
      Move d ((d.withShared s).withRing r (d.pendingCompletions + 1))
  /-- A cancellation enters the queue. -/
  | cancel {d : Driver G links} {index : Fin links} {lane : Lane} {opcode : Opcode} {r : Ring}
      {id : OpId} (hid : ((d.slot index).operations.get lane).cancellation = some id)
      (hpush : d.ring.push ⟨opcode, cancelToken id⟩ = some r) :
      Move d ((d.update index (·.setOperation lane
        (((d.slot index).operations.get lane).cancelAccepted id).2)).withRing r
          (d.pendingCompletions + 1))
  /-- An original request completes. -/
  | complete {d : Driver G links} {index : Fin links} {lane : Lane} {p q : Protocol} {r : Ring}
      {cqe : Cqe} {io : IoResult} {result : Except Error Unit} {s : Shared G links} {id : OpId}
      (hp : (d.slot index).protocol = some p)
      (hid : ((d.slot index).operations.get lane).id = id)
      (hphase : ((d.slot index).operations.get lane).phase = .submitted)
      (hnext : d.ring.next = some (cqe, r)) (hu : cqe.userData = token id)
      (h : (d.shared.update index (·.setOperation lane
        (((d.slot index).operations.get lane).completed id).2.reclaim.2)).input index p
          (.completed id io cqe.buffer) = .ok (q, result, s)) :
      Move d ((d.withShared s).withRing r (d.pendingCompletions - 1))
  /-- A cancellation completes. -/
  | cancelled {d : Driver G links} {index : Fin links} {lane : Lane} {r : Ring} {cqe : Cqe}
      {id : OpId} (hid : ((d.slot index).operations.get lane).id = id)
      (hstate : ((d.slot index).operations.get lane).cancellationState = .submitted)
      (hnext : d.ring.next = some (cqe, r)) (hu : cqe.userData = cancelToken id) :
      Move d ((d.update index (·.setOperation lane
        (((d.slot index).operations.get lane).cancelCompleted id).2.reclaim.2)).withRing r
          (d.pendingCompletions - 1))

abbrev Reaches : Driver G links → Driver G links → Prop := Relation.ReflTransGen Move

/-- Moves of the shared state are moves of the driver. -/
theorem Reaches.shared {d : Driver G links} {s : Shared G links} (h : d.shared.Reaches s) :
    d.Reaches (d.withShared s) := by
  induction h with
  | refl => exact .refl
  | tail _ hstep ih => exact ih.tail (.shared hstep)

end Driver

end Hiway.Uring
