import Hiway.Event
import Hiway.Lib.Slots

/-!
# The static stream

`State` of a bounded stream in caller-owned storage: a ring of the last `cap` values
and a table of cursors. Each subscription is named by its slot and by a generation
that no other subscription of the stream ever has.

* `State`: the ring, the tail and the table of cursors.
* `sendNow`, `recvNow`, `subscribe`: the operations under the lock.
-/

namespace Hiway.Local

open Exec Target

structure SubscriberKey where
  index : Nat
  generation : Nat
  deriving DecidableEq, Repr

structure Cursor where
  generation : Nat
  next : Nat
  role : SubscriptionRole
  deriving DecidableEq, Repr

/-- Bits of `State::changed`. -/
inductive Interest where
  | send
  | receive
  deriving DecidableEq, Repr

def Interest.bits : Interest → UInt8
  | .send => 1
  | .receive => 2

structure State (α : Type) (cap : Nat) where
  delivery : Delivery
  values : Vector (Option α) cap
  tail : Nat
  cursors : List (Option Cursor)
  nextGeneration : Nat
  closed : Option CloseReason
  changed : UInt8

namespace State

variable {α : Type} {cap : Nat}

def new (delivery : Delivery) (subs : Nat) : State α cap where
  delivery := delivery
  values := Vector.replicate cap none
  tail := 0
  cursors := List.replicate subs none
  nextGeneration := 0
  closed := none
  changed := 0

/-- The assertions of `StaticStream::with_lock`, and the state it starts from. -/
def withLock (delivery : Delivery) (subs : Nat) : Exec (State α cap) := do
  Exec.assert (0 < cap)
  Exec.assert (delivery ≠ .latest ∨ cap = 1)
  return new delivery subs

def subscribe (s : State α cap) (role : SubscriptionRole) :
    Except TopicError SubscriberKey × State α cap :=
  match s.closed with
  | some reason => (.error (if reason = .revoked then .revoked else .denied), s)
  | none =>
    if s.delivery = .latest ∧ role = .required then (.error .invalidConfig, s)
    else
      match Slots.free s.cursors with
      | none => (.error .capacity, s)
      | some index =>
        let generation := s.nextGeneration
        if generation + 1 > u64Max then (.error .capacity, s)
        else
          let next := if s.delivery = .latest then s.tail - 1 else s.tail
          (.ok ⟨index, generation⟩,
            { s with
              nextGeneration := generation + 1
              cursors := s.cursors.set index (some ⟨generation, next, role⟩) })

/-- Some live required subscription has not passed `sequence`. -/
def requires (s : State α cap) (sequence : Nat) : Bool :=
  s.cursors.any fun o => o.any fun cursor => cursor.role = .required ∧ cursor.next ≤ sequence

/-- `usize::try_from(sequence % CAP as u64).expect(..)`. -/
def slot [Target] (cap sequence : Nat) : Exec Nat := do
  let index ← rem sequence cap
  unwrap (if index ≤ usizeMax then some index else none)

/-- `self.values[index] = Some(value)` for the slot of `sequence`. -/
def store [Target] (s : State α cap) (sequence : Nat) (value : α) :
    Exec (Vector (Option α) cap) := do
  let index ← slot cap sequence
  if h : index < cap then return s.values.set index (some value) else .error .bounds

/-- `self.values[index].expect(..)` for the slot of `sequence`. -/
def load [Target] (s : State α cap) (sequence : Nat) : Exec α := do
  let index ← slot cap sequence
  if h : index < cap then unwrap s.values[index] else .error .bounds

def sendNow [Target] (s : State α cap) (value : α) :
    Exec (Except (TrySendError α) Unit × State α cap) :=
  match s.closed with
  | some reason =>
    .ok (.error (if reason = .revoked then .revoked value else .closed value), s)
  | none =>
    if s.tail + 1 > u64Max then .ok (.error (.sequenceExhausted value), s)
    else if s.tail ≥ cap ∧ s.requires (s.tail - cap) = true then .ok (.error (.full value), s)
    else do
      let values ← s.store s.tail value
      return (.ok (), { s with
        values := values
        tail := s.tail + 1
        changed := s.changed ||| Interest.receive.bits })

/-- `cursors.get_mut(key.index).and_then(Option::as_mut).filter(..)`. -/
def cursor (s : State α cap) (key : SubscriberKey) : Option Cursor :=
  (Slots.entry s.cursors key.index).filter fun cursor => cursor.generation = key.generation

/-- The receiver's cursor is now at `next`. -/
def seek (s : State α cap) (key : SubscriberKey) (cursor : Cursor) (next : Nat) : State α cap :=
  { s with cursors := s.cursors.set key.index (some { cursor with next := next }) }

def recvNow [Target] (s : State α cap) (key : SubscriberKey) :
    Exec (Except ReceiveError (Option (StreamItem α)) × State α cap) :=
  match s.closed with
  | some reason => .ok (.error (.closed reason), s)
  | none =>
    match s.cursor key with
    | none => .ok (.error (.closed .closed), s)
    | some cursor =>
      let next := if s.delivery = .latest then max cursor.next (s.tail - 1) else cursor.next
      let oldest := s.tail - cap
      if next < oldest then
        .ok (.ok (some (.gap next oldest)),
          { s.seek key cursor oldest with changed := s.changed ||| Interest.send.bits })
      else if next = s.tail then .ok (.ok none, s.seek key cursor next)
      else do
        let value ← s.load next
        let following ← addU64 next 1
        return (.ok (some (.data next value)),
          { s.seek key cursor following with changed := s.changed ||| Interest.send.bits })

/-- `StaticReceiver::drop`. -/
def drop (s : State α cap) (key : SubscriberKey) : Exec (State α cap) := do
  let occupant ← index s.cursors key.index
  if occupant.any fun cursor => cursor.generation = key.generation then
    return { s with
      cursors := s.cursors.set key.index none
      changed := s.changed ||| Interest.send.bits }
  else return s

/-- `StaticStream::close`. The first reason is retained. -/
def close (s : State α cap) (reason : CloseReason) : State α cap :=
  { s with
    closed := s.closed.or (some reason)
    values := Vector.replicate cap none
    changed := 0xFF }

end State

end Hiway.Local
