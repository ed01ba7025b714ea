import Hiway.Fabric.Session
import Hiway.Local.Session

/-!
# One script for both backends

A script of operations that a static stream and a dynamic one both have, and what a
client sees of each of them. A subscription is named by its position; once it is dropped
its receiver can not be called any more.

* `Op`, `Outcome`: the operations that both backends have, and what a client sees of them.
* `outcomes`: the answers of a script, once for each backend.
-/

namespace Hiway.Parity

open Exec Target

inductive Op (α : Type) where
  | subscribe (role : SubscriptionRole)
  | sendNow (value : α)
  | recvNow (receiver : Nat)
  | drop (receiver : Nat)
  | close
  deriving DecidableEq, Repr

inductive Outcome (α : Type) where
  | subscribed (result : Except TopicError Unit)
  | sent (result : Except (TrySendError α) Unit)
  | received (result : Except ReceiveError (Option (StreamItem α)))
  | silent
  deriving DecidableEq

variable {α : Type}

/-! ## The static backend -/

structure StaticReceiver where
  key : Local.SubscriberKey
  dropped : Bool
  deriving DecidableEq, Repr

structure Static (α : Type) (cap : Nat) where
  state : Local.State α cap
  receivers : List StaticReceiver

namespace Static

variable {cap : Nat}

def subscribe (s : Static α cap) (role : SubscriptionRole) : Outcome α × Static α cap :=
  match s.state.subscribe role with
  | (.error error, state) => (.subscribed (.error error), { s with state := state })
  | (.ok key, state) =>
    (.subscribed (.ok ()), ⟨state, s.receivers ++ [⟨key, false⟩]⟩)

def sendNow [Target] (s : Static α cap) (value : α) : Exec (Outcome α × Static α cap) := do
  let (result, state) ← s.state.sendNow value
  return (.sent result, { s with state := state })

def recvNow [Target] (s : Static α cap) (r : Nat) : Exec (Outcome α × Static α cap) :=
  match s.receivers[r]? with
  | none => .ok (.silent, s)
  | some receiver =>
    if receiver.dropped then .ok (.silent, s)
    else do
      let (result, state) ← s.state.recvNow receiver.key
      return (.received result, { s with state := state })

def drop (s : Static α cap) (r : Nat) : Exec (Outcome α × Static α cap) :=
  match s.receivers[r]? with
  | none => .ok (.silent, s)
  | some receiver =>
    if receiver.dropped then .ok (.silent, s)
    else do
      let state ← s.state.drop receiver.key
      return (.silent, ⟨state, s.receivers.set r { receiver with dropped := true }⟩)

def step [Target] (s : Static α cap) : Op α → Exec (Outcome α × Static α cap)
  | .subscribe role => .ok (s.subscribe role)
  | .sendNow value => s.sendNow value
  | .recvNow r => s.recvNow r
  | .drop r => s.drop r
  | .close => .ok (.silent, { s with state := s.state.close .closed })

/-- What a new stream answers to a script. -/
def outcomes [Target] (delivery : Delivery) (subs : Nat) (ops : List (Op α)) :
    Exec (List (Outcome α)) := do
  let state : Local.State α cap ← Local.State.withLock delivery subs
  trace step ⟨state, []⟩ ops

end Static

/-! ## The dynamic backend -/

/-- The grants that a script is run with: one that publishes, and for each role one that
subscribes. -/
structure Clients where
  publisher : NodeId
  reader : SubscriptionRole → NodeId

structure DynamicReceiver where
  node : NodeId
  key : Fabric.CursorKey
  lease : Lease
  dropped : Bool
  deriving DecidableEq, Repr

structure Dynamic (α : Type) where
  world : Fabric.World α
  receivers : List DynamicReceiver

namespace Dynamic

def subscribe [Target] (c : Clients) (d : Dynamic α) (role : SubscriptionRole) :
    Outcome α × Dynamic α :=
  match d.world.subscribe (c.reader role) role with
  | (.error error, world) => (.subscribed (.error error), { d with world := world })
  | (.ok (key, lease), world) =>
    (.subscribed (.ok ()), ⟨world, d.receivers ++ [⟨c.reader role, key, lease, false⟩]⟩)

def sendNow [Target] (c : Clients) (d : Dynamic α) (value : α) : Outcome α × Dynamic α :=
  let (result, world) := d.world.sendNow c.publisher value
  (.sent result, { d with world := world })

def recvNow [Target] (d : Dynamic α) (r : Nat) : Exec (Outcome α × Dynamic α) :=
  match d.receivers[r]? with
  | none => .ok (.silent, d)
  | some receiver =>
    if receiver.dropped then .ok (.silent, d)
    else do
      let (result, world) ← d.world.recvNow receiver.node receiver.key
      return (.received result, { d with world := world })

def drop (d : Dynamic α) (r : Nat) : Outcome α × Dynamic α :=
  match d.receivers[r]? with
  | none => (.silent, d)
  | some receiver =>
    if receiver.dropped then (.silent, d)
    else
      (.silent, ⟨d.world.dropReceiver receiver.key receiver.lease,
        d.receivers.set r { receiver with dropped := true }⟩)

def step [Target] (c : Clients) (d : Dynamic α) : Op α → Exec (Outcome α × Dynamic α)
  | .subscribe role => .ok (d.subscribe c role)
  | .sendNow value => .ok (d.sendNow c value)
  | .recvNow r => d.recvNow r
  | .drop r => .ok (d.drop r)
  | .close => .ok (.silent, { d with world := (d.world.closeStream Fabric.Session.root).2 })

/-- What a new stream under `grants` answers to a script. -/
def outcomes [Target] (c : Clients) (grants : Grants) (stream : Fabric.Stream α)
    (ops : List (Op α)) : Exec (List (Outcome α)) :=
  trace (step c) ⟨⟨grants, stream⟩, []⟩ ops

end Dynamic

end Hiway.Parity
