import Hiway.Fabric.Stream
import Hiway.Stream.History

/-!
# Sessions over a dynamic stream

A session is a stream with its grant tree, together with the preparations and
subscriptions that its clients hold and with what each of them has been told. Nodes are
named by their ids, preparations and subscriptions by their position; a handle that was
dropped or consumed does nothing any more.

* `Session`, `Op`: a stream with its clients and what they have been told, and the
  operations on it.
* `step`: what one operation does; operations by handles that are gone do nothing.
-/

namespace Hiway.Fabric

open Exec Target

/-- `PreparedPublication`: the value and the storage it was charged for. -/
structure Prepared (α : Type) where
  node : NodeId
  value : α
  lease : Lease
  deriving DecidableEq, Repr

/-- `DynamicReceiver`: its cursor's key and its lease. `items` are what it has returned
since its cursor started at `start`. -/
structure Subscription (α : Type) where
  node : NodeId
  key : CursorKey
  lease : Lease
  role : SubscriptionRole
  start : Nat
  items : List (StreamItem α)
  dropped : Bool
  deriving DecidableEq, Repr

structure Session (α : Type) where
  world : World α
  preparations : List (Option (Prepared α))
  subscriptions : List (Subscription α)
  published : List α

inductive Op (α : Type) where
  | sender (node : NodeId)
  | sendNow (node : NodeId) (value : α)
  | prepare (node : NodeId) (value : α)
  | trySend (preparation : Nat)
  | cancel (preparation : Nat)
  | subscribe (node : NodeId) (role : SubscriptionRole)
  | tryRecv (receiver : Nat)
  | recvNow (receiver : Nat)
  | drop (receiver : Nat)
  | maintain
  | revoke (node : NodeId)
  | closeStream

namespace Session

variable {α : Type}

/-- The root of the tree, which is made first. -/
def root : NodeId := 0

def begin (world : World α) : Session α := ⟨world, [], [], []⟩

/-- What a reception tells the receiver it was made with. -/
def told (s : Session α) (receiver : Nat) (sub : Subscription α) :
    Except ReceiveError (Option (StreamItem α)) × World α → Session α
  | (.ok (some item), world) =>
    { s with
      world := world
      subscriptions := s.subscriptions.set receiver { sub with items := sub.items ++ [item] } }
  | (_, world) => { s with world := world }

def sendNow [Target] (s : Session α) (node : NodeId) (value : α) : Session α :=
  match s.world.sendNow node value with
  | (.error _, world) => { s with world := world }
  | (.ok (), world) => { s with world := world, published := s.published ++ [value] }

def prepare [Target] (s : Session α) (node : NodeId) (value : α) : Session α :=
  match s.world.reserve node value with
  | (.error _, world) => { s with world := world }
  | (.ok (value, lease), world) =>
    { s with
      world := world
      preparations := s.preparations ++ [some ⟨node, value, lease⟩] }

/-- `PreparedPublication::try_send`: a rejected preparation is handed back. -/
def trySend [Target] (s : Session α) (p : Nat) : Session α :=
  match Slots.entry s.preparations p with
  | none => s
  | some prepared =>
    match s.world.commit prepared.node prepared.value prepared.lease true with
    | (.error _, world) => { s with world := world }
    | (.ok (), world) =>
      { s with
        world := world
        preparations := s.preparations.set p none
        published := s.published ++ [prepared.value] }

/-- `PreparedPublication::into_inner`. -/
def cancel (s : Session α) (p : Nat) : Session α :=
  match Slots.entry s.preparations p with
  | none => s
  | some prepared =>
    { s with
      world := s.world.release prepared.lease
      preparations := s.preparations.set p none }

def subscribe [Target] (s : Session α) (node : NodeId) (role : SubscriptionRole) : Session α :=
  match s.world.subscribe node role with
  | (.error _, world) => { s with world := world }
  | (.ok (key, lease), world) =>
    { s with
      world := world
      subscriptions :=
        s.subscriptions ++ [⟨node, key, lease, role, s.world.stream.state.tail, [], false⟩] }

def tryRecv [Target] (s : Session α) (r : Nat) : Exec (Session α) :=
  match s.subscriptions[r]? with
  | none => .ok s
  | some sub =>
    if sub.dropped then .ok s
    else do
      let told ← s.world.tryRecv sub.node sub.key
      return s.told r sub told

def recvNow [Target] (s : Session α) (r : Nat) : Exec (Session α) :=
  match s.subscriptions[r]? with
  | none => .ok s
  | some sub =>
    if sub.dropped then .ok s
    else do
      let told ← s.world.recvNow sub.node sub.key
      return s.told r sub told

def drop (s : Session α) (r : Nat) : Session α :=
  match s.subscriptions[r]? with
  | none => s
  | some sub =>
    if sub.dropped then s
    else
      { s with
        world := s.world.dropReceiver sub.key sub.lease
        subscriptions := s.subscriptions.set r { sub with dropped := true } }

def step [Target] (s : Session α) : Op α → Exec (Session α)
  | .sender node => .ok { s with world := (s.world.sender node).2 }
  | .sendNow node value => .ok (s.sendNow node value)
  | .prepare node value => .ok (s.prepare node value)
  | .trySend p => .ok (s.trySend p)
  | .cancel p => .ok (s.cancel p)
  | .subscribe node role => .ok (s.subscribe node role)
  | .tryRecv r => s.tryRecv r
  | .recvNow r => s.recvNow r
  | .drop r => .ok (s.drop r)
  | .maintain => .ok { s with world := s.world.maintain }
  | .revoke node => .ok { s with world := s.world.revoke node }
  | .closeStream => .ok { s with world := (s.world.closeStream root).2 }

/-- What happens to a stream that starts in `world`. -/
def run [Target] (world : World α) (ops : List (Op α)) : Exec (Session α) :=
  steps step (begin world) ops

end Session

end Hiway.Fabric
