import Hiway.Fabric.Accounting
import Hiway.Grant.Attenuation

/-!
# A fabric and its futures

All the streams of one scope over one grant tree, with everything that the clients hold:
senders, preparations, receivers, and the futures of `send` and `recv`. A stream is named
by its place in the order of declaration. Nothing interferes with an operation, and one
poll of a future is one iteration of its loop: an iteration that ends with `continue`, or
with a wait that was notified meanwhile, is followed by another poll.

* `Channel`, `DynamicFabric`: a stream with its clients and futures, and a fabric of such
  streams.
* `FabricOp`: what can be done to it.
* `run`: a sequence of operations.
-/

namespace Hiway.Fabric

open Exec Target

/-- What a future was made for: `DynamicSender::send` or `DynamicReceiver::recv`. -/
inductive Work (α : Type) where
  | send (node : NodeId) (value : α)
  | recv (receiver : Nat)
  deriving DecidableEq, Repr

/-- `waiter` is the lease of its `Waiter`. While the future waits, `parked` is how often
the stream had notified when the wait was enabled. -/
structure Future (α : Type) where
  work : Work α
  waiter : Option Lease
  parked : Option Nat
  deriving DecidableEq, Repr

/-- A declared stream: its allocation, its count of waiters, and what its clients hold. -/
structure Channel (α : Type) where
  stream : Stream α
  allocation : Lease
  waiters : Nat
  senders : List NodeId
  preparations : List (Option (Prepared α))
  subscriptions : List (Subscription α)
  published : List α
  futures : List (Option (Future α))

/-- The streams in the order of their declaration. -/
structure DynamicFabric (α : Type) where
  grants : Grants
  channels : List (Channel α)

inductive FabricOp (α : Type) where
  | createStream (event : EventId) (delivery : Delivery) (config : StreamConfig)
  | delegate (node : NodeId) (request : Request)
  | dropGrant (node : NodeId)
  | revoke (node : NodeId)
  | maintain (order : List Nat)
  | stream (k : Nat) (op : Op α)
  | send (k : Nat) (node : NodeId) (value : α)
  | recv (k : Nat) (receiver : Nat)
  | poll (k : Nat) (future : Nat)
  | cancel (k : Nat) (future : Nat)

variable {α : Type}

/-! ## One stream -/

namespace Channel

/-- The stream and its clients, without what waits. -/
def session (ch : Channel α) (grants : Grants) : Session α where
  world := ⟨grants, ch.stream⟩
  preparations := ch.preparations
  subscriptions := ch.subscriptions
  published := ch.published

/-- The stream and its clients after an operation. -/
def after (ch : Channel α) (s : Session α) : Channel α :=
  { ch with
    stream := s.world.stream
    preparations := s.preparations
    subscriptions := s.subscriptions
    published := s.published }

def future (ch : Channel α) (f : Nat) : Option (Future α) := Slots.entry ch.futures f

/-- The leases of the live preparations and receivers. -/
def clients (ch : Channel α) : List Lease :=
  ch.preparations.filterMap (fun o => o.map Prepared.lease) ++
    ch.subscriptions.filterMap fun sub => if sub.dropped then none else some sub.lease

/-- The waiters of the pending futures. -/
def waiting (ch : Channel α) : List Lease :=
  ch.futures.filterMap fun o => o.bind Future.waiter

/-- Every lease that the stream and its clients hold. -/
def leases (ch : Channel α) : List Lease :=
  ch.allocation :: (ch.stream.state.leases ++ ch.clients ++ ch.waiting)

/-- A future borrows its receiver, which cannot be dropped meanwhile. -/
def borrowed (ch : Channel α) (r : Nat) : Bool :=
  ch.futures.any fun o => o.any fun future =>
    match future.work with
    | .recv receiver => receiver = r
    | .send _ _ => false

/-- Whether something of the stream or of its clients still refers to a node. -/
def refers (ch : Channel α) (i : NodeId) : Bool :=
  ch.leases.any (fun lease => lease.node = i) ||
    ch.stream.state.subscribers.any (fun o => o.any fun cursor => cursor.grant = i) ||
    ch.futures.any (fun o => o.any fun future =>
      match future.work with
      | .send node _ => node = i
      | .recv _ => false)

/-- What the language does not let a client do: publish without a sender, and drop a
receiver that a future borrows. -/
def allows (ch : Channel α) : Op α → Bool
  | .sendNow node _ | .prepare node _ => ch.senders.contains node
  | .drop r => !ch.borrowed r
  | _ => true

/-- The senders after an operation. -/
def sendersAfter [Target] (ch : Channel α) (grants : Grants) : Op α → List NodeId
  | .sender node =>
    match ((⟨grants, ch.stream⟩ : World α).sender node).1 with
    | .ok () => ch.senders ++ [node]
    | .error _ => ch.senders
  | _ => ch.senders

/-- One operation that does not wait. -/
def operate [Target] (ch : Channel α) (grants : Grants) (op : Op α) :
    Exec (Channel α × Grants) :=
  if ch.allows op then do
    let s ← (ch.session grants).step op
    return ({ ch.after s with senders := ch.sendersAfter grants op }, s.world.grants)
  else .ok (ch, grants)

/-! ### Futures -/

/-- `DynamicSender::send`: nothing happens before the first poll. -/
def send (ch : Channel α) (node : NodeId) (value : α) : Channel α :=
  if ch.senders.contains node then
    { ch with futures := ch.futures ++ [some ⟨.send node value, none, none⟩] }
  else ch

/-- `DynamicReceiver::recv`. -/
def recv (ch : Channel α) (r : Nat) : Channel α :=
  if ch.subscriptions[r]?.any fun sub => !sub.dropped then
    { ch with futures := ch.futures ++ [some ⟨.recv r, none, none⟩] }
  else ch

/-- A future that has completed or is abandoned drops its waiter: the count of the stream
goes first, then the lease. -/
def finish (ch : Channel α) (grants : Grants) (f : Nat) (future : Future α) :
    Channel α × Grants :=
  let ch := { ch with futures := ch.futures.set f none }
  match future.waiter with
  | none => (ch, grants)
  | some lease =>
    let world := (⟨grants, ch.stream⟩ : World α).release lease
    ({ ch with waiters := ch.waiters - 1, stream := world.stream }, world.grants)

/-- `Stream::waiter`: the lease, then a place among the waiters of the stream. -/
def waiter [Target] (ch : Channel α) (grants : Grants) (node : NodeId) :
    Except TopicError Lease × Channel α × Grants :=
  match (⟨grants, ch.stream⟩ : World α).tryCharge node { StreamLimits.zero with waiters := 1 } with
  | (.error error, world) => (.error error, { ch with stream := world.stream }, world.grants)
  | (.ok lease, world) =>
    if ch.waiters < ch.stream.config.waiters then
      (.ok lease, { ch with stream := world.stream, waiters := ch.waiters + 1 }, world.grants)
    else
      let world := world.release lease
      (.error .capacity, { ch with stream := world.stream }, world.grants)

/-- The end of an iteration that could not complete: a future without a waiter gets one
and goes on, the others wait. `mark` is how often the stream had notified when the
iteration began. -/
def block [Target] (ch : Channel α) (grants : Grants) (node : NodeId) (f : Nat)
    (future : Future α) (mark : Nat) : Channel α × Grants :=
  match future.waiter with
  | some _ =>
    ({ ch with futures := ch.futures.set f (some { future with parked := some mark }) }, grants)
  | none =>
    match ch.waiter grants node with
    | (.ok lease, ch, grants) =>
      ({ ch with futures := ch.futures.set f (some { future with waiter := some lease }) }, grants)
    | (.error _, ch, grants) => ch.finish grants f future

/-- A rejection after which `send` waits. -/
def sendWaits : Except (TrySendError α) Unit → Bool
  | .error (.full _) | .error (.contended _) | .error (.maintenanceRequired _) => true
  | _ => false

/-- An answer after which `recv` waits. -/
def recvWaits : Except ReceiveError (Option (StreamItem α)) → Bool
  | .ok none | .error .contended => true
  | _ => false

/-- One iteration of the loop of `send`. -/
def pollSend [Target] (ch : Channel α) (grants : Grants) (f : Nat) (future : Future α)
    (node : NodeId) (value : α) : Channel α × Grants :=
  let mark := ch.stream.changed
  let (result, world) := (⟨grants, ch.stream⟩ : World α).sendNow node value
  let ch := ch.after ((ch.session grants).sendNow node value)
  if sendWaits result then ch.block world.grants node f future mark
  else ch.finish world.grants f future

/-- One iteration of the loop of `recv`. -/
def pollRecv [Target] (ch : Channel α) (grants : Grants) (f : Nat) (future : Future α)
    (r : Nat) (sub : Subscription α) : Exec (Channel α × Grants) := do
  let mark := ch.stream.changed
  let (result, world) ← (⟨grants, ch.stream⟩ : World α).recvNow sub.node sub.key
  let ch := ch.after ((ch.session grants).told r sub (result, world))
  if recvWaits result then return ch.block world.grants sub.node f future mark
  else return ch.finish world.grants f future

/-- A poll does nothing while the future waits for a notification that has not come. -/
def poll [Target] (ch : Channel α) (grants : Grants) (f : Nat) : Exec (Channel α × Grants) :=
  match ch.future f with
  | none => .ok (ch, grants)
  | some future =>
    if future.parked = some ch.stream.changed then .ok (ch, grants)
    else
      match future.work with
      | .send node value => .ok (ch.pollSend grants f future node value)
      | .recv r =>
        match ch.subscriptions[r]? with
        | none => .ok (ch, grants)
        | some sub => ch.pollRecv grants f future r sub

/-- The drop of a future. -/
def cancel (ch : Channel α) (grants : Grants) (f : Nat) : Channel α × Grants :=
  match ch.future f with
  | none => (ch, grants)
  | some future => ch.finish grants f future

end Channel

end Hiway.Fabric

/-! ## What administration notifies -/

namespace Hiway.Grants

open Target

/-- Whether a charge that fails had taken something before. -/
def rollsBack [Target] (pool : Pool) (requested : Limits) : Bool :=
  (Resource.all.takeWhile fun r => requested.get r = 0 ∨
    (pool.usage.get r + requested.get r ≤ usizeMax ∧
      pool.usage.get r + requested.get r ≤ pool.limits.get r)).any fun r => 0 < requested.get r

/-- Whether a failed charge of an event notifies the waiters of its stream. -/
def chargeNotifies [Target] (g : Grants) (i : NodeId) (event : EventId) (usage : StreamLimits) :
    Bool :=
  (g.get i).any fun n =>
    match n.eventIndex event with
    | .error _ => false
    | .ok index => (n.getPool (some index)).any fun pool =>
      (chargePool pool usage.asLimits).isNone && rollsBack pool usage.asLimits &&
        n.streams.contains event

/-- How often a delegation that fails among its events notifies the waiters of a stream;
`count` comes from the reservations before. -/
def eventsNotify [Target] (g : Grants) (i : NodeId) (event : EventId) :
    List Permission → Nat → Nat
  | [], count => if g.isRevoked i then count else 0
  | permission :: rest, count =>
    match g.tryChargeStream i permission.event permission.limits with
    | (.error _, _) =>
      if permission.event = event ∧ g.chargeNotifies i event permission.limits then count + 1
      else count
    | (.ok lease, g) =>
      eventsNotify g i event rest (if g.releaseNotifies lease event then count + 1 else count)

/-- How often a delegation notifies the waiters of a stream. -/
def restrictNotifies [Target] (g : Grants) (i : NodeId) (permissions sorted : List Permission)
    (limits : Limits) (event : EventId) : Nat :=
  match g.requested i permissions limits with
  | .error _ => 0
  | .ok (_, amount) =>
    match g.tryCharge i amount with
    | (.error _, _) => 0
    | (.ok _, g) =>
      if (g.get i).any fun n => n.permissions.isSome then g.eventsNotify i event (dedup sorted) 0
      else 0

/-- How often the end of a node notifies the waiters of a stream. -/
def dropNotifies (g : Grants) (i : NodeId) (event : EventId) : Nat :=
  match g.get i with
  | none => 0
  | some n =>
    if g.nodes.any fun o => o.any fun m => m.parent = some i then 0
    else (n.parentReservation.toList ++ n.eventReservations).countP fun lease =>
      g.releaseNotifies lease event

end Hiway.Grants

/-! ## The scope -/

namespace Hiway.Fabric

open Exec Target

variable {α : Type}

namespace DynamicFabric

/-- `DynamicFabric::with_limits`. -/
def withLimits [Target] (limits : Limits) : Except TopicError (DynamicFabric α) := do
  limits.validate
  return ⟨(Lineage.root limits).grants, []⟩

/-- The streams are notified, each as often as `count` says for its event. -/
def notify (s : DynamicFabric α) (count : EventId → Nat) : DynamicFabric α :=
  { s with channels := s.channels.map fun ch =>
    { ch with stream := { ch.stream with changed := ch.stream.changed + count ch.stream.event } } }

/-- `DynamicFabric::create_stream`. -/
def createStream [Target] (s : DynamicFabric α) (event : EventId) (delivery : Delivery)
    (config : StreamConfig) : Except TopicError Unit × DynamicFabric α :=
  match Stream.create event delivery config with
  | .error error => (.error error, s)
  | .ok stream =>
    match s.channels.find? fun ch => ch.stream.event = event with
    | some ch =>
      if ch.stream.config = config ∧ ch.stream.delivery = delivery ∧
          ch.stream.state.closed = false then (.ok (), s)
      else (.error .invalidConfig, s)
    | none =>
      match s.grants.tryCharge Session.root
        { Limits.zero with
          streams := 1
          retainedItems := config.capacity
          subscriptions := config.subscribers
          waiters := config.waiters } with
      | (.error error, grants) => (.error error, { s with grants := grants })
      | (.ok allocation, grants) =>
        (.ok (), ⟨grants, s.channels ++ [⟨stream, allocation, 0, [], [], [], [], []⟩]⟩)

/-- `DynamicFabric::grant` for the root, which looks the events up first, and
`Grant::restrict` for the others. -/
def delegate [Target] (s : DynamicFabric α) (node : NodeId) (request : Request) :
    Except TopicError NodeId × DynamicFabric α :=
  if node = Session.root ∧ request.permissions.any fun permission =>
      s.channels.all fun ch => ch.stream.event ≠ permission.event then (.error .denied, s)
  else
    let (result, grants) := s.grants.restrict node request.permissions request.sorted request.limits
    (result, ({ s with grants := grants } : DynamicFabric α).notify fun event =>
      s.grants.restrictNotifies node request.permissions request.sorted request.limits event)

/-- The last handle of a grant goes when nothing else refers to its node. -/
def dropGrant (s : DynamicFabric α) (node : NodeId) : DynamicFabric α :=
  if node = Session.root ∨ s.channels.any (fun ch => ch.refers node) then s
  else
    let dropped : DynamicFabric α :=
      ⟨s.grants.dropNode node, s.channels.map fun ch =>
        { ch with senders := ch.senders.filter fun i => i ≠ node }⟩
    dropped.notify fun event => s.grants.dropNotifies node event

/-- `Grant::revoke`; a revocation that has completed is not repeated. -/
def revoke (s : DynamicFabric α) (node : NodeId) : DynamicFabric α :=
  if (s.grants.get node).any GrantNode.revoked then s
  else
    ({ s with grants := s.grants.revoke node } : DynamicFabric α).notify fun event =>
      s.grants.revokeNotifies node event

/-- An operation on the stream at place `k`. -/
def onChannel (s : DynamicFabric α) (k : Nat)
    (f : Channel α → Grants → Exec (Channel α × Grants)) : Exec (DynamicFabric α) :=
  match s.channels[k]? with
  | none => .ok s
  | some ch => do
    let (ch, grants) ← f ch s.grants
    return ⟨grants, s.channels.set k ch⟩

def step [Target] (s : DynamicFabric α) : FabricOp α → Exec (DynamicFabric α)
  | .createStream event delivery config => .ok (s.createStream event delivery config).2
  | .delegate node request => .ok (s.delegate node request).2
  | .dropGrant node => .ok (s.dropGrant node)
  | .revoke node => .ok (s.revoke node)
  | .maintain order =>
    steps (fun s k => s.onChannel k fun ch grants => ch.operate grants .maintain) s order
  | .stream _ (.revoke node) => .ok (s.revoke node)
  | .stream k op => s.onChannel k fun ch grants => ch.operate grants op
  | .send k node value => s.onChannel k fun ch grants => .ok (ch.send node value, grants)
  | .recv k r => s.onChannel k fun ch grants => .ok (ch.recv r, grants)
  | .poll k f => s.onChannel k fun ch grants => ch.poll grants f
  | .cancel k f => s.onChannel k fun ch grants => .ok (ch.cancel grants f)

/-- What happens in a fabric that starts as `s`. -/
def run [Target] (s : DynamicFabric α) (ops : List (FabricOp α)) : Exec (DynamicFabric α) :=
  steps step s ops

end DynamicFabric

end Hiway.Fabric
