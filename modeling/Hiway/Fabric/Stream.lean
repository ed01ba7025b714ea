import Hiway.Grant.Tree
import Hiway.Lib.Slots

/-!
# The dynamic stream

One stream of a fabric together with the grant tree that its entries, subscriptions
and operations are charged to. Every function runs without interference, so a
`try_lock` always succeeds. `deferred` and `changed` are the notification state:
`changed` counts the calls of `notify_waiters`.

* `Entry`, `Cursor`, `State`: an entry with the lease of its publisher, a cursor, and the
  state behind the lock.
* `World`: a stream with the tree of grants.
* `reserve`, `commit`, `maintain`: the parts that publications and maintenance are made of.
-/

namespace Hiway.Fabric

open Exec Target

structure StreamConfig where
  capacity : Nat
  subscribers : Nat
  waiters : Nat
  deriving DecidableEq, Repr

structure Entry (α : Type) where
  sequence : Nat
  value : α
  lease : Lease
  deriving DecidableEq, Repr

structure CursorKey where
  index : Nat
  id : Nat
  deriving DecidableEq, Repr

structure Cursor where
  id : Nat
  next : Nat
  role : SubscriptionRole
  grant : NodeId
  deriving DecidableEq, Repr

structure State (α : Type) where
  entries : List (Entry α)
  subscribers : List (Option Cursor)
  tail : Nat
  nextCursor : Nat
  closed : Bool
  needsRoom : Bool
  retired : Option (Entry α)
  deriving DecidableEq, Repr

structure Stream (α : Type) where
  event : EventId
  config : StreamConfig
  delivery : Delivery
  state : State α
  deferred : Bool
  changed : Nat
  deriving DecidableEq, Repr

/-- A stream and the grants that use it. -/
structure World (α : Type) where
  grants : Grants
  stream : Stream α

variable {α : Type}

/-- A stream as it is made. -/
def Stream.empty (event : EventId) (delivery : Delivery) (config : StreamConfig) : Stream α where
  event := event
  config := config
  delivery := delivery
  state := {
    entries := []
    subscribers := List.replicate config.subscribers none
    tail := 0
    nextCursor := 0
    closed := false
    needsRoom := false
    retired := none }
  deferred := false
  changed := 0

/-- What `create_stream` checks of a configuration, and the stream it makes. -/
def Stream.create [Target] (event : EventId) (delivery : Delivery) (config : StreamConfig) :
    Except TopicError (Stream α) := do
  Limits.validate
    { Limits.zero with
      streams := 1
      retainedItems := config.capacity
      subscriptions := config.subscribers
      waiters := config.waiters }
  if config.capacity = 0 ∨ (delivery = .latest ∧ config.capacity ≠ 1) then .error .invalidConfig
  else return Stream.empty event delivery config

namespace State

/-- A live required cursor has not passed `sequence`. -/
def requiredNeeds (s : State α) (g : Grants) (sequence : Nat) : Bool :=
  s.subscribers.any fun o => o.any fun cursor =>
    cursor.role = .required ∧ cursor.next ≤ sequence ∧ g.isRevoked cursor.grant = false

/-- No live cursor is still before `sequence` or at it. -/
def consumed (s : State α) (g : Grants) (sequence : Nat) : Bool :=
  s.subscribers.all fun o => o.all fun cursor =>
    cursor.next > sequence ∨ g.isRevoked cursor.grant = true

end State

namespace World

/-- `StateGuard::drop`: the guarded state is visible, and waiters are notified now or
left to the next maintenance. -/
def unlock (w : World α) (state : State α) (dirty notify : Bool) : World α :=
  { w with stream :=
    if notify = false then
      { w.stream with state := state, deferred := w.stream.deferred || dirty }
    else
      { w.stream with
        state := state
        deferred := false
        changed := if w.stream.deferred || dirty then w.stream.changed + 1
          else w.stream.changed } }

/-- `Lease::drop`. -/
def release (w : World α) (lease : Lease) : World α where
  grants := w.grants.release lease
  stream := if w.grants.releaseNotifies lease w.stream.event then
      { w.stream with changed := w.stream.changed + 1 }
    else w.stream

/-- Drops entries one after the other. -/
def releaseAll (w : World α) (entries : List (Entry α)) : World α :=
  entries.foldl (fun w entry => w.release entry.lease) w

def tryCharge [Target] (w : World α) (node : NodeId) (usage : StreamLimits) :
    Except TopicError Lease × World α :=
  let (result, grants) := w.grants.tryChargeStream node w.stream.event usage
  (result, { w with grants := grants })

/-! ## Maintenance -/

/-- The loop of `retire_consumed`. -/
def retireLoop : Nat → World α → World α
  | 0, w => w
  | fuel + 1, w =>
    match w.stream.state.entries with
    | [] => w.unlock w.stream.state false true
    | entry :: rest =>
      if w.stream.state.consumed w.grants entry.sequence then
        retireLoop fuel
          ((w.unlock { w.stream.state with entries := rest } true true).release entry.lease)
      else w.unlock w.stream.state false true

def retireConsumed (w : World α) : World α :=
  if w.stream.delivery = .latest then w else retireLoop w.stream.config.capacity w

/-- A latest-state stream frees the snapshot that a strict publication replaced. -/
def freeRetired (w : World α) : World α :=
  if w.stream.delivery = .latest then
    let freed := w.unlock { w.stream.state with retired := none }
      w.stream.state.retired.isSome true
    match w.stream.state.retired with
    | none => freed
    | some entry => freed.release entry.lease
  else w

/-- Makes the room that a strict publication asked for. -/
def makeRoom (w : World α) : World α :=
  let state := w.stream.state
  match state.entries with
  | entry :: rest =>
    if state.needsRoom = true ∧ state.entries.length = w.stream.config.capacity ∧
        state.requiredNeeds w.grants entry.sequence = false then
      (w.unlock { state with needsRoom := false, entries := rest } true true).release entry.lease
    else w.unlock { state with needsRoom := false } false true
  | [] => w.unlock { state with needsRoom := false } false true

/-- `Stream::maintain`. -/
def maintain (w : World α) : World α :=
  let w := w.freeRetired.retireConsumed.makeRoom
  if w.stream.deferred then
    { w with stream := { w.stream with deferred := false, changed := w.stream.changed + 1 } }
  else w

/-! ## Binding -/

/-- `Grant::stream`: the check, the registry and the registration of the node. -/
def bindStream (w : World α) (node : NodeId) (rights : Rights) :
    Except TopicError Unit × World α :=
  match w.grants.check node w.stream.event rights with
  | .error error => (.error error, w)
  | .ok () =>
    let (result, grants) := w.grants.registerStream node w.stream.event
    (result, { w with grants := grants })

/-- `Grant::sender`. -/
def sender (w : World α) (node : NodeId) : Except TopicError Unit × World α :=
  match w.bindStream node .publish with
  | (.error error, w) => (.error error, w)
  | (.ok (), w) =>
    let required := if w.stream.delivery = .latest then 2 else 1
    match w.grants.streamLimits node w.stream.event with
    | .error error => (.error error, w)
    | .ok limits => (if limits.retainedItems < required then .error .capacity else .ok (), w)

def roleRights : SubscriptionRole → Rights
  | .observer => .observe
  | .required => Rights.observe.union .required

/-- The table part of `Grant::subscribe`, under the lock. -/
def claim (w : World α) (node : NodeId) (role : SubscriptionRole) :
    Except TopicError CursorKey × World α :=
  let state := w.stream.state
  if state.closed then (.error .denied, w.unlock state false true)
  else
    match Slots.free state.subscribers with
    | none => (.error .capacity, w.unlock state false true)
    | some index =>
      let id := state.nextCursor
      if id + 1 > u64Max then (.error .capacity, w.unlock state false true)
      else
        let next := if w.stream.delivery = .latest then state.tail - 1 else state.tail
        (.ok ⟨index, id⟩, w.unlock
          { state with
            nextCursor := id + 1
            subscribers := state.subscribers.set index (some ⟨id, next, role, node⟩) } true true)

/-- `Grant::subscribe`. A failure after the charge gives the lease back. -/
def subscribe [Target] (w : World α) (node : NodeId) (role : SubscriptionRole) :
    Except TopicError (CursorKey × Lease) × World α :=
  if w.stream.delivery = .latest ∧ role = .required then (.error .invalidConfig, w)
  else
    match w.bindStream node (roleRights role) with
    | (.error error, w) => (.error error, w)
    | (.ok (), w) =>
      match w.tryCharge node { StreamLimits.zero with subscriptions := 1 } with
      | (.error error, w) => (.error error, w)
      | (.ok lease, w) =>
        match w.grants.enter node w.stream.event (roleRights role) with
        | .error error => (.error error, w.release lease)
        | .ok () =>
          match w.claim node role with
          | (.error error, w) => (.error error, w.release lease)
          | (.ok key, w) => (.ok (key, lease), w)

/-! ## Publication -/

/-- The loop of `reserve`. -/
def reserveLoop [Target] (node : NodeId) (value : α) : Nat → World α →
    Except (TrySendError α) (α × Lease) × World α
  | 0, w => (.error (.full value), w)
  | fuel + 1, w =>
    if w.grants.isRevoked node then (.error (.revoked value), w)
    else
      let state := w.stream.state
      let seen := w.unlock state false true
      if state.closed then (.error (.closed value), seen)
      else if state.tail = u64Max then (.error (.sequenceExhausted value), seen)
      else if state.entries.length = w.stream.config.capacity ∧
          state.entries.head?.any (fun entry => state.requiredNeeds w.grants entry.sequence) then
        (.error (.full value), seen)
      else
        match seen.tryCharge node { StreamLimits.zero with retainedItems := 1 } with
        | (.ok lease, w) => (.ok (value, lease), w)
        | (.error .revoked, w) => (.error (.revoked value), w)
        | (.error _, w) =>
          if w.stream.delivery = .latest then (.error (.full value), w)
          else
            let state := w.stream.state
            if state.closed then (.error (.closed value), w.unlock state false true)
            else if (state.entries.find? fun entry => entry.lease.belongsTo node).all
                fun entry => state.requiredNeeds w.grants entry.sequence then
              (.error (.full value), w.unlock state false true)
            else
              match state.entries with
              | [] => reserveLoop node value fuel (w.unlock state true true)
              | retired :: rest =>
                reserveLoop node value fuel
                  ((w.unlock { state with entries := rest } true true).release retired.lease)

/-- `DynamicSender::reserve`. -/
def reserve [Target] (w : World α) (node : NodeId) (value : α) :
    Except (TrySendError α) (α × Lease) × World α :=
  match w.grants.enter node w.stream.event .publish with
  | .error .contended | .error .capacity => (.error (.contended value), w)
  | .error _ => (.error (.revoked value), w)
  | .ok () =>
    let w := if w.stream.delivery = .latest then w.maintain else w
    reserveLoop node value (w.stream.config.capacity + 1) w

/-- The next entry is appended. -/
def append (state : State α) (value : α) (lease : Lease) : State α :=
  { state with
    entries := state.entries ++ [⟨state.tail, value, lease⟩]
    tail := state.tail + 1 }

/-- `DynamicSender::commit`. -/
def commit [Target] (w : World α) (node : NodeId) (value : α) (lease : Lease)
    (deferred : Bool) : Except (TrySendError (α × Lease)) Unit × World α :=
  match w.grants.enter node w.stream.event .publish with
  | .error .contended | .error .capacity => (.error (.contended (value, lease)), w)
  | .error _ => (.error (.revoked (value, lease)), w)
  | .ok () =>
    let state := w.stream.state
    if state.closed then (.error (.closed (value, lease)), w.unlock state false (!deferred))
    else if state.tail + 1 > u64Max then
      (.error (.sequenceExhausted (value, lease)), w.unlock state false (!deferred))
    else if state.entries.length = w.stream.config.capacity then
      if state.entries.head?.any (fun entry => state.requiredNeeds w.grants entry.sequence) then
        (.error (.full (value, lease)), w.unlock state false (!deferred))
      else if deferred then
        if w.stream.delivery = .latest then
          if state.retired.isSome then
            (.error (.maintenanceRequired (value, lease)), w.unlock state false false)
          else
            (.ok (), w.unlock
              (append { state with retired := state.entries.head?, entries := state.entries.tail }
                value lease) true false)
        else
          (.error (.maintenanceRequired (value, lease)),
            w.unlock { state with needsRoom := true } false false)
      else
        let w' := w.unlock (append { state with entries := state.entries.tail } value lease)
          true true
        (.ok (), match state.entries.head? with
          | none => w'
          | some retired => w'.release retired.lease)
    else (.ok (), w.unlock (append state value lease) true (!deferred))

/-- `DynamicSender::send_now`. -/
def sendNow [Target] (w : World α) (node : NodeId) (value : α) :
    Except (TrySendError α) Unit × World α :=
  match w.reserve node value with
  | (.error error, w) => (.error error, w)
  | (.ok (value, lease), w) =>
    match w.commit node value lease false with
    | (.error error, w) => (.error (error.map Prod.fst), w.release lease)
    | (.ok (), w) => (.ok (), w)

/-! ## Reception -/

/-- `DynamicReceiver::try_recv`. -/
def tryRecv [Target] (w : World α) (node : NodeId) (key : CursorKey) :
    Exec (Except ReceiveError (Option (StreamItem α)) × World α) :=
  match w.grants.enter node w.stream.event .observe with
  | .error .contended | .error .capacity => .ok (.error .contended, w)
  | .error _ => .ok (.error (.closed .revoked), w)
  | .ok () =>
    let state := w.stream.state
    if state.closed then .ok (.error (.closed .closed), w.unlock state false false)
    else do
      let occupant ← index state.subscribers key.index
      match occupant.filter fun cursor => cursor.id = key.id with
      | none => return (.error (.closed .closed), w.unlock state false false)
      | some cursor =>
        let next := if w.stream.delivery = .latest then max cursor.next (state.tail - 1)
          else cursor.next
        let head := (state.entries.head?.map (·.sequence)).getD state.tail
        if next < head then
          return (.ok (some (.gap next head)), w.unlock
            { state with subscribers :=
              state.subscribers.set key.index (some { cursor with next := head }) } true false)
        else if next < state.tail then do
          let position ← sub next head
          let position ← unwrap (if position ≤ usizeMax then some position else none)
          let entry ← index state.entries position
          let following ← addU64 next 1
          return (.ok (some (.data next entry.value)), w.unlock
            { state with subscribers :=
              state.subscribers.set key.index (some { cursor with next := following }) } true false)
        else return (.ok none, w.unlock state false false)

/-- `DynamicReceiver::recv_now`. -/
def recvNow [Target] (w : World α) (node : NodeId) (key : CursorKey) :
    Exec (Except ReceiveError (Option (StreamItem α)) × World α) := do
  let (item, w) ← w.tryRecv node key
  return (item, w.maintain)

/-- `ReceiverInner::drop`, and of the subscription lease it owns. -/
def dropReceiver (w : World α) (key : CursorKey) (lease : Lease) : World α :=
  let state := w.stream.state
  ((w.unlock { state with subscribers := state.subscribers.set key.index none } true
    true).retireConsumed).release lease

/-! ## Administration -/

/-- `DynamicFabric::close_stream`, through the root. -/
def closeStream (w : World α) (root : NodeId) : Except TopicError Unit × World α :=
  match w.bindStream root .publish with
  | (.error error, w) => (.error error, w)
  | (.ok (), w) =>
    let state := w.stream.state
    let closed := w.unlock
      { state with closed := true, entries := [], subscribers := [], retired := none } true true
    (.ok (), closed.releaseAll (state.entries ++ state.retired.toList))

def revoke (w : World α) (node : NodeId) : World α :=
  { w with
    grants := w.grants.revoke node
    stream := { w.stream with
      changed := w.stream.changed + w.grants.revokeNotifies node w.stream.event } }

end World

end Hiway.Fabric
