import Hiway.Grant.Limits
import Hiway.Lib.Search
import Hiway.Lib.Slots

/-!
# The grant tree, one operation at a time

Nodes with their pools, leases on a pool, and the functions of a node as they run
without interference. A node is named by its index; a child is created after its
parent and has the larger one.

* `GrantNode`, `Grants`: a node with its pools and what it reserved at its parent, and the
  tree.
* `check`, `enter`: the admission of an operation by a node and its ancestors.
* `charge`, `tryChargeStream`, `release`: leases on a pool; a charge that fails changes
  nothing (`charge_error`).
-/

namespace Hiway

open Target

abbrev NodeId := Nat

structure Pool where
  limits : Limits
  usage : Limits
  deriving DecidableEq, Repr

def Pool.new (limits : Limits) : Pool := ⟨limits, Limits.zero⟩

structure EventAllowance where
  permission : Permission
  pool : Pool
  deriving DecidableEq, Repr

/-- Amounts taken from one pool of a node: the generic one, or the one of an event. -/
structure Lease where
  node : NodeId
  usage : Limits
  event : Option Nat
  deriving DecidableEq, Repr

/-- `state` is kept as its two parts: the revoked bit and the count of operations. -/
structure GrantNode where
  limits : Limits
  pool : Pool
  permissions : Option (List EventAllowance)
  parentReservation : Option Lease
  eventReservations : List Lease
  revoked : Bool
  active : Nat
  streams : List EventId
  deriving DecidableEq, Repr

/-- `ACTIVE_COUNT`: the largest count of operations. -/
def activeCount [Target] : Nat := isizeMax

namespace GrantNode

def parent (n : GrantNode) : Option NodeId := n.parentReservation.map Lease.node

/-- Of a node without permissions every event has every right. -/
def permits (n : GrantNode) (event : EventId) (right : Rights) : Bool :=
  match n.permissions with
  | none => true
  | some permissions =>
    match Search.binarySearch (fun entry => entry.permission.event.asU128) permissions
        event.asU128 with
    | none => false
    | some index => permissions[index]?.any fun entry => entry.permission.rights.contains right

def eventIndex (n : GrantNode) (event : EventId) : Except TopicError Nat :=
  match n.permissions with
  | none => .error .denied
  | some permissions =>
    match Search.binarySearch (fun entry => entry.permission.event.asU128) permissions
        event.asU128 with
    | none => .error .denied
    | some index => .ok index

def getPool (n : GrantNode) (event : Option Nat) : Option Pool :=
  match event with
  | none => some n.pool
  | some index => (n.permissions.bind fun permissions => permissions[index]?).map (·.pool)

/-- Changes the usage of one pool. -/
def modifyUsage (n : GrantNode) (event : Option Nat) (f : Limits → Limits) : GrantNode :=
  match event with
  | none => { n with pool := { n.pool with usage := f n.pool.usage } }
  | some index =>
    { n with
      permissions := n.permissions.map fun permissions =>
        permissions.modify index fun entry =>
          { entry with pool := { entry.pool with usage := f entry.pool.usage } } }

end GrantNode

/-- Whether two handles name one node. -/
def Lease.belongsTo (lease : Lease) (node : NodeId) : Bool := lease.node = node

/-- The live nodes, by id. -/
structure Grants where
  nodes : List (Option GrantNode)
  deriving DecidableEq, Repr

namespace Grants

def get (g : Grants) (i : NodeId) : Option GrantNode := Slots.entry g.nodes i

def modify (g : Grants) (i : NodeId) (f : GrantNode → GrantNode) : Grants :=
  ⟨g.nodes.modify i (Option.map f)⟩

theorem get_modify (g : Grants) (i j : NodeId) (f : GrantNode → GrantNode) :
    (g.modify i f).get j = if i = j then (g.get j).map f else g.get j := by
  unfold get modify Slots.entry
  rw [List.getElem?_modify]
  by_cases h : i = j
  · rw [if_pos h]
    cases g.nodes[j]? <;> simp [h]
  · simp [h]

/-- A node and its ancestors, at most `fuel` of them. -/
def chain (g : Grants) : Nat → NodeId → List NodeId
  | 0, _ => []
  | fuel + 1, i =>
    i :: match (g.get i).bind GrantNode.parent with
      | none => []
      | some p => g.chain fuel p

/-- A node and all its ancestors: each parent has a smaller id. -/
def path (g : Grants) (i : NodeId) : List NodeId := g.chain (i + 1) i

def isRevoked (g : Grants) (i : NodeId) : Bool :=
  (g.path i).any fun j => (g.get j).any GrantNode.revoked

def check (g : Grants) (i : NodeId) (event : EventId) (right : Rights) : Except TopicError Unit :=
  if g.isRevoked i then .error .revoked
  else if (g.get i).any fun n => n.permits event right then .ok ()
  else .error .denied

/-- An operation that is entered and left again. Between the two it is one of the
counted operations of its node. -/
def enter [Target] (g : Grants) (i : NodeId) (event : EventId) (right : Rights) :
    Except TopicError Unit := do
  g.check i event right
  if (g.get i).any fun n => n.active < activeCount then return () else .error .capacity

/-! ## Charging -/

/-- Adds the request to the usage, resource by resource. A resource without room ends
the request, and what was taken before is given back. -/
def chargePool [Target] (pool : Pool) (requested : Limits) : Option Limits :=
  Resource.all.foldlM (fun usage r =>
    if requested.get r = 0 then some usage
    else if usage.get r + requested.get r ≤ usizeMax ∧
        usage.get r + requested.get r ≤ pool.limits.get r then
      some (usage.modify r (· + requested.get r))
    else none) pool.usage

def charge [Target] (g : Grants) (i : NodeId) (event : Option Nat) (usage : Limits) :
    Except TopicError Lease × Grants :=
  if g.isRevoked i then (.error .revoked, g)
  else
    match (g.get i).bind fun n => n.getPool event with
    | none => (.error .denied, g)
    | some pool =>
      match chargePool pool usage with
      | none => (.error .capacity, g)
      | some total => (.ok ⟨i, usage, event⟩, g.modify i fun n => n.modifyUsage event fun _ => total)

def tryCharge [Target] (g : Grants) (i : NodeId) (usage : Limits) :
    Except TopicError Lease × Grants :=
  g.charge i none usage

def tryChargeStream [Target] (g : Grants) (i : NodeId) (event : EventId) (usage : StreamLimits) :
    Except TopicError Lease × Grants :=
  match g.get i with
  | none => (.error .denied, g)
  | some n =>
    match n.eventIndex event with
    | .error error => (.error error, g)
    | .ok index => g.charge i (some index) usage.asLimits

/-- A charge that fails changes nothing. -/
theorem charge_error [Target] {g g' : Grants} {i : NodeId} {event : Option Nat} {usage : Limits}
    {error : TopicError} (h : g.charge i event usage = (.error error, g')) : g' = g := by
  unfold charge at h
  split at h
  · cases h
    rfl
  · split at h
    · cases h
      rfl
    · split at h
      · cases h
        rfl
      · cases h

theorem tryChargeStream_error [Target] {g g' : Grants} {i : NodeId} {event : EventId}
    {usage : StreamLimits} {error : TopicError}
    (h : g.tryChargeStream i event usage = (.error error, g')) : g' = g := by
  unfold tryChargeStream at h
  split at h
  · cases h
    rfl
  · split at h
    · cases h
      rfl
    · exact charge_error h

/-- `Lease::drop`. -/
def release (g : Grants) (lease : Lease) : Grants :=
  g.modify lease.node fun n => n.modifyUsage lease.event fun usage =>
    Limits.ofValues fun r => usage.get r - lease.usage.get r

/-- The streams whose waiters the release of a lease notifies. -/
def releaseNotifies (g : Grants) (lease : Lease) (event : EventId) : Bool :=
  match g.get lease.node, lease.event with
  | some n, some index =>
    Resource.all.any (fun r => 0 < lease.usage.get r) &&
      ((n.permissions.bind fun permissions => permissions[index]?).any fun entry =>
        entry.permission.event = event) &&
      n.streams.contains event
  | _, _ => false

/-! ## Administration -/

def registerStream (g : Grants) (i : NodeId) (event : EventId) : Except TopicError Unit × Grants :=
  if g.isRevoked i then (.error .revoked, g)
  else
    match g.get i with
    | none => (.error .denied, g)
    | some n =>
      if n.streams.contains event then (.ok (), g)
      else if n.limits.streams ≤ n.streams.length then (.error .capacity, g)
      else (.ok (), g.modify i fun n => { n with streams := n.streams ++ [event] })

/-- A revocation without operations to wait for: the node and all its descendants. -/
def revoke (g : Grants) (i : NodeId) : Grants :=
  ⟨g.nodes.mapIdx fun j o =>
    o.map fun n => if i ∈ g.path j then { n with revoked := true } else n⟩

/-- How many of the revoked nodes notify the waiters of a stream. -/
def revokeNotifies (g : Grants) (i : NodeId) (event : EventId) : Nat :=
  (List.range g.nodes.length).countP fun j =>
    i ∈ g.path j && (g.get j).any fun n => n.streams.contains event

def streamLimits (g : Grants) (i : NodeId) (event : EventId) : Except TopicError StreamLimits :=
  match g.get i with
  | none => .error .denied
  | some n =>
    match n.eventIndex event with
    | .error error => .error error
    | .ok index =>
      match n.permissions.bind fun permissions => permissions[index]? with
      | none => .error .denied
      | some entry => .ok entry.permission.limits

end Grants

end Hiway
