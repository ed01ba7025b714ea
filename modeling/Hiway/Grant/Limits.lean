import Hiway.Event

/-!
# Limits and permissions

The seven kinds of resources that a grant may spend, the permissions that attach part
of them to one event, and the partition of a node's limits into a generic pool and one
pool for each permitted event.

* `Resource`, `Limits`: the kinds of resources, and an amount of each.
* `Limits.reserve`: what is taken out of an amount, if it is there.
* `partition`: how the limits of a node are divided among its pools.
-/

namespace Hiway

open Target

/-- The kinds of resources, in the order of `Limits::values`. -/
inductive Resource where
  | streams
  | grants
  | subscriptions
  | retainedItems
  | waiters
  | connections
  | bytes
  deriving DecidableEq, Repr

def Resource.all : List Resource :=
  [.streams, .grants, .subscriptions, .retainedItems, .waiters, .connections, .bytes]

theorem Resource.mem_all (r : Resource) : r ∈ Resource.all := by
  cases r <;> simp [Resource.all]

structure Limits where
  streams : Nat
  grants : Nat
  subscriptions : Nat
  retainedItems : Nat
  waiters : Nat
  connections : Nat
  bytes : Nat
  deriving DecidableEq, Repr

namespace Limits

def zero : Limits := ⟨0, 0, 0, 0, 0, 0, 0⟩

/-- The entry of `Limits::values` for a resource. -/
def get (l : Limits) : Resource → Nat
  | .streams => l.streams
  | .grants => l.grants
  | .subscriptions => l.subscriptions
  | .retainedItems => l.retainedItems
  | .waiters => l.waiters
  | .connections => l.connections
  | .bytes => l.bytes

def ofValues (f : Resource → Nat) : Limits where
  streams := f .streams
  grants := f .grants
  subscriptions := f .subscriptions
  retainedItems := f .retainedItems
  waiters := f .waiters
  connections := f .connections
  bytes := f .bytes

@[simp] theorem get_ofValues (f : Resource → Nat) (r : Resource) : (ofValues f).get r = f r := by
  cases r <;> rfl

@[simp] theorem get_zero (r : Resource) : zero.get r = 0 := by
  cases r <;> rfl

theorem ext_get {l m : Limits} (h : ∀ r, l.get r = m.get r) : l = m := by
  cases l
  cases m
  simp only [mk.injEq]
  exact ⟨h .streams, h .grants, h .subscriptions, h .retainedItems, h .waiters, h .connections,
    h .bytes⟩

/-- The counter of one resource changes. -/
def modify (l : Limits) (r : Resource) (f : Nat → Nat) : Limits :=
  ofValues fun q => if q = r then f (l.get q) else l.get q

@[simp] theorem get_modify (l : Limits) (r q : Resource) (f : Nat → Nat) :
    (l.modify r f).get q = if q = r then f (l.get q) else l.get q := by
  simp [modify]

def validate [Target] (l : Limits) : Except TopicError Unit :=
  if Resource.all.any fun r => isizeMax < l.get r then .error .invalidConfig else .ok ()

/-- `Limits::default()`. -/
def default : Limits where
  streams := 64
  grants := 128
  subscriptions := 1024
  retainedItems := 65536
  waiters := 4096
  connections := 64
  bytes := 64 * 1024 * 1024

end Limits

structure StreamLimits where
  retainedItems : Nat
  subscriptions : Nat
  waiters : Nat
  deriving DecidableEq, Repr

namespace StreamLimits

def zero : StreamLimits := ⟨0, 0, 0⟩

def asLimits (l : StreamLimits) : Limits :=
  { Limits.zero with
    retainedItems := l.retainedItems
    subscriptions := l.subscriptions
    waiters := l.waiters }

end StreamLimits

/-- A bit set. -/
structure Rights where
  bits : UInt8
  deriving DecidableEq, Repr

namespace Rights

def publish : Rights := ⟨1⟩

def observe : Rights := ⟨2⟩

def required : Rights := ⟨4⟩

def union (a b : Rights) : Rights := ⟨a.bits ||| b.bits⟩

def contains (a b : Rights) : Bool := a.bits &&& b.bits = b.bits

end Rights

structure Permission where
  event : EventId
  rights : Rights
  limits : StreamLimits
  deriving DecidableEq, Repr

/-! ## Partition -/

/-- Takes the limits of one permission out of the generic pool. -/
def Limits.reserve (generic : Limits) (l : StreamLimits) : Except TopicError Limits :=
  if generic.retainedItems < l.retainedItems then .error .capacity
  else if generic.subscriptions < l.subscriptions then .error .capacity
  else if generic.waiters < l.waiters then .error .capacity
  else .ok { generic with
    retainedItems := generic.retainedItems - l.retainedItems
    subscriptions := generic.subscriptions - l.subscriptions
    waiters := generic.waiters - l.waiters }

/-- The loop of `partition`, after the permissions in `previous`. -/
def partitionFrom (previous : List Permission) (generic : Limits) :
    List Permission → Except TopicError Limits
  | [] => .ok generic
  | permission :: rest =>
    match previous.find? fun entry => entry.event = permission.event with
    | some entry =>
      if entry.limits ≠ permission.limits then .error .invalidConfig
      else partitionFrom (previous ++ [permission]) generic rest
    | none => do
      let generic ← generic.reserve permission.limits
      partitionFrom (previous ++ [permission]) generic rest

def partition (limits : Limits) (permissions : List Permission) : Except TopicError Limits :=
  partitionFrom [] limits permissions

/-- `dedup_by`: neighbours with the same event become one permission with the rights of
both, and with the limits of the first. -/
def dedup : List Permission → List Permission
  | [] => []
  | permission :: rest =>
    match dedup rest with
    | [] => [permission]
    | next :: more =>
      if next.event = permission.event then
        { permission with rights := permission.rights.union next.rights } :: more
      else permission :: next :: more

end Hiway
