import Hiway.Lib.Checked

/-!
# Events, contracts and errors

The identities and error values that the streams, the grants and the transport share.

* `EventId`, `Delivery`, `SubscriptionRole`: which events a stream carries, how it delivers
  them, and who may hold it up.
* `StreamItem`: what a subscription is told: a value with its sequence, or a range that is
  gone.
* `TopicError`, `TrySendError`: the refusals; one of a publication hands its value back.
-/

namespace Hiway

/-- Stable 128-bit identity of one event specification. -/
structure EventId where
  raw : BitVec 128
  deriving DecidableEq, Repr

/-- `as_u128()`. -/
def EventId.asU128 (event : EventId) : Nat := event.raw.toNat

theorem EventId.asU128_inj {a b : EventId} : a.asU128 = b.asU128 ↔ a = b := by
  cases a
  cases b
  simp [asU128, BitVec.toNat_inj]

/-- Breaking wire generation. -/
abbrev WireMajor := UInt16

/-- Compatible revision inside one wire generation. -/
abbrev SchemaRevision := UInt32

/-- Delivery semantics fixed by the event declaration. -/
inductive Delivery where
  | ordered
  | latest
  deriving DecidableEq, Repr

/-- `previous.checked_add(1) == Some(next)` for ordered events. -/
def Delivery.follows (d : Delivery) (previous next : UInt64) : Bool :=
  match d with
  | .ordered => previous.toNat + 1 = next.toNat
  | .latest => previous < next

/-- Whether a receiver may retain data needed by future publications. -/
inductive SubscriptionRole where
  | observer
  | required
  deriving DecidableEq, Repr

/-- A sequenced value or a half-open range of missed sequences. -/
inductive StreamItem (α : Type) where
  | data (sequence : Nat) (value : α)
  | gap (first last : Nat)
  deriving DecidableEq, Repr

/-! ## Errors -/

inductive TopicError where
  | contended
  | typeMismatch (id : EventId)
  | capacity
  | denied
  | revoked
  | invalidConfig
  deriving DecidableEq, Repr

inductive CloseReason where
  | closed
  | revoked
  | disconnected
  deriving DecidableEq, Repr

/-- A rejected publication hands its payload back. -/
inductive TrySendError (α : Type) where
  | full (value : α)
  | contended (value : α)
  | maintenanceRequired (value : α)
  | closed (value : α)
  | revoked (value : α)
  | waitersFull (value : α)
  | sequenceExhausted (value : α)
  deriving DecidableEq, Repr

/-- `error.map(..)` keeps the reason and changes what is handed back. -/
def TrySendError.map {α β : Type} (f : α → β) : TrySendError α → TrySendError β
  | .full value => .full (f value)
  | .contended value => .contended (f value)
  | .maintenanceRequired value => .maintenanceRequired (f value)
  | .closed value => .closed (f value)
  | .revoked value => .revoked (f value)
  | .waitersFull value => .waitersFull (f value)
  | .sequenceExhausted value => .sequenceExhausted (f value)

/-- The payload that was not accepted. -/
def TrySendError.intoInner {α : Type} : TrySendError α → α
  | .full value | .contended value | .maintenanceRequired value | .closed value
  | .revoked value | .waitersFull value | .sequenceExhausted value => value

inductive SendError (α : Type) where
  | closed (value : α)
  | revoked (value : α)
  | waitersFull (value : α)
  | sequenceExhausted (value : α)
  deriving DecidableEq, Repr

inductive ReceiveError where
  | contended
  | waitersFull
  | closed (reason : CloseReason)
  deriving DecidableEq, Repr

inductive WireError where
  | bufferTooSmall
  | invalidPayload
  | unsupportedRevision
  | truncated
  | invalidHeader
  deriving DecidableEq, Repr

end Hiway
