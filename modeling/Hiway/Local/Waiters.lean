import Hiway.Local.Session

/-!
# The static stream and its waiters

`StaticStream` is the state behind a lock and a table of waiters. An operation that may
wait takes the changes that the state has collected when it leaves the lock, and wakes
whom they concern; a strict operation leaves them to a later one. Nothing here is
contended: a lock is always acquired at the first attempt.

* `Waiter`, `StaticStream`: a slot of the table with its waker, and a stream with its
  waiters.
* `flush`: the notification at the end of an operation that is not strict.
-/

namespace Hiway.Local

open Exec Target

/-- A waker is a name; waking it is seen in `StaticStream.woken`. -/
abbrev Waker := Nat

inductive Poll (β : Type) where
  | ready (value : β)
  | pending
  deriving DecidableEq, Repr

/-- `waker` is an atomic waker: registering replaces it, and waking takes it. -/
structure Waiter where
  occupied : Bool
  interest : UInt8
  waker : Option Waker
  deriving DecidableEq, Repr

def Waiter.new : Waiter := ⟨false, 0, none⟩

/-- `woken` are the wakers that were woken so far, in order. -/
structure StaticStream (α : Type) (cap : Nat) where
  state : State α cap
  waiters : List Waiter
  contended : Bool
  woken : List Waker

namespace StaticStream

variable {α β : Type} {cap : Nat}

def withLock (delivery : Delivery) (subs waiters : Nat) : Exec (StaticStream α cap) := do
  let state ← State.withLock delivery subs
  return ⟨state, List.replicate waiters Waiter.new, false, []⟩

/-- Whether a notification wakes a slot. -/
def wakes (contended : Bool) (changed : UInt8) (slot : Waiter) : Bool :=
  contended || slot.interest &&& changed != 0

def notify (s : StaticStream α cap) (changed : UInt8) : StaticStream α cap :=
  { s with
    contended := false
    waiters := s.waiters.map fun slot =>
      if wakes s.contended changed slot then { slot with waker := none } else slot
    woken := s.woken ++ (s.waiters.filter (wakes s.contended changed)).filterMap Waiter.waker }

/-- The end of `with`: the changes are taken, the lock is dropped, and waiters are notified. -/
def flush (s : StaticStream α cap) (state : State α cap) : StaticStream α cap :=
  { s with state := { state with changed := 0 } }.notify state.changed

/-- `StaticStream::with`. -/
def withState (s : StaticStream α cap) (access : State α cap → Exec (β × State α cap)) :
    Exec (β × StaticStream α cap) := do
  let (result, state) ← access s.state
  return (result, s.flush state)

/-- `StaticStream::try_with`, which acquires the lock. -/
def tryWith (s : StaticStream α cap) (access : State α cap → Exec (β × State α cap)) :
    Exec (β × StaticStream α cap) :=
  s.withState access

/-- The lock of a strict operation, which leaves the changes where they are. -/
def tryLock (s : StaticStream α cap) (access : State α cap → Exec (β × State α cap)) :
    Exec (β × StaticStream α cap) := do
  let (result, state) ← access s.state
  return (result, { s with state := state })

/-- Takes a slot for a future that has none, and registers its waker there. -/
def register (s : StaticStream α cap) (id : Option Nat) (interest : Interest) (waker : Waker) :
    Exec (Except Unit Nat × StaticStream α cap) :=
  match id.or (s.waiters.findIdx? fun slot => !slot.occupied) with
  | none => .ok (.error (), s)
  | some position => do
    let slot ← index s.waiters position
    return (.ok position, { s with
      waiters := s.waiters.set position
        { slot with
          occupied := if id.isNone then true else slot.occupied
          interest := interest.bits
          waker := some waker } })

def cancel (s : StaticStream α cap) (id : Option Nat) : Exec (StaticStream α cap) :=
  match id with
  | none => .ok s
  | some position => do
    let slot ← index s.waiters position
    return { s with
      waiters := s.waiters.set position { slot with occupied := false, waker := none } }

/-- `StaticStream::poll_with`: a second attempt follows the registration, because the
state may have changed in between. -/
def pollWith (s : StaticStream α cap) (id : Option Nat) (interest : Interest) (waker : Waker)
    (access : State α cap → Exec (Poll β × State α cap)) :
    Exec (Except Unit (Poll β) × Option Nat × StaticStream α cap) := do
  match ← s.tryWith access with
  | (.ready value, s) => return (.ok (.ready value), none, ← s.cancel id)
  | (.pending, s) =>
    match ← s.register id interest waker with
    | (.error (), s) => return (.error (), id, s)
    | (.ok position, s) =>
      match ← s.tryWith access with
      | (.ready value, s) => return (.ok (.ready value), none, ← s.cancel (some position))
      | (.pending, s) => return (.ok .pending, some position, s)

/-! ## Operations -/

def maintain (s : StaticStream α cap) : Exec (StaticStream α cap) := do
  let (_, s) ← s.withState fun state => .ok ((), state)
  return s

def subscribe (s : StaticStream α cap) (role : SubscriptionRole) :
    Exec (Except TopicError SubscriberKey × StaticStream α cap) :=
  s.withState fun state => .ok (state.subscribe role)

def close (s : StaticStream α cap) (reason : CloseReason) : Exec (StaticStream α cap) := do
  let (_, s) ← s.withState fun state => .ok ((), state.close reason)
  return s

/-- `StaticSender::try_send`. -/
def trySend [Target] (s : StaticStream α cap) (payload : α) :
    Exec (Except (TrySendError α) Unit × StaticStream α cap) :=
  s.tryLock fun state => state.sendNow payload

/-- `StaticSender::send_now`. -/
def sendNow [Target] (s : StaticStream α cap) (payload : α) :
    Exec (Except (TrySendError α) Unit × StaticStream α cap) :=
  s.withState fun state => state.sendNow payload

/-- `StaticReceiver::try_recv`. -/
def tryRecv [Target] (s : StaticStream α cap) (key : SubscriberKey) :
    Exec (Except ReceiveError (Option (StreamItem α)) × StaticStream α cap) :=
  s.tryLock fun state => state.recvNow key

/-- `StaticReceiver::recv_now`. -/
def recvNow [Target] (s : StaticStream α cap) (key : SubscriberKey) :
    Exec (Except ReceiveError (Option (StreamItem α)) × StaticStream α cap) :=
  s.withState fun state => state.recvNow key

/-- `StaticReceiver::drop`. -/
def dropReceiver (s : StaticStream α cap) (key : SubscriberKey) :
    Exec (StaticStream α cap) := do
  let (_, s) ← s.withState fun state => do
    let state ← state.drop key
    return ((), state)
  return s

/-! ## Futures -/

/-- What `StaticSendFuture::poll` makes of an attempt. -/
def sendPoll : Except (TrySendError α) Unit → Poll (Except (SendError α) Unit)
  | .ok () => .ready (.ok ())
  | .error (.full _) => .pending
  | .error (.revoked value) => .ready (.error (.revoked value))
  | .error (.sequenceExhausted value) => .ready (.error (.sequenceExhausted value))
  | .error (.closed value) | .error (.contended value) | .error (.maintenanceRequired value)
  | .error (.waitersFull value) => .ready (.error (.closed value))

/-- What `StaticReceiveFuture::poll` makes of an attempt. -/
def receivePoll : Except ReceiveError (Option (StreamItem α)) →
    Poll (Except ReceiveError (StreamItem α))
  | .ok (some item) => .ready (.ok item)
  | .ok none => .pending
  | .error error => .ready (.error error)

/-- One attempt of a send future. -/
def sendAccess [Target] (payload : α) (state : State α cap) :
    Exec (Poll (Except (SendError α) Unit) × State α cap) := do
  let (result, state) ← state.sendNow payload
  return (sendPoll result, state)

/-- One attempt of a receive future. -/
def receiveAccess [Target] (key : SubscriberKey) (state : State α cap) :
    Exec (Poll (Except ReceiveError (StreamItem α)) × State α cap) := do
  let (result, state) ← state.recvNow key
  return (receivePoll result, state)

/-- `StaticSendFuture::poll`, of a future that still has its payload. -/
def pollSend [Target] (s : StaticStream α cap) (payload : α) (waiter : Option Nat)
    (waker : Waker) :
    Exec (Poll (Except (SendError α) Unit) × Option Nat × StaticStream α cap) := do
  match ← s.pollWith waiter .send waker (sendAccess payload) with
  | (.ok result, waiter, s) => return (result, waiter, s)
  | (.error (), waiter, s) => return (.ready (.error (.waitersFull payload)), waiter, s)

/-- `StaticReceiveFuture::poll`. -/
def pollReceive [Target] (s : StaticStream α cap) (key : SubscriberKey) (waiter : Option Nat)
    (waker : Waker) :
    Exec (Poll (Except ReceiveError (StreamItem α)) × Option Nat × StaticStream α cap) := do
  match ← s.pollWith waiter .receive waker (receiveAccess key) with
  | (.ok result, waiter, s) => return (result, waiter, s)
  | (.error (), waiter, s) => return (.ready (.error .waitersFull), waiter, s)

end StaticStream

end Hiway.Local
