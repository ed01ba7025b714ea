import Hiway.Local.Waiters
import Hiway.Lib.Handles

/-!
# Tasks on a static stream

A session in which operations may wait: the stream with its waiters, what was admitted,
the subscriptions with what they have been told, and the futures that tasks hold. Futures
are named by their position; a future that was dropped does nothing any more.

* `Tasks`, `TaskOp`: a stream with the futures that tasks hold, and what tasks can do.
* `step`: one operation, with the waiters that it wakes.
-/

namespace Hiway.Local

open Exec Target

/-- `StaticSendFuture` with the payload it still has, or `StaticReceiveFuture` with the
receiver it borrows. -/
inductive Future (α : Type) where
  | send (payload : Option α)
  | receive (receiver : Nat)
  deriving DecidableEq, Repr

/-- `parked` is set while the last poll returned `Pending`: its waker, and how many wakers
had been woken by then. -/
structure Task (α : Type) where
  future : Future α
  waiter : Option Nat
  parked : Option (Waker × Nat)
  deriving DecidableEq, Repr

structure Tasks (α : Type) (cap : Nat) where
  stream : StaticStream α cap
  published : List α
  subscriptions : List (Subscription α)
  futures : List (Option (Task α))

inductive TaskOp (α : Type) where
  | subscribe (role : SubscriptionRole)
  | trySend (value : α)
  | sendNow (value : α)
  | tryRecv (receiver : Nat)
  | recvNow (receiver : Nat)
  | drop (receiver : Nat)
  | close (reason : CloseReason)
  | maintain
  | send (value : α)
  | recv (receiver : Nat)
  | poll (future : Nat) (waker : Waker)
  | cancel (future : Nat)

namespace Tasks

variable {α : Type} {cap : Nat}

def begin (stream : StaticStream α cap) : Tasks α cap := ⟨stream, [], [], []⟩

/-- A receiver that has not been dropped. -/
def receiver (t : Tasks α cap) (r : Nat) : Option (Subscription α) :=
  t.subscriptions[r]?.filter fun sub => !sub.dropped

def task (t : Tasks α cap) (f : Nat) : Option (Task α) := Slots.entry t.futures f

/-- A future borrows its receiver, which cannot be dropped meanwhile. -/
def borrowed (t : Tasks α cap) (r : Nat) : Bool :=
  t.futures.any fun o => o.any fun task =>
    match task.future with
    | .receive receiver => receiver = r
    | .send _ => false

/-- What the caller of a publication keeps in mind. -/
def sent (t : Tasks α cap) (value : α) (accepted : Bool) (stream : StaticStream α cap) :
    Tasks α cap :=
  { t with
    stream := stream
    published := if accepted then t.published ++ [value] else t.published }

/-- What a reception tells the receiver it was made with. -/
def told (t : Tasks α cap) (r : Nat) (sub : Subscription α) (item : Option (StreamItem α))
    (stream : StaticStream α cap) : Tasks α cap :=
  { t with
    stream := stream
    subscriptions := t.subscriptions.set r { sub with items := sub.items ++ item.toList } }

def subscribe (t : Tasks α cap) (role : SubscriptionRole) : Exec (Tasks α cap) := do
  match ← t.stream.subscribe role with
  | (.error _, stream) => return { t with stream := stream }
  | (.ok key, stream) =>
    return { t with
      stream := stream
      subscriptions := t.subscriptions ++ [⟨key, role, t.stream.state.tail, [], false⟩] }

def trySend [Target] (t : Tasks α cap) (value : α) : Exec (Tasks α cap) := do
  let (result, stream) ← t.stream.trySend value
  return t.sent value result.isOk stream

def sendNow [Target] (t : Tasks α cap) (value : α) : Exec (Tasks α cap) := do
  let (result, stream) ← t.stream.sendNow value
  return t.sent value result.isOk stream

def tryRecv [Target] (t : Tasks α cap) (r : Nat) : Exec (Tasks α cap) :=
  match t.receiver r with
  | none => .ok t
  | some sub => do
    let (result, stream) ← t.stream.tryRecv sub.key
    return t.told r sub (result.toOption.join) stream

def recvNow [Target] (t : Tasks α cap) (r : Nat) : Exec (Tasks α cap) :=
  match t.receiver r with
  | none => .ok t
  | some sub => do
    let (result, stream) ← t.stream.recvNow sub.key
    return t.told r sub (result.toOption.join) stream

def drop (t : Tasks α cap) (r : Nat) : Exec (Tasks α cap) :=
  match t.receiver r with
  | none => .ok t
  | some sub =>
    if t.borrowed r then .ok t
    else do
      let stream ← t.stream.dropReceiver sub.key
      return { t with
        stream := stream
        subscriptions := t.subscriptions.set r { sub with dropped := true } }

def close (t : Tasks α cap) (reason : CloseReason) : Exec (Tasks α cap) := do
  let stream ← t.stream.close reason
  return { t with stream := stream }

def maintain (t : Tasks α cap) : Exec (Tasks α cap) := do
  let stream ← t.stream.maintain
  return { t with stream := stream }

/-- `StaticSender::send`: the future does nothing before its first poll. -/
def send (t : Tasks α cap) (value : α) : Tasks α cap :=
  { t with futures := t.futures ++ [some ⟨.send (some value), none, none⟩] }

/-- `StaticReceiver::recv`. -/
def recv (t : Tasks α cap) (r : Nat) : Tasks α cap :=
  match t.receiver r with
  | none => t
  | some _ => { t with futures := t.futures ++ [some ⟨.receive r, none, none⟩] }

/-- A future after a poll that answered `result`. -/
def polled {β : Type} (t : Tasks α cap) (f : Nat) (future : Future α) (waiter : Option Nat)
    (waker : Waker) (result : Poll β) : Tasks α cap :=
  { t with futures := t.futures.set f (some ⟨future, waiter,
    match result with
    | .ready _ => none
    | .pending => some (waker, t.stream.woken.length)⟩) }

/-- Polls a future. A send future that has completed is not polled again. -/
def pollTask [Target] (t : Tasks α cap) (f : Nat) (waker : Waker) :
    Exec (Poll Unit × Tasks α cap) :=
  match t.task f with
  | none => .ok (.ready (), t)
  | some task =>
    match task.future with
    | .send none => .ok (.ready (), t)
    | .send (some payload) => do
      let (result, waiter, stream) ← t.stream.pollSend payload task.waiter waker
      match result with
      | .pending =>
        return (.pending, { t with stream := stream }.polled f task.future waiter waker result)
      | .ready answer =>
        return (.ready (), (t.sent payload answer.isOk stream).polled f (.send none) waiter waker
          result)
    | .receive r =>
      match t.receiver r with
      | none => .ok (.ready (), t)
      | some sub => do
        let (result, waiter, stream) ← t.stream.pollReceive sub.key task.waiter waker
        match result with
        | .pending =>
          return (.pending, { t with stream := stream }.polled f task.future waiter waker result)
        | .ready answer =>
          return (.ready (), (t.told r sub answer.toOption stream).polled f task.future waiter
            waker result)

/-- The drop of a future. -/
def cancel (t : Tasks α cap) (f : Nat) : Exec (Tasks α cap) :=
  match t.task f with
  | none => .ok t
  | some task => do
    let stream ← t.stream.cancel task.waiter
    return { t with stream := stream, futures := t.futures.set f none }

def step [Target] (t : Tasks α cap) : TaskOp α → Exec (Tasks α cap)
  | .subscribe role => t.subscribe role
  | .trySend value => t.trySend value
  | .sendNow value => t.sendNow value
  | .tryRecv r => t.tryRecv r
  | .recvNow r => t.recvNow r
  | .drop r => t.drop r
  | .close reason => t.close reason
  | .maintain => t.maintain
  | .send value => .ok (t.send value)
  | .recv r => .ok (t.recv r)
  | .poll f waker => do
    let (_, t) ← t.pollTask f waker
    return t
  | .cancel f => t.cancel f

/-- What tasks do on a stream that starts as `stream`. -/
def run [Target] (stream : StaticStream α cap) (ops : List (TaskOp α)) : Exec (Tasks α cap) :=
  steps step (begin stream) ops

end Tasks

end Hiway.Local
