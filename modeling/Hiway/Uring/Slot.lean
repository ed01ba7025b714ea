import Hiway.Transport.Written
import Hiway.Uring.Ready
import Hiway.Uring.Ring

/-!
# Slots and the state that link futures share

A slot holds one link: its machine, its sockets and one operation for each lane. What
the futures of the links do to it comes here; each `Act` is a piece of a poll or of a
drop that runs without a callback into the host.

* `Slot`, `Work`, `Shared`: a slot, the work that is pending for it, and the state of all
  slots.
* `Act`: a piece of what a future does, with `act` for its effect.
* `laneAt_number`: the lane of an operation's number.
-/

namespace Hiway.Uring

open Exec Transport

/-- `Lane::ALL[number % 3]`. -/
def laneAt (number : Nat) : Lane :=
  match number % 3 with
  | 0 => .data
  | 1 => .creditSend
  | _ => .creditReceive

/-- `lane as usize`. -/
def laneNumber : Lane → Nat
  | .data => 0
  | .creditSend => 1
  | .creditReceive => 2

@[simp] theorem laneAt_laneNumber (lane : Lane) : laneAt (laneNumber lane) = lane := by
  cases lane <;> rfl

/-- The lane of an operation's number. -/
theorem laneAt_number (index : Nat) (lane : Lane) : laneAt (index * 3 + laneNumber lane) = lane := by
  cases lane <;> simp [laneAt, laneNumber, Nat.mul_add_mod_self_right]

/-- Pending owner work for one slot. -/
structure Work where
  wake : Bool
  reclaim : Bool
  notifyAuthority : Bool
  deriving DecidableEq, Repr

namespace Work

/-- `Work::default()`. -/
def none : Work := ⟨false, false, false⟩

def isEmpty (w : Work) : Bool := !w.wake && !w.reclaim && !w.notifyAuthority

/-- The flags that are left once those of `taken` have been dispatched. -/
def without (w taken : Work) : Work :=
  ⟨w.wake && !taken.wake, w.reclaim && !taken.reclaim,
    w.notifyAuthority && !taken.notifyAuthority⟩

end Work

structure Slot where
  generation : Nat
  protocol : Option Protocol
  sockets : Option (Nat × Nat)
  operations : PerLane Operation
  receiveHints : PerLane Bool
  alive : Bool
  waker : Option Nat
  work : Work
  nextLane : Nat
  contended : Bool

namespace Slot

/-- The operation of a lane of the slot of a number. -/
def operationNew (index : Nat) (lane : Lane) : Operation :=
  Operation.new (UInt32.ofNat (index * 3 + laneNumber lane))

def new (index : Nat) : Slot where
  generation := 0
  protocol := none
  sockets := none
  operations := ⟨operationNew index .data, operationNew index .creditSend,
    operationNew index .creditReceive⟩
  receiveHints := PerLane.fill false
  alive := false
  waker := none
  work := Work.none
  nextLane := 0
  contended := false

def idle (s : Slot) : Bool := Lane.all.all fun lane => (s.operations.get lane).phase = .available

/-- `protocol.as_ref().is_some_and(|p| p.closed().is_some())`. -/
def isClosed (s : Slot) : Bool := s.protocol.any fun p => p.closed.isSome

/-- `protocol.as_ref().is_some_and(|p| p.closed().is_none())`. -/
def isOpen (s : Slot) : Bool := s.protocol.any fun p => p.closed.isNone

/-- The lane's operation is free, or prepared and not accepted. -/
def free (s : Slot) (lane : Lane) : Bool :=
  (s.operations.get lane).phase = .available ∨ (s.operations.get lane).phase = .prepared

/-- The machine asks for a send or a receive on a free lane. -/
def requests (s : Slot) (p : Protocol) (lane : Lane) : Exec Bool :=
  if s.free lane then do
    let effect ← p.effect lane
    return effect.any Effect.isRequest
  else .ok false

/-- `requests` of the slot's machine, if it has one. -/
def offersRequest (s : Slot) (lane : Lane) : Exec Bool :=
  match s.protocol with
  | none => .ok false
  | some p => s.requests p lane

/-- The first of the lanes that has a cancellation or a request to submit. -/
def firstLane (s : Slot) (p : Protocol) : List Lane → Exec (Option Lane)
  | [] => .ok none
  | lane :: rest =>
    if (s.operations.get lane).cancellation.isSome then .ok (some lane)
    else do
      if ← s.requests p lane then return some lane
      s.firstLane p rest

def pendingLane (s : Slot) : Exec (Option Lane) :=
  match s.protocol with
  | none => .ok none
  | some p => s.firstLane p ((List.range 3).map fun offset => laneAt (s.nextLane + offset))

/-- `Operation::cancel` and `Operation::reclaim` on each lane. -/
def cancelOperations (s : Slot) : Slot :=
  { s with operations :=
    { data := s.operations.data.cancel.reclaim.2
      creditSend := s.operations.creditSend.cancel.reclaim.2
      creditReceive := s.operations.creditReceive.cancel.reclaim.2 } }

def refresh (s : Slot) : Slot :=
  if s.isClosed then
    let s := s.cancelOperations
    { s with work :=
      { s.work with reclaim := s.work.reclaim || (s.idle && (s.sockets.isSome || !s.alive)) } }
  else s

/-- `operation` in the place of the lane's one. -/
def setOperation (s : Slot) (lane : Lane) (operation : Operation) : Slot :=
  { s with operations := s.operations.set lane operation }

/-- `work.wake |= ..`. -/
def wakeIf (s : Slot) (flag : Bool) : Slot :=
  { s with work := { s.work with wake := s.work.wake || flag } }

end Slot

/-! ## Shared state -/

/-- What the driver shares with the futures of its links. `borrows` counts the callbacks
that hold `reservations[index].borrow()`; `produced` is every record so far, with the
connection that it was written for, and is read by no function. -/
structure Shared (G : Type) (links : Nat) where
  archived : Records Record 64
  retiredLost : Nat
  admitting : Bool
  detached : Bool
  slots : Fin links → Slot
  reservations : Fin links → Option G
  borrows : Fin links → Nat
  ready : Ready links
  produced : List Record

/-- The record under the connection, contract and direction it was written for. -/
def stamp (a : Accountability) (record : FrameRecord) : Record where
  connection := a.connection
  contract := a.contract
  direction := a.direction
  sequence := record.sequence
  outcome := record.outcome

/-- What an input of the machine records. -/
def recorded [Target] (p : Protocol) (i : Input) : List Record :=
  match p.accountability with
  | none => []
  | some a => ((p.written i).toOption.getD []).map (stamp a)

namespace Shared

variable [Target] {G : Type} {links : Nat} [NeZero links]

def new : Shared G links where
  archived := Records.new
  retiredLost := 0
  admitting := true
  detached := false
  slots := fun index => Slot.new index.val
  reservations := fun _ => none
  borrows := fun _ => 0
  ready := Ready.new
  produced := []

/-- `&mut slots[index]`. -/
def update (s : Shared G links) (index : Fin links) (f : Slot → Slot) : Shared G links :=
  { s with slots := Function.update s.slots index (f (s.slots index)) }

/-- `ready.borrow_mut().push(index)`. -/
def queue (s : Shared G links) (index : Fin links) : Shared G links :=
  { s with ready := s.ready.push index }

/-- The slot of `index` holds `q`, which is what `p` has become by an input. -/
def answered (s : Shared G links) (index : Fin links) (p : Protocol) (i : Input) (q : Protocol) :
    Shared G links :=
  { s.update index fun slot => { slot with protocol := some q } with
    produced := s.produced ++ recorded p i }

/-- `protocol.input(..)` on the machine of a slot. -/
def input (s : Shared G links) (index : Fin links) (p : Protocol) (i : Input) :
    Exec (Protocol × Except Error Unit × Shared G links) := do
  let (q, result) ← p.input i
  return (q, result, s.answered index p i q)

def refresh (s : Shared G links) (index : Fin links) : Shared G links :=
  s.update index Slot.refresh

end Shared

/-! ## The futures of the links -/

/-- A piece of what a link's future does between two callbacks. -/
inductive Act (links : Nat) where
  /-- `Handle::protocol` has seen that the authority is revoked. -/
  | revoked (index : Fin links)
  /-- `register` replaces the waker. -/
  | register (index : Fin links) (waker : Nat)
  /-- The first part of `provide`, up to the codec. -/
  | observed (index : Fin links) (contract : Contract) (sequence : UInt64)
  /-- The rest of `provide`, after the codec. -/
  | provided (index : Fin links) (sequence : UInt64) (length : Nat)
  | admitted (index : Fin links)
  | close (index : Fin links) (error : Error)
  /-- `Handle::drop`, without `cleanup_detached_slot`. -/
  | drop (index : Fin links)

def Act.index {links : Nat} : Act links → Fin links
  | .revoked index | .register index _ | .observed index _ _ | .provided index _ _
  | .admitted index | .close index _ | .drop index => index

namespace Shared

variable [Target] {G : Type} {links : Nat} [NeZero links]

/-- `Handle::protocol` after its callback: an open machine hears of a revocation. -/
def revoke (s : Shared G links) (index : Fin links) : Exec (Shared G links) :=
  match (s.slots index).protocol with
  | some p =>
    if p.closed.isNone then do
      let (_, _, s) ← s.input index p .revoked
      return s
    else .ok s
  | none => .ok s

/-- `provide` checks the contract and the effect, and observes the sequence. -/
def observe (s : Shared G links) (index : Fin links) (contract : Contract) (sequence : UInt64) :
    Exec (Shared G links) :=
  match (s.slots index).protocol with
  | some p =>
    if p.closed.isSome ∨ p.contract ≠ contract then .ok s
    else do
      if (← p.effect .data) ≠ some .provide then return s
      return s.update index fun slot =>
        { slot with protocol := some (p.observeSequence sequence) }
  | none => .ok s

/-- `self.protocol()?.input(..)?`, and the link is queued if that went well. -/
def supply (s : Shared G links) (index : Fin links) (i : Input) : Exec (Shared G links) :=
  match (s.slots index).protocol with
  | some p =>
    if p.closed.isSome then .ok s
    else do
      match ← s.input index p i with
      | (_, .ok (), s) => return s.queue index
      | (_, .error _, s) => return s
  | none => .ok s

def close (s : Shared G links) (index : Fin links) (error : Error) : Exec (Shared G links) :=
  match (s.slots index).protocol with
  | some p => do
    let s := s.update index (·.wakeIf p.closed.isNone)
    let (_, _, s) ← s.input index p (.closed error)
    return (s.update index fun slot => { slot with contended := false }).queue index
  | none => .ok s

/-- `Handle::drop` up to `cleanup_detached_slot`. -/
def dropHandle (s : Shared G links) (index : Fin links) : Exec (Shared G links) := do
  let s ← s.close index .closed
  return s.update index fun slot =>
    { slot with
      alive := false
      work := { slot.work with
        reclaim := slot.work.reclaim || (s.detached && slot.idle && slot.isClosed) }
      waker := none }

/-- A future exists while the slot is alive, and is not dropped during its own poll. -/
def act (s : Shared G links) (a : Act links) : Exec (Shared G links) :=
  if (s.slots a.index).alive then
    match a with
    | .revoked index => s.revoke index
    | .register index waker => .ok (s.update index fun slot => { slot with waker := some waker })
    | .observed index contract sequence => s.observe index contract sequence
    | .provided index sequence length => s.supply index (.provided sequence length)
    | .admitted index => s.supply index .admitted
    | .close index error => s.close index error
    | .drop index => if s.borrows index = 0 then s.dropHandle index else .ok s
  else .ok s

/-- What futures do during one callback of the driver. -/
def acts (s : Shared G links) (as : List (Act links)) : Exec (Shared G links) := steps act s as

end Shared

end Hiway.Uring
