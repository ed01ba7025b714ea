import Hiway.Event

/-!
# Completion ownership

One operation slot with its reuse generation. The completion of a cancellation
never stands in for the completion of the original request.

* `OpId`, `Operation`: the identity of a request, and the slot with its phases.
* `prepare`, `accepted`, `completed`, `reclaim`: the calls in the order of a request that
  goes well.
* `cancel`, `cancelAccepted`, `cancelCompleted`: those of a cancellation.
-/

namespace Hiway.Transport

/-- A slot and its wrapping reuse generation. -/
structure OpId where
  slot : UInt32
  generation : UInt32
  deriving DecidableEq, Repr

inductive Phase where
  | available
  | prepared
  | submitted
  | completed
  deriving DecidableEq, Repr

inductive Cancellation where
  | none
  | requested
  | submitted
  | completed
  deriving DecidableEq, Repr

structure Operation where
  id : OpId
  phase : Phase
  cancellationState : Cancellation
  deriving DecidableEq, Repr

namespace Operation

def new (slot : UInt32) : Operation where
  id := ⟨slot, 0⟩
  phase := .available
  cancellationState := .none

/-- Generations wrap only after reclamation. -/
def prepare (o : Operation) : Option OpId × Operation :=
  if o.phase ≠ .available then
    (none, o)
  else
    let id : OpId := { o.id with generation := o.id.generation + 1 }
    (some id, { o with id := id, phase := .prepared })

def accepted (o : Operation) (id : OpId) : Bool × Operation :=
  if id ≠ o.id ∨ o.phase ≠ .prepared then (false, o)
  else (true, { o with phase := .submitted })

/-- Logical closure can abandon a preparation, but not submitted storage. -/
def cancel (o : Operation) : Operation :=
  match o.phase with
  | .prepared => { o with phase := .completed }
  | .submitted =>
    if o.cancellationState = .none then { o with cancellationState := .requested } else o
  | _ => o

def cancellation (o : Operation) : Option OpId :=
  if o.cancellationState = .requested then some o.id else none

def cancelAccepted (o : Operation) (id : OpId) : Bool × Operation :=
  if o.cancellation ≠ some id then (false, o)
  else (true, { o with cancellationState := .submitted })

def cancelCompleted (o : Operation) (id : OpId) : Bool × Operation :=
  if o.id ≠ id ∨ o.cancellationState ≠ .submitted then (false, o)
  else (true, { o with cancellationState := .completed })

def completed (o : Operation) (id : OpId) : Bool × Operation :=
  if o.id ≠ id ∨ o.phase ≠ .submitted then (false, o)
  else
    (true,
      { o with
        phase := .completed
        cancellationState :=
          if o.cancellationState = .requested then .none else o.cancellationState })

/-- Releases the slot only after all accepted requests have terminated. -/
def reclaim (o : Operation) : Bool × Operation :=
  if o.phase ≠ .completed ∨ o.cancellationState = .submitted then (false, o)
  else (true, { o with phase := .available, cancellationState := .none })

end Operation

end Hiway.Transport
