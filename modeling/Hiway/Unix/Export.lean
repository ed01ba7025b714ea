import Hiway.Transport.Audit
import Hiway.Unix.Agreement

/-!
# An exporting link

`export_data` and `receive_credits` of one link are polled by one task, so each runs from
one of its awaits to the next without the other. An action is what an await returns: part
of a frame was written, part of a credit was read, the source has an item. When a
notification arrives is left open, as is everything the peer sends.

Beside the link stands its history: the frames it has started, what of each was written,
whether the credit that names it was read, and every record that was made.

* `Exporter`, `Action`: the two loops at their awaits, and what an await returns.
* `Exported`: the link with its history.
* `step`: what the link does up to its next await.
-/

namespace Hiway.Unix

open Target Transport

/-! ## The link -/

/-- Where `export_data` awaits: the credit of the last frame, the next item, the rest of
the header and of the payload, or its turn. -/
inductive Exporting where
  | waiting
  | receiving
  | writing (header payload : List UInt8)
  | yielding
  deriving DecidableEq, Repr

/-- Where `receive_credits` awaits: the rest of a credit, or its turn. -/
inductive Crediting where
  | reading (frame : List UInt8)
  | yielding
  deriving DecidableEq, Repr

/-- The future of `export_with_trace`. `outcome` is what it has returned, or that it was
dropped before. -/
structure Exporter where
  credits : Credits
  exporting : Exporting
  crediting : Crediting
  buffer : List UInt8
  outcome : Option (Option IpcError)
  deriving DecidableEq, Repr

/-- What an await of the link returns. -/
inductive Action (α : Type) where
  | notified
  | received (sequence : UInt64) (payload : α)
  | lost (first last : Nat)
  | receiveFailed (error : ReceiveError)
  | wrote (count : Nat)
  | writeFailed (code : Option Int)
  | exportResumed
  | read (bytes : List UInt8)
  | readFailed (code : Option Int)
  | creditResumed
  | revoked
  | dropped
  | popped
  deriving DecidableEq, Repr

namespace Exporter

variable {α : Type}

/-- The calls of `Trace::finish` and `Trace::drop`. -/
def closing : Option IpcError → List Note
  | none => [.cancel]
  | some error => [(error.recorded.map Note.finish).getD .cancel, .cancel]

/-- The future is done: `tokio::select!` drops the other branch. -/
def finish (e : Exporter) (outcome : Option IpcError) : Exporter × List Note :=
  ({ e with outcome := some outcome }, closing outcome)

/-- `Credits::wait`, each time it looks. -/
def wait (e : Exporter) : Exporter :=
  { e with exporting := if e.credits.outstanding then .waiting else .receiving }

/-- A link before its first poll. -/
def start (maxPayload : Nat) : Exporter :=
  wait
    { credits := Credits.new
      exporting := .waiting
      crediting := .reading []
      buffer := List.replicate maxPayload 0
      outcome := none }

/-- `export_data` from an item to the first write. -/
def provide (E : WireCodec α) (e : Exporter) (sequence : UInt64) (payload : α) :
    Exporter × List Note :=
  match encodeData E sequence payload e.buffer with
  | .error error =>
    let (e, notes) := e.finish (some error)
    (e, .observe sequence :: notes)
  | .ok (header, body) =>
    ({ e with
        credits := e.credits.start sequence
        exporting := .writing header body
        buffer := body ++ e.buffer.drop body.length },
      [.observe sequence, .admitted])

/-- `write_all` of the header and of the payload, after one more write. -/
def write (e : Exporter) (header payload : List UInt8) : Exporter × List Note :=
  if header = [] ∧ payload = [] then
    ({ e with credits := { e.credits with sent := true }, exporting := .yielding },
      if e.credits.outstanding then [] else [.completed e.credits.sequence])
  else ({ e with exporting := .writing header payload }, [])

/-- One credit of `receive_credits`. -/
def credit (e : Exporter) (frame : List UInt8) : Exporter × List Note :=
  match e.credits.receive frame with
  | .error error => e.finish (some error)
  | .ok (credits, completed) =>
    ({ e with credits := credits, crediting := .yielding },
      completed.toList.map Note.completed)

/-- The link goes on with what one of its awaits has returned, and makes these calls to
its trace. An await that is not under way returns nothing. -/
def step (E : WireCodec α) (e : Exporter) (action : Action α) : Exporter × List Note :=
  match e.outcome with
  | some _ => (e, [])
  | none =>
    match action, e.exporting, e.crediting with
    | .revoked, _, _ => e.finish (some .revoked)
    | .dropped, _, _ => e.finish none
    | .notified, .waiting, _ | .exportResumed, .yielding, _ => (e.wait, [])
    | .received sequence payload, .receiving, _ => e.provide E sequence payload
    | .lost first last, .receiving, _ => e.finish (some (.gap first last))
    | .receiveFailed error, .receiving, _ => e.finish (some (.receive error))
    | .wrote 0, .writing _ _, _ => e.finish (some (.io none))
    | .wrote count, .writing [] payload, _ => e.write [] (payload.drop count)
    | .wrote count, .writing header payload, _ => e.write (header.drop count) payload
    | .writeFailed code, .writing _ _, _ => e.finish (some (.io code))
    | .read [], _, .reading _ => e.finish (some (.io none))
    | .read bytes, _, .reading frame =>
      let frame := frame ++ bytes.take (creditBytes - frame.length)
      if frame.length = creditBytes then e.credit frame
      else ({ e with crediting := .reading frame }, [])
    | .readFailed code, _, .reading _ => e.finish (some (.io code))
    | .creditResumed, _, .yielding => ({ e with crediting := .reading [] }, [])
    | _, _, _ => (e, [])

end Exporter

/-! ## Its history -/

/-- A frame that was started: its bytes, those that were written, and whether a credit
that names it was read since. -/
structure Started where
  sequence : UInt64
  bytes : List UInt8
  written : List UInt8
  credited : Bool
  deriving DecidableEq, Repr

def Started.complete (f : Started) : Bool := f.credited && decide (f.written = f.bytes)

/-- A link, its trace, its frames and all records that were made. -/
structure Exported where
  link : Exporter
  trace : Accountability
  frames : List Started
  log : List FrameRecord

namespace Exported

variable {α : Type}

/-- `export_tracked`. -/
def start (E : WireCodec α) (connection : Connection) (maxPayload : Nat) : Exported :=
  ⟨Exporter.start maxPayload, Accountability.new connection E.contract .exporting, [], []⟩

/-- The last frame has changed. -/
def onLast (s : Exported) (f : Started → Started) : List Started :=
  match s.frames.getLast? with
  | none => s.frames
  | some last => s.frames.dropLast ++ [f last]

/-- What the action shows of the frames, whatever the link makes of it. -/
def see (E : WireCodec α) (s : Exported) (action : Action α) : List Started :=
  match s.link.outcome with
  | some _ => s.frames
  | none =>
    match action, s.link.exporting, s.link.crediting with
    | .received sequence payload, .receiving, _ =>
      match encodeData E sequence payload s.link.buffer with
      | .error _ => s.frames
      | .ok (header, body) => s.frames ++ [⟨sequence, header ++ body, [], false⟩]
    | .wrote count, .writing [] payload, _ =>
      s.onLast fun last => { last with written := last.written ++ payload.take count }
    | .wrote count, .writing header _, _ =>
      s.onLast fun last => { last with written := last.written ++ header.take count }
    | .read bytes, _, .reading frame =>
      let frame := frame ++ bytes.take (creditBytes - frame.length)
      s.onLast fun last =>
        { last with credited := last.credited || decide (frame = creditOf last.sequence) }
    | _, _, _ => s.frames

def step (E : WireCodec α) (s : Exported) (action : Action α) : Exported :=
  match action with
  | .popped => { s with trace := s.trace.pop.2 }
  | action =>
    let (link, notes) := s.link.step E action
    { link := link
      trace := Note.applyAll notes s.trace
      frames := s.see E action
      log := s.log ++ Note.writtenAll notes s.trace }

def run (E : WireCodec α) (s : Exported) (actions : List (Action α)) : Exported :=
  actions.foldl (fun s action => s.step E action) s

end Exported

end Hiway.Unix
