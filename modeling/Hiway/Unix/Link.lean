import Hiway.Transport.Frame

/-!
# The Unix backend's frames

The second implementation of the wire format: exact reads and writes on a stream
socket, a header decoded field by field, and the credit of one frame kept in three
atomics that the exporting and the credit-receiving loop share. Between two of its
awaits a loop is not interrupted, so one pass over a credit is one function here.

* `encodeHeader`, `encodeData`: the frame of a value.
* `decodeHeader`, `acceptHeader`: the fields of a header, and the checks on them.
* `Credits`: the credit of one frame, as both loops see it.
-/

namespace Hiway.Unix

open Target Transport

inductive IpcError where
  | io (code : Option Int)
  | topic (error : TopicError)
  | wire (error : WireError)
  | receive (error : ReceiveError)
  | send (error : SendError Unit)
  | revoked
  | protocol
  | oversized (length limit : Nat)
  | gap (first last : Nat)
  deriving DecidableEq, Repr

/-- The error that `Trace::finish` records; a revocation is recorded as a cancellation. -/
def IpcError.recorded : IpcError → Option Error
  | .revoked => none
  | .io code => some (.io (code.getD 0))
  | .topic error => some (.topic error)
  | .wire error => some (.wire error)
  | .receive error => some (.receive error)
  | .send error => some (.send error)
  | .protocol => some .protocol
  | .oversized _ _ => some .capacity
  | .gap first last => some (.gap first last)

/-! ## Headers -/

def encodeHeader (c : Contract) (sequence : UInt64) (length : Nat) :
    Except WireError (List UInt8) :=
  if u32Max < length then .error .invalidHeader
  else .ok (writeHeader c sequence length (List.replicate headerBytes 0))

def decodeHeader [Target] (c : Contract) (header : List UInt8) (maxPayload : Nat) :
    Except IpcError (UInt64 × SchemaRevision × Nat) :=
  let event : EventId := ⟨BitVec.ofNat 128 (Bytes.ofLe (Bytes.slice header 4 20))⟩
  let major : WireMajor := UInt16.ofNat (Bytes.ofLe (Bytes.slice header 20 22))
  if Bytes.slice header 0 4 ≠ magic ∨ event ≠ c.event ∨ major ≠ c.major then .error .protocol
  else
    let revision := headerRevision header
    let sequence := headerSequence header
    let length := headerLength header
    if length > maxPayload then .error (.oversized length maxPayload)
    else .ok (sequence, revision, length)

/-- What `import_data` does with a header before it reads the payload. -/
def acceptHeader [Target] (c : Contract) (header : List UInt8) (maxPayload : Nat)
    (previous : Option UInt64) : Except IpcError (UInt64 × SchemaRevision × Nat) := do
  let (sequence, revision, length) ← decodeHeader c header maxPayload
  if previous.any fun last => !c.delivery.follows last sequence then .error .protocol
  else return (sequence, revision, length)

/-! ## Frames -/

/-- What `export_data` writes for a payload: the header, then the front of the buffer. -/
def encodeData {α : Type} (E : WireCodec α) (sequence : UInt64) (payload : α)
    (buffer : List UInt8) : Except IpcError (List UInt8 × List UInt8) :=
  let length := E.encodedLen payload
  if length > buffer.length then .error (.oversized length buffer.length)
  else
    let body := E.encode payload (buffer.take length)
    match body.1 with
    | .error error => .error (.wire error)
    | .ok encoded =>
      if encoded ≠ length then .error (.wire .invalidPayload)
      else
        match encodeHeader E.contract sequence length with
        | .error error => .error (.wire error)
        | .ok header => .ok (header, body.2)

/-! ## Credits -/

/-- The credit of the last frame, shared by the two loops of an exporter. -/
structure Credits where
  outstanding : Bool
  sent : Bool
  sequence : UInt64
  deriving DecidableEq, Repr

namespace Credits

def new : Credits := ⟨false, false, 0⟩

/-- `export_data` stores the sequence before it writes the frame. -/
def start (_ : Credits) (sequence : UInt64) : Credits := ⟨true, false, sequence⟩

/-- One pass of `receive_credits`. Besides the credits it returns the frame that is
completed when its last byte had been written before. -/
def receive (credits : Credits) (frame : List UInt8) :
    Except IpcError (Credits × Option UInt64) :=
  let sequence := UInt64.ofNat (Bytes.ofLe (Bytes.slice frame 1 creditBytes))
  if frame[0]? ≠ some 1 ∨ credits.outstanding = false ∨ sequence ≠ credits.sequence then
    .error .protocol
  else
    .ok ({ credits with outstanding := false }, if credits.sent then some sequence else none)

end Credits

end Hiway.Unix
