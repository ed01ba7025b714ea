import Hiway.Unix.Window

/-!
# An importing link

`import_data` reads one frame after the other, hands its value to the local stream and
writes the credit when that was accepted. Beside it `reject_control` waits for anything on
the control socket, which ends the link. An action is what an await returns. Decoding asks
the grant for resources, so the state of the grant comes with the read that completes a
frame.

Beside the link stands its history: the frames whose values were accepted, what was read
of the next one, the bytes that left on the control socket, and every record that was made.

* `Importer`, `Arrival`: the loops at their awaits, and what an await returns.
* `Imported`: the link with its history.
* `step`: what the link does up to its next await.
-/

namespace Hiway.Unix

open Target Transport

inductive DecodeError where
  | wire (error : WireError)
  | resources (error : TopicError)
  deriving DecidableEq, Repr

def IpcError.ofDecode : DecodeError → IpcError
  | .wire error => .wire error
  | .resources error => .topic error

/-! ## The link -/

/-- Where `import_data` awaits: the rest of a header or of a payload, the local stream, the
rest of a credit, or its turn. -/
inductive Importing (α : Type) where
  | header (read : List UInt8)
  | payload (sequence : UInt64) (revision : SchemaRevision) (length : Nat) (read : List UInt8)
  | sending (sequence : UInt64) (value : α)
  | crediting (sequence : UInt64) (credit : List UInt8)
  | yielding
  deriving DecidableEq, Repr

/-- The future of `import_with_trace`. The front of its buffer is what was read of a
payload, and nothing behind that is ever looked at. -/
structure Importer (α : Type) where
  importing : Importing α
  previous : Option UInt64
  maxPayload : Nat
  outcome : Option (Option IpcError)
  deriving DecidableEq, Repr

/-- What an await of the link returns. -/
inductive Arrival (G : Type) where
  | read (bytes : List UInt8) (grant : G)
  | readFailed (code : Option Int)
  | sent
  | sendFailed (error : SendError Unit)
  | wrote (count : Nat)
  | writeFailed (code : Option Int)
  | resumed
  | control (bytes : List UInt8)
  | controlFailed (code : Option Int)
  | revoked
  | dropped
  | popped
  deriving DecidableEq, Repr

/-- `E::decode_with_resources`. -/
abbrev Decode (α G : Type) := List UInt8 → SchemaRevision → G → Except DecodeError α

namespace Importer

variable {α G : Type}

/-- The future is done: `tokio::select!` drops the other branch. -/
def finish (i : Importer α) (outcome : Option IpcError) : Importer α × List Note :=
  ({ i with outcome := some outcome }, Exporter.closing outcome)

/-- A link before its first poll. -/
def start (maxPayload : Nat) : Importer α := ⟨.header [], none, maxPayload, none⟩

/-- The payload was read: its value goes to the local stream. -/
def decoded (decode : Decode α G) (i : Importer α) (grant : G) (sequence : UInt64)
    (revision : SchemaRevision) (payload : List UInt8) : Importer α × List Note :=
  match decode payload revision grant with
  | .error error => i.finish (some (.ofDecode error))
  | .ok value => ({ i with importing := .sending sequence value }, [])

/-- `read_exact` of a payload, after one more read. An empty payload takes none. -/
def payload (decode : Decode α G) (i : Importer α) (grant : G) (sequence : UInt64)
    (revision : SchemaRevision) (length : Nat) (read : List UInt8) : Importer α × List Note :=
  if read.length = length then i.decoded decode grant sequence revision read
  else ({ i with importing := .payload sequence revision length read }, [])

/-- The header was read. -/
def accept [Target] (c : Contract) (decode : Decode α G) (i : Importer α) (grant : G)
    (header : List UInt8) : Importer α × List Note :=
  let (i, notes) :=
    match acceptHeader c header i.maxPayload i.previous with
    | .error error => i.finish (some error)
    | .ok (sequence, revision, length) => i.payload decode grant sequence revision length []
  (i, .observe (headerSequence header) :: notes)

/-- `write_all` of a credit, after one more write. -/
def write (i : Importer α) (sequence : UInt64) (credit : List UInt8) : Importer α × List Note :=
  if credit = [] then ({ i with importing := .yielding }, [.completed sequence])
  else ({ i with importing := .crediting sequence credit }, [])

/-- The link goes on with what one of its awaits has returned, and makes these calls to its
trace. An await that is not under way returns nothing. -/
def step [Target] (c : Contract) (decode : Decode α G) (i : Importer α) (arrival : Arrival G) :
    Importer α × List Note :=
  match i.outcome with
  | some _ => (i, [])
  | none =>
    match arrival, i.importing with
    | .revoked, _ => i.finish (some .revoked)
    | .dropped, _ => i.finish none
    | .control [], _ => i.finish (some (.io none))
    | .control _, _ => i.finish (some .protocol)
    | .controlFailed code, _ => i.finish (some (.io code))
    | .read [] _, .header _ | .read [] _, .payload _ _ _ _ => i.finish (some (.io none))
    | .read bytes grant, .header read =>
      let read := read ++ bytes.take (headerBytes - read.length)
      if read.length = headerBytes then i.accept c decode grant read
      else ({ i with importing := .header read }, [])
    | .read bytes grant, .payload sequence revision length read =>
      i.payload decode grant sequence revision length (read ++ bytes.take (length - read.length))
    | .readFailed code, .header _ | .readFailed code, .payload _ _ _ _ => i.finish (some (.io code))
    | .sent, .sending sequence _ =>
      ({ i with importing := .crediting sequence (creditOf sequence), previous := some sequence },
        [.admitted])
    | .sendFailed error, .sending _ _ => i.finish (some (.send error))
    | .wrote 0, .crediting _ _ => i.finish (some (.io none))
    | .wrote count, .crediting sequence credit => i.write sequence (credit.drop count)
    | .writeFailed code, .crediting _ _ => i.finish (some (.io code))
    | .resumed, .yielding => ({ i with importing := .header [] }, [])
    | _, _ => (i, [])

end Importer

/-! ## Its history -/

/-- A frame whose value the local stream has accepted. -/
structure Accepted (α : Type) where
  header : List UInt8
  payload : List UInt8
  value : α
  deriving DecidableEq, Repr

namespace Accepted

variable {α G : Type}

def sequence (a : Accepted α) : UInt64 := headerSequence a.header

def bytes (a : Accepted α) : List UInt8 := a.header ++ a.payload

/-- The nine bytes that acknowledge the frame. -/
def credit (a : Accepted α) : List UInt8 := creditOf a.sequence

/-- The header belongs to the contract, announces the payload, and the value is decoded
from it. -/
structure Sound [Target] (c : Contract) (decode : Decode α G) (maxPayload : Nat)
    (a : Accepted α) : Prop where
  length : a.header.length = headerBytes
  accepted : headerMatches c a.header = true
  payload : headerLength a.header = a.payload.length
  bounded : a.payload.length ≤ maxPayload
  decoded : ∃ grant, decode a.payload (headerRevision a.header) grant = .ok a.value

end Accepted

/-- A link, its trace, what was read and accepted, what was written, and all records that
were made. -/
structure Imported (α : Type) where
  link : Importer α
  trace : Accountability
  admitted : List (Accepted α)
  arriving : List UInt8
  sent : List UInt8
  log : List FrameRecord

namespace Imported

variable {α G : Type}

/-- `import_tracked`. -/
def start (c : Contract) (connection : Connection) (maxPayload : Nat) : Imported α :=
  ⟨Importer.start maxPayload, Accountability.new connection c .importing, [], [], [], []⟩

/-- Every credit that is owed or paid, in the order of the frames. -/
def credits (s : Imported α) : List UInt8 := s.admitted.flatMap Accepted.credit

/-- Everything that was read from the data socket. -/
def consumed (s : Imported α) : List UInt8 := s.admitted.flatMap Accepted.bytes ++ s.arriving

/-- What the link takes of the bytes that a read of the data socket returns. -/
def room (s : Imported α) : Nat :=
  match s.link.outcome, s.link.importing with
  | none, .header read => headerBytes - read.length
  | none, .payload _ _ length read => length - read.length
  | _, _ => 0

/-- What an arrival shows of the frame under way. -/
def gather (s : Imported α) : Arrival G → List (Accepted α) × List UInt8
  | .read bytes _ => (s.admitted, s.arriving ++ bytes.take s.room)
  | .sent =>
    match s.link.outcome, s.link.importing with
    | none, .sending _ value =>
      (s.admitted ++ [⟨s.arriving.take headerBytes, s.arriving.drop headerBytes, value⟩], [])
    | _, _ => (s.admitted, s.arriving)
  | _ => (s.admitted, s.arriving)

/-- What an arrival shows of the control socket. -/
def emit (s : Imported α) : Arrival G → List UInt8
  | .wrote count =>
    match s.link.outcome, s.link.importing with
    | none, .crediting _ credit => credit.take count
    | _, _ => []
  | _ => []

def step [Target] (c : Contract) (decode : Decode α G) (s : Imported α) (arrival : Arrival G) :
    Imported α :=
  match arrival with
  | .popped => { s with trace := s.trace.pop.2 }
  | arrival =>
    let (link, notes) := s.link.step c decode arrival
    let (admitted, arriving) := s.gather arrival
    { link := link
      trace := Note.applyAll notes s.trace
      admitted := admitted
      arriving := arriving
      sent := s.sent ++ s.emit arrival
      log := s.log ++ Note.writtenAll notes s.trace }

def run [Target] (c : Contract) (decode : Decode α G) (s : Imported α)
    (arrivals : List (Arrival G)) : Imported α :=
  arrivals.foldl (fun s arrival => s.step c decode arrival) s

end Imported

end Hiway.Unix
