import Hiway.Unix.Admission

/-!
# Two links and the sockets between them

An exporting and an importing link joined by their data and control sockets. A write
puts what it took behind the bytes on the way, a read takes some from the front, and either
may be cut anywhere. Between these both links do what they do alone: their local streams
answer, their hosts revoke, drop or drain them, their sockets fail or close. Each event is
one of one link, so a list of events is one interleaving.

Nothing writes to the control socket at the exporting end, so the importing link reads
nothing there.

* `Pair`, `Event`: two links with what is on the way between them, and what can happen to
  them.
* `step`, `run`: one event, and one interleaving.
-/

namespace Hiway.Unix

open Target Transport

/-- Two links, what is on the way between them, and every item that was started with its
sequence. -/
structure Pair (α β : Type) where
  exporter : Exported
  importer : Imported β
  data : List UInt8
  control : List UInt8
  provided : List (UInt64 × α)

inductive Event (α G : Type) where
  | exporter (action : Action α)
  | importer (arrival : Arrival G)
  | sendData (count : Nat)
  | receiveData (count : Nat) (grant : G)
  | sendCredit (count : Nat)
  | receiveCredit (count : Nat)
  deriving DecidableEq, Repr

/-- What `export_data` gives its next write. -/
def Exported.offered (s : Exported) : List UInt8 :=
  match s.link.outcome, s.link.exporting with
  | none, .writing [] payload => payload
  | none, .writing header _ => header
  | _, _ => []

/-- What `receive_credits` takes of the bytes that a read returns. -/
def Exported.room (s : Exported) : Nat :=
  match s.link.outcome, s.link.crediting with
  | none, .reading frame => creditBytes - frame.length
  | _, _ => 0

/-- What `import_data` gives its next write. -/
def Imported.offered {β : Type} (s : Imported β) : List UInt8 :=
  match s.link.outcome with
  | none => s.link.importing.owed
  | some _ => []

namespace Pair

variable {α β G : Type}

def start (E : WireCodec α) (c : Contract) (source target : Connection)
    (sourcePayload targetPayload : Nat) : Pair α β :=
  ⟨Exported.start E source sourcePayload, Imported.start c target targetPayload, [], [], []⟩

/-- The local stream of the exporting link yields its items in an order that their delivery
allows. -/
def provide (E : WireCodec α) (p : Pair α β) (sequence : UInt64) (payload : α) : Pair α β :=
  if p.provided.getLast?.all fun x => E.contract.delivery.follows x.1 sequence then
    { p with
      exporter := p.exporter.step E (.received sequence payload)
      provided :=
        match p.exporter.link.outcome, p.exporter.link.exporting,
          encodeData E sequence payload p.exporter.link.buffer with
        | none, .receiving, .ok _ => p.provided ++ [(sequence, payload)]
        | _, _, _ => p.provided }
  else p

/-- One event. An event that is not possible leaves the pair as it is. -/
def step [Target] (E : WireCodec α) (c : Contract) (decode : Decode β G) (p : Pair α β) :
    Event α G → Pair α β
  | .exporter (.wrote (_ + 1)) | .exporter (.read (_ :: _)) => p
  | .exporter (.received sequence payload) => p.provide E sequence payload
  | .exporter action => { p with exporter := p.exporter.step E action }
  | .importer (.wrote (_ + 1)) | .importer (.read (_ :: _) _) | .importer (.control (_ :: _)) => p
  | .importer arrival => { p with importer := p.importer.step c decode arrival }
  | .sendData count =>
    let bytes := p.exporter.offered.take count
    if bytes = [] then p
    else
      { p with
        exporter := p.exporter.step E (.wrote bytes.length)
        data := p.data ++ bytes }
  | .receiveData count grant =>
    let bytes := p.data.take (min count p.importer.room)
    if bytes = [] then p
    else
      { p with
        importer := p.importer.step c decode (.read bytes grant)
        data := p.data.drop bytes.length }
  | .sendCredit count =>
    let bytes := p.importer.offered.take count
    if bytes = [] then p
    else
      { p with
        importer := p.importer.step c decode (.wrote bytes.length)
        control := p.control ++ bytes }
  | .receiveCredit count =>
    let bytes := p.control.take (min count p.exporter.room)
    if bytes = [] then p
    else
      { p with
        exporter := p.exporter.step E (.read bytes)
        control := p.control.drop bytes.length }

/-- One interleaving. -/
def run [Target] (E : WireCodec α) (c : Contract) (decode : Decode β G) (p : Pair α β)
    (events : List (Event α G)) : Pair α β :=
  events.foldl (fun p event => p.step E c decode event) p

end Pair

end Hiway.Unix
