import Hiway.Transport.Frame
import Hiway.Transport.ProtocolSteps

/-!
# Two machines and the channels between them

`Side` is one endpoint: its machine, the storage of its lanes and the bytes that the
accepted operation of each lane has moved but not yet reported. `Duplex` joins an
exporting and an importing side by a data channel and a credit channel. Each step is
one event of one party, so a list of steps is one interleaving.

* `Side`: a machine with its storage and the bytes that the kernel has moved for it.
* `Duplex`, `Action`: two sides and the channels between them, and what can happen to them.
* `run`: one interleaving.
-/

namespace Hiway.Transport

open Exec Target

structure Side where
  protocol : Protocol
  buffers : PerLane (List UInt8)
  moved : PerLane Nat

namespace Side

/-- What the accepted operation of a lane asked for. -/
def room (s : Side) (lane : Lane) : Nat :=
  match s.protocol.active.get lane with
  | some (_, e) => e.requested
  | none => 0

/-- Bytes of the current transfer that the lane has moved, reported or not. -/
def position (s : Side) (lane : Lane) : Nat := s.protocol.offsets.get lane + s.moved.get lane

/-! ## Events of one side -/

/-- Submits what the machine asks of a lane. The credit is written when its first
byte is about to be requested. -/
def accept [Target] (s : Side) (lane : Lane) (op : OpId) : Exec Side := do
  match ← s.protocol.effect lane with
  | none => return s
  | some e =>
    if e.isRequest = false ∨ (s.protocol.laneOf op).isSome then return s
    else
      let buffers :=
        if lane = .creditSend ∧ s.protocol.offsets.creditSend = 0 then
          s.buffers.set .creditSend s.protocol.credit
        else s.buffers
      let (protocol, _) ← s.protocol.input (.accepted lane op)
      return { s with protocol := protocol, buffers := buffers }

/-- Takes up to `count` bytes of an accepted transmission. -/
def transmit (s : Side) (lane : Lane) (count : Nat) : List UInt8 × Side :=
  match s.protocol.active.get lane with
  | some (_, .transmit _ offset length) =>
    let moved := s.moved.get lane
    let n := min count (length - moved)
    (Bytes.slice (s.buffers.get lane) (offset + moved) (offset + moved + n),
      { s with moved := s.moved.set lane (moved + n) })
  | _ => ([], s)

/-- Moves up to `count` bytes of a channel into an accepted reception. -/
def receive (s : Side) (lane : Lane) (count : Nat) (channel : List UInt8) : List UInt8 × Side :=
  match s.protocol.active.get lane with
  | some (_, .receive _ offset length) =>
    let moved := s.moved.get lane
    let n := min (min count channel.length) (length - moved)
    (channel.drop n,
      { s with
        buffers := s.buffers.set lane
          (Bytes.write (s.buffers.get lane) (offset + moved) (channel.take n))
        moved := s.moved.set lane (moved + n) })
  | _ => (channel, s)

/-- Reports an operation: the bytes it moved, or a retry when it moved none. -/
def complete [Target] (s : Side) (op : OpId) : Exec Side :=
  match s.protocol.laneOf op with
  | none => .ok s
  | some lane => do
    let count := s.moved.get lane
    let result := if count = 0 then .retry else .bytes count
    let (protocol, _) ← s.protocol.input (.completed op result (s.buffers.get lane))
    return { s with protocol := protocol, moved := s.moved.set lane 0 }

end Side

/-- What the exporter is given and the importer hands out. -/
structure Frame where
  sequence : UInt64
  revision : SchemaRevision
  payload : List UInt8
  deriving DecidableEq, Repr

structure Duplex where
  exporter : Side
  importer : Side
  data : List UInt8
  credits : List UInt8
  provided : List Frame
  admitted : List Frame

inductive Action (α : Type) where
  | accept (side : Direction) (lane : Lane) (op : OpId)
  | complete (side : Direction) (op : OpId)
  | sendData (count : Nat)
  | receiveData (count : Nat)
  | sendCredit (count : Nat)
  | receiveCredit (count : Nat)
  | provide (sequence : UInt64) (payload : α)
  | admission

namespace Duplex

variable {α : Type}

/-- A frame may be provided when the exporter asks for one, its encoding fits the
importer and its sequence follows the last one provided. -/
def provide [Target] (E : WireCodec α) (d : Duplex) (sequence : UInt64) (payload : α) :
    Exec Duplex := do
  match ← d.exporter.protocol.effect .data with
  | some .provide =>
    let p := d.exporter.protocol.observeSequence sequence
    match encodeFrame E sequence payload d.exporter.buffers.data with
    | (.error _, _) => return d
    | (.ok total, output) =>
      if total ≤ d.importer.protocol.capacity ∧
          d.provided.getLast?.all (fun f => E.contract.delivery.follows f.sequence sequence) then do
        let (protocol, _) ← p.input (.provided sequence total)
        return { d with
          exporter := { d.exporter with
            protocol := protocol
            buffers := d.exporter.buffers.set .data output }
          provided := d.provided ++
            [⟨sequence, E.contract.revision, Bytes.slice output headerBytes total⟩] }
      else return d
  | _ => return d

/-- The importer hands out the frame its machine offers and reports the admission. -/
def admitFrame [Target] (d : Duplex) : Exec Duplex := do
  match ← d.importer.protocol.effect .data with
  | some (.admission length revision) =>
    let (protocol, _) ← d.importer.protocol.input .admitted
    return { d with
      importer := { d.importer with protocol := protocol }
      admitted := d.admitted ++ [⟨d.importer.protocol.sequence, revision,
        Bytes.slice d.importer.buffers.data headerBytes (headerBytes + length)⟩] }
  | _ => return d

/-- One event. An event that is not possible in a state leaves it as it is. -/
def step [Target] (E : WireCodec α) (d : Duplex) : Action α → Exec Duplex
  | .accept .exporting lane op => do
    let exporter ← d.exporter.accept lane op
    return { d with exporter := exporter }
  | .accept .importing lane op => do
    let importer ← d.importer.accept lane op
    return { d with importer := importer }
  | .complete .exporting op => do
    let exporter ← d.exporter.complete op
    return { d with exporter := exporter }
  | .complete .importing op => do
    let importer ← d.importer.complete op
    return { d with importer := importer }
  | .sendData count =>
    let (bytes, exporter) := d.exporter.transmit .data count
    .ok { d with exporter := exporter, data := d.data ++ bytes }
  | .receiveData count =>
    let (data, importer) := d.importer.receive .data count d.data
    .ok { d with importer := importer, data := data }
  | .sendCredit count =>
    let (bytes, importer) := d.importer.transmit .creditSend count
    .ok { d with importer := importer, credits := d.credits ++ bytes }
  | .receiveCredit count =>
    let (credits, exporter) := d.exporter.receive .creditReceive count d.credits
    .ok { d with exporter := exporter, credits := credits }
  | .provide sequence payload => d.provide E sequence payload
  | .admission => d.admitFrame

/-- One interleaving. -/
def run [Target] (E : WireCodec α) (d : Duplex) (actions : List (Action α)) : Exec Duplex :=
  steps (step E) d actions

/-- Two fresh machines, whatever their storage holds, over empty channels. -/
def start (exporter importer : Protocol) (source target : PerLane (List UInt8)) : Duplex where
  exporter := ⟨exporter, source, PerLane.fill 0⟩
  importer := ⟨importer, target, PerLane.fill 0⟩
  data := []
  credits := []
  provided := []
  admitted := []

end Duplex

end Hiway.Transport
