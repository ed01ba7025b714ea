import Hiway.Lib.Bytes
import Hiway.Transport.Accountability
import Hiway.Transport.Operation

/-!
# The HWY1 protocol machine

`Protocol` as the source has it: a machine without storage or execution of its own.
Every subtraction, addition and `expect` of the source is a step in `Exec`, so a
panic of the source is an error of the model and never a silent default.

* `Protocol`, `Input`, `Effect`: the machine, what it is told, and what it asks for.
* `effect`: what it asks for on a lane.
* `input`: what it does with an input.
-/

namespace Hiway.Transport

open Exec Target

/-- Each lane permits at most one accepted operation. -/
inductive Lane where
  | data
  | creditSend
  | creditReceive
  deriving DecidableEq, Repr

/-- One value for each lane: the source's arrays of length three. -/
structure PerLane (α : Type) where
  data : α
  creditSend : α
  creditReceive : α
  deriving DecidableEq, Repr

namespace PerLane

variable {α : Type}

def fill (a : α) : PerLane α := ⟨a, a, a⟩

def get (v : PerLane α) : Lane → α
  | .data => v.data
  | .creditSend => v.creditSend
  | .creditReceive => v.creditReceive

def set (v : PerLane α) (lane : Lane) (a : α) : PerLane α :=
  match lane with
  | .data => { v with data := a }
  | .creditSend => { v with creditSend := a }
  | .creditReceive => { v with creditReceive := a }

@[simp] theorem get_data (v : PerLane α) : v.get .data = v.data := rfl

@[simp] theorem get_creditSend (v : PerLane α) : v.get .creditSend = v.creditSend := rfl

@[simp] theorem get_creditReceive (v : PerLane α) : v.get .creditReceive = v.creditReceive := rfl

@[simp] theorem get_fill (a : α) (lane : Lane) : (fill a).get lane = a := by
  cases lane <;> rfl

@[simp] theorem get_set_self (v : PerLane α) (lane : Lane) (a : α) :
    (v.set lane a).get lane = a := by
  cases lane <;> rfl

theorem get_set_of_ne (v : PerLane α) {lane other : Lane} (a : α) (h : other ≠ lane) :
    (v.set lane a).get other = v.get other := by
  cases lane <;> cases other <;> first | rfl | exact absurd rfl h

end PerLane

def Lane.all : List Lane := [.data, .creditSend, .creditReceive]

inductive Effect where
  | receive (lane : Lane) (offset length : Nat)
  | transmit (lane : Lane) (offset length : Nat)
  | provide
  | admission (length : Nat) (revision : SchemaRevision)
  | cancel (lane : Lane) (target : OpId)
  deriving DecidableEq, Repr

/-- `Effect::Receive { .. } | Effect::Transmit { .. }`. -/
def Effect.isRequest : Effect → Bool
  | .receive .. | .transmit .. => true
  | _ => false

inductive IoResult where
  | bytes (count : Nat)
  | retry
  | failed (code : Int)
  deriving DecidableEq, Repr

inductive Input where
  | accepted (lane : Lane) (op : OpId)
  | completed (op : OpId) (result : IoResult) (buffer : List UInt8)
  | provided (sequence : UInt64) (length : Nat)
  | admitted
  | revoked
  | closed (error : Error)
  deriving DecidableEq, Repr

inductive Stage where
  | source
  | sending
  | credit
  | header
  | payload
  | admission
  deriving DecidableEq, Repr

structure Protocol where
  contract : Contract
  direction : Direction
  capacity : Nat
  stage : Stage
  active : PerLane (Option (OpId × Effect))
  offsets : PerLane Nat
  length : Nat
  sequence : UInt64
  previous : Option UInt64
  revision : SchemaRevision
  credited : Bool
  closed : Option Error
  accountability : Option Accountability

/-! ## The frame header -/

/-- The four bytes of `b"HWY1"`. -/
def magic : List UInt8 := [0x48, 0x57, 0x59, 0x31]

/-- The header that `encode_frame` writes. -/
def header (c : Contract) (sequence : UInt64) (length : Nat) : List UInt8 :=
  magic ++ Bytes.toLe 16 c.event.raw.toNat ++ Bytes.toLe 2 c.major.toNat ++
    Bytes.toLe 4 c.revision.toNat ++ Bytes.toLe 8 sequence.toNat ++ Bytes.toLe 4 length

/-- `u64::from_le_bytes(header[26..34])`. -/
def headerSequence (header : List UInt8) : UInt64 :=
  UInt64.ofNat (Bytes.ofLe (Bytes.slice header 26 34))

/-- `u32::from_le_bytes(header[22..26])`. -/
def headerRevision (header : List UInt8) : SchemaRevision :=
  UInt32.ofNat (Bytes.ofLe (Bytes.slice header 22 26))

/-- `u32::from_le_bytes(header[34..38]) as usize`. -/
def headerLength [Target] (header : List UInt8) : Nat :=
  asUsize (Bytes.ofLe (Bytes.slice header 34 38))

/-- Magic, event identity and wire major of a header belong to the contract. -/
def headerMatches (c : Contract) (header : List UInt8) : Bool :=
  Bytes.slice header 0 4 = magic ∧
    Bytes.slice header 4 20 = Bytes.toLe 16 c.event.raw.toNat ∧
    Bytes.slice header 20 22 = Bytes.toLe 2 c.major.toNat

namespace Protocol

/-! ## Construction -/

def new [Target] (contract : Contract) (direction : Direction) (capacity : Nat) :
    Except Error Protocol :=
  if capacity < headerBytes ∨ capacity - headerBytes > asUsize u32Max then
    .error .capacity
  else
    .ok
      { contract := contract
        direction := direction
        capacity := capacity
        stage := match direction with
          | .importing => .header
          | .exporting => .source
        active := PerLane.fill none
        offsets := PerLane.fill 0
        length := headerBytes
        sequence := 0
        previous := none
        revision := contract.revision
        credited := false
        closed := none
        accountability := none }

def withConnection [Target] (contract : Contract) (direction : Direction) (capacity : Nat)
    (connection : Connection) : Except Error Protocol := do
  let protocol ← new contract direction capacity
  return { protocol with
    accountability := some (Accountability.new connection contract direction) }

/-! ## Records -/

/-- `if let Some(accountability) = &mut self.accountability`. -/
def account (p : Protocol) (f : Accountability → Accountability) : Protocol :=
  { p with accountability := p.accountability.map f }

def popRecord (p : Protocol) : Option Record × Protocol :=
  match p.accountability with
  | none => (none, p)
  | some a => ((a.pop).1, { p with accountability := some (a.pop).2 })

def lostRecords (p : Protocol) : Nat := p.accountability.elim 0 Accountability.lost

def observeSequence (p : Protocol) (sequence : UInt64) : Protocol :=
  p.account fun a => a.observe sequence

/-! ## Effects -/

/-- What an open machine asks of a lane that has no accepted operation. -/
def offer (p : Protocol) (lane : Lane) : Exec (Option Effect) :=
  let offset := p.offsets.get lane
  match lane with
  | .data =>
    match p.stage with
    | .source => .ok (some .provide)
    | .sending => do
      let length ← sub p.length offset
      return some (.transmit lane offset length)
    | .header => do
      let length ← sub p.capacity offset
      return some (.receive lane offset length)
    | .payload => do
      let length ← sub p.length offset
      return some (.receive lane offset length)
    | .admission =>
      if p.credited then .ok none
      else do
        let length ← sub p.length headerBytes
        return some (.admission length p.revision)
    | .credit => .ok none
  | .creditSend =>
    if p.direction = .importing ∧ p.credited then do
      let length ← sub creditBytes offset
      return some (.transmit lane offset length)
    else .ok none
  | .creditReceive =>
    if p.direction = .exporting then do
      let length ← sub creditBytes offset
      return some (.receive lane offset length)
    else .ok (some (.receive lane offset 1))

def effect (p : Protocol) (lane : Lane) : Exec (Option Effect) :=
  match p.active.get lane with
  | some (target, _) => .ok (p.closed.map fun _ => .cancel lane target)
  | none => if p.closed.isSome then .ok none else p.offer lane

def credit (p : Protocol) : List UInt8 :=
  1 :: Bytes.toLe 8 (p.previous.getD p.sequence).toNat

/-! ## Transitions -/

/-- A complete header is in the buffer and `offset` bytes of it have arrived. -/
def parseHeader [Target] (p : Protocol) (offset : Nat) (buffer : List UInt8) :
    Protocol × Except Error Unit :=
  if buffer.length < headerBytes then (p, .error .protocol)
  else
    let header := buffer.take headerBytes
    let p := p.observeSequence (headerSequence header)
    if headerMatches p.contract header = false then (p, .error .protocol)
    else
      let p := { p with
        revision := headerRevision header
        sequence := headerSequence header }
      match checkedAdd headerBytes (headerLength header) with
      | none => (p, .error .capacity)
      | some length =>
        let p := { p with length := length }
        if p.length > p.capacity then (p, .error .capacity)
        -- One frame may be in flight until admission returns credit.
        else if offset > p.length then (p, .error .protocol)
        else if p.previous.any (fun last => !p.contract.delivery.follows last p.sequence) then
          (p, .error .protocol)
        else ({ p with stage := if offset = p.length then .admission else .payload }, .ok ())

/-- A complete credit is in the buffer. -/
def parseCredit (p : Protocol) (buffer : List UInt8) : Protocol × Except Error Unit :=
  if buffer.length < creditBytes then (p, .error .protocol)
  else
    let credit := buffer.take creditBytes
    if Bytes.slice credit 0 1 ≠ [1] ∨
        Bytes.slice credit 1 creditBytes ≠ Bytes.toLe 8 p.sequence.toNat ∨
        p.credited = true ∨ ¬(p.stage = .sending ∨ p.stage = .credit) then
      (p, .error .protocol)
    else
      let p := { p with
        credited := true
        offsets := p.offsets.set .creditReceive 0 }
      if p.stage = .credit then
        let p := { p with stage := .source }
        (p.account fun a => a.completed p.sequence, .ok ())
      else (p, .ok ())

def progress [Target] (p : Protocol) (lane : Lane) (buffer : List UInt8) :
    Exec (Protocol × Except Error Unit) :=
  let offset := p.offsets.get lane
  match lane with
  | .data =>
    match p.stage with
    | .sending =>
      if offset = p.length then
        let p := { p with stage := if p.credited then .source else .credit }
        .ok (if p.credited then p.account fun a => a.completed p.sequence else p, .ok ())
      else .ok (p, .ok ())
    | .header =>
      if headerBytes ≤ offset then .ok (p.parseHeader offset buffer) else .ok (p, .ok ())
    | .payload =>
      .ok (if offset = p.length then { p with stage := .admission } else p, .ok ())
    | _ => .ok (p, .error .protocol)
  | .creditSend =>
    if offset = creditBytes then
      let p := { p with credited := false }
      match p.accountability with
      | none => .ok (p, .ok ())
      | some _ => do
        let last ← unwrap p.previous
        return (p.account fun a => a.completed last, .ok ())
    else .ok (p, .ok ())
  | .creditReceive =>
    if p.direction = .importing then .ok (p, .error .protocol)
    else if offset = creditBytes then .ok (p.parseCredit buffer)
    else .ok (p, .ok ())

/-- `self.active.iter().position(..)` for an accepted operation id. -/
def laneOf (p : Protocol) (op : OpId) : Option Lane :=
  Lane.all.find? fun lane => (p.active.get lane).any fun a => a.1 = op

/-- `self.active[index].take()`. -/
def release (p : Protocol) (lane : Lane) : Protocol :=
  { p with active := p.active.set lane none }

/-- `self.offsets[index] += count`, once the sum is known to fit. -/
def move (p : Protocol) (lane : Lane) (offset : Nat) : Protocol :=
  { p with offsets := p.offsets.set lane offset }

/-- `self.active[lane as usize] = Some((op, effect))`. -/
def accept (p : Protocol) (lane : Lane) (op : OpId) (effect : Effect) : Protocol :=
  { p with active := p.active.set lane (some (op, effect)) }

/-- A completion of the operation that `lane` had accepted with `effect`. -/
def complete [Target] (p : Protocol) (lane : Lane) (effect : Effect) (result : IoResult)
    (buffer : List UInt8) : Exec (Protocol × Except Error Unit) :=
  if p.closed.isSome then .ok (p, .ok ())
  else
    match result with
    | .retry => .ok (p, .ok ())
    | .failed code => .ok (p, .error (.io code))
    | .bytes 0 => .ok (p, .error .closed)
    | .bytes count =>
      match effect with
      | .receive _ _ requested | .transmit _ _ requested =>
        if count > requested then .ok (p, .error .protocol)
        else do
          let offset ← add (p.offsets.get lane) count
          (p.move lane offset).progress lane buffer
      | _ => .error .unreachable

/-- `self.closed.get_or_insert(error)`. -/
def shut (p : Protocol) (error : Error) : Protocol :=
  { p with closed := p.closed.or (some error) }

/-- A valid `Input::Provided`: the frame is in the buffer and sending begins. -/
def provide (p : Protocol) (sequence : UInt64) (length : Nat) : Protocol :=
  let p := { p with sequence := sequence }.observeSequence sequence
  let p := { p with
    length := length
    offsets := p.offsets.set .data 0
    credited := false
    stage := .sending }
  p.account Accountability.admitted

/-- A valid `Input::Admitted`: the frame was accepted locally and its credit is owed. -/
def admitFrame (p : Protocol) : Protocol :=
  let p := { p with previous := some p.sequence }.account Accountability.admitted
  { p with
    credited := true
    offsets := (p.offsets.set .creditSend 0).set .data 0
    length := headerBytes
    stage := .header }

def transition [Target] (p : Protocol) : Input → Exec (Protocol × Except Error Unit)
  | .revoked => .ok (p.shut .revoked, .ok ())
  | .closed error => .ok (p.shut error, .ok ())
  | .accepted lane op => do
    match ← p.effect lane with
    | none => return (p, .error .protocol)
    | some effect =>
      if effect.isRequest = false then return (p, .error .protocol)
      else if (p.laneOf op).isSome then return (p, .error .protocol)
      else return (p.accept lane op effect, .ok ())
  | .completed op result buffer =>
    match p.laneOf op with
    | none => .ok (p, .ok ())
    | some lane => do
      let (_, effect) ← unwrap (p.active.get lane)
      (p.release lane).complete lane effect result buffer
  | .provided sequence length =>
    match p.closed with
    | some error => .ok (p, .error error)
    | none =>
      if p.stage ≠ .source ∨ length < headerBytes ∨ length > p.capacity then
        .ok (p, .error .protocol)
      else .ok (p.provide sequence length, .ok ())
  | .admitted =>
    match p.closed with
    | some error => .ok (p, .error error)
    | none =>
      if p.stage ≠ .admission ∨ p.credited then .ok (p, .error .protocol)
      else .ok (p.admitFrame, .ok ())

/-- `if let Err(error) = result { self.closed.get_or_insert(error); }`. -/
def conclude (p : Protocol) : Except Error Unit → Protocol
  | .error error => p.shut error
  | .ok () => p

/-- The terminal record that a step leaves behind once the machine is closed. -/
def settle (p : Protocol) (input : Input) : Protocol :=
  match p.closed with
  | none => p
  | some error =>
    match input with
    | .revoked | .closed .closed | .closed .revoked => p.account Accountability.cancel
    | _ => p.account fun a => a.finish error

def input [Target] (p : Protocol) (input : Input) : Exec (Protocol × Except Error Unit) := do
  let (p, result) ← p.transition input
  return ((p.conclude result).settle input, result)

end Protocol

end Hiway.Transport
