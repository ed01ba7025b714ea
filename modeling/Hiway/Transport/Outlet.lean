import Hiway.Transport.Halting

/-!
# An exporting side on its own

A machine that exports, its storage and its kernel, whatever is at the other end: the frames
it has started, the bytes that have left and the credit bytes that have come. As long as it
reads credits of its own frames in their order, it starts the next frame only when the credit
of the last one was read, and is not closed for what it reads.

* `Stands.transmit`, `Stands.receive`: more of a frame leaves, more of a credit comes.
* `Sending.credited`, `Resting.provide`: a credit is complete, a frame is started.
* `Inv.step`: every event of the side keeps it a sender.
* `sender_keeps`: an exporting machine is a sender that keeps to the format.
-/

namespace Hiway.Transport

open Exec Target

structure Outlet (α : Type) where
  side : Side
  provided : List (UInt64 × α)
  started : List Frame
  written : List UInt8
  read : List UInt8

/-- What happens at an exporting end. -/
inductive Outgoing (α : Type) where
  | accept (lane : Lane) (op : OpId)
  | complete (op : OpId)
  | fail (op : OpId) (code : Option Int)
  | transmit (count : Nat)
  | receive (bytes : List UInt8)
  | provide (sequence : UInt64) (payload : α)
  | stop (error : Option Error)
  deriving DecidableEq, Repr

namespace Outlet

variable {α : Type}

/-- Storage is filled when the machine asks for a frame, in an order that its delivery
allows. -/
def provide [Target] (E : WireCodec α) (o : Outlet α) (sequence : UInt64) (payload : α) :
    Exec (Outlet α) := do
  match ← o.side.protocol.effect .data with
  | some .provide =>
    if o.provided.getLast?.all fun x => E.contract.delivery.follows x.1 sequence then
      match encodeFrame E sequence payload o.side.buffers.data with
      | (.error _, _) => return o
      | (.ok total, output) => do
        let p := o.side.protocol.observeSequence sequence
        let (protocol, _) ← p.input (.provided sequence total)
        return { o with
          side := { o.side with
            protocol := protocol
            buffers := o.side.buffers.set .data output }
          provided := o.provided ++ [(sequence, payload)]
          started := o.started ++
            [⟨sequence, E.contract.revision, Bytes.slice output headerBytes total⟩] }
    else return o
  | _ => return o

def step [Target] (E : WireCodec α) (o : Outlet α) : Outgoing α → Exec (Outlet α)
  | .accept lane op => do
    let side ← o.side.accept lane op
    return { o with side := side }
  | .complete op => do
    let side ← o.side.complete op
    return { o with side := side }
  | .fail op code => do
    let side ← o.side.fail op code
    return { o with side := side }
  | .transmit count =>
    let (bytes, side) := o.side.transmit .data count
    .ok { o with side := side, written := o.written ++ bytes }
  | .receive bytes =>
    let (rest, side) := o.side.receive .creditReceive bytes.length bytes
    .ok { o with side := side, read := o.read ++ bytes.take (bytes.length - rest.length) }
  | .provide sequence payload => o.provide E sequence payload
  | .stop error =>
    if error = some .protocol then .ok o
    else do
      let side ← o.side.stop error
      return { o with side := side }

/-- A fresh machine, whatever its storage holds. -/
def start (protocol : Protocol) (storage : PerLane (List UInt8)) : Outlet α :=
  ⟨⟨protocol, storage, PerLane.fill 0⟩, [], [], [], []⟩

/-- As a sender of frames. -/
def sender [Target] (E : WireCodec α) : Dialogue.Sender (Outlet α) (Outgoing α) Frame UInt8 where
  step := step E
  started := started
  written := written
  read := read

end Outlet

/-! ## What was written and read -/

/-- What an exporting side has written and read, and what it is at. -/
structure Strand where
  view : View
  source : List UInt8
  credit : List UInt8
  started : List Frame
  written : List UInt8
  read : List UInt8

namespace Strand

/-- The side asks for a frame: all that it started has left, and was credited. -/
structure Resting [Target] (c : Contract) (s : Strand) : Prop where
  stage : s.view.stage = .source
  written : s.written = (wireFormat c).codes s.started
  read : s.read = (wireFormat c).acks s.started ++ s.credit.take s.view.creditReceive

/-- The side sends `f`, or waits for its credit. -/
structure Sending [Target] (c : Contract) (s : Strand) (front : List Frame) (f : Frame) : Prop where
  started : s.started = front ++ [f]
  stage : s.view.stage = .sending ∨
    s.view.stage = .credit ∧ s.view.data = s.view.length ∧ s.view.credited = false
  sequence : s.view.sequence = f.sequence
  length : s.view.length = (f.code c).length
  source : s.source.take s.view.length = f.code c
  sent : s.view.data ≤ s.view.length
  written : s.written = (wireFormat c).codes front ++ (f.code c).take s.view.data
  read : s.read = (wireFormat c).acks (if s.view.credited then front ++ [f] else front) ++
    s.credit.take s.view.creditReceive

inductive Stands [Target] (c : Contract) (s : Strand) : Prop
  | resting (h : s.Resting c)
  | sending (front : List Frame) (f : Frame) (h : s.Sending c front f)

variable [Target] {c : Contract} {s : Strand}

/-- More of the frame leaves. -/
theorem Stands.transmit (h : s.Stands c) (n : Nat)
    (hn : n ≠ 0 → s.view.stage = .sending ∧ s.view.data + n ≤ s.view.length) :
    Stands c { s with
      view := { s.view with data := s.view.data + n }
      written := s.written ++ Bytes.slice s.source s.view.data (s.view.data + n) } := by
  by_cases hz : n = 0
  · subst hz
    simpa using h
  · obtain ⟨hstage, hle⟩ := hn hz
    cases h with
    | resting h =>
      rw [h.stage] at hstage
      cases hstage
    | sending front f h =>
      refine .sending front f { h with
        stage := Or.inl hstage
        sent := hle
        written := ?_ }
      show s.written ++ Bytes.slice s.source s.view.data (s.view.data + n) = _
      rw [h.written, ← Bytes.slice_take hle, h.source, List.append_assoc,
        Bytes.take_append_slice (Nat.le_add_right _ _)]

/-- More of a credit comes. -/
theorem Stands.receive (h : s.Stands c) (n : Nat) (credit taken : List UInt8)
    (hcredit : credit.take (s.view.creditReceive + n) =
      s.credit.take s.view.creditReceive ++ taken) :
    Stands c { s with
      view := { s.view with creditReceive := s.view.creditReceive + n }
      credit := credit
      read := s.read ++ taken } := by
  cases h with
  | resting h =>
    refine .resting { h with read := ?_ }
    show s.read ++ taken = _ ++ credit.take (s.view.creditReceive + n)
    rw [h.read, hcredit, List.append_assoc]
  | sending front f h =>
    refine .sending front f { h with read := ?_ }
    show s.read ++ taken = _ ++ credit.take (s.view.creditReceive + n)
    rw [h.read, hcredit, List.append_assoc]

/-- The side learns that its frame has left. -/
theorem Stands.sent (h : s.Stands c) (hstage : s.view.stage = .sending)
    (hfull : s.view.data = s.view.length) :
    Stands c { s with
      view := { s.view with stage := if s.view.credited then .source else .credit } } := by
  cases h with
  | resting h =>
    rw [h.stage] at hstage
    cases hstage
  | sending front f h =>
    cases hcredited : s.view.credited with
    | false => exact .sending front f { h with stage := Or.inr ⟨rfl, hfull, hcredited⟩ }
    | true =>
      refine .resting ⟨rfl, ?_, ?_⟩
      · show s.written = (wireFormat c).codes s.started
        rw [h.written, h.started, (wireFormat c).codes_concat, hfull, h.length, List.take_length]
        rfl
      · show s.read = (wireFormat c).acks s.started ++ _
        have hread := h.read
        rw [hcredited, if_pos rfl] at hread
        rw [hread, h.started]

/-- The credit that a proper peer completes is the one of the last frame. -/
theorem Stands.due (h : s.Stands c) (hproper : s.read <+: (wireFormat c).acks s.started)
    (hlen : s.credit.length = creditBytes) (hfull : s.view.creditReceive = creditBytes) :
    ∃ front f, s.Sending c front f ∧ s.view.credited = false ∧
      s.credit = creditOf f.sequence := by
  have htake : s.credit.take s.view.creditReceive = s.credit := by
    rw [hfull, ← hlen, List.take_length]
  have hlong : ∀ fs, s.read = (wireFormat c).acks fs ++ s.credit → fs ≠ s.started := by
    rintro fs hread rfl
    have hle := hproper.length_le
    rw [hread, List.length_append, hlen] at hle
    have hpos := creditBytes_pos
    omega
  cases h with
  | resting h =>
    have hread := h.read
    rw [htake] at hread
    exact absurd rfl (hlong _ hread)
  | sending front f h =>
    have hread := h.read
    rw [htake] at hread
    cases hcredited : s.view.credited with
    | true =>
      rw [hcredited, if_pos rfl] at hread
      exact absurd h.started.symm (hlong _ hread)
    | false =>
      rw [hcredited, if_neg (by decide)] at hread
      refine ⟨front, f, h, rfl, ?_⟩
      rw [hread, h.started, (wireFormat c).acks_concat, List.prefix_append_right_inj] at hproper
      exact hproper.eq_of_length_le (by rw [hlen]; exact (length_creditOf _).le)

/-- The side reads a complete credit. -/
theorem Sending.credited {front : List Frame} {f : Frame} (h : s.Sending c front f)
    (hcredited : s.view.credited = false) (hfull : s.view.creditReceive = creditBytes)
    (hlen : s.credit.length = creditBytes) (hcredit : s.credit = creditOf f.sequence) :
    Stands c { s with
      view := { s.view with
        credited := true
        creditReceive := 0
        stage := if s.view.stage = .credit then .source else s.view.stage } } := by
  have hread : s.read = (wireFormat c).acks (front ++ [f]) := by
    have hread := h.read
    rw [hcredited, if_neg (by decide), hfull, ← hlen, List.take_length, hcredit] at hread
    rw [hread, (wireFormat c).acks_concat]
    rfl
  rcases h.stage with hstage | ⟨hstage, hdata, -⟩
  · refine .sending front f { h with
      stage := Or.inl ?_
      read := ?_ }
    · simp [hstage]
    · show s.read = _
      rw [hread]
      simp
  · refine .resting ⟨by simp [hstage], ?_, ?_⟩
    · show s.written = (wireFormat c).codes s.started
      rw [h.written, h.started, (wireFormat c).codes_concat, hdata, h.length, List.take_length]
      rfl
    · show s.read = (wireFormat c).acks s.started ++ _
      rw [hread, h.started]
      simp

/-- A frame is started. -/
theorem Resting.provide (h : s.Resting c) (f : Frame) (output : List UInt8)
    (hout : output.take (f.code c).length = f.code c) :
    Stands c { s with
      view := { s.view with
        sequence := f.sequence
        length := (f.code c).length
        data := 0
        credited := false
        stage := .sending }
      source := output
      started := s.started ++ [f] } := by
  refine .sending s.started f ⟨rfl, Or.inl rfl, rfl, rfl, hout, Nat.zero_le _, ?_, ?_⟩
  · show s.written = _ ++ (f.code c).take 0
    rw [h.written, List.take_zero, List.append_nil]
  · exact h.read

theorem Stands.paid (h : s.Stands c) : (wireFormat c).acks s.started.dropLast <+: s.read := by
  cases h with
  | resting h =>
    rw [h.read]
    refine List.IsPrefix.trans ?_ (List.prefix_append _ _)
    obtain ⟨rest, hrest⟩ := s.started.dropLast_prefix
    conv_rhs => rw [← hrest]
    rw [(wireFormat c).acks_append]
    exact List.prefix_append _ _
  | sending front f h =>
    rw [h.read, h.started, List.dropLast_concat]
    refine List.IsPrefix.trans ?_ (List.prefix_append _ _)
    split
    · rw [(wireFormat c).acks_append]
      exact List.prefix_append _ _
    · exact List.prefix_rfl

end Strand

namespace Outlet

variable {α : Type}

def strand (o : Outlet α) : Strand where
  view := o.side.view
  source := o.side.buffers.data
  credit := o.side.buffers.creditReceive
  started := o.started
  written := o.written
  read := o.read

/-- A side that goes on. -/
structure Going [Target] (c : Contract) (o : Outlet α) : Prop where
  ready : o.side.Ready c .exporting
  stands : o.strand.Stands c

/-- A side whose machine is closed: what left, and may still leave, are its frames. -/
structure Ended [Target] (c : Contract) (o : Outlet α) : Prop where
  halted : o.side.Halted
  written : o.written ++ o.side.owed .data <+: (wireFormat c).codes o.started
  paid : (wireFormat c).acks o.started.dropLast <+: o.read

structure Inv [Target] (E : WireCodec α) (o : Outlet α) : Prop where
  valid : ∀ f ∈ o.started, f.Short
  ordered : o.started.IsChain (wireFormat E.contract).follows
  carried : List.Forall₂ (Frame.Carries E) o.started o.provided
  state : o.Going E.contract ∨ o.Ended E.contract

section

variable [Target] {c : Contract} {E : WireCodec α} {o : Outlet α}

/-- The data lane sends the rest of the frame. -/
theorem Going.request (h : o.Going c) {op : OpId} {e : Effect}
    (ha : o.side.protocol.active.data = some (op, e)) :
    o.side.view.stage = .sending ∧ o.side.protocol.offsets.data ≤ o.side.protocol.length ∧
      e = .transmit .data o.side.protocol.offsets.data
        (o.side.protocol.length - o.side.protocol.offsets.data) := by
  have hst := h.ready.framed.data.stage
  rw [h.ready.direction_eq] at hst
  rcases Protocol.offer_data_request (h.ready.framed.data.active op e ha)
      (h.ready.safe.request .data op e ha) with ⟨hs, hoff, rfl⟩ | ⟨hs, -⟩ | ⟨hs, -⟩
  · exact ⟨hs, hoff, rfl⟩
  · simp [Protocol.StageOf, hs] at hst
  · simp [Protocol.StageOf, hs] at hst

theorem Going.written (h : o.Going c) :
    o.written ++ o.side.owed .data <+: (wireFormat c).codes o.started := by
  have hfree : o.written <+: (wireFormat c).codes o.started := by
    cases h.stands with
    | resting hs => exact hs.written ▸ List.prefix_rfl
    | sending front f hs =>
      have hwritten : o.written = _ := hs.written
      have hstarted : o.started = _ := hs.started
      rw [hwritten, hstarted, (wireFormat c).codes_concat, List.prefix_append_right_inj]
      exact List.take_prefix _ _
  cases ha : o.side.protocol.active.data with
  | none =>
    have howed : o.side.owed .data = [] := Side.owed_of_free ha
    rw [howed, List.append_nil]
    exact hfree
  | some a =>
    obtain ⟨op, e⟩ := a
    obtain ⟨hstage, hle, rfl⟩ := h.request ha
    have howed : o.side.owed .data =
        Bytes.slice o.side.buffers.data o.side.view.data o.side.view.length := by
      simp only [Side.owed, PerLane.get_data, ha]
      rw [Nat.add_sub_cancel' hle]
      rfl
    cases h.stands with
    | resting hs =>
      rw [show o.side.view.stage = .source from hs.stage] at hstage
      cases hstage
    | sending front f hs =>
      have hwritten : o.written = _ := hs.written
      have hstarted : o.started = _ := hs.started
      have hsource : o.side.buffers.data.take o.side.view.length = f.code c := hs.source
      have hlength : o.side.view.length = (f.code c).length := hs.length
      have hsent : o.side.view.data ≤ o.side.view.length := hs.sent
      have hdata : o.strand.view.data = o.side.view.data := rfl
      rw [howed, hwritten, hstarted, (wireFormat c).codes_concat, List.append_assoc, hdata,
        ← Bytes.slice_take (le_refl _), hsource, Bytes.take_append_slice hsent, hlength,
        List.take_length]
      exact List.prefix_rfl

theorem Inv.written (h : o.Inv E) :
    o.written ++ o.side.owed .data <+: (wireFormat E.contract).codes o.started :=
  h.state.elim Going.written Ended.written

theorem Inv.paid (h : o.Inv E) : (wireFormat E.contract).acks o.started.dropLast <+: o.read :=
  h.state.elim (fun hgoing => hgoing.stands.paid) Ended.paid

theorem Inv.safe (h : o.Inv E) : o.side.protocol.Safe :=
  h.state.elim (fun hgoing => hgoing.ready.safe) fun hended => hended.halted.safe

theorem Inv.closed_ne (h : o.Inv E) : o.side.protocol.closed ≠ some .protocol := by
  rcases h.state with hgoing | hended
  · rw [hgoing.ready.isOpen]
    simp
  · exact hended.halted.closed_ne

/-- The machine is closed, or has handed back more of its operations. -/
theorem Inv.ends (h : o.Inv E) {side : Side} (hhalted : side.Halted)
    (howes : o.side.OwesLess side) : Inv E { o with side := side } :=
  ⟨h.valid, h.ordered, h.carried, Or.inr ⟨hhalted, howes.prefix_of h.written, h.paid⟩⟩

/-- A report, once the strand for the new view is known. -/
theorem Inv.after (h : o.Inv E) {side : Side} {v : View}
    (hs : Side.After E.contract .exporting o.side side v)
    (hstands : Strand.Stands E.contract { o.strand with view := v }) :
    Inv E { o with side := side } := by
  refine ⟨h.valid, h.ordered, h.carried, Or.inl ⟨hs.ready, ?_⟩⟩
  have heq : strand { o with side := side } = { o.strand with view := v } := by
    simp only [strand, hs.view, hs.buffers]
  rw [heq]
  exact hstands

/-! ## One event -/

theorem Inv.accept (h : o.Inv E) (lane : Lane) (op : OpId) :
    ∃ side, o.side.accept lane op = .ok side ∧ Inv E { o with side := side } := by
  rcases h.state with hgoing | hended
  · obtain ⟨side, hs, hready, hview, hdata, hcredit, -⟩ := Side.accept_spec hgoing.ready lane op
    refine ⟨side, hs, h.valid, h.ordered, h.carried, Or.inl ⟨hready, ?_⟩⟩
    have heq : strand { o with side := side } = o.strand := by
      simp only [strand, hview, hdata, hcredit]
    rw [heq]
    exact hgoing.stands
  · exact ⟨o.side, hended.halted.accept lane op, h⟩

theorem Inv.complete (h : o.Inv E) (hproper : o.read <+: (wireFormat E.contract).acks o.started)
    (op : OpId) : ∃ side, o.side.complete op = .ok side ∧ Inv E { o with side := side } := by
  rcases h.state with hgoing | hended
  swap
  · obtain ⟨side, hs, -, howes, hhalted⟩ := hended.halted.complete op
    exact ⟨side, hs, h.ends hhalted howes⟩
  have hready := hgoing.ready
  have hsame : ∀ side, Side.After E.contract .exporting o.side side o.side.view →
      Inv E { o with side := side } :=
    fun side hs => h.after hs hgoing.stands
  cases hl : o.side.protocol.laneOf op with
  | none =>
    obtain ⟨side, hs, ha⟩ := Side.complete_unknown hready hl
    exact ⟨side, hs, hsame side ha⟩
  | some lane =>
    by_cases hm : o.side.moved.get lane = 0
    · obtain ⟨side, hs, ha⟩ := Side.complete_retry hready hl hm
      exact ⟨side, hs, hsame side ha⟩
    · cases lane with
      | data =>
        obtain ⟨hst, side, hs, ha⟩ := Side.complete_exporter_data hready hl hm
        refine ⟨side, hs, ?_⟩
        by_cases hfull : o.side.view.data = o.side.view.length
        · rw [if_pos hfull] at ha
          exact h.after ha (hgoing.stands.sent hst hfull)
        · rw [if_neg hfull] at ha
          exact hsame side ha
      | creditSend =>
        -- an exporter never has a credit transmission
        obtain ⟨id, e, ha, -⟩ := hready.request_of_moved _ hm
        have hreq := Protocol.offer_creditSend_request (hready.framed.send.active id e ha)
        simp [hready.direction_eq] at hreq
      | creditReceive =>
        by_cases hfull : o.side.view.creditReceive = creditBytes
        · have hlen : o.side.buffers.creditReceive.length = creditBytes :=
            hready.buffer .creditReceive
          obtain ⟨front, f, hsending, hcredited, hcredit⟩ :=
            hgoing.stands.due hproper hlen hfull
          have hstage : o.side.view.stage = .sending ∨ o.side.view.stage = .credit :=
            hsending.stage.imp_right And.left
          have hsequence : o.side.view.sequence = f.sequence := hsending.sequence
          obtain ⟨side, hs, ha⟩ := Side.complete_exporter_credit hready hl hm hfull hcredited
            hstage (by rw [hsequence]; exact hcredit)
          exact ⟨side, hs, h.after ha (hsending.credited hcredited hfull hlen hcredit)⟩
        · obtain ⟨side, hs, ha⟩ := Side.complete_exporter_partial hready hl hm hfull
          exact ⟨side, hs, hsame side ha⟩

theorem Inv.transmit (h : o.Inv E) (count : Nat) :
    Inv E { o with
      side := (o.side.transmit .data count).2
      written := o.written ++ (o.side.transmit .data count).1 } := by
  rcases h.state with hgoing | hended
  · obtain ⟨n, hx, hready, hn⟩ := Side.transmit_spec hgoing.ready .data (by decide) count
    have hstands := hgoing.stands.transmit n ?_
    · rw [hx]
      refine ⟨h.valid, h.ordered, h.carried, Or.inl ⟨hready, ?_⟩⟩
      simp only [strand, Side.view_shift_data]
      exact hstands
    · intro hz
      obtain ⟨hact, hle⟩ := hn hz
      obtain ⟨⟨op, e⟩, ha⟩ := Option.ne_none_iff_exists'.mp hact
      obtain ⟨hstage, hoff, rfl⟩ := hgoing.request ha
      refine ⟨hstage, ?_⟩
      simp only [Side.room, ha, Effect.requested, PerLane.get_data] at hle
      change o.side.protocol.offsets.data + o.side.moved.data + n ≤ o.side.protocol.length
      omega
  · refine ⟨h.valid, h.ordered, h.carried, Or.inr ⟨?_, ?_, hended.paid⟩⟩
    · exact hended.halted.of_protocol (Side.transmit_protocol _ _ _)
    · show (o.written ++ _) ++ _ <+: _
      rw [List.append_assoc, Side.transmit_owed]
      exact hended.written

theorem Inv.receive (h : o.Inv E) (bytes : List UInt8) :
    Inv E { o with
      side := (o.side.receive .creditReceive bytes.length bytes).2
      read := o.read ++ bytes.take
        (bytes.length - (o.side.receive .creditReceive bytes.length bytes).1.length) } := by
  rcases h.state with hgoing | hended
  · obtain ⟨n, credit, hx, hlen, hcredit, hready, -⟩ :=
      Side.receive_spec hgoing.ready .creditReceive (by decide) (fun hd => by cases hd)
        bytes.length bytes
    have hstands := hgoing.stands.receive n credit (bytes.take n) hcredit
    have htaken : bytes.length - (bytes.drop n).length = n := by
      rw [List.length_drop]
      omega
    rw [hx]
    refine ⟨h.valid, h.ordered, h.carried, Or.inl ⟨hready, ?_⟩⟩
    have hview : ((o.side.shift .creditReceive n).store .creditReceive credit).view =
        { o.side.view with creditReceive := o.side.view.creditReceive + n } :=
      Side.view_shift_creditReceive o.side n
    simp only [strand, hview, htaken]
    exact hstands
  · refine ⟨h.valid, h.ordered, h.carried, Or.inr ⟨?_, ?_, ?_⟩⟩
    · exact hended.halted.of_protocol (Side.receive_protocol _ _ _ _)
    · show o.written ++ _ <+: _
      rw [Side.receive_owed _ (by decide)]
      exact hended.written
    · exact hended.paid.trans (List.prefix_append _ _)

/-- An item that may follow the last one provided may follow the last frame. -/
theorem Inv.follows (h : o.Inv E) {sequence : UInt64}
    (hfollows : o.provided.getLast?.all
      (fun x => E.contract.delivery.follows x.1 sequence) = true) :
    ∀ last ∈ o.started.getLast?, E.contract.delivery.follows last.sequence sequence = true := by
  intro last hlast
  have hsequences := congrArg List.getLast? (Frame.Carries.ordered h.carried)
  rw [Option.mem_def] at hlast
  rw [List.getLast?_map, List.getLast?_map, hlast] at hsequences
  obtain ⟨item, hitem, heq⟩ := Option.map_eq_some_iff.mp hsequences.symm
  rw [hitem] at hfollows
  rw [← heq]
  simpa using hfollows

theorem Inv.provide (h : o.Inv E) (sequence : UInt64) (payload : α) :
    ∃ o', o.provide E sequence payload = .ok o' ∧ o'.Inv E ∧ o'.written = o.written ∧
      o'.read = o.read := by
  unfold Outlet.provide
  rcases h.state with hgoing | hended
  · have hready := hgoing.ready
    obtain ⟨e, he, -⟩ := Protocol.effect_spec hready.safe .data
    rw [he, ok_bind]
    split
    · split
      · rename_i hfollows
        split
        · exact ⟨o, rfl, h, rfl, rfl⟩
        · rename_i total output hencode
          obtain ⟨hshort, hcarries, htake, htotal, hfit, hlen⟩ := encodeFrame_carries hencode
          have hstage : o.side.view.stage = .source := Protocol.provide_stage he
          have hcap : total ≤ o.side.protocol.capacity := by
            have hb : o.side.buffers.data.length = o.side.protocol.capacity :=
              hready.buffer .data
            omega
          have hge : headerBytes ≤ total := by
            rw [htotal, Frame.length_code]
            exact Nat.le_add_right _ _
          obtain ⟨q, hin, -, hready', hview⟩ :=
            Side.provide_spec hready sequence hstage hge hcap hlen
          dsimp only
          rw [hin, ok_bind]
          refine ⟨_, rfl, ⟨?_, ?_, ?_, Or.inl ⟨hready', ?_⟩⟩, rfl, rfl⟩
          · intro f hf
            rcases List.mem_append.mp hf with hf | hf
            · exact h.valid f hf
            · rw [List.mem_singleton.mp hf]
              exact hshort
          · refine h.ordered.append (List.IsChain.singleton _) ?_
            intro last hlast f hf
            cases hf
            exact h.follows hfollows last hlast
          · exact List.rel_append h.carried (.cons hcarries .nil)
          · cases hgoing.stands with
            | resting hs =>
              have hp := hs.provide ⟨sequence, E.contract.revision,
                Bytes.slice output headerBytes total⟩ output (by rw [← htotal]; exact htake)
              rw [← htotal] at hp
              simp only [strand, hview]
              exact hp
            | sending front f hs =>
              rcases hs.stage with hs | ⟨hs, -⟩
              · cases hstage.symm.trans hs
              · cases hstage.symm.trans hs
      · exact ⟨o, rfl, h, rfl, rfl⟩
    · exact ⟨o, rfl, h, rfl, rfl⟩
  · obtain ⟨e, he, hcancel⟩ := hended.halted.effect .data
    rw [he, ok_bind]
    split
    · obtain ⟨l, id, heq⟩ := hcancel _ rfl
      cases heq
    · exact ⟨o, rfl, h, rfl, rfl⟩

theorem Inv.step (h : o.Inv E) (event : Outgoing α) :
    ∃ o', o.step E event = .ok o' ∧ (o'.read <+: (wireFormat E.contract).acks o.started →
      o'.Inv E ∧ o.written <+: o'.written) := by
  cases event with
  | accept lane op =>
    obtain ⟨side, hs, h'⟩ := h.accept lane op
    exact ⟨_, by simp only [Outlet.step, hs, ok_bind, pure_eq], fun _ => ⟨h', List.prefix_rfl⟩⟩
  | complete op =>
    by_cases hproper : o.read <+: (wireFormat E.contract).acks o.started
    · obtain ⟨side, hs, h'⟩ := h.complete hproper op
      exact ⟨_, by simp only [Outlet.step, hs, ok_bind, pure_eq],
        fun _ => ⟨h', List.prefix_rfl⟩⟩
    · obtain ⟨side, hs⟩ := Side.complete_total h.safe op
      exact ⟨{ o with side := side }, by simp only [Outlet.step, hs, ok_bind, pure_eq],
        fun hread => absurd hread hproper⟩
  | fail op code =>
    obtain ⟨side, hs, -, howes, hside⟩ := Side.fail_spec h.safe h.closed_ne op code
    refine ⟨{ o with side := side }, by simp only [Outlet.step, hs, ok_bind, pure_eq],
      fun _ => ⟨?_, List.prefix_rfl⟩⟩
    rcases hside with rfl | hhalted
    · exact h
    · exact h.ends hhalted howes
  | transmit count => exact ⟨_, rfl, fun _ => ⟨h.transmit count, List.prefix_append _ _⟩⟩
  | receive bytes => exact ⟨_, rfl, fun _ => ⟨h.receive bytes, List.prefix_rfl⟩⟩
  | provide sequence payload =>
    obtain ⟨o', ho, h', hwritten, -⟩ := h.provide sequence payload
    exact ⟨o', ho, fun _ => ⟨h', hwritten ▸ List.prefix_rfl⟩⟩
  | stop error =>
    unfold Outlet.step
    dsimp only
    split
    · exact ⟨o, rfl, fun _ => ⟨h, List.prefix_rfl⟩⟩
    · rename_i hne
      obtain ⟨side, hs, -, howes, hhalted⟩ := Side.stop_spec h.safe h.closed_ne hne
      rw [hs, ok_bind]
      exact ⟨_, rfl, fun _ => ⟨h.ends hhalted howes, List.prefix_rfl⟩⟩

variable (E) in
/-- An exporting machine is a sender that keeps to the format. -/
theorem sender_keeps : (sender E).Keeps (wireFormat E.contract) (Inv E) where
  valid _ h := h.valid
  ordered _ h := h.ordered
  written _ h := (List.prefix_append _ _).trans h.written
  paid _ h := h.paid
  step _ event h := h.step event

theorem start_inv {capacity : Nat} (hword : capacity ≤ usizeMax) {protocol : Protocol}
    (hp : Protocol.Provisioned E.contract .exporting capacity protocol)
    {storage : PerLane (List UInt8)}
    (hs : ∀ lane, (storage.get lane).length = lane.bufferCapacity capacity) :
    (start protocol storage : Outlet α).Inv E := by
  have hf := Protocol.provisioned_fresh hp
  refine ⟨by simp [start], List.IsChain.nil, List.Forall₂.nil,
    Or.inl ⟨Duplex.ready_of_provisioned hword hp hs, .resting ⟨hf.exporting rfl, rfl, ?_⟩⟩⟩
  simp [strand, start, Side.view, Side.position, hf.offsets, PerLane.fill]

end

end Outlet

end Hiway.Transport
