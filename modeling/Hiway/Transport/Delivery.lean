import Hiway.Transport.Wire

/-!
# Delivery over a connection

Every interleaving of the events of two machines keeps both open and the wire in one
of its phases. So the importer admits exactly the frames that the exporter was given,
in order, and the exporter asks for the next one only after that.

* `Connected.step`, `Connected.run`: every event of either machine keeps them connected.
* `run_delivers`: neither machine closes, the importer has admitted the frames of the
  exporter in order, and at most one more is under way.
-/

namespace Hiway.Transport

open Exec Target

namespace Duplex

variable {α : Type}

def wire (d : Duplex) : Wire where
  exporter := d.exporter.view
  importer := d.importer.view
  source := d.exporter.buffers.data
  target := d.importer.buffers.data
  credit := d.exporter.buffers.creditReceive
  data := d.data
  credits := d.credits
  provided := d.provided
  admitted := d.admitted

/-- The invariant of a connection whose parties follow their machines. -/
structure Connected [Target] (c : Contract) (d : Duplex) : Prop where
  exporter : d.exporter.Ready c .exporting
  importer : d.importer.Ready c .importing
  phase : d.wire.Phase c d.importer.protocol.capacity

section

variable [Target] {c : Contract} {d : Duplex}

/-! ## One event -/

theorem Connected.accept_exporter (h : d.Connected c) (lane : Lane) (op : OpId) :
    ∃ s, d.exporter.accept lane op = .ok s ∧ Connected c { d with exporter := s } := by
  obtain ⟨s, hs, hready, hview, hdata, hcredit, -⟩ := Side.accept_spec h.exporter lane op
  refine ⟨s, hs, hready, h.importer, ?_⟩
  have hw : wire { d with exporter := s } = d.wire := by
    simp only [wire, hview, hdata, hcredit]
  rw [hw]
  exact h.phase

theorem Connected.accept_importer (h : d.Connected c) (lane : Lane) (op : OpId) :
    ∃ s, d.importer.accept lane op = .ok s ∧ Connected c { d with importer := s } := by
  obtain ⟨s, hs, hready, hview, hdata, -, hcap⟩ := Side.accept_spec h.importer lane op
  refine ⟨s, hs, h.exporter, hready, ?_⟩
  have hw : wire { d with importer := s } = d.wire := by
    simp only [wire, hview, hdata]
  rw [hw, hcap]
  exact h.phase

/-- An exporter's report, once the phase for its new view is known. -/
theorem Connected.exporter_after (h : d.Connected c) {s : Side} {v : View}
    (hs : Side.After c .exporting d.exporter s v)
    (hp : Wire.Phase c d.importer.protocol.capacity { d.wire with exporter := v }) :
    Connected c { d with exporter := s } := by
  refine ⟨hs.ready, h.importer, ?_⟩
  have hw : wire { d with exporter := s } = { d.wire with exporter := v } := by
    simp only [wire, hs.view, hs.buffers]
  rw [hw]
  exact hp

theorem Connected.importer_after (h : d.Connected c) {s : Side} {v : View}
    (hs : Side.After c .importing d.importer s v)
    (hp : Wire.Phase c d.importer.protocol.capacity { d.wire with importer := v }) :
    Connected c { d with importer := s } := by
  refine ⟨h.exporter, hs.ready, ?_⟩
  have hw : wire { d with importer := s } = { d.wire with importer := v } := by
    simp only [wire, hs.view, hs.buffers]
  rw [hw, hs.capacity]
  exact hp

theorem Connected.complete_exporter (h : d.Connected c) (op : OpId) :
    ∃ s, d.exporter.complete op = .ok s ∧ Connected c { d with exporter := s } := by
  have hsame : ∀ s, Side.After c .exporting d.exporter s d.exporter.view →
      Connected c { d with exporter := s } :=
    fun s hs => h.exporter_after hs h.phase
  cases hl : d.exporter.protocol.laneOf op with
  | none =>
    obtain ⟨s, hs, ha⟩ := Side.complete_unknown h.exporter hl
    exact ⟨s, hs, hsame s ha⟩
  | some lane =>
    by_cases hm : d.exporter.moved.get lane = 0
    · obtain ⟨s, hs, ha⟩ := Side.complete_retry h.exporter hl hm
      exact ⟨s, hs, hsame s ha⟩
    · cases lane with
      | data =>
        obtain ⟨hst, s, hs, ha⟩ := Side.complete_exporter_data h.exporter hl hm
        refine ⟨s, hs, ?_⟩
        by_cases hfull : d.exporter.view.data = d.exporter.view.length
        · rw [if_pos hfull] at ha
          exact h.exporter_after ha (h.phase.sent hst hfull)
        · rw [if_neg hfull] at ha
          exact hsame s ha
      | creditSend =>
        -- an exporter never has a credit transmission
        obtain ⟨id, e, ha, -⟩ := h.exporter.request_of_moved _ hm
        have hreq := Protocol.offer_creditSend_request (h.exporter.framed.send.active id e ha)
        simp [h.exporter.direction_eq] at hreq
      | creditReceive =>
        by_cases hfull : d.exporter.view.creditReceive = creditBytes
        · have hpos : d.wire.exporter.creditReceive ≠ 0 := by
            change d.exporter.view.creditReceive ≠ 0
            rw [hfull]
            decide
          obtain ⟨f, hret, hdue⟩ := h.phase.due hpos
          have hcredit : d.exporter.buffers.creditReceive =
              1 :: Bytes.toLe 8 d.exporter.view.sequence.toNat := by
            have hb : d.exporter.buffers.creditReceive.length = creditBytes :=
              h.exporter.buffer .creditReceive
            have ht := hdue.credit
            change d.exporter.buffers.creditReceive.take d.exporter.view.creditReceive = _ at ht
            rw [show d.wire.exporter.creditReceive = creditBytes from hfull, hfull,
              List.take_of_length_le (le_of_eq hb),
              List.take_of_length_le (length_creditOf _).le] at ht
            rw [ht, ← hret.sequence]
            rfl
          obtain ⟨s, hs, ha⟩ := Side.complete_exporter_credit h.exporter hl hm hfull
            hdue.credited hret.stage hcredit
          exact ⟨s, hs, h.exporter_after ha (hret.credited hdue hfull)⟩
        · obtain ⟨s, hs, ha⟩ := Side.complete_exporter_partial h.exporter hl hm hfull
          exact ⟨s, hs, hsame s ha⟩

theorem Connected.complete_importer (h : d.Connected c) (op : OpId) :
    ∃ s, d.importer.complete op = .ok s ∧ Connected c { d with importer := s } := by
  have hsame : ∀ s, Side.After c .importing d.importer s d.importer.view →
      Connected c { d with importer := s } :=
    fun s hs => h.importer_after hs h.phase
  cases hl : d.importer.protocol.laneOf op with
  | none =>
    obtain ⟨s, hs, ha⟩ := Side.complete_unknown h.importer hl
    exact ⟨s, hs, hsame s ha⟩
  | some lane =>
    by_cases hm : d.importer.moved.get lane = 0
    · obtain ⟨s, hs, ha⟩ := Side.complete_retry h.importer hl hm
      exact ⟨s, hs, hsame s ha⟩
    · cases lane with
      | creditReceive => exact absurd (h.importer.silent rfl) hm
      | creditSend =>
        obtain ⟨hcr, s, hs, ha⟩ := Side.complete_importer_credit h.importer hl hm
        refine ⟨s, hs, ?_⟩
        by_cases hfull : d.importer.view.creditSend = creditBytes
        · rw [if_pos hfull] at ha
          exact h.importer_after ha (h.phase.creditSent hcr hfull)
        · rw [if_neg hfull] at ha
          exact hsame s ha
      | data =>
        have hpos : d.wire.importer.data ≠ 0 := by
          change d.importer.protocol.offsets.data + d.importer.moved.data ≠ 0
          have : d.importer.moved.data ≠ 0 := hm
          omega
        obtain ⟨f, hflight⟩ := h.phase.inFlight hpos
        rcases Side.importer_data_stage h.importer hm with hst | hst
        · by_cases hlong : headerBytes ≤ d.importer.view.data
          · have hle : d.importer.view.data ≤ headerBytes + f.payload.length := by
              rw [← hflight.length]
              exact hflight.got.trans hflight.sent
            obtain ⟨s, hs, ha⟩ := Side.complete_importer_header h.importer hl hm hst hlong
              (hflight.take_header hlong) hflight.short hflight.fits hle hflight.follows
            exact ⟨s, hs, h.importer_after ha hflight.header⟩
          · obtain ⟨s, hs, ha⟩ := Side.complete_importer_short h.importer hl hm hst (by omega)
            exact ⟨s, hs, hsame s ha⟩
        · obtain ⟨s, hs, ha⟩ := Side.complete_importer_payload h.importer hl hm hst
          exact ⟨s, hs, h.importer_after ha (hflight.payload hst)⟩

theorem Connected.sendData (h : d.Connected c) (count : Nat) :
    Connected c { d with
      exporter := (d.exporter.transmit .data count).2
      data := d.data ++ (d.exporter.transmit .data count).1 } := by
  obtain ⟨n, hx, hready, hn⟩ := Side.transmit_spec h.exporter .data (by decide) count
  have hp := h.phase.sendData n ?_
  · rw [hx]
    refine ⟨hready, h.importer, ?_⟩
    simp only [wire, Side.view_shift_data]
    exact hp
  · intro hz
    obtain ⟨hact, hle⟩ := hn hz
    obtain ⟨id, e, ha⟩ : ∃ id e, d.exporter.protocol.active.data = some (id, e) := by
      cases ha : d.exporter.protocol.active.data with
      | none => exact absurd ha hact
      | some a => exact ⟨a.1, a.2, rfl⟩
    have hst := h.exporter.framed.data.stage
    rw [h.exporter.direction_eq] at hst
    rcases Protocol.offer_data_request (h.exporter.framed.data.active id e ha)
        (h.exporter.safe.request .data id e ha) with ⟨hs, hoff, rfl⟩ | ⟨hs, -⟩ | ⟨hs, -⟩
    · refine ⟨hs, ?_⟩
      simp only [Side.room, PerLane.get_data, ha, Effect.requested] at hle
      change d.exporter.protocol.offsets.data + d.exporter.moved.data + n ≤
        d.exporter.protocol.length
      omega
    · simp [Protocol.StageOf, hs] at hst
    · simp [Protocol.StageOf, hs] at hst

theorem Connected.receiveData (h : d.Connected c) (count : Nat) :
    Connected c { d with
      importer := (d.importer.receive .data count d.data).2
      data := (d.importer.receive .data count d.data).1 } := by
  obtain ⟨n, bytes, hx, hlen, hbytes, hready, hn⟩ :=
    Side.receive_spec h.importer .data (by decide) (fun _ => by decide) count d.data
  have hp := h.phase.receiveData n bytes hlen hbytes ?_
  · rw [hx]
    refine ⟨h.exporter, hready, ?_⟩
    have hview : ((d.importer.shift .data n).store .data bytes).view =
        { d.importer.view with data := d.importer.view.data + n } :=
      Side.view_shift_data d.importer n
    simp only [wire, hview]
    exact hp
  · intro hz
    obtain ⟨hact, hle⟩ := hn hz
    obtain ⟨id, e, ha⟩ : ∃ id e, d.importer.protocol.active.data = some (id, e) := by
      cases ha : d.importer.protocol.active.data with
      | none => exact absurd ha hact
      | some a => exact ⟨a.1, a.2, rfl⟩
    have hst := h.importer.framed.data.stage
    rw [h.importer.direction_eq] at hst
    rcases Protocol.offer_data_request (h.importer.framed.data.active id e ha)
        (h.importer.safe.request .data id e ha) with ⟨hs, -⟩ | ⟨hs, -⟩ | ⟨hs, -⟩
    · simp [Protocol.StageOf, hs] at hst
    · exact Or.inl hs
    · exact Or.inr hs

theorem Connected.sendCredit (h : d.Connected c) (count : Nat) :
    Connected c { d with
      importer := (d.importer.transmit .creditSend count).2
      credits := d.credits ++ (d.importer.transmit .creditSend count).1 } := by
  obtain ⟨n, hx, hready, hn⟩ :=
    Side.transmit_spec h.importer .creditSend (by decide) count
  have hp := h.phase.sendCredit n d.importer.buffers.creditSend ?_
  · rw [hx]
    refine ⟨h.exporter, hready, ?_⟩
    simp only [wire, Side.view_shift_creditSend]
    exact hp
  · intro hz
    obtain ⟨hact, hle⟩ := hn hz
    obtain ⟨id, e, ha⟩ : ∃ id e, d.importer.protocol.active.creditSend = some (id, e) := by
      cases ha : d.importer.protocol.active.creditSend with
      | none => exact absurd ha hact
      | some a => exact ⟨a.1, a.2, rfl⟩
    obtain ⟨-, hcr, hoff, rfl⟩ :=
      Protocol.offer_creditSend_request (h.importer.framed.send.active id e ha)
    refine ⟨hcr, ?_, h.importer.written rfl hcr (Or.inl hact)⟩
    simp only [Side.room, PerLane.get_creditSend, ha, Effect.requested] at hle
    change d.importer.protocol.offsets.creditSend + d.importer.moved.creditSend + n ≤ creditBytes
    omega

theorem Connected.receiveCredit (h : d.Connected c) (count : Nat) :
    Connected c { d with
      exporter := (d.exporter.receive .creditReceive count d.credits).2
      credits := (d.exporter.receive .creditReceive count d.credits).1 } := by
  obtain ⟨n, bytes, hx, hlen, hbytes, hready, hn⟩ :=
    Side.receive_spec h.exporter .creditReceive (by decide) nofun count d.credits
  have hp := h.phase.receiveCredit n bytes hlen hbytes
  rw [hx]
  refine ⟨hready, h.importer, ?_⟩
  have hview : ((d.exporter.shift .creditReceive n).store .creditReceive bytes).view =
      { d.exporter.view with creditReceive := d.exporter.view.creditReceive + n } :=
    Side.view_shift_creditReceive d.exporter n
  simp only [wire, hview]
  exact hp

theorem Connected.provide {E : WireCodec α} {d : Duplex} (h : d.Connected E.contract)
    (sequence : UInt64) (payload : α) :
    ∃ d', d.provide E sequence payload = .ok d' ∧ d'.Connected E.contract ∧
      d'.importer = d.importer := by
  obtain ⟨e, he, -⟩ := Protocol.effect_spec h.exporter.safe .data
  unfold Duplex.provide
  rw [he, ok_bind]
  split
  · dsimp only
    split
    · exact ⟨d, rfl, h, rfl⟩
    · rename_i total output hencode
      by_cases hg : total ≤ d.importer.protocol.capacity ∧
          d.provided.getLast?.all
            (fun f => E.contract.delivery.follows f.sequence sequence) = true
      · rw [if_pos hg]
        obtain ⟨body, htake, htotal, -, hshort, hfit, hlen⟩ := encodeFrame_ok hencode
        have hstage : d.exporter.view.stage = .source := Protocol.provide_stage he
        have hcap : total ≤ d.exporter.protocol.capacity := by
          have hb : d.exporter.buffers.data.length = d.exporter.protocol.capacity :=
            h.exporter.buffer .data
          omega
        obtain ⟨q, hin, -, hready, hview⟩ :=
          Side.provide_spec h.exporter sequence hstage (by omega) hcap hlen
        have hbody : Bytes.slice output headerBytes total = body := by
          rw [← Bytes.slice_take (le_refl total), htake, Bytes.slice_append_right (by simp),
            length_header]
          exact Bytes.slice_self (by omega)
        rw [hin, ok_bind, hbody]
        refine ⟨_, rfl, ⟨hready, h.importer, ?_⟩, rfl⟩
        have hp := h.phase.provide hstage ⟨sequence, E.contract.revision, body⟩ output hg.2 rfl
          hshort (by dsimp only; omega) (by rw [← htotal]; exact htake)
        simp only [wire, hview]
        rw [htotal]
        exact hp
      · rw [if_neg hg]
        exact ⟨d, rfl, h, rfl⟩
  · exact ⟨d, rfl, h, rfl⟩

theorem Connected.admission (h : d.Connected c) : ∃ d', d.admitFrame = .ok d' ∧ d'.Connected c := by
  obtain ⟨e, he, -⟩ := Protocol.effect_spec h.importer.safe .data
  unfold Duplex.admitFrame
  rw [he, ok_bind]
  split
  · obtain ⟨hst, hcr, hle, rfl, rfl⟩ := Protocol.admission_stage he
    obtain ⟨q, hin, hafter⟩ := Side.admission_spec h.importer hst hcr
    rw [hin, ok_bind]
    refine ⟨_, rfl, h.exporter, hafter.ready, ?_⟩
    have hp := h.phase.admission hst
    have hsum : headerBytes + (d.importer.protocol.length - headerBytes) =
        d.importer.view.length := by
      change _ = d.importer.protocol.length
      omega
    have hcap : q.capacity = d.importer.protocol.capacity := hafter.capacity
    simp only [wire, hafter.view, hsum, hcap]
    exact hp
  · exact ⟨d, rfl, h⟩

/-! ## Whole runs -/

theorem Connected.step {E : WireCodec α} {d : Duplex} (h : d.Connected E.contract)
    (a : Action α) : ∃ d', d.step E a = .ok d' ∧ d'.Connected E.contract := by
  cases a with
  | accept side lane op =>
    cases side with
    | exporting =>
      obtain ⟨s, hs, h'⟩ := h.accept_exporter lane op
      exact ⟨_, by simp only [Duplex.step, hs, ok_bind, pure_eq], h'⟩
    | importing =>
      obtain ⟨s, hs, h'⟩ := h.accept_importer lane op
      exact ⟨_, by simp only [Duplex.step, hs, ok_bind, pure_eq], h'⟩
  | complete side op =>
    cases side with
    | exporting =>
      obtain ⟨s, hs, h'⟩ := h.complete_exporter op
      exact ⟨_, by simp only [Duplex.step, hs, ok_bind, pure_eq], h'⟩
    | importing =>
      obtain ⟨s, hs, h'⟩ := h.complete_importer op
      exact ⟨_, by simp only [Duplex.step, hs, ok_bind, pure_eq], h'⟩
  | sendData count => exact ⟨_, rfl, h.sendData count⟩
  | receiveData count => exact ⟨_, rfl, h.receiveData count⟩
  | sendCredit count => exact ⟨_, rfl, h.sendCredit count⟩
  | receiveCredit count => exact ⟨_, rfl, h.receiveCredit count⟩
  | provide sequence payload =>
    obtain ⟨d', hd, h', -⟩ := h.provide sequence payload
    exact ⟨d', hd, h'⟩
  | admission => exact h.admission

theorem Connected.run {E : WireCodec α} {d : Duplex} (h : d.Connected E.contract)
    (actions : List (Action α)) : ∃ d', d.run E actions = .ok d' ∧ d'.Connected E.contract :=
  steps_invariant (fun _ a hd => Connected.step hd a) h actions

/-- A provisioned machine over storage of the right sizes is ready. -/
theorem ready_of_provisioned {direction : Direction} {capacity : Nat} {p : Protocol}
    (hword : capacity ≤ usizeMax) (hp : Protocol.Provisioned c direction capacity p)
    {buffers : PerLane (List UInt8)}
    (hb : ∀ lane, (buffers.get lane).length = lane.bufferCapacity capacity) :
    Side.Ready c direction ⟨p, buffers, PerLane.fill 0⟩ := by
  obtain ⟨hsafe, hcap⟩ := Protocol.provisioned_safe hword hp
  have hf := Protocol.provisioned_fresh hp
  refine ⟨hf.contract_eq, hf.direction_eq, hsafe, hf.closed, ?_, ?_, ?_, ?_, ?_⟩
  · intro lane other op e e' ha
    simp [hf.active] at ha
  · intro lane
    simp
  · intro lane
    simpa [hcap] using hb lane
  · intro _
    rfl
  · intro _ hc
    simp [hf.credited] at hc

/-- **Delivery.** Whatever the two parties and the channels do, and however far they
have got, neither machine has closed, the admitted frames are a prefix of the provided
ones and at most one short of them, and the exporter asks for a frame only when all
that it was given have been admitted. -/
theorem run_delivers (E : WireCodec α) {capacity room : Nat} (hcapacity : capacity ≤ usizeMax)
    (hroom : room ≤ usizeMax) {exporter importer : Protocol}
    (hx : Protocol.Provisioned E.contract .exporting capacity exporter)
    (hy : Protocol.Provisioned E.contract .importing room importer)
    {source target : PerLane (List UInt8)}
    (hsource : ∀ lane, (source.get lane).length = lane.bufferCapacity capacity)
    (htarget : ∀ lane, (target.get lane).length = lane.bufferCapacity room)
    (actions : List (Action α)) :
    ∃ d, (start exporter importer source target).run E actions = .ok d ∧
      d.exporter.protocol.closed = none ∧ d.importer.protocol.closed = none ∧
      d.admitted <+: d.provided ∧ d.provided.length ≤ d.admitted.length + 1 ∧
      (d.exporter.protocol.effect .data = .ok (some .provide) → d.admitted = d.provided) := by
  have hready := ready_of_provisioned hcapacity hx hsource
  have hready' := ready_of_provisioned hroom hy htarget
  have hfx := Protocol.provisioned_fresh hx
  have hfy := Protocol.provisioned_fresh hy
  have hstart : (start exporter importer source target).Connected E.contract := by
    refine ⟨hready, hready', .idle ⟨hfx.exporting rfl, rfl, hfy.previous, ⟨hfy.importing rfl, ?_, rfl⟩,
      ⟨rfl, ?_, ?_⟩⟩⟩
    · simp [wire, start, Side.view, Side.position, hfy.offsets, PerLane.fill]
    · simp [wire, start, Side.view, Side.position, hfx.offsets, PerLane.fill]
    · simp [Wire.creditSent, wire, start, Side.view, hfy.credited]
  obtain ⟨d, hd, h⟩ := hstart.run actions
  refine ⟨d, hd, h.exporter.isOpen, h.importer.isOpen, ?_⟩
  cases h.phase with
  | idle hp =>
    have hlogs : d.admitted = d.provided := hp.logs
    exact ⟨hlogs ▸ List.prefix_rfl, hlogs ▸ Nat.le_succ _, fun _ => hlogs⟩
  | flight f hp =>
    have hlogs : d.provided = d.admitted ++ [f] := hp.logs
    refine ⟨hlogs ▸ List.prefix_append _ _, by simp [hlogs], fun hask => ?_⟩
    have hst : d.wire.exporter.stage = .source := Protocol.provide_stage hask
    rcases hp.stage with h' | ⟨h', -⟩ <;> rw [hst] at h' <;> cases h'
  | returning f hp =>
    have hlogs : d.admitted = d.provided := hp.logs
    exact ⟨hlogs ▸ List.prefix_rfl, hlogs ▸ Nat.le_succ _, fun _ => hlogs⟩

end

/-- A codec for one-byte payloads. -/
def byteCodec : WireCodec UInt8 where
  contract := ⟨⟨7⟩, 1, 1, .ordered⟩
  encodedLen := fun _ => 1
  encode := fun b body => (.ok 1, body.map fun _ => b)
  encode_length := by simp

/-- A frame whose first bytes have left before the first retry of the importer. -/
theorem run_delivers_partial :
    let _ := Target.x64
    let storage : PerLane (List UInt8) :=
      ⟨List.replicate 64 0, List.replicate 9 0, List.replicate 9 0⟩
    ∃ x y d, Protocol.new byteCodec.contract .exporting 64 = .ok x ∧
      Protocol.new byteCodec.contract .importing 64 = .ok y ∧
      (start x y storage storage).run byteCodec
        [.provide 5 42, .accept .exporting .data ⟨0, 1⟩, .sendData 7,
          .accept .importing .data ⟨0, 1⟩, .complete .importing ⟨0, 1⟩] = .ok d ∧
      d.exporter.protocol.closed = none ∧ d.importer.protocol.closed = none ∧
      d.admitted <+: d.provided ∧ d.provided.length ≤ d.admitted.length + 1 ∧
      (d.exporter.protocol.effect .data = .ok (some .provide) → d.admitted = d.provided) := by
  intro _ storage
  obtain ⟨x, hx⟩ : ∃ x, Protocol.new byteCodec.contract .exporting 64 = .ok x := ⟨_, rfl⟩
  obtain ⟨y, hy⟩ : ∃ y, Protocol.new byteCodec.contract .importing 64 = .ok y := ⟨_, rfl⟩
  have hstorage : ∀ lane, (storage.get lane).length = lane.bufferCapacity 64 := by
    intro lane
    cases lane <;> rfl
  obtain ⟨d, hd⟩ := run_delivers byteCodec (by decide) (by decide) (Or.inl hx) (Or.inl hy)
    hstorage hstorage [.provide 5 42, .accept .exporting .data ⟨0, 1⟩, .sendData 7,
      .accept .importing .data ⟨0, 1⟩, .complete .importing ⟨0, 1⟩]
  exact ⟨x, y, d, hx, hy, hd⟩

end Duplex

end Hiway.Transport
