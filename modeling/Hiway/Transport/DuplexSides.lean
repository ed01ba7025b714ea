import Hiway.Transport.Duplex

/-!
# One side at a time

`Ready` is what every event keeps on a side that has not closed. `View` is the part
of a side that the other one can notice. An acceptance, a retry and a report of a
partial transfer do not change the view; the remaining events change it as stated here.

* `Ready.report`, `Ready.shift`: what every report and every moved byte keeps.
* `complete_partial`: a report that leaves the frame and the credit incomplete changes no
  view.
* `complete_exporter_credit`, `complete_importer_credit`: a complete credit frees the
  exporter, and ends the importer's debt.
* `complete_importer_header`, `complete_importer_payload`: a header that fits and follows is
  accepted, and its payload completes the frame.
* `provide_spec`, `admission_spec`: an exporter is given a frame, and an importer hands one
  out.
-/

namespace Hiway.Transport

open Exec Target

/-- Stage, frame and positions of a side. -/
structure View where
  stage : Stage
  length : Nat
  sequence : UInt64
  previous : Option UInt64
  revision : SchemaRevision
  credited : Bool
  data : Nat
  creditSend : Nat
  creditReceive : Nat
  deriving DecidableEq, Repr

/-- A header of the machine's own contract, for a frame that fits, is accepted. -/
theorem Protocol.parseHeader_header [Target] {p : Protocol} {offset n : Nat} {sequence : UInt64}
    {buffer : List UInt8} (hlen : headerBytes ≤ buffer.length)
    (hbuf : buffer.take headerBytes = header p.contract sequence n) (hu32 : n ≤ u32Max)
    (hword : headerBytes + n ≤ usizeMax) (hcap : headerBytes + n ≤ p.capacity)
    (hle : offset ≤ headerBytes + n)
    (hfollows : ∀ last ∈ p.previous, p.contract.delivery.follows last sequence = true) :
    p.parseHeader offset buffer =
      ({ p.observeSequence sequence with
          revision := p.contract.revision
          sequence := sequence
          length := headerBytes + n
          stage := if offset = headerBytes + n then .admission else .payload }, .ok ()) := by
  have hlength : headerLength (header p.contract sequence n) = n :=
    headerLength_header p.contract sequence hu32 (by omega)
  have hadd : checkedAdd headerBytes n = some (headerBytes + n) :=
    checkedAdd_eq_some.mpr ⟨hword, rfl⟩
  have hprev : p.previous.any (fun last => !p.contract.delivery.follows last sequence) = false := by
    cases hp : p.previous with
    | none => rfl
    | some last => simpa using hfollows last hp
  have hshort : ¬ buffer.length < headerBytes := by omega
  have hlate : ¬ offset > headerBytes + n := by omega
  have hbig : ¬ headerBytes + n > p.capacity := by omega
  simp only [parseHeader, if_neg hshort, hbuf, headerSequence_header, headerRevision_header,
    hlength, hadd, observeSequence_eq, account_contract, headerMatches_header, Bool.true_eq_false,
    if_false, account_capacity, account_previous, hprev, Bool.false_eq_true, if_neg hlate,
    if_neg hbig]

/-- Only an exporter between frames asks for one. -/
theorem Protocol.provide_stage {p : Protocol} (h : p.effect .data = .ok (some .provide)) :
    p.stage = .source := by
  unfold effect at h
  split at h
  · cases hc : p.closed <;> simp [hc] at h
  · split at h
    · cases h
    · cases hs : p.stage <;>
        simp only [offer, hs, PerLane.get_data, Exec.bind_eq_ok, Except.ok.injEq] at h
      case source => rfl
      case admission =>
        split at h
        · cases h
        · obtain ⟨_, -, h⟩ := bind_eq_ok.mp h
          cases h
      case credit => cases h
      all_goals
        obtain ⟨_, -, h⟩ := h
        cases h

/-- Only an importer with a complete frame and no debt offers it. -/
theorem Protocol.admission_stage {p : Protocol} {length : Nat} {revision : SchemaRevision}
    (h : p.effect .data = .ok (some (.admission length revision))) :
    p.stage = .admission ∧ p.credited = false ∧ headerBytes ≤ p.length ∧
      length = p.length - headerBytes ∧ revision = p.revision := by
  unfold effect at h
  split at h
  · cases hc : p.closed <;> simp [hc] at h
  · split at h
    · cases h
    · cases hs : p.stage <;>
        simp only [offer, hs, PerLane.get_data, Exec.bind_eq_ok, Except.ok.injEq] at h
      case admission =>
        split at h
        · cases h
        · rename_i hcr
          obtain ⟨n, hsub, h⟩ := bind_eq_ok.mp h
          obtain ⟨hle, rfl⟩ := sub_eq_ok.mp hsub
          cases h
          exact ⟨rfl, by simpa using hcr, hle, rfl, rfl⟩
      case source | credit => cases h
      all_goals
        obtain ⟨_, -, h⟩ := h
        cases h

/-- What a provisioned machine starts from. -/
structure Protocol.Fresh (contract : Contract) (direction : Direction) (p : Protocol) : Prop where
  contract_eq : p.contract = contract
  direction_eq : p.direction = direction
  closed : p.closed = none
  active : p.active = PerLane.fill none
  offsets : p.offsets = PerLane.fill 0
  previous : p.previous = none
  credited : p.credited = false
  importing : direction = .importing → p.stage = .header
  exporting : direction = .exporting → p.stage = .source

theorem Protocol.provisioned_fresh [Target] {contract : Contract} {direction : Direction}
    {capacity : Nat} {p : Protocol} (h : Provisioned contract direction capacity p) :
    p.Fresh contract direction := by
  have hnew : ∀ q, new contract direction capacity = .ok q → q.Fresh contract direction := by
    intro q hq
    unfold new at hq
    split at hq
    · cases hq
    · cases hq
      refine ⟨rfl, rfl, rfl, rfl, rfl, rfl, rfl, ?_, ?_⟩ <;>
        · rintro rfl
          rfl
  rcases h with h | ⟨connection, h⟩
  · exact hnew p h
  · obtain ⟨q, hq, rfl⟩ := withConnection_eq h
    have hf := hnew q hq
    exact ⟨hf.contract_eq, hf.direction_eq, hf.closed, hf.active, hf.offsets, hf.previous, hf.credited,
      hf.importing, hf.exporting⟩

namespace Side

def view (s : Side) : View where
  stage := s.protocol.stage
  length := s.protocol.length
  sequence := s.protocol.sequence
  previous := s.protocol.previous
  revision := s.protocol.revision
  credited := s.protocol.credited
  data := s.position .data
  creditSend := s.position .creditSend
  creditReceive := s.position .creditReceive

/-- The invariant of an open side of a connection with `contract`. -/
structure Ready [Target] (contract : Contract) (direction : Direction) (s : Side) : Prop where
  contract_eq : s.protocol.contract = contract
  direction_eq : s.protocol.direction = direction
  safe : s.protocol.Safe
  isOpen : s.protocol.closed = none
  distinct : s.protocol.Distinct
  moved : ∀ lane, s.moved.get lane ≤ s.room lane
  buffer : ∀ lane, (s.buffers.get lane).length = lane.bufferCapacity s.protocol.capacity
  silent : direction = .importing → s.moved.creditReceive = 0
  written : direction = .importing → s.protocol.credited = true →
    s.protocol.active.creditSend ≠ none ∨ 0 < s.position .creditSend →
    s.buffers.creditSend = s.protocol.credit

variable {contract : Contract} {direction : Direction} {s : Side}

theorem Ready.framed [Target] (h : s.Ready contract direction) : s.protocol.Framed :=
  h.safe.framed h.isOpen

theorem Ready.moved_of_free [Target] (h : s.Ready contract direction) (lane : Lane)
    (ha : s.protocol.active.get lane = none) : s.moved.get lane = 0 := by
  have hm := h.moved lane
  simpa [room, ha] using hm

/-- A lane that moved something has an accepted request for at least as much. -/
theorem Ready.request_of_moved [Target] (h : s.Ready contract direction) (lane : Lane)
    (hm : s.moved.get lane ≠ 0) :
    ∃ op e, s.protocol.active.get lane = some (op, e) ∧ e.isRequest = true ∧
      s.moved.get lane ≤ e.requested := by
  have hle := h.moved lane
  cases ha : s.protocol.active.get lane with
  | none => exact absurd (h.moved_of_free lane ha) hm
  | some a =>
    obtain ⟨op, e⟩ := a
    simp only [room, ha] at hle
    exact ⟨op, e, rfl, h.safe.request lane op e ha, hle⟩

/-- The data lane of a machine in a stage without data requests is free. -/
theorem Ready.data_free [Target] (h : s.Ready contract direction)
    (hs : s.protocol.stage = .source ∨ s.protocol.stage = .credit ∨
      s.protocol.stage = .admission) : s.protocol.active.data = none := by
  cases ha : s.protocol.active.data with
  | none => rfl
  | some a =>
    obtain ⟨op, e⟩ := a
    have hr := h.safe.request .data op e ha
    rcases Protocol.offer_data_request (h.framed.data.active op e ha) hr with
      ⟨h', -⟩ | ⟨h', -⟩ | ⟨h', -⟩ <;> simp [h'] at hs

theorem Ready.creditSend_free [Target] (h : s.Ready contract direction)
    (hc : s.protocol.credited = false) : s.protocol.active.creditSend = none := by
  cases ha : s.protocol.active.creditSend with
  | none => rfl
  | some a =>
    obtain ⟨op, e⟩ := a
    have hreq := Protocol.offer_creditSend_request (h.framed.send.active op e ha)
    simp [hc] at hreq

/-! ## Acceptance -/

theorem accept_spec [Target] (h : s.Ready contract direction) (lane : Lane) (op : OpId) :
    ∃ s', s.accept lane op = .ok s' ∧ s'.Ready contract direction ∧ s'.view = s.view ∧
      s'.buffers.data = s.buffers.data ∧ s'.buffers.creditReceive = s.buffers.creditReceive ∧
      s'.protocol.capacity = s.protocol.capacity := by
  obtain ⟨e, he, -⟩ := Protocol.effect_spec h.safe lane
  cases e with
  | none => exact ⟨s, by simp [accept, he], h, rfl, rfl, rfl, rfl⟩
  | some e =>
    by_cases hg : e.isRequest = false ∨ (s.protocol.laneOf op).isSome
    · exact ⟨s, by simp [accept, he, hg], h, rfl, rfl, rfl, rfl⟩
    · have hr : e.isRequest = true := by simpa using fun hf => hg (Or.inl hf)
      have hfresh : s.protocol.laneOf op = none := by simpa using fun hf => hg (Or.inr hf)
      obtain ⟨-, hfree, hoffer⟩ := Protocol.effect_request he hr
      have hin := Protocol.input_accepted h.isOpen hfree hoffer hr hfresh
      have hmoved := h.moved_of_free lane hfree
      obtain ⟨q, r, hq, hsafe, -⟩ := Protocol.input_safe h.safe (.accepted lane op)
      rw [hin] at hq
      cases hq
      have hrun : s.accept lane op = .ok
          { protocol := s.protocol.accept lane op e
            buffers :=
              if lane = .creditSend ∧ s.protocol.offsets.creditSend = 0 then
                s.buffers.set .creditSend s.protocol.credit
              else s.buffers
            moved := s.moved } := by
        simp only [accept, he, ok_bind, if_neg hg, hin, pure_eq]
      refine ⟨_, hrun, ?_, rfl, ?_, ?_, rfl⟩
      · refine ⟨h.contract_eq, h.direction_eq, hsafe, h.isOpen,
          Protocol.distinct_input h.distinct hin, ?_, ?_, h.silent, ?_⟩
        · intro other
          by_cases ho : other = lane
          · subst ho
            simp [hmoved]
          · have hm := h.moved other
            simpa only [room, Protocol.accept, PerLane.get_set_of_ne _ _ ho] using hm
        · intro other
          have hb := h.buffer other
          dsimp only
          split
          · cases other with
            | creditSend => simp [PerLane.set, Protocol.credit, Lane.bufferCapacity, creditBytes]
            | data | creditReceive => exact hb
          · exact hb
        · intro hd hc hact
          dsimp only at hact ⊢
          by_cases hw : lane = .creditSend ∧ s.protocol.offsets.creditSend = 0
          · rw [if_pos hw]
            rfl
          · rw [if_neg hw]
            refine h.written hd hc ?_
            by_cases hl : lane = .creditSend
            · have hoff : s.protocol.offsets.creditSend ≠ 0 := fun hz => hw ⟨hl, hz⟩
              refine Or.inr ?_
              change 0 < s.protocol.offsets.creditSend + s.moved.creditSend
              omega
            · have hne : Lane.creditSend ≠ lane := fun hc => hl hc.symm
              have hkeep := PerLane.get_set_of_ne s.protocol.active (some (op, e)) hne
              rcases hact with hact | hact
              · exact Or.inl fun hnone => hact (hkeep.trans hnone)
              · exact Or.inr hact
      · dsimp only
        split <;> rfl
      · dsimp only
        split <;> rfl

/-! ## Bytes in motion -/

/-- `n` more bytes of the accepted operation of a lane have moved. -/
def shift (s : Side) (lane : Lane) (n : Nat) : Side :=
  { s with moved := s.moved.set lane (s.moved.get lane + n) }

/-- New contents of a lane's buffer. -/
def store (s : Side) (lane : Lane) (bytes : List UInt8) : Side :=
  { s with buffers := s.buffers.set lane bytes }

theorem shift_zero (s : Side) (lane : Lane) : s.shift lane 0 = s := by
  cases lane <;> rfl

theorem position_shift (s : Side) (lane : Lane) (n : Nat) :
    (s.shift lane n).position lane = s.position lane + n := by
  simp [position, shift, Nat.add_assoc]

theorem position_shift_of_ne (s : Side) {lane other : Lane} (n : Nat) (h : other ≠ lane) :
    (s.shift lane n).position other = s.position other := by
  simp [position, shift, PerLane.get_set_of_ne _ _ h]

theorem Ready.shift [Target] (h : s.Ready contract direction) {lane : Lane} {n : Nat}
    (hroom : s.moved.get lane + n ≤ s.room lane)
    (hs : direction = .importing → lane ≠ .creditReceive) :
    (s.shift lane n).Ready contract direction where
  contract_eq := h.contract_eq
  direction_eq := h.direction_eq
  safe := h.safe
  isOpen := h.isOpen
  distinct := h.distinct
  moved := by
    intro other
    by_cases ho : other = lane
    · subst ho
      simpa [Side.shift, room] using hroom
    · have hm := h.moved other
      simpa only [Side.shift, room, PerLane.get_set_of_ne _ _ ho] using hm
  buffer := h.buffer
  silent := by
    intro hd
    have hne : Lane.creditReceive ≠ lane := fun hc => hs hd hc.symm
    have hkeep := PerLane.get_set_of_ne s.moved (s.moved.get lane + n) hne
    exact hkeep.trans (h.silent hd)
  written := by
    intro hd hc hact
    refine h.written hd hc ?_
    by_cases hfree : s.protocol.active.creditSend = none
    · refine Or.inr ?_
      have hpos : 0 < (s.shift lane n).position .creditSend :=
        hact.resolve_left fun hne => hne hfree
      by_cases hl : Lane.creditSend = lane
      · subst hl
        have hz : s.room .creditSend = 0 := by simp [room, hfree]
        rw [position_shift] at hpos
        omega
      · rwa [position_shift_of_ne _ _ hl] at hpos
    · exact Or.inl hfree

theorem Ready.store [Target] (h : s.Ready contract direction) {lane : Lane} {bytes : List UInt8}
    (hlen : bytes.length = (s.buffers.get lane).length) (hl : lane ≠ .creditSend) :
    (s.store lane bytes).Ready contract direction where
  contract_eq := h.contract_eq
  direction_eq := h.direction_eq
  safe := h.safe
  isOpen := h.isOpen
  distinct := h.distinct
  moved := h.moved
  buffer := by
    intro other
    by_cases ho : other = lane
    · subst ho
      simpa [Side.store, hlen] using h.buffer other
    · have hb := h.buffer other
      simpa only [Side.store, PerLane.get_set_of_ne _ _ ho] using hb
  silent := h.silent
  written := by
    intro hd hc hact
    have hkeep : (s.store lane bytes).buffers.creditSend = s.buffers.creditSend :=
      PerLane.get_set_of_ne s.buffers bytes hl.symm
    rw [hkeep]
    exact h.written hd hc hact

theorem Ready.offset_eq [Target] (h : s.Ready contract direction) {lane : Lane} {op : OpId}
    {e : Effect} (ha : s.protocol.active.get lane = some (op, e)) :
    s.protocol.Bounded lane e :=
  Protocol.offer_bounded h.safe.capacity_ge h.framed (h.framed.active ha)

theorem transmit_spec [Target] (h : s.Ready contract direction) (lane : Lane)
    (hl : lane ≠ .creditReceive) (count : Nat) :
    ∃ n, s.transmit lane count =
        (Bytes.slice (s.buffers.get lane) (s.position lane) (s.position lane + n),
          s.shift lane n) ∧
      (s.shift lane n).Ready contract direction ∧
      (n ≠ 0 → s.protocol.active.get lane ≠ none ∧ s.moved.get lane + n ≤ s.room lane) := by
  have hidle : ∃ n, (([] : List UInt8), s) =
        (Bytes.slice (s.buffers.get lane) (s.position lane) (s.position lane + n),
          s.shift lane n) ∧
      (s.shift lane n).Ready contract direction ∧
      (n ≠ 0 → s.protocol.active.get lane ≠ none ∧ s.moved.get lane + n ≤ s.room lane) :=
    ⟨0, by simp [shift_zero], by rwa [shift_zero], fun hn => absurd rfl hn⟩
  cases ha : s.protocol.active.get lane with
  | none => simpa only [transmit, ha] using hidle
  | some a =>
    obtain ⟨op, e⟩ := a
    cases e with
    | transmit l offset length =>
      have hroom : s.room lane = length := by simp [room, ha, Effect.requested]
      obtain ⟨-, rfl, -⟩ := h.offset_eq ha
      have hm := h.moved lane
      rw [hroom] at hm
      have hle : s.moved.get lane + min count (length - s.moved.get lane) ≤ s.room lane := by
        omega
      refine ⟨min count (length - s.moved.get lane), ?_, h.shift hle fun _ => hl,
        fun _ => ⟨by simp, hle⟩⟩
      simp only [transmit, ha]
      rfl
    | receive | provide | admission | cancel => simpa only [transmit, ha] using hidle

theorem receive_spec [Target] (h : s.Ready contract direction) (lane : Lane)
    (hl : lane ≠ .creditSend) (hs : direction = .importing → lane ≠ .creditReceive)
    (count : Nat) (channel : List UInt8) :
    ∃ n bytes, s.receive lane count channel =
        (channel.drop n, (s.shift lane n).store lane bytes) ∧
      n ≤ channel.length ∧
      bytes.take (s.position lane + n) =
        (s.buffers.get lane).take (s.position lane) ++ channel.take n ∧
      ((s.shift lane n).store lane bytes).Ready contract direction ∧
      (n ≠ 0 → s.protocol.active.get lane ≠ none ∧ s.moved.get lane + n ≤ s.room lane) := by
  have hidle : ∃ n bytes, (channel, s) =
        (channel.drop n, (s.shift lane n).store lane bytes) ∧
      n ≤ channel.length ∧
      bytes.take (s.position lane + n) =
        (s.buffers.get lane).take (s.position lane) ++ channel.take n ∧
      ((s.shift lane n).store lane bytes).Ready contract direction ∧
      (n ≠ 0 → s.protocol.active.get lane ≠ none ∧ s.moved.get lane + n ≤ s.room lane) := by
    have hsame : (s.shift lane 0).store lane (s.buffers.get lane) = s := by
      cases lane <;> rfl
    exact ⟨0, s.buffers.get lane, by simp [hsame], Nat.zero_le _, by simp, by rwa [hsame],
      fun hn => absurd rfl hn⟩
  cases ha : s.protocol.active.get lane with
  | none => simpa only [receive, ha] using hidle
  | some a =>
    obtain ⟨op, e⟩ := a
    cases e with
    | receive l offset length =>
      have hroom : s.room lane = length := by simp [room, ha, Effect.requested]
      obtain ⟨-, rfl, -, hin⟩ := h.offset_eq ha
      have hm := h.moved lane
      have hbuf := h.buffer lane
      rw [hroom] at hm
      obtain ⟨n, hn⟩ : ∃ n, n = min (min count channel.length) (length - s.moved.get lane) :=
        ⟨_, rfl⟩
      have htake : (channel.take n).length = n := by
        rw [List.length_take]
        omega
      have hle : s.moved.get lane + n ≤ s.room lane := by omega
      have hfit : s.position lane + (channel.take n).length ≤ (s.buffers.get lane).length := by
        simp only [position]
        omega
      refine ⟨n, Bytes.write (s.buffers.get lane) (s.position lane) (channel.take n), ?_,
        by omega, ?_, ?_, fun _ => ⟨by simp, hle⟩⟩
      · simp only [receive, ha, ← hn]
        rfl
      · have ht := @Bytes.take_write (s.buffers.get lane) (channel.take n) (s.position lane)
          (by omega)
        rwa [htake] at ht
      · exact (h.shift hle hs).store (Bytes.length_write hfit) hl
    | transmit | provide | admission | cancel => simpa only [receive, ha] using hidle

/-- Views of a side whose lane has moved `n` more bytes. -/
theorem view_shift_data (s : Side) (n : Nat) :
    (s.shift .data n).view = { s.view with data := s.view.data + n } := by
  simp [Side.view, Side.position, Side.shift, PerLane.set, Nat.add_assoc]

theorem view_shift_creditSend (s : Side) (n : Nat) :
    (s.shift .creditSend n).view = { s.view with creditSend := s.view.creditSend + n } := by
  simp [Side.view, Side.position, Side.shift, PerLane.set, Nat.add_assoc]

theorem view_shift_creditReceive (s : Side) (n : Nat) :
    (s.shift .creditReceive n).view =
      { s.view with creditReceive := s.view.creditReceive + n } := by
  simp [Side.view, Side.position, Side.shift, PerLane.set, Nat.add_assoc]

/-! ## Reports -/

/-- `s'` is a ready side with the storage of `s` and the view `v`. -/
structure After [Target] (contract : Contract) (direction : Direction) (s s' : Side) (v : View) :
    Prop where
  ready : s'.Ready contract direction
  buffers : s'.buffers = s.buffers
  capacity : s'.protocol.capacity = s.protocol.capacity
  view : s'.view = v

theorem complete_unknown [Target] (h : s.Ready contract direction) {op : OpId}
    (hl : s.protocol.laneOf op = none) :
    ∃ s', s.complete op = .ok s' ∧ After contract direction s s' s.view :=
  ⟨s, by simp [complete, hl], h, rfl, rfl, rfl⟩

/-- What is left of the obligations of a report once `progress` has answered. -/
theorem Ready.report [Target] (h : s.Ready contract direction) {lane : Lane} {op : OpId}
    {result : IoResult} {q : Protocol} (hl : s.protocol.laneOf op = some lane)
    (hq : s.protocol.input (.completed op result (s.buffers.get lane)) = .ok (q, .ok ()))
    (hopen : q.closed = none)
    (hw : direction = .importing → q.credited = true →
      s.protocol.credited = true ∧ q.previous = s.protocol.previous ∧
        (0 < q.offsets.creditSend → s.protocol.active.creditSend ≠ none ∨
          0 < s.position .creditSend)) :
    Ready contract direction { s with protocol := q, moved := s.moved.set lane 0 } := by
  obtain ⟨q', r, hq', hsafe, hcon, hdir, hcap⟩ :=
    Protocol.input_safe h.safe (.completed op result (s.buffers.get lane))
  rw [hq] at hq'
  cases hq'
  have hactive : q.active = s.protocol.active.set lane none ∨ q.active = s.protocol.active := by
    cases Protocol.input_active hq with
    | same ha => exact Or.inr ha
    | release hl' ha =>
      rw [hl] at hl'
      cases hl'
      exact Or.inl ha
  have hrelease : ∀ other op e, q.active.get other = some (op, e) →
      s.protocol.active.get other = some (op, e) := by
    intro other op e ha
    rcases hactive with hq | hq <;> rw [hq] at ha
    · exact Protocol.active_release s.protocol lane other ha
    · exact ha
  refine ⟨hcon.trans h.contract_eq, hdir.trans h.direction_eq, hsafe, hopen,
    Protocol.distinct_input h.distinct hq, ?_, ?_, ?_, ?_⟩
  · intro other
    by_cases ho : other = lane
    · subst ho
      simp
    · have hm := h.moved other
      have hkeep : q.active.get other = s.protocol.active.get other := by
        rcases hactive with hq | hq <;> rw [hq]
        exact PerLane.get_set_of_ne _ _ ho
      simpa only [room, hkeep, PerLane.get_set_of_ne _ _ ho] using hm
  · intro other
    rw [hcap]
    exact h.buffer other
  · intro hd
    by_cases ho : Lane.creditReceive = lane
    · subst ho
      rfl
    · exact (PerLane.get_set_of_ne s.moved 0 ho).trans (h.silent hd)
  · intro hd hc hact
    obtain ⟨hcr, hprev, hpos⟩ := hw hd hc
    have hsome : s.protocol.previous.isSome :=
      (h.framed.send.credited (h.direction_eq.trans hd) hcr).2
    obtain ⟨last, hlast⟩ := Option.isSome_iff_exists.mp hsome
    have hcredit : q.credit = s.protocol.credit := by simp [Protocol.credit, hprev, hlast]
    rw [hcredit]
    refine h.written hd hcr ?_
    rcases hact with hact | hact
    · refine Or.inl fun hnone => hact ?_
      cases ha : q.active.creditSend with
      | none => rfl
      | some a =>
        obtain ⟨id, e⟩ := a
        have := hrelease .creditSend id e ha
        rw [PerLane.get_creditSend, hnone] at this
        cases this
    · simp only [position, PerLane.get_creditSend] at hact
      by_cases hoff : 0 < q.offsets.creditSend
      · exact hpos hoff
      · by_cases ho : Lane.creditSend = lane
        · subst ho
          simp [PerLane.set] at hact
          omega
        · refine Or.inr ?_
          have hmoved : (s.moved.set lane 0).creditSend = s.moved.creditSend :=
            PerLane.get_set_of_ne s.moved 0 ho
          simp only [position, PerLane.get_creditSend]
          omega

theorem complete_retry [Target] (h : s.Ready contract direction) {op : OpId} {lane : Lane}
    (hl : s.protocol.laneOf op = some lane) (hm : s.moved.get lane = 0) :
    ∃ s', s.complete op = .ok s' ∧ After contract direction s s' s.view := by
  have hin := Protocol.input_retry h.isOpen hl (s.buffers.get lane)
  have hrun : s.complete op =
      .ok { s with protocol := s.protocol.release lane, moved := s.moved.set lane 0 } := by
    simp only [complete, hl, hm, if_true, hin, ok_bind, pure_eq]
  refine ⟨_, hrun, h.report hl hin h.isOpen ?_, rfl, rfl, ?_⟩
  · intro _ hc
    refine ⟨hc, rfl, fun hpos => Or.inr ?_⟩
    change 0 < s.protocol.offsets.creditSend at hpos
    simp only [position, PerLane.get_creditSend]
    omega
  · have hpos : ∀ other, (s.moved.set lane 0).get other = s.moved.get other := by
      intro other
      by_cases ho : other = lane
      · subst ho
        simp [hm]
      · exact PerLane.get_set_of_ne _ _ ho
    simp only [view, position, Protocol.release, hpos]

/-- A report of moved bytes runs `progress` from the lane's position. -/
theorem complete_bytes [Target] (h : s.Ready contract direction) {op : OpId} {lane : Lane}
    (hl : s.protocol.laneOf op = some lane) (hm : s.moved.get lane ≠ 0) {q : Protocol}
    (hq : (s.protocol.advance lane (s.moved.get lane)).progress lane (s.buffers.get lane) =
      .ok (q, .ok ()))
    (hw : direction = .importing → q.credited = true →
      s.protocol.credited = true ∧ q.previous = s.protocol.previous ∧
        q.offsets.creditSend =
          (s.protocol.advance lane (s.moved.get lane)).offsets.creditSend) :
    s.complete op = .ok { s with protocol := q, moved := s.moved.set lane 0 } ∧
      Ready contract direction { s with protocol := q, moved := s.moved.set lane 0 } := by
  obtain ⟨op', e, ha, hr, hle⟩ := h.request_of_moved lane hm
  obtain ⟨e', ha'⟩ := Protocol.laneOf_some hl
  rw [ha] at ha'
  cases ha'
  have hin := Protocol.input_bytes h.safe h.isOpen hl ha (Nat.one_le_iff_ne_zero.mpr hm) hle hq
  have hopen : q.closed = none := by
    rw [(Protocol.progress_keeps hq).closed]
    exact h.isOpen
  refine ⟨by simp only [complete, hl, if_neg hm, hin, ok_bind, pure_eq],
    h.report hl hin hopen fun hd hc => ?_⟩
  obtain ⟨hcr, hprev, hoff⟩ := hw hd hc
  refine ⟨hcr, hprev, fun hpos => ?_⟩
  by_cases ho : Lane.creditSend = lane
  · subst ho
    exact Or.inl fun hnone => by rw [PerLane.get_creditSend, hnone] at ha; cases ha
  · refine Or.inr ?_
    have hkeep : (s.protocol.advance lane (s.moved.get lane)).offsets.creditSend =
        s.protocol.offsets.creditSend :=
      PerLane.get_set_of_ne s.protocol.offsets _ ho
    simp only [position, PerLane.get_creditSend]
    omega

/-- A report that leaves the frame and the credit incomplete changes no view. -/
theorem complete_partial [Target] (h : s.Ready contract direction) {op : OpId} {lane : Lane}
    (hl : s.protocol.laneOf op = some lane) (hm : s.moved.get lane ≠ 0)
    (hq : (s.protocol.advance lane (s.moved.get lane)).progress lane (s.buffers.get lane) =
      .ok (s.protocol.advance lane (s.moved.get lane), .ok ())) :
    ∃ s', s.complete op = .ok s' ∧ After contract direction s s' s.view := by
  obtain ⟨hrun, hready⟩ := complete_bytes h hl hm hq fun _ hc => ⟨hc, rfl, rfl⟩
  refine ⟨_, hrun, hready, rfl, rfl, ?_⟩
  have hpos : ∀ other,
      (s.protocol.advance lane (s.moved.get lane)).offsets.get other +
        (s.moved.set lane 0).get other = s.position other := by
    intro other
    by_cases ho : other = lane
    · subst ho
      simp [Protocol.advance, Protocol.move, position]
    · simp [Protocol.advance, Protocol.move, Protocol.release, position,
        PerLane.get_set_of_ne _ _ ho]
  simp only [view, position, hpos]
  rfl

theorem complete_exporter_data [Target] (h : s.Ready contract .exporting) {op : OpId}
    (hl : s.protocol.laneOf op = some .data) (hm : s.moved.data ≠ 0) :
    s.view.stage = .sending ∧
      ∃ s', s.complete op = .ok s' ∧ After contract .exporting s s'
        (if s.view.data = s.view.length then
          { s.view with stage := if s.view.credited then .source else .credit }
        else s.view) := by
  obtain ⟨op', e, ha, hr, -⟩ := h.request_of_moved .data hm
  have hstage : s.protocol.stage = .sending := by
    have hst := h.framed.data.stage
    rw [h.direction_eq] at hst
    rcases Protocol.offer_data_request (h.framed.data.active op' e ha) hr with
      ⟨hs, -⟩ | ⟨hs, -⟩ | ⟨hs, -⟩
    · exact hs
    · simp [Protocol.StageOf, hs] at hst
    · simp [Protocol.StageOf, hs] at hst
  refine ⟨hstage, ?_⟩
  by_cases hfull : s.view.data = s.view.length
  · rw [if_pos hfull]
    have hpos : s.protocol.offsets.data + s.moved.data = s.protocol.length := hfull
    have hq : (s.protocol.advance .data s.moved.data).progress .data s.buffers.data =
        .ok (if s.protocol.credited then
            (Protocol.account { s.protocol.advance .data s.moved.data with stage := .source }
              fun a => a.completed s.protocol.sequence)
          else { s.protocol.advance .data s.moved.data with stage := .credit }, .ok ()) := by
      cases hc : s.protocol.credited <;>
        simp [Protocol.progress, Protocol.advance, Protocol.release, Protocol.move, PerLane.set,
          hstage, hpos, hc]
    obtain ⟨hrun, hready⟩ := complete_bytes h hl hm hq fun hd => by cases hd
    refine ⟨_, hrun, hready, rfl, ?_, ?_⟩
    · dsimp only
      split <;> rfl
    · cases hc : s.protocol.credited <;>
        simp [view, hc, position, Protocol.advance, Protocol.release, Protocol.move, PerLane.set]
  · rw [if_neg hfull]
    refine complete_partial h hl hm ?_
    have hpos : ¬ s.protocol.offsets.data + s.moved.data = s.protocol.length := hfull
    simp [Protocol.progress, Protocol.advance, Protocol.release, Protocol.move, PerLane.set,
      hstage, hpos]

theorem complete_exporter_partial [Target] (h : s.Ready contract .exporting) {op : OpId}
    (hl : s.protocol.laneOf op = some .creditReceive) (hm : s.moved.creditReceive ≠ 0)
    (hpart : s.view.creditReceive ≠ creditBytes) :
    ∃ s', s.complete op = .ok s' ∧ After contract .exporting s s' s.view := by
  refine complete_partial h hl hm ?_
  have hpos : ¬ s.protocol.offsets.creditReceive + s.moved.creditReceive = creditBytes := hpart
  simp [Protocol.progress, Protocol.advance, Protocol.release, Protocol.move, PerLane.set,
    h.direction_eq, hpos]

/-- A complete credit for the frame in flight frees the exporter. -/
theorem complete_exporter_credit [Target] (h : s.Ready contract .exporting) {op : OpId}
    (hl : s.protocol.laneOf op = some .creditReceive) (hm : s.moved.creditReceive ≠ 0)
    (hfull : s.view.creditReceive = creditBytes) (hcr : s.view.credited = false)
    (hst : s.view.stage = .sending ∨ s.view.stage = .credit)
    (hbuf : s.buffers.creditReceive = 1 :: Bytes.toLe 8 s.view.sequence.toNat) :
    ∃ s', s.complete op = .ok s' ∧ After contract .exporting s s'
      { s.view with
        credited := true
        creditReceive := 0
        stage := if s.view.stage = .credit then .source else s.view.stage } := by
  have hpos : s.protocol.offsets.creditReceive + s.moved.creditReceive = creditBytes := hfull
  have hcr' : s.protocol.credited = false := hcr
  have hst' : s.protocol.stage = .sending ∨ s.protocol.stage = .credit := hst
  have hbytes : Bytes.slice (1 :: Bytes.toLe 8 s.protocol.sequence.toNat) 1 creditBytes =
      Bytes.toLe 8 s.protocol.sequence.toNat := by
    simp [Bytes.slice, creditBytes]
  have hone : Bytes.slice (1 :: Bytes.toLe 8 s.protocol.sequence.toNat) 0 1 = [1] := by
    simp [Bytes.slice]
  have htake : (1 :: Bytes.toLe 8 s.protocol.sequence.toNat).take creditBytes =
      1 :: Bytes.toLe 8 s.protocol.sequence.toNat := by
    simp [creditBytes]
  have hbuf' : s.buffers.creditReceive = 1 :: Bytes.toLe 8 s.protocol.sequence.toNat := hbuf
  have hlen : ¬ (1 :: Bytes.toLe 8 s.protocol.sequence.toNat).length < creditBytes := by
    simp [creditBytes]
  have hq : (s.protocol.advance .creditReceive s.moved.creditReceive).progress .creditReceive
      s.buffers.creditReceive =
      .ok (if s.protocol.stage = .credit then
          (Protocol.account { s.protocol.advance .creditReceive s.moved.creditReceive with
              credited := true
              offsets := s.protocol.offsets.set .creditReceive 0
              stage := .source }
            fun a => a.completed s.protocol.sequence)
        else { s.protocol.advance .creditReceive s.moved.creditReceive with
            credited := true
            offsets := s.protocol.offsets.set .creditReceive 0 }, .ok ()) := by
    simp only [Protocol.progress, Protocol.advance, Protocol.release, Protocol.move,
      PerLane.get_creditReceive, h.direction_eq, hpos, reduceCtorEq, if_false, hbuf',
      Protocol.parseCredit, hlen, htake, hone, hbytes]
    rcases hst' with hs | hs <;> simp [hs, hcr', PerLane.set]
  obtain ⟨hrun, hready⟩ := complete_bytes h hl hm hq fun hd => by cases hd
  refine ⟨_, hrun, hready, rfl, ?_, ?_⟩
  · dsimp only
    split <;> rfl
  · by_cases hs : s.protocol.stage = .credit <;>
      simp [view, hs, position, Protocol.advance, Protocol.release, Protocol.move, PerLane.set]

/-- A complete credit transmission ends the importer's debt. -/
theorem complete_importer_credit [Target] (h : s.Ready contract .importing) {op : OpId}
    (hl : s.protocol.laneOf op = some .creditSend) (hm : s.moved.creditSend ≠ 0) :
    s.view.credited = true ∧
      ∃ s', s.complete op = .ok s' ∧ After contract .importing s s'
        (if s.view.creditSend = creditBytes then { s.view with credited := false }
        else s.view) := by
  obtain ⟨op', e, ha, -, -⟩ := h.request_of_moved .creditSend hm
  obtain ⟨hdir, hcr, -, -⟩ := Protocol.offer_creditSend_request (h.framed.send.active op' e ha)
  obtain ⟨last, hlast⟩ := Option.isSome_iff_exists.mp (h.framed.send.credited hdir hcr).2
  refine ⟨hcr, ?_⟩
  by_cases hfull : s.view.creditSend = creditBytes
  · rw [if_pos hfull]
    have hpos : s.protocol.offsets.creditSend + s.moved.creditSend = creditBytes := hfull
    have hq : (s.protocol.advance .creditSend s.moved.creditSend).progress .creditSend
        s.buffers.creditSend =
        .ok (Protocol.account { s.protocol.advance .creditSend s.moved.creditSend with
            credited := false } fun a => a.completed last, .ok ()) := by
      cases hacc : s.protocol.accountability <;>
        simp [Protocol.progress, Protocol.advance, Protocol.release, Protocol.move, PerLane.set,
          Protocol.account, hpos, hacc, hlast]
    obtain ⟨hrun, hready⟩ := complete_bytes h hl hm hq fun _ hc => by cases hc
    refine ⟨_, hrun, hready, rfl, rfl, ?_⟩
    simp [view, position, Protocol.advance, Protocol.release, Protocol.move, PerLane.set]
  · rw [if_neg hfull]
    refine complete_partial h hl hm ?_
    have hpos : ¬ s.protocol.offsets.creditSend + s.moved.creditSend = creditBytes := hfull
    simp [Protocol.progress, Protocol.advance, Protocol.release, Protocol.move, PerLane.set, hpos]

/-- While a frame arrives, its stage says how much of it the importer knows. -/
theorem importer_data_stage [Target] (h : s.Ready contract .importing)
    (hm : s.moved.data ≠ 0) : s.view.stage = .header ∨ s.view.stage = .payload := by
  obtain ⟨op', e, ha, hr, -⟩ := h.request_of_moved .data hm
  have hst := h.framed.data.stage
  rw [h.direction_eq] at hst
  rcases Protocol.offer_data_request (h.framed.data.active op' e ha) hr with
    ⟨hs, -⟩ | ⟨hs, -⟩ | ⟨hs, -⟩
  · simp [Protocol.StageOf, hs] at hst
  · exact Or.inl hs
  · exact Or.inr hs

theorem complete_importer_payload [Target] (h : s.Ready contract .importing) {op : OpId}
    (hl : s.protocol.laneOf op = some .data) (hm : s.moved.data ≠ 0)
    (hst : s.view.stage = .payload) :
    ∃ s', s.complete op = .ok s' ∧ After contract .importing s s'
      { s.view with
        stage := if s.view.data = s.view.length then .admission else .payload } := by
  have hstage : s.protocol.stage = .payload := hst
  by_cases hfull : s.view.data = s.view.length
  · rw [if_pos hfull]
    have hpos : s.protocol.offsets.data + s.moved.data = s.protocol.length := hfull
    have hq : (s.protocol.advance .data s.moved.data).progress .data s.buffers.data =
        .ok ({ s.protocol.advance .data s.moved.data with stage := .admission }, .ok ()) := by
      simp [Protocol.progress, Protocol.advance, Protocol.release, Protocol.move, PerLane.set,
        hstage, hpos]
    obtain ⟨hrun, hready⟩ := complete_bytes h hl hm hq fun _ hc => ⟨hc, rfl, rfl⟩
    refine ⟨_, hrun, hready, rfl, rfl, ?_⟩
    simp [view, position, Protocol.advance, Protocol.release, Protocol.move, PerLane.set]
  · rw [if_neg hfull, ← hst]
    refine complete_partial h hl hm ?_
    have hpos : ¬ s.protocol.offsets.data + s.moved.data = s.protocol.length := hfull
    simp [Protocol.progress, Protocol.advance, Protocol.release, Protocol.move, PerLane.set,
      hstage, hpos]

theorem complete_importer_short [Target] (h : s.Ready contract .importing) {op : OpId}
    (hl : s.protocol.laneOf op = some .data) (hm : s.moved.data ≠ 0)
    (hst : s.view.stage = .header) (hshort : s.view.data < headerBytes) :
    ∃ s', s.complete op = .ok s' ∧ After contract .importing s s' s.view := by
  refine complete_partial h hl hm ?_
  have hstage : s.protocol.stage = .header := hst
  have hpos : ¬ headerBytes ≤ s.protocol.offsets.data + s.moved.data := by
    change s.protocol.offsets.data + s.moved.data < headerBytes at hshort
    omega
  simp [Protocol.progress, Protocol.advance, Protocol.release, Protocol.move, PerLane.set,
    hstage, hpos]

/-- The header of a frame that fits and whose sequence follows is accepted. -/
theorem complete_importer_header [Target] (h : s.Ready contract .importing) {op : OpId}
    (hl : s.protocol.laneOf op = some .data) (hm : s.moved.data ≠ 0)
    (hst : s.view.stage = .header) (hlong : headerBytes ≤ s.view.data) {sequence : UInt64}
    {n : Nat} (hbuf : s.buffers.data.take headerBytes = header contract sequence n)
    (hu32 : n ≤ u32Max) (hcap : headerBytes + n ≤ s.protocol.capacity)
    (hle : s.view.data ≤ headerBytes + n)
    (hfollows : ∀ last ∈ s.view.previous, contract.delivery.follows last sequence = true) :
    ∃ s', s.complete op = .ok s' ∧ After contract .importing s s'
      { s.view with
        revision := contract.revision
        sequence := sequence
        length := headerBytes + n
        stage := if s.view.data = headerBytes + n then .admission else .payload } := by
  have hstage : s.protocol.stage = .header := hst
  have hcap_le := h.safe.capacity_le
  have hlen : ¬ s.buffers.data.length < headerBytes := by
    have hb := h.buffer .data
    simp only [PerLane.get_data, Lane.bufferCapacity] at hb
    omega
  have hparse := @Protocol.parseHeader_header _ (s.protocol.advance .data s.moved.data)
    s.view.data n sequence s.buffers.data (by omega)
    (by rw [hbuf]; exact congrArg (header · sequence n) h.contract_eq.symm) hu32 (by omega) hcap hle
    (fun last hl => (congrArg (·.delivery.follows last sequence) h.contract_eq).trans
      (hfollows last hl))
  have hq : (s.protocol.advance .data s.moved.data).progress .data s.buffers.data =
      .ok ({ (s.protocol.advance .data s.moved.data).observeSequence sequence with
          revision := contract.revision
          sequence := sequence
          length := headerBytes + n
          stage := if s.view.data = headerBytes + n then .admission else .payload }, .ok ()) := by
    have hoff : (s.protocol.advance .data s.moved.data).offsets.get .data = s.view.data := rfl
    have hadv : (s.protocol.advance .data s.moved.data).stage = .header := hstage
    simp only [Protocol.progress, hoff, hadv, if_pos hlong, hparse]
    rw [← h.contract_eq]
    rfl
  obtain ⟨hrun, hready⟩ := complete_bytes h hl hm hq fun _ hc => ⟨hc, rfl, rfl⟩
  refine ⟨_, hrun, hready, rfl, rfl, ?_⟩
  simp [view, position, Protocol.advance, Protocol.release, Protocol.move, PerLane.set]

/-! ## Provision and admission -/

theorem provide_spec [Target] (h : s.Ready contract .exporting) (sequence : UInt64) {total : Nat}
    {output : List UInt8} (hst : s.view.stage = .source) (hge : headerBytes ≤ total)
    (hle : total ≤ s.protocol.capacity) (hlen : output.length = s.buffers.data.length) :
    ∃ q, (s.protocol.observeSequence sequence).input (.provided sequence total) = .ok (q, .ok ()) ∧
      q.capacity = s.protocol.capacity ∧
      Ready contract .exporting { s with protocol := q, buffers := s.buffers.set .data output } ∧
      view { s with protocol := q, buffers := s.buffers.set .data output } =
        { s.view with
          sequence := sequence
          length := total
          data := 0
          credited := false
          stage := .sending } := by
  have hstage : s.protocol.stage = .source := hst
  have hfree := h.data_free (Or.inl hstage)
  have hmoved : s.moved.data = 0 := h.moved_of_free .data hfree
  have hsafe' : (s.protocol.observeSequence sequence).Safe :=
    Protocol.safe_account h.safe fun a => a.observe sequence
  have hin := @Protocol.input_provided _ (s.protocol.observeSequence sequence) sequence total
    h.isOpen hstage hge hle
  obtain ⟨q, r, hq, hsafe, hcon, hdir, hcap⟩ :=
    Protocol.input_safe hsafe' (.provided sequence total)
  rw [hin] at hq
  cases hq
  have hd : (s.protocol.observeSequence sequence).Distinct := h.distinct
  refine ⟨_, hin, rfl, ⟨h.contract_eq, h.direction_eq, hsafe, h.isOpen,
    Protocol.distinct_input hd hin, h.moved, ?_,
    nofun, nofun⟩, ?_⟩
  · intro lane
    cases lane with
    | data => exact hlen.trans (h.buffer .data)
    | creditSend => exact h.buffer .creditSend
    | creditReceive => exact h.buffer .creditReceive
  · simp [view, position, Protocol.provide, PerLane.set, hmoved]

theorem admission_spec [Target] (h : s.Ready contract .importing) (hst : s.view.stage = .admission)
    (hcr : s.view.credited = false) :
    ∃ q, s.protocol.input .admitted = .ok (q, .ok ()) ∧
      After contract .importing s { s with protocol := q }
        { s.view with
          previous := some s.view.sequence
          credited := true
          creditSend := 0
          data := 0
          length := headerBytes
          stage := .header } := by
  have hstage : s.protocol.stage = .admission := hst
  have hcr' : s.protocol.credited = false := hcr
  have hdata : s.moved.data = 0 :=
    h.moved_of_free .data (h.data_free (Or.inr (Or.inr hstage)))
  have hsendfree := h.creditSend_free hcr'
  have hsend : s.moved.creditSend = 0 := h.moved_of_free .creditSend hsendfree
  have hin := Protocol.input_admitted h.isOpen hstage hcr'
  obtain ⟨q, r, hq, hsafe, hcon, hdir, hcap⟩ := Protocol.input_safe h.safe .admitted
  rw [hin] at hq
  cases hq
  refine ⟨_, hin, ⟨h.contract_eq, h.direction_eq, hsafe, h.isOpen,
    Protocol.distinct_input h.distinct hin, h.moved, h.buffer, h.silent, ?_⟩, rfl, rfl, ?_⟩
  · intro _ _ hact
    rcases hact with hact | hact
    · exact absurd hsendfree hact
    · simp [position, Protocol.admitFrame, PerLane.set, hsend] at hact
  · simp [view, position, Protocol.admitFrame, PerLane.set, hdata, hsend]

end Side

end Hiway.Transport
