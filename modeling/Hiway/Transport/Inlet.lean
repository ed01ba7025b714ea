import Hiway.Transport.Halting

/-!
# An importing side on its own

A machine that imports, its storage and its kernel, whatever is at the other end: the frames
it has handed out, the bytes that have come and the credit bytes that have left. As long as
what it reads are frames in their order, each one begun when the credit of the last one had
left, it hands out exactly these and is not closed for what it reads, unless a frame is larger
than its storage.

* `Stands.receive`, `Stands.transmit`: more of a frame comes, more of a credit leaves.
* `Stands.header`, `Stands.payload`, `Stands.admission`: a header is accepted, a payload is
  complete, a frame is handed out.
* `Inv.step`: every event of the side keeps it a receiver.
* `receiver_keeps`: an importing machine is a receiver that keeps to the format.
-/

namespace Hiway.Transport

open Exec Target

structure Inlet where
  side : Side
  admitted : List Frame
  consumed : List UInt8
  sent : List UInt8

/-- What happens at an importing end. -/
inductive Incoming where
  | accept (lane : Lane) (op : OpId)
  | complete (op : OpId)
  | fail (op : OpId) (code : Option Int)
  | transmit (count : Nat)
  | receive (bytes : List UInt8)
  | admission
  | stop (error : Option Error)
  deriving DecidableEq, Repr

namespace Inlet

/-- The frame that the machine offers is handed out. -/
def admitFrame [Target] (i : Inlet) : Exec Inlet := do
  match ← i.side.protocol.effect .data with
  | some (.admission length revision) =>
    let (protocol, _) ← i.side.protocol.input .admitted
    return { i with
      side := { i.side with protocol := protocol }
      admitted := i.admitted ++ [⟨i.side.protocol.sequence, revision,
        Bytes.slice i.side.buffers.data headerBytes (headerBytes + length)⟩] }
  | _ => return i

def step [Target] (i : Inlet) : Incoming → Exec Inlet
  | .accept lane op => do
    let side ← i.side.accept lane op
    return { i with side := side }
  | .complete op => do
    let side ← i.side.complete op
    return { i with side := side }
  | .fail op code => do
    let side ← i.side.fail op code
    return { i with side := side }
  | .transmit count =>
    let (bytes, side) := i.side.transmit .creditSend count
    .ok { i with side := side, sent := i.sent ++ bytes }
  | .receive bytes =>
    let (rest, side) := i.side.receive .data bytes.length bytes
    .ok { i with side := side, consumed := i.consumed ++ bytes.take (bytes.length - rest.length) }
  | .admission => i.admitFrame
  | .stop error =>
    if error = some .protocol then .ok i
    else do
      let side ← i.side.stop error
      return { i with side := side }

/-- A fresh machine, whatever its storage holds. -/
def start (protocol : Protocol) (storage : PerLane (List UInt8)) : Inlet :=
  ⟨⟨protocol, storage, PerLane.fill 0⟩, [], [], []⟩

/-- As a receiver of frames. -/
def receiver [Target] : Dialogue.Receiver Inlet Incoming Frame UInt8 where
  step := step
  admitted := admitted
  consumed := consumed
  sent := sent

end Inlet

/-! ## Headers -/

namespace Protocol

variable [Target] {p : Protocol} {offset : Nat} {buffer : List UInt8} {f : Frame}

/-- The header of a frame that fits is accepted at the revision of its writer. -/
theorem parseHeader_frame (hlen : headerBytes ≤ buffer.length)
    (hbuf : buffer.take headerBytes = f.head p.contract) (hf : f.Short)
    (hword : p.capacity ≤ usizeMax) (hcap : (f.code p.contract).length ≤ p.capacity)
    (hle : offset ≤ (f.code p.contract).length)
    (hfollows : ∀ last ∈ p.previous, p.contract.delivery.follows last f.sequence = true) :
    p.parseHeader offset buffer =
      ({ p.observeSequence f.sequence with
          revision := f.revision
          sequence := f.sequence
          length := (f.code p.contract).length
          stage := if offset = (f.code p.contract).length then .admission else .payload },
        .ok ()) := by
  rw [Frame.length_code] at hcap hle ⊢
  have hadd : checkedAdd headerBytes f.payload.length = some (headerBytes + f.payload.length) :=
    checkedAdd_eq_some.mpr ⟨by omega, rfl⟩
  have hprev : p.previous.any (fun last => !p.contract.delivery.follows last f.sequence) =
      false := by
    cases hp : p.previous with
    | none => rfl
    | some last => simpa using hfollows last hp
  have hshort : ¬ buffer.length < headerBytes := by omega
  have hlate : ¬ offset > headerBytes + f.payload.length := by omega
  have hbig : ¬ headerBytes + f.payload.length > p.capacity := by omega
  have hsequence : headerSequence (f.head p.contract) = f.sequence := headerSequence_header _ _ _
  have hrevision : headerRevision (f.head p.contract) = f.revision := headerRevision_header _ _ _
  simp only [parseHeader, if_neg hshort, hbuf, hsequence, hrevision, Frame.headerLength_head hf,
    hadd, observeSequence_eq, account_contract, Frame.headerMatches_head, Bool.true_eq_false,
    if_false, account_capacity, account_previous, hprev, Bool.false_eq_true, if_neg hlate,
    if_neg hbig]

/-- A frame that does not fit is refused for its length. -/
theorem parseHeader_large (hlen : headerBytes ≤ buffer.length)
    (hbuf : buffer.take headerBytes = f.head p.contract) (hf : f.Short)
    (hcap : p.capacity < (f.code p.contract).length) :
    (p.parseHeader offset buffer).2 = .error .capacity := by
  rw [Frame.length_code] at hcap
  have hshort : ¬ buffer.length < headerBytes := by omega
  have hsequence : headerSequence (f.head p.contract) = f.sequence := headerSequence_header _ _ _
  simp only [parseHeader, if_neg hshort, hbuf, hsequence, Frame.headerLength_head hf,
    observeSequence_eq, account_contract, Frame.headerMatches_head, Bool.true_eq_false, if_false]
  cases hadd : checkedAdd headerBytes f.payload.length with
  | none => rfl
  | some length =>
    obtain ⟨-, rfl⟩ := checkedAdd_eq_some.mp hadd
    exact congrArg Prod.snd (if_pos hcap)

end Protocol

namespace Side

variable [Target] {c : Contract} {s : Side}

/-- The header of a frame is accepted, or closes the machine because the frame is too large. -/
theorem complete_importer_frame (h : s.Ready c .importing) {op : OpId}
    (hl : s.protocol.laneOf op = some .data) (hm : s.moved.data ≠ 0)
    (hst : s.view.stage = .header) (hlong : headerBytes ≤ s.view.data) {f : Frame}
    (hbuf : s.buffers.data.take headerBytes = f.head c) (hf : f.Short)
    (hle : s.view.data ≤ (f.code c).length)
    (hfollows : ∀ last ∈ s.view.previous, c.delivery.follows last f.sequence = true) :
    ∃ s', s.complete op = .ok s' ∧ (After c .importing s s'
        { s.view with
          revision := f.revision
          sequence := f.sequence
          length := (f.code c).length
          stage := if s.view.data = (f.code c).length then .admission else .payload } ∨
      s.OwesLess s' ∧ s'.Halted) := by
  have hstage : s.protocol.stage = .header := hst
  have hb : s.buffers.data.length = s.protocol.capacity := h.buffer .data
  have hge := h.safe.capacity_ge
  have hcontract := h.contract_eq
  subst hcontract
  have hoff : (s.protocol.advance .data s.moved.data).offsets.get .data = s.view.data := rfl
  have hadv : (s.protocol.advance .data s.moved.data).stage = .header := hstage
  have hprogress : (s.protocol.advance .data s.moved.data).progress .data s.buffers.data =
      .ok ((s.protocol.advance .data s.moved.data).parseHeader s.view.data s.buffers.data) := by
    simp only [Protocol.progress, hoff, hadv, if_pos hlong]
  by_cases hcap : (f.code s.protocol.contract).length ≤ s.protocol.capacity
  · have hparse := @Protocol.parseHeader_frame _ (s.protocol.advance .data s.moved.data)
      s.view.data s.buffers.data f (by omega) hbuf hf h.safe.capacity_le hcap hle hfollows
    rw [hparse] at hprogress
    obtain ⟨hrun, hready⟩ := complete_bytes h hl hm hprogress fun _ hc => ⟨hc, rfl, rfl⟩
    refine ⟨_, hrun, Or.inl ⟨hready, rfl, rfl, ?_⟩⟩
    simp only [view, position, Protocol.advance, Protocol.release, Protocol.move, PerLane.set]
    rfl
  · have hparse := @Protocol.parseHeader_large _ (s.protocol.advance .data s.moved.data)
      s.view.data s.buffers.data f (by omega) hbuf hf (Nat.lt_of_not_le hcap)
    obtain ⟨q, r, hq⟩ : ∃ q r,
        (s.protocol.advance .data s.moved.data).parseHeader s.view.data s.buffers.data = (q, r) :=
      ⟨_, _, rfl⟩
    have hkeeps := Protocol.parseHeader_keeps (s.protocol.advance .data s.moved.data)
      s.view.data s.buffers.data
    rw [hq] at hparse hprogress hkeeps
    obtain rfl : r = .error .capacity := hparse
    obtain ⟨id, e, ha, hr, hmoved⟩ := h.request_of_moved .data hm
    obtain ⟨e', ha'⟩ := Protocol.laneOf_some hl
    rw [ha] at ha'
    cases ha'
    have hin := Protocol.input_progress h.safe h.isOpen hl ha (Nat.one_le_iff_ne_zero.mpr hm)
      hmoved hprogress
    obtain ⟨q', r', hq', hsafe, -⟩ := Protocol.input_safe h.safe
      (.completed op (.bytes (s.moved.get .data)) (s.buffers.get .data))
    have hmoving : ¬ s.moved.get .data = 0 := hm
    have hrun : s.complete op =
        .ok { s with protocol := q', moved := s.moved.set .data 0 } := by
      simp only [complete, hl, if_neg hmoving, hq', ok_bind, pure_eq]
    refine ⟨_, hrun, Or.inr ⟨owesLess_report hl hq' fun other ho => PerLane.get_set_of_ne _ _ ho,
      hsafe, .capacity, ?_, by simp⟩⟩
    have hsame := hq'.symm.trans hin
    rw [Except.ok.injEq, Prod.mk.injEq] at hsame
    have hopen : q.closed = none := hkeeps.closed.trans h.isOpen
    show q'.closed = some .capacity
    rw [hsame.1, Protocol.settle_closed]
    simp [Protocol.conclude, Protocol.shut, hopen]

end Side

/-! ## What was read and answered -/

/-- What an importing side has read and answered, and what it is at. -/
structure Intake where
  view : View
  target : List UInt8
  admitted : List Frame
  consumed : List UInt8
  sent : List UInt8

namespace Intake

/-- The rest of the last credit. -/
def owing (s : Intake) : List UInt8 :=
  if s.view.credited then
    (creditOf (s.view.previous.getD s.view.sequence)).drop s.view.creditSend
  else []

/-- The header of `f` was read. -/
structure Heads [Target] (c : Contract) (s : Intake) (f : Frame) : Prop where
  short : f.Short
  begun : headerBytes ≤ s.view.data
  within : s.view.data ≤ s.view.length
  target : s.target.take headerBytes = f.head c
  sequence : s.view.sequence = f.sequence
  revision : s.view.revision = f.revision
  length : s.view.length = (f.code c).length

structure Stands [Target] (c : Contract) (s : Intake) : Prop where
  consumed : s.consumed = (wireFormat c).codes s.admitted ++ s.target.take s.view.data
  sent : s.sent ++ s.owing = (wireFormat c).acks s.admitted
  previous : s.view.previous = s.admitted.getLast?.map Frame.sequence
  bound : s.view.credited = true → s.view.creditSend ≤ creditBytes
  arriving : s.view.stage = .header ∨
    (s.view.stage = .payload ∨ s.view.stage = .admission ∧ s.view.data = s.view.length) ∧
      ∃ f, s.Heads c f

variable [Target] {c : Contract} {s : Intake}

/-- More of a frame comes. -/
theorem Stands.receive (h : s.Stands c) (n : Nat) (target taken : List UInt8)
    (htarget : target.take (s.view.data + n) = s.target.take s.view.data ++ taken)
    (hn : n ≠ 0 → s.view.stage = .header ∨
      s.view.stage = .payload ∧ s.view.data + n ≤ s.view.length) :
    Stands c { s with
      view := { s.view with data := s.view.data + n }
      target := target
      consumed := s.consumed ++ taken } where
  consumed := by
    show s.consumed ++ taken = _ ++ target.take (s.view.data + n)
    rw [h.consumed, htarget, List.append_assoc]
  sent := h.sent
  previous := h.previous
  bound := h.bound
  arriving := by
    rcases h.arriving with hs | ⟨hs, f, hheads⟩
    · exact Or.inl hs
    · have hbegun := hheads.begun
      have hkeep : target.take headerBytes = f.head c := by
        have hboth := congrArg (List.take headerBytes) htarget
        have hlen := congrArg List.length hheads.target
        rw [List.length_take, Frame.length_head] at hlen
        rw [List.take_take, Nat.min_eq_left (by omega), List.take_append_of_le_length
          (by rw [List.length_take]; omega), List.take_take, Nat.min_eq_left (by omega)] at hboth
        exact hboth.trans hheads.target
      have hwithin : s.view.data + n ≤ s.view.length ∧ (n ≠ 0 → s.view.stage = .payload) := by
        by_cases hz : n = 0
        · subst hz
          exact ⟨hheads.within, fun hne => absurd rfl hne⟩
        · rcases hn hz with hstage | ⟨hstage, hle⟩
          · rcases hs with hs | ⟨hs, -⟩
            · cases hstage.symm.trans hs
            · cases hstage.symm.trans hs
          · exact ⟨hle, fun _ => hstage⟩
      refine Or.inr ⟨?_, f, ?_⟩
      · rcases hs with hs | ⟨hs, hfull⟩
        · exact Or.inl hs
        · refine Or.inr ⟨hs, ?_⟩
          have hz : n = 0 := by
            by_contra hz
            cases (hwithin.2 hz).symm.trans hs
          show s.view.data + n = s.view.length
          omega
      · exact { hheads with
          begun := hbegun.trans (Nat.le_add_right _ _)
          within := hwithin.1
          target := hkeep }

/-- More of the credit leaves. -/
theorem Stands.transmit (h : s.Stands c) (n : Nat) (reply : List UInt8)
    (hn : n ≠ 0 → s.view.credited = true ∧ s.view.creditSend + n ≤ creditBytes ∧
      reply = creditOf (s.view.previous.getD s.view.sequence)) :
    Stands c { s with
      view := { s.view with creditSend := s.view.creditSend + n }
      sent := s.sent ++ Bytes.slice reply s.view.creditSend (s.view.creditSend + n) } := by
  by_cases hz : n = 0
  · subst hz
    simpa using h
  · obtain ⟨hcredited, hle, hreply⟩ := hn hz
    refine
      { consumed := h.consumed
        sent := ?_
        previous := h.previous
        bound := fun _ => hle
        arriving := ?_ }
    · have hsent := h.sent
      rw [owing, if_pos hcredited] at hsent
      show (s.sent ++ _) ++ (if s.view.credited then _ else []) = _
      rw [if_pos hcredited, List.append_assoc, ← hsent, hreply]
      congr 1
      show Bytes.slice _ _ _ ++ List.drop (s.view.creditSend + n) _ = _
      rw [← List.drop_drop, Bytes.slice, Nat.add_sub_cancel_left]
      exact List.take_append_drop _ _
    · rcases h.arriving with hs | ⟨hs, f, hheads⟩
      · exact Or.inl hs
      · exact Or.inr ⟨hs, f, { hheads with }⟩

/-- The side learns that its credit has left. -/
theorem Stands.creditSent (h : s.Stands c) (hcredited : s.view.credited = true)
    (hfull : s.view.creditSend = creditBytes) :
    Stands c { s with view := { s.view with credited := false } } where
  consumed := h.consumed
  sent := by
    have hsent := h.sent
    rw [owing, if_pos hcredited, hfull, ← length_creditOf (s.view.previous.getD s.view.sequence),
      List.drop_length] at hsent
    exact hsent
  previous := h.previous
  bound := fun hcr => by cases hcr
  arriving := by
    rcases h.arriving with hs | ⟨hs, f, hheads⟩
    · exact Or.inl hs
    · exact Or.inr ⟨hs, f, { hheads with }⟩

/-- What a proper peer sends is the front of a frame that may come next. -/
theorem Stands.next (h : s.Stands c) (hproper : (wireFormat c).Proper s.admitted s.sent s.consumed)
    (hpos : s.view.data ≠ 0) (hlen : s.view.data ≤ s.target.length) :
    ∃ f : Frame, f.Short ∧ (∀ last ∈ s.view.previous, c.delivery.follows last f.sequence = true) ∧
      s.target.take s.view.data <+: f.code c := by
  rcases hproper with hall | ⟨f, hshort, hfollows, -, hcode⟩
  · rw [h.consumed] at hall
    have hnil := congrArg List.length (List.append_right_eq_self.mp hall)
    rw [List.length_take, List.length_nil] at hnil
    omega
  · refine ⟨f, hshort, ?_, ?_⟩
    · intro last hlast
      rw [h.previous] at hlast
      obtain ⟨g, hg, rfl⟩ := Option.map_eq_some_iff.mp hlast
      exact hfollows g hg
    · rw [h.consumed, List.prefix_append_right_inj] at hcode
      exact hcode

/-- The header of the next frame is accepted. -/
theorem Stands.header (h : s.Stands c) {f : Frame} (hf : f.Short)
    (hlong : headerBytes ≤ s.view.data) (htarget : s.target.take headerBytes = f.head c)
    (hle : s.view.data ≤ (f.code c).length) (hcredit : s.view.credited = true →
      s.view.previous.isSome) :
    Stands c { s with
      view := { s.view with
        revision := f.revision
        sequence := f.sequence
        length := (f.code c).length
        stage := if s.view.data = (f.code c).length then .admission else .payload } } where
  consumed := h.consumed
  sent := by
    have hsent := h.sent
    unfold owing at hsent ⊢
    cases hcredited : s.view.credited with
    | false =>
      rw [hcredited] at hsent
      exact hsent
    | true =>
      obtain ⟨last, hlast⟩ := Option.isSome_iff_exists.mp (hcredit hcredited)
      rw [hcredited, if_pos rfl, hlast, Option.getD_some] at hsent
      dsimp only
      rw [if_pos rfl, hlast, Option.getD_some]
      exact hsent
  previous := h.previous
  bound := h.bound
  arriving := by
    refine Or.inr ⟨?_, f, hf, hlong, hle, htarget, rfl, rfl, rfl⟩
    by_cases hfull : s.view.data = (f.code c).length
    · exact Or.inr ⟨if_pos hfull, hfull⟩
    · exact Or.inl (if_neg hfull)

/-- More of the payload was reported, perhaps all of it. -/
theorem Stands.payload (h : s.Stands c) (hstage : s.view.stage = .payload) :
    Stands c { s with
      view := { s.view with
        stage := if s.view.data = s.view.length then .admission else .payload } } where
  consumed := h.consumed
  sent := h.sent
  previous := h.previous
  bound := h.bound
  arriving := by
    rcases h.arriving with hs | ⟨-, f, hheads⟩
    · cases hstage.symm.trans hs
    · refine Or.inr ⟨?_, f, { hheads with }⟩
      by_cases hfull : s.view.data = s.view.length
      · exact Or.inr ⟨if_pos hfull, hfull⟩
      · exact Or.inl (if_neg hfull)

/-- What the side hands out is the next frame, and its credit becomes due. -/
theorem Stands.admission (h : s.Stands c) (hproper :
      (wireFormat c).Proper s.admitted s.sent s.consumed)
    (hstage : s.view.stage = .admission) (hcredited : s.view.credited = false)
    (hlen : s.view.data ≤ s.target.length) :
    ∃ f : Frame, f.Short ∧ (⟨s.view.sequence, s.view.revision,
        Bytes.slice s.target headerBytes s.view.length⟩ : Frame) = f ∧
      Stands c { s with
        view := { s.view with
          previous := some s.view.sequence
          credited := true
          creditSend := 0
          data := 0
          length := headerBytes
          stage := .header }
        admitted := s.admitted ++ [f] } := by
  rcases h.arriving with hs | ⟨hs | ⟨-, hfull⟩, g, hheads⟩
  · cases hstage.symm.trans hs
  · cases hstage.symm.trans hs
  · have hbegun := hheads.begun
    have hpos : s.view.data ≠ 0 := by
      have : 0 < headerBytes := by decide
      omega
    obtain ⟨f, hf, -, hcode⟩ := h.next hproper hpos hlen
    have hhead : f.head c = g.head c := by
      have hboth : s.target.take headerBytes = (f.code c).take headerBytes := by
        obtain ⟨rest, hrest⟩ := hcode
        rw [← hrest, List.take_append_of_le_length (by rw [List.length_take]; omega),
          List.take_take, Nat.min_eq_left hbegun]
      rw [f.take_code, hheads.target] at hboth
      exact hboth.symm
    have hpayload : f.payload.length = g.payload.length := by
      rw [← Frame.headerLength_head (c := c) hf, ← Frame.headerLength_head (c := c) hheads.short,
        hhead]
    have hlength : s.view.length = (f.code c).length := by
      rw [hheads.length, Frame.length_code, Frame.length_code, hpayload]
    have htarget : s.target.take s.view.length = f.code c := by
      rw [← hfull]
      refine hcode.eq_of_length_le ?_
      rw [List.length_take]
      omega
    have hframe : (⟨s.view.sequence, s.view.revision,
        Bytes.slice s.target headerBytes s.view.length⟩ : Frame) = f := by
      have hsequence := congrArg headerSequence hhead
      have hrevision := congrArg headerRevision hhead
      have hbody : Bytes.slice s.target headerBytes s.view.length = f.payload := by
        rw [← Bytes.slice_take (le_refl s.view.length), htarget, Frame.code_eq,
          Bytes.slice_append_right (by simp), Frame.length_head, hlength, Frame.length_code]
        exact Bytes.slice_self (by omega)
      rw [Frame.head, Frame.head, headerSequence_header, headerSequence_header] at hsequence
      rw [Frame.head, Frame.head, headerRevision_header, headerRevision_header] at hrevision
      rw [hheads.sequence, hheads.revision, hbody, ← hsequence]
      cases f
      exact congrArg (Frame.mk _ · _) hrevision.symm
    refine ⟨f, hf, hframe, ?_, ?_, ?_, fun _ => Nat.zero_le _, Or.inl rfl⟩
    · show s.consumed = (wireFormat c).codes (s.admitted ++ [f]) ++ s.target.take 0
      rw [h.consumed, (wireFormat c).codes_concat, hfull, htarget, List.take_zero,
        List.append_nil]
      rfl
    · have hsent := h.sent
      rw [owing, hcredited, if_neg (by decide), List.append_nil] at hsent
      show s.sent ++ (creditOf s.view.sequence).drop 0 = (wireFormat c).acks (s.admitted ++ [f])
      rw [(wireFormat c).acks_concat, hsent, List.drop_zero, ← hframe]
      rfl
    · show some s.view.sequence = _
      rw [List.getLast?_concat, ← hframe]
      rfl

end Intake

namespace Inlet

def intake (i : Inlet) : Intake where
  view := i.side.view
  target := i.side.buffers.data
  admitted := i.admitted
  consumed := i.consumed
  sent := i.sent

/-- A side that goes on. -/
structure Going [Target] (c : Contract) (i : Inlet) : Prop where
  ready : i.side.Ready c .importing
  stands : i.intake.Stands c

/-- A side whose machine is closed: what left, and may still leave, are credits of the frames
it has handed out. -/
structure Ended [Target] (c : Contract) (i : Inlet) : Prop where
  halted : i.side.Halted
  consumed : (wireFormat c).codes i.admitted <+: i.consumed
  sent : i.sent ++ i.side.owed .creditSend <+: (wireFormat c).acks i.admitted

structure Inv [Target] (c : Contract) (i : Inlet) : Prop where
  valid : ∀ f ∈ i.admitted, f.Short
  state : i.Going c ∨ i.Ended c

variable [Target] {c : Contract} {i : Inlet}

theorem Going.consumed (h : i.Going c) : (wireFormat c).codes i.admitted <+: i.consumed :=
  ⟨_, h.stands.consumed.symm⟩

/-- The credit lane sends the rest of the credit. -/
theorem Going.request (h : i.Going c) {op : OpId} {e : Effect}
    (ha : i.side.protocol.active.creditSend = some (op, e)) :
    i.side.view.credited = true ∧ i.side.protocol.offsets.creditSend ≤ creditBytes ∧
      e = .transmit .creditSend i.side.protocol.offsets.creditSend
        (creditBytes - i.side.protocol.offsets.creditSend) ∧
      i.side.buffers.creditSend = creditOf (i.side.view.previous.getD i.side.view.sequence) := by
  obtain ⟨-, hcredited, hoff, rfl⟩ :=
    Protocol.offer_creditSend_request (h.ready.framed.send.active op e ha)
  refine ⟨hcredited, hoff, rfl, h.ready.written rfl hcredited (Or.inl ?_)⟩
  rw [ha]
  simp

theorem Going.sent (h : i.Going c) :
    i.sent ++ i.side.owed .creditSend <+: (wireFormat c).acks i.admitted := by
  have hsent : i.sent ++ i.intake.owing = (wireFormat c).acks i.admitted := h.stands.sent
  rw [← hsent, List.prefix_append_right_inj]
  cases ha : i.side.protocol.active.creditSend with
  | none =>
    have howed : i.side.owed .creditSend = [] := Side.owed_of_free ha
    rw [howed]
    exact List.nil_prefix
  | some a =>
    obtain ⟨op, e⟩ := a
    obtain ⟨hcredited, hoff, rfl, hreply⟩ := h.request ha
    have howed : i.side.owed .creditSend =
        Bytes.slice i.side.buffers.creditSend i.side.view.creditSend creditBytes := by
      simp only [Side.owed, PerLane.get_creditSend, ha]
      rw [Nat.add_sub_cancel' hoff]
      rfl
    have howing : i.intake.owing = (creditOf (i.side.view.previous.getD
        i.side.view.sequence)).drop i.side.view.creditSend := if_pos hcredited
    rw [howed, howing, hreply]
    exact List.take_prefix _ _

theorem Inv.consumed (h : i.Inv c) : (wireFormat c).codes i.admitted <+: i.consumed :=
  h.state.elim Going.consumed Ended.consumed

theorem Inv.sent (h : i.Inv c) :
    i.sent ++ i.side.owed .creditSend <+: (wireFormat c).acks i.admitted :=
  h.state.elim Going.sent Ended.sent

theorem Inv.safe (h : i.Inv c) : i.side.protocol.Safe :=
  h.state.elim (fun hgoing => hgoing.ready.safe) fun hended => hended.halted.safe

theorem Inv.closed_ne (h : i.Inv c) : i.side.protocol.closed ≠ some .protocol := by
  rcases h.state with hgoing | hended
  · rw [hgoing.ready.isOpen]
    simp
  · exact hended.halted.closed_ne

/-- The machine is closed, or has handed back more of its operations. -/
theorem Inv.ends (h : i.Inv c) {side : Side} (hhalted : side.Halted)
    (howes : i.side.OwesLess side) : Inv c { i with side := side } :=
  ⟨h.valid, Or.inr ⟨hhalted, h.consumed, howes.prefix_of h.sent⟩⟩

/-- A report, once the intake for the new view is known. -/
theorem Inv.after (h : i.Inv c) {side : Side} {v : View}
    (hs : Side.After c .importing i.side side v)
    (hstands : Intake.Stands c { i.intake with view := v }) : Inv c { i with side := side } := by
  refine ⟨h.valid, Or.inl ⟨hs.ready, ?_⟩⟩
  have heq : intake { i with side := side } = { i.intake with view := v } := by
    simp only [intake, hs.view, hs.buffers]
  rw [heq]
  exact hstands

/-- The data lane receives the rest of the storage, or of the frame. -/
theorem Going.reception (h : i.Going c) {op : OpId} {e : Effect}
    (ha : i.side.protocol.active.data = some (op, e)) :
    (i.side.view.stage = .header ∧
      i.side.protocol.offsets.data + e.requested = i.side.protocol.capacity) ∨
    (i.side.view.stage = .payload ∧
      i.side.protocol.offsets.data + e.requested = i.side.protocol.length) := by
  have hst := h.ready.framed.data.stage
  rw [h.ready.direction_eq] at hst
  rcases Protocol.offer_data_request (h.ready.framed.data.active op e ha)
      (h.ready.safe.request .data op e ha) with ⟨hs, -⟩ | ⟨hs, hoff, rfl⟩ | ⟨hs, hoff, rfl⟩
  · simp [Protocol.StageOf, hs] at hst
  · exact Or.inl ⟨hs, Nat.add_sub_cancel' hoff⟩
  · exact Or.inr ⟨hs, Nat.add_sub_cancel' hoff⟩

theorem Going.moved_le (h : i.Going c) {op : OpId} {e : Effect}
    (ha : i.side.protocol.active.data = some (op, e)) : i.side.moved.data ≤ e.requested := by
  have hm := h.ready.moved .data
  simp only [Side.room, PerLane.get_data, ha] at hm
  exact hm

/-- What was read of a frame is in the storage. -/
theorem Going.within (h : i.Going c) : i.side.view.data ≤ i.side.buffers.data.length := by
  have hb : i.side.buffers.data.length = i.side.protocol.capacity := h.ready.buffer .data
  have hdata := h.ready.framed.data
  have hle := hdata.length_le
  have hge := h.ready.safe.capacity_ge
  have hview : i.side.view.data = i.side.protocol.offsets.data + i.side.moved.data := rfl
  rw [hb]
  rcases h.stands.arriving with hs | ⟨hs | ⟨-, hfull⟩, -⟩
  · cases ha : i.side.protocol.active.data with
    | none =>
      have hm : i.side.moved.data = 0 := h.ready.moved_of_free .data ha
      have hlt := hdata.header hs
      omega
    | some a =>
      obtain ⟨op, e⟩ := a
      have hm := h.moved_le ha
      rcases h.reception ha with ⟨-, hroom⟩ | ⟨-, hroom⟩ <;> omega
  · cases ha : i.side.protocol.active.data with
    | none =>
      have hm : i.side.moved.data = 0 := h.ready.moved_of_free .data ha
      have hlt := hdata.payload hs
      omega
    | some a =>
      obtain ⟨op, e⟩ := a
      have hm := h.moved_le ha
      rcases h.reception ha with ⟨-, hroom⟩ | ⟨-, hroom⟩ <;> omega
  · have hfull : i.side.view.data = i.side.protocol.length := hfull
    omega

/-! ## One event -/

theorem Inv.accept (h : i.Inv c) (lane : Lane) (op : OpId) :
    ∃ side, i.side.accept lane op = .ok side ∧ Inv c { i with side := side } := by
  rcases h.state with hgoing | hended
  · obtain ⟨side, hs, hready, hview, hdata, -, -⟩ := Side.accept_spec hgoing.ready lane op
    refine ⟨side, hs, h.valid, Or.inl ⟨hready, ?_⟩⟩
    have heq : intake { i with side := side } = i.intake := by
      simp only [intake, hview, hdata]
    rw [heq]
    exact hgoing.stands
  · exact ⟨i.side, hended.halted.accept lane op, h⟩

/-- A report about the frame that arrives. -/
theorem Going.completeData (h : i.Going c)
    (hproper : (wireFormat c).Proper i.admitted i.sent i.consumed) {op : OpId}
    (hl : i.side.protocol.laneOf op = some .data) (hm : i.side.moved.data ≠ 0) :
    ∃ side, i.side.complete op = .ok side ∧
      ((∃ v, Side.After c .importing i.side side v ∧ Intake.Stands c { i.intake with view := v }) ∨
        side.Halted ∧ i.side.OwesLess side) := by
  have hready := h.ready
  rcases Side.importer_data_stage hready hm with hst | hst
  · by_cases hlong : headerBytes ≤ i.side.view.data
    · have hpos : i.side.view.data ≠ 0 := by
        have : 0 < headerBytes := by decide
        omega
      obtain ⟨f, hf, hfollows, hcode⟩ := h.stands.next hproper hpos h.within
      have hle : i.side.view.data ≤ (f.code c).length := by
        have hlen := hcode.length_le
        rw [List.length_take] at hlen
        exact (Nat.le_min.mpr ⟨le_refl _, h.within⟩).trans hlen
      have hhead : i.side.buffers.data.take headerBytes = f.head c := by
        obtain ⟨rest, hrest⟩ := hcode
        change i.side.buffers.data.take i.side.view.data ++ rest = _ at hrest
        rw [← f.take_code, ← hrest, List.take_append_of_le_length
          (by rw [List.length_take, Nat.min_eq_left h.within]; exact hlong), List.take_take,
          Nat.min_eq_left hlong]
      obtain ⟨side, hs, ha | ⟨howes, hhalted⟩⟩ :=
        Side.complete_importer_frame hready hl hm hst hlong hhead hf hle hfollows
      · refine ⟨side, hs, Or.inl ⟨_, ha, h.stands.header hf hlong hhead hle fun hcr => ?_⟩⟩
        exact (hready.framed.send.credited hready.direction_eq hcr).2
      · exact ⟨side, hs, Or.inr ⟨hhalted, howes⟩⟩
    · obtain ⟨side, hs, ha⟩ := Side.complete_importer_short hready hl hm hst (by omega)
      exact ⟨side, hs, Or.inl ⟨_, ha, h.stands⟩⟩
  · obtain ⟨side, hs, ha⟩ := Side.complete_importer_payload hready hl hm hst
    exact ⟨side, hs, Or.inl ⟨_, ha, h.stands.payload hst⟩⟩

theorem Inv.complete (h : i.Inv c) (hproper : (wireFormat c).Proper i.admitted i.sent i.consumed)
    (op : OpId) : ∃ side, i.side.complete op = .ok side ∧ Inv c { i with side := side } := by
  rcases h.state with hgoing | hended
  swap
  · obtain ⟨side, hs, -, howes, hhalted⟩ := hended.halted.complete op
    exact ⟨side, hs, h.ends hhalted howes⟩
  have hready := hgoing.ready
  have hsame : ∀ side, Side.After c .importing i.side side i.side.view →
      Inv c { i with side := side } :=
    fun side hs => h.after hs hgoing.stands
  cases hl : i.side.protocol.laneOf op with
  | none =>
    obtain ⟨side, hs, ha⟩ := Side.complete_unknown hready hl
    exact ⟨side, hs, hsame side ha⟩
  | some lane =>
    by_cases hm : i.side.moved.get lane = 0
    · obtain ⟨side, hs, ha⟩ := Side.complete_retry hready hl hm
      exact ⟨side, hs, hsame side ha⟩
    · cases lane with
      | creditReceive => exact absurd (hready.silent rfl) hm
      | creditSend =>
        obtain ⟨hcredited, side, hs, ha⟩ := Side.complete_importer_credit hready hl hm
        refine ⟨side, hs, ?_⟩
        by_cases hfull : i.side.view.creditSend = creditBytes
        · rw [if_pos hfull] at ha
          exact h.after ha (hgoing.stands.creditSent hcredited hfull)
        · rw [if_neg hfull] at ha
          exact hsame side ha
      | data =>
        obtain ⟨side, hs, ⟨v, ha, hstands⟩ | ⟨hhalted, howes⟩⟩ :=
          hgoing.completeData hproper hl hm
        · exact ⟨side, hs, h.after ha hstands⟩
        · exact ⟨side, hs, h.ends hhalted howes⟩

theorem Inv.transmit (h : i.Inv c) (count : Nat) :
    Inv c { i with
      side := (i.side.transmit .creditSend count).2
      sent := i.sent ++ (i.side.transmit .creditSend count).1 } := by
  rcases h.state with hgoing | hended
  · obtain ⟨n, hx, hready, hn⟩ :=
      Side.transmit_spec hgoing.ready .creditSend (by decide) count
    have hstands := hgoing.stands.transmit n i.side.buffers.creditSend ?_
    · rw [hx]
      refine ⟨h.valid, Or.inl ⟨hready, ?_⟩⟩
      simp only [intake, Side.view_shift_creditSend]
      exact hstands
    · intro hz
      obtain ⟨hact, hle⟩ := hn hz
      obtain ⟨⟨op, e⟩, ha⟩ := Option.ne_none_iff_exists'.mp hact
      obtain ⟨hcredited, hoff, rfl, hreply⟩ := hgoing.request ha
      refine ⟨hcredited, ?_, hreply⟩
      simp only [Side.room, ha, Effect.requested, PerLane.get_creditSend] at hle
      change i.side.protocol.offsets.creditSend + i.side.moved.creditSend + n ≤ creditBytes
      omega
  · refine ⟨h.valid, Or.inr ⟨?_, hended.consumed, ?_⟩⟩
    · exact hended.halted.of_protocol (Side.transmit_protocol _ _ _)
    · show (i.sent ++ _) ++ _ <+: _
      rw [List.append_assoc, Side.transmit_owed]
      exact hended.sent

theorem Inv.receive (h : i.Inv c) (bytes : List UInt8) :
    Inv c { i with
      side := (i.side.receive .data bytes.length bytes).2
      consumed := i.consumed ++ bytes.take
        (bytes.length - (i.side.receive .data bytes.length bytes).1.length) } := by
  rcases h.state with hgoing | hended
  · obtain ⟨n, target, hx, hlen, htarget, hready, hn⟩ :=
      Side.receive_spec hgoing.ready .data (by decide) (fun _ => by decide) bytes.length bytes
    have hstands := hgoing.stands.receive n target (bytes.take n) htarget ?_
    · have htaken : bytes.length - (bytes.drop n).length = n := by
        rw [List.length_drop]
        omega
      rw [hx]
      refine ⟨h.valid, Or.inl ⟨hready, ?_⟩⟩
      have hview : ((i.side.shift .data n).store .data target).view =
          { i.side.view with data := i.side.view.data + n } :=
        Side.view_shift_data i.side n
      simp only [intake, hview, htaken]
      exact hstands
    · intro hz
      obtain ⟨hact, hle⟩ := hn hz
      obtain ⟨⟨op, e⟩, ha⟩ := Option.ne_none_iff_exists'.mp hact
      simp only [Side.room, ha, PerLane.get_data] at hle
      rcases hgoing.reception ha with ⟨hs, -⟩ | ⟨hs, hroom⟩
      · exact Or.inl hs
      · refine Or.inr ⟨hs, ?_⟩
        change i.side.protocol.offsets.data + i.side.moved.data + n ≤ i.side.protocol.length
        omega
  · refine ⟨h.valid, Or.inr ⟨?_, ?_, ?_⟩⟩
    · exact hended.halted.of_protocol (Side.receive_protocol _ _ _ _)
    · exact hended.consumed.trans (List.prefix_append _ _)
    · show i.sent ++ _ <+: _
      rw [Side.receive_owed _ (by decide)]
      exact hended.sent

theorem Inv.admission (h : i.Inv c)
    (hproper : (wireFormat c).Proper i.admitted i.sent i.consumed) :
    ∃ i', i.admitFrame = .ok i' ∧ i'.Inv c ∧ i'.sent = i.sent := by
  unfold admitFrame
  rcases h.state with hgoing | hended
  · have hready := hgoing.ready
    obtain ⟨e, he, -⟩ := Protocol.effect_spec hready.safe .data
    rw [he, ok_bind]
    split
    · obtain ⟨hst, hcr, hle, rfl, rfl⟩ := Protocol.admission_stage he
      obtain ⟨q, hin, hafter⟩ := Side.admission_spec hready hst hcr
      obtain ⟨f, hf, hframe, hstands⟩ :=
        hgoing.stands.admission hproper hst hcr hgoing.within
      have hsum : headerBytes + (i.side.protocol.length - headerBytes) = i.side.view.length := by
        change _ = i.side.protocol.length
        omega
      have hframe : (⟨i.side.protocol.sequence, i.side.protocol.revision,
          Bytes.slice i.side.buffers.data headerBytes i.side.view.length⟩ : Frame) = f := hframe
      rw [hin, ok_bind, hsum, hframe]
      refine ⟨_, rfl, ⟨?_, Or.inl ⟨hafter.ready, ?_⟩⟩, rfl⟩
      · intro g hg
        rcases List.mem_append.mp hg with hg | hg
        · exact h.valid g hg
        · rw [List.mem_singleton.mp hg]
          exact hf
      · simp only [intake, hafter.view]
        exact hstands
    · exact ⟨i, rfl, h, rfl⟩
  · obtain ⟨e, he, hcancel⟩ := hended.halted.effect .data
    rw [he, ok_bind]
    split
    · obtain ⟨l, id, heq⟩ := hcancel _ rfl
      cases heq
    · exact ⟨i, rfl, h, rfl⟩

theorem admitFrame_total (hsafe : i.side.protocol.Safe) :
    ∃ i', i.admitFrame = .ok i' ∧ i'.consumed = i.consumed := by
  unfold admitFrame
  obtain ⟨e, he, -⟩ := Protocol.effect_spec hsafe .data
  rw [he, ok_bind]
  split
  · obtain ⟨q, r, hq, -⟩ := Protocol.input_safe hsafe .admitted
    rw [hq, ok_bind]
    exact ⟨_, rfl, rfl⟩
  · exact ⟨i, rfl, rfl⟩

theorem Inv.step (h : i.Inv c) (event : Incoming) :
    ∃ i', i.step event = .ok i' ∧ i.consumed <+: i'.consumed ∧
      ((wireFormat c).Proper i.admitted i.sent i'.consumed → i'.Inv c ∧ i.sent <+: i'.sent) := by
  cases event with
  | accept lane op =>
    obtain ⟨side, hs, h'⟩ := h.accept lane op
    exact ⟨{ i with side := side }, by simp only [Inlet.step, hs, ok_bind, pure_eq],
      List.prefix_rfl, fun _ => ⟨h', List.prefix_rfl⟩⟩
  | complete op =>
    by_cases hproper : (wireFormat c).Proper i.admitted i.sent i.consumed
    · obtain ⟨side, hs, h'⟩ := h.complete hproper op
      exact ⟨{ i with side := side }, by simp only [Inlet.step, hs, ok_bind, pure_eq],
        List.prefix_rfl, fun _ => ⟨h', List.prefix_rfl⟩⟩
    · obtain ⟨side, hs⟩ := Side.complete_total h.safe op
      exact ⟨{ i with side := side }, by simp only [Inlet.step, hs, ok_bind, pure_eq],
        List.prefix_rfl, fun hp => absurd hp hproper⟩
  | fail op code =>
    obtain ⟨side, hs, -, howes, hside⟩ := Side.fail_spec h.safe h.closed_ne op code
    refine ⟨{ i with side := side }, by simp only [Inlet.step, hs, ok_bind, pure_eq],
      List.prefix_rfl, fun _ => ⟨?_, List.prefix_rfl⟩⟩
    rcases hside with rfl | hhalted
    · exact h
    · exact h.ends hhalted howes
  | transmit count =>
    exact ⟨_, rfl, List.prefix_rfl, fun _ => ⟨h.transmit count, List.prefix_append _ _⟩⟩
  | receive bytes =>
    exact ⟨_, rfl, List.prefix_append _ _, fun _ => ⟨h.receive bytes, List.prefix_rfl⟩⟩
  | admission =>
    by_cases hproper : (wireFormat c).Proper i.admitted i.sent i.consumed
    · obtain ⟨i', hi, h', hsent⟩ := h.admission hproper
      obtain ⟨i'', hi', hconsumed⟩ := admitFrame_total h.safe
      rw [hi] at hi'
      cases hi'
      exact ⟨i', hi, hconsumed ▸ List.prefix_rfl, fun _ => ⟨h', hsent ▸ List.prefix_rfl⟩⟩
    · obtain ⟨i', hi, hconsumed⟩ := admitFrame_total h.safe
      exact ⟨i', hi, hconsumed ▸ List.prefix_rfl, fun hp => absurd (hconsumed ▸ hp) hproper⟩
  | stop error =>
    unfold Inlet.step
    dsimp only
    split
    · exact ⟨i, rfl, List.prefix_rfl, fun _ => ⟨h, List.prefix_rfl⟩⟩
    · rename_i hne
      obtain ⟨side, hs, -, howes, hhalted⟩ := Side.stop_spec h.safe h.closed_ne hne
      rw [hs, ok_bind]
      exact ⟨_, rfl, List.prefix_rfl, fun _ => ⟨h.ends hhalted howes, List.prefix_rfl⟩⟩

/-- An importing machine is a receiver that keeps to the format. -/
theorem receiver_keeps (c : Contract) : receiver.Keeps (wireFormat c) (Inv c) where
  valid _ h := h.valid
  consumed _ h := h.consumed
  sent _ h := (List.prefix_append _ _).trans h.sent
  step _ event h := h.step event

theorem start_inv {capacity : Nat} (hword : capacity ≤ usizeMax) {protocol : Protocol}
    (hp : Protocol.Provisioned c .importing capacity protocol)
    {storage : PerLane (List UInt8)}
    (hs : ∀ lane, (storage.get lane).length = lane.bufferCapacity capacity) :
    (start protocol storage).Inv c := by
  have hf := Protocol.provisioned_fresh hp
  refine ⟨by simp [start], Or.inl ⟨Duplex.ready_of_provisioned hword hp hs,
    ?_, ?_, hf.previous, fun hcr => ?_, Or.inl (hf.importing rfl)⟩⟩
  · simp [intake, start, Side.view, Side.position, hf.offsets, PerLane.fill]
  · simp [intake, start, Intake.owing, Side.view, hf.credited]
  · cases hf.credited.symm.trans hcr

end Inlet

end Hiway.Transport
