import Hiway.Transport.DuplexSides

/-!
# What is on the wire

The two views, the bytes both ends hold and the bytes between them. A connection is
idle, or one frame is in flight, or the credit of an admitted frame is returning. The
credit of a frame may overlap the next flight at the importer only after the exporter
has read all of it, so `Settled` is part of both other phases. Every event of either
side keeps the connection in one of the three.

* `Phase.sendData`, `Phase.receiveData`, `Phase.sendCredit`, `Phase.receiveCredit`: bytes
  that move keep the phase.
* `Phase.provide`, `Phase.sent`, `Phase.admission`, `Phase.creditSent`: what begins and ends
  the phases.
* `Flight.header`, `Returning.credited`: every header is the expected one, and so is every
  credit.
-/

namespace Hiway.Transport

/-- The encoding of a frame. -/
def Frame.bytes (c : Contract) (f : Frame) : List UInt8 :=
  header c f.sequence f.payload.length ++ f.payload

@[simp] theorem Frame.length_bytes (c : Contract) (f : Frame) :
    (f.bytes c).length = headerBytes + f.payload.length := by
  simp [Frame.bytes]

/-- The encoding of the credit for a frame. -/
def creditOf (sequence : UInt64) : List UInt8 := 1 :: Bytes.toLe 8 sequence.toNat

@[simp] theorem length_creditOf (sequence : UInt64) :
    (creditOf sequence).length = creditBytes := by
  simp [creditOf, creditBytes]

structure Wire where
  exporter : View
  importer : View
  source : List UInt8
  target : List UInt8
  credit : List UInt8
  data : List UInt8
  credits : List UInt8
  provided : List Frame
  admitted : List Frame

namespace Wire

/-- How much of the last owed credit has been sent. -/
def creditSent (w : Wire) : Nat :=
  if w.importer.credited then w.importer.creditSend else creditBytes

/-- No credit is on its way: the importer sent all of it and the exporter read it. -/
structure Settled (w : Wire) : Prop where
  credits : w.credits = []
  received : w.exporter.creditReceive = 0
  sent : w.creditSent = creditBytes

/-- The importer waits for the first byte of a frame. -/
structure Quiet (w : Wire) : Prop where
  stage : w.importer.stage = .header
  position : w.importer.data = 0
  data : w.data = []

/-- Part of the credit for `f` still has to reach the exporter. -/
structure Due (w : Wire) (f : Frame) : Prop where
  credited : w.exporter.credited = false
  received : w.exporter.creditReceive ≤ w.creditSent
  sent : w.creditSent ≤ creditBytes
  credits : w.credits =
    Bytes.slice (creditOf f.sequence) w.exporter.creditReceive w.creditSent
  credit : w.credit.take w.exporter.creditReceive =
    (creditOf f.sequence).take w.exporter.creditReceive

structure Idle (w : Wire) : Prop where
  stage : w.exporter.stage = .source
  logs : w.admitted = w.provided
  previous : w.importer.previous = w.admitted.getLast?.map Frame.sequence
  quiet : w.Quiet
  settled : w.Settled

/-- The exporter sends `f` to an importer with room for `capacity` bytes. -/
structure Flight (c : Contract) (capacity : Nat) (w : Wire) (f : Frame) : Prop where
  logs : w.provided = w.admitted ++ [f]
  previous : w.importer.previous = w.admitted.getLast?.map Frame.sequence
  follows : ∀ last ∈ w.importer.previous, c.delivery.follows last f.sequence = true
  revision : f.revision = c.revision
  short : f.payload.length ≤ u32Max
  fits : headerBytes + f.payload.length ≤ capacity
  stage : w.exporter.stage = .sending ∨
    (w.exporter.stage = .credit ∧ w.exporter.data = w.exporter.length)
  length : w.exporter.length = headerBytes + f.payload.length
  sequence : w.exporter.sequence = f.sequence
  credited : w.exporter.credited = false
  source : w.source.take w.exporter.length = f.bytes c
  sent : w.exporter.data ≤ w.exporter.length
  got : w.importer.data ≤ w.exporter.data
  data : w.data = Bytes.slice (f.bytes c) w.importer.data w.exporter.data
  target : w.target.take w.importer.data = (f.bytes c).take w.importer.data
  arriving : w.importer.stage = .header ∨
    (w.importer.stage = .payload ∨
      w.importer.stage = .admission ∧ w.importer.data = w.exporter.length) ∧
      w.importer.length = w.exporter.length ∧ w.importer.sequence = f.sequence ∧
      w.importer.revision = f.revision
  settled : w.Settled

/-- `f` has been admitted and the exporter does not know it yet, or has not yet seen
the end of its own transmission. -/
structure Returning (w : Wire) (f : Frame) : Prop where
  logs : w.admitted = w.provided
  last : w.admitted.getLast? = some f
  previous : w.importer.previous = some f.sequence
  sequence : w.exporter.sequence = f.sequence
  stage : w.exporter.stage = .sending ∨ w.exporter.stage = .credit
  sent : w.exporter.data = w.exporter.length
  quiet : w.Quiet
  credit : (w.exporter.credited = true ∧ w.exporter.stage = .sending ∧ w.Settled) ∨ w.Due f

inductive Phase (c : Contract) (capacity : Nat) (w : Wire) : Prop
  | idle (h : w.Idle)
  | flight (f : Frame) (h : w.Flight c capacity f)
  | returning (f : Frame) (h : w.Returning f)

variable {c : Contract} {capacity : Nat} {w : Wire}

/-! ## Bytes leave and arrive -/

theorem Phase.sendData (h : w.Phase c capacity) (n : Nat)
    (hn : n ≠ 0 → w.exporter.stage = .sending ∧ w.exporter.data + n ≤ w.exporter.length) :
    Phase c capacity { w with
      exporter := { w.exporter with data := w.exporter.data + n }
      data := w.data ++ Bytes.slice w.source w.exporter.data (w.exporter.data + n) } := by
  by_cases hz : n = 0
  · subst hz
    simpa using h
  · obtain ⟨hst, hle⟩ := hn hz
    cases h with
    | idle h =>
      rw [h.stage] at hst
      cases hst
    | flight f h =>
      refine .flight f { h with
        stage := Or.inl hst
        sent := hle
        got := h.got.trans (Nat.le_add_right _ _)
        data := ?_
        settled := ⟨h.settled.credits, h.settled.received, h.settled.sent⟩ }
      dsimp only
      rw [h.data, ← Bytes.slice_take hle, h.source,
        Bytes.slice_append_slice h.got (Nat.le_add_right _ _)]
    | returning f h =>
      have := h.sent
      omega

theorem Phase.receiveData (h : w.Phase c capacity) (n : Nat) (bytes : List UInt8)
    (hlen : n ≤ w.data.length)
    (hbytes : bytes.take (w.importer.data + n) = w.target.take w.importer.data ++ w.data.take n)
    (hn : n ≠ 0 → w.importer.stage = .header ∨ w.importer.stage = .payload) :
    Phase c capacity { w with
      importer := { w.importer with data := w.importer.data + n }
      target := bytes
      data := w.data.drop n } := by
  have hquiet : w.Quiet → n = 0 := by
    intro hq
    rw [hq.data] at hlen
    simpa using hlen
  cases h with
  | idle h =>
    have hz := hquiet h.quiet
    subst hz
    exact .idle { h with
      quiet := ⟨h.quiet.stage, h.quiet.position, by simpa using h.quiet.data⟩
      settled := ⟨h.settled.credits, h.settled.received, h.settled.sent⟩ }
  | flight f h =>
    have hgot := h.got
    have hsent := h.sent
    have hle : w.importer.data + n ≤ w.exporter.data := by
      rw [h.data, Bytes.length_slice] at hlen
      omega
    refine .flight f { h with
      got := hle
      data := ?_
      target := ?_
      arriving := ?_
      settled := ⟨h.settled.credits, h.settled.received, h.settled.sent⟩ }
    · dsimp only
      rw [h.data, Bytes.drop_slice]
    · dsimp only
      rw [hbytes, h.target, h.data, Bytes.take_slice, Nat.min_eq_left hle,
        Bytes.take_append_slice (Nat.le_add_right _ _)]
    · rcases h.arriving with ha | ⟨ha | ⟨ha, hfull⟩, hrest⟩
      · exact Or.inl ha
      · exact Or.inr ⟨Or.inl ha, hrest⟩
      · refine Or.inr ⟨Or.inr ⟨ha, ?_⟩, hrest⟩
        dsimp only
        omega
  | returning f h =>
    have hz := hquiet h.quiet
    subst hz
    refine .returning f { h with
      quiet := ⟨h.quiet.stage, h.quiet.position, by simpa using h.quiet.data⟩
      credit := ?_ }
    rcases h.credit with ⟨hc, hs, hd⟩ | hd
    · exact Or.inl ⟨hc, hs, ⟨hd.credits, hd.received, hd.sent⟩⟩
    · exact Or.inr ⟨hd.credited, hd.received, hd.sent, hd.credits, hd.credit⟩

theorem Phase.sendCredit (h : w.Phase c capacity) (n : Nat) (buffer : List UInt8)
    (hn : n ≠ 0 → w.importer.credited = true ∧ w.importer.creditSend + n ≤ creditBytes ∧
      buffer = creditOf (w.importer.previous.getD w.importer.sequence)) :
    Phase c capacity { w with
      importer := { w.importer with creditSend := w.importer.creditSend + n }
      credits := w.credits ++
        Bytes.slice buffer w.importer.creditSend (w.importer.creditSend + n) } := by
  by_cases hz : n = 0
  · subst hz
    simpa using h
  · obtain ⟨hcr, hle, rfl⟩ := hn hz
    have hsent : w.creditSent = w.importer.creditSend := if_pos hcr
    have hsettled : ¬ w.Settled := by
      intro hs
      have := hs.sent
      omega
    cases h with
    | idle h => exact absurd h.settled hsettled
    | flight f h => exact absurd h.settled hsettled
    | returning f h =>
      rcases h.credit with ⟨-, -, hs⟩ | hd
      · exact absurd hs hsettled
      · have hrecv := hd.received
        refine .returning f { h with
          quiet := ⟨h.quiet.stage, h.quiet.position, h.quiet.data⟩
          credit := Or.inr ?_ }
        have hsent' : creditSent { w with
            importer := { w.importer with creditSend := w.importer.creditSend + n }
            credits := w.credits ++ Bytes.slice (creditOf (w.importer.previous.getD
              w.importer.sequence)) w.importer.creditSend (w.importer.creditSend + n) } =
            w.importer.creditSend + n := if_pos hcr
        refine ⟨hd.credited, ?_, ?_, ?_, hd.credit⟩ <;> rw [hsent']
        · dsimp only
          omega
        · exact hle
        · dsimp only
          rw [hd.credits, hsent, h.previous, Option.getD_some,
            Bytes.slice_append_slice (by omega) (by omega)]

theorem Phase.receiveCredit (h : w.Phase c capacity) (n : Nat) (bytes : List UInt8)
    (hlen : n ≤ w.credits.length)
    (hbytes : bytes.take (w.exporter.creditReceive + n) =
      w.credit.take w.exporter.creditReceive ++ w.credits.take n) :
    Phase c capacity { w with
      exporter := { w.exporter with creditReceive := w.exporter.creditReceive + n }
      credit := bytes
      credits := w.credits.drop n } := by
  have hz : w.Settled → n = 0 := by
    intro hs
    rw [hs.credits] at hlen
    simpa using hlen
  have hkeep : ∀ hs : w.Settled, Settled { w with
      exporter := { w.exporter with creditReceive := w.exporter.creditReceive + n }
      credit := bytes
      credits := w.credits.drop n } := by
    intro hs
    have hz := hz hs
    subst hz
    exact ⟨by simpa using hs.credits, hs.received, hs.sent⟩
  cases h with
  | idle h =>
    exact .idle { h with
      quiet := ⟨h.quiet.stage, h.quiet.position, h.quiet.data⟩
      settled := hkeep h.settled }
  | flight f h => exact .flight f { h with settled := hkeep h.settled }
  | returning f h =>
    refine .returning f { h with
      quiet := ⟨h.quiet.stage, h.quiet.position, h.quiet.data⟩
      credit := ?_ }
    rcases h.credit with ⟨hc, hst, hs⟩ | hd
    · exact Or.inl ⟨hc, hst, hkeep hs⟩
    · have hrecv := hd.received
      have hsent := hd.sent
      have hle : w.exporter.creditReceive + n ≤ w.creditSent := by
        rw [hd.credits, Bytes.length_slice, length_creditOf] at hlen
        omega
      refine Or.inr ⟨hd.credited, hle, hsent, ?_, ?_⟩
      · dsimp only
        rw [hd.credits, Bytes.drop_slice]
        rfl
      · dsimp only
        rw [hbytes, hd.credit, hd.credits, Bytes.take_slice, Nat.min_eq_left hle,
          Bytes.take_append_slice (Nat.le_add_right _ _)]

/-! ## Reports -/

/-- The exporter learns that its frame has left. -/
theorem Phase.sent (h : w.Phase c capacity) (hst : w.exporter.stage = .sending)
    (hfull : w.exporter.data = w.exporter.length) :
    Phase c capacity { w with
      exporter := { w.exporter with
        stage := if w.exporter.credited then .source else .credit } } := by
  cases h with
  | idle h =>
    rw [h.stage] at hst
    cases hst
  | flight f h =>
    refine .flight f { h with
      stage := Or.inr ⟨?_, hfull⟩
      settled := ⟨h.settled.credits, h.settled.received, h.settled.sent⟩ }
    simp [h.credited]
  | returning f h =>
    rcases h.credit with ⟨hc, -, hs⟩ | hd
    · refine .idle ⟨by simp [hc], h.logs, ?_, ⟨h.quiet.stage, h.quiet.position, h.quiet.data⟩,
        ⟨hs.credits, hs.received, hs.sent⟩⟩
      dsimp only
      rw [h.previous, h.last]
      rfl
    · exact .returning f { h with
        stage := Or.inr (by simp [hd.credited])
        quiet := ⟨h.quiet.stage, h.quiet.position, h.quiet.data⟩
        credit := Or.inr ⟨hd.credited, hd.received, hd.sent, hd.credits, hd.credit⟩ }

/-- Credit bytes exist only for a frame that is returning. -/
theorem Phase.due (h : w.Phase c capacity) (hpos : w.exporter.creditReceive ≠ 0) :
    ∃ f, w.Returning f ∧ w.Due f := by
  cases h with
  | idle h => exact absurd h.settled.received hpos
  | flight f h => exact absurd h.settled.received hpos
  | returning f h =>
    rcases h.credit with ⟨-, -, hs⟩ | hd
    · exact absurd hs.received hpos
    · exact ⟨f, h, hd⟩

/-- The exporter reads a complete credit. -/
theorem Returning.credited {f : Frame} (h : w.Returning f) (hd : w.Due f)
    (hfull : w.exporter.creditReceive = creditBytes) :
    Phase c capacity { w with
      exporter := { w.exporter with
        credited := true
        creditReceive := 0
        stage := if w.exporter.stage = .credit then .source else w.exporter.stage } } := by
  have hrecv := hd.received
  have hle := hd.sent
  have hsent : w.creditSent = creditBytes := by omega
  have hempty : w.credits = [] := by
    rw [hd.credits, hfull, hsent, Bytes.slice_same]
  rcases h.stage with hst | hst
  · exact .returning f { h with
      stage := Or.inl (by simp [hst])
      quiet := ⟨h.quiet.stage, h.quiet.position, h.quiet.data⟩
      credit := Or.inl ⟨rfl, by simp [hst], ⟨hempty, rfl, hsent⟩⟩ }
  · refine .idle ⟨by simp [hst], h.logs, ?_, ⟨h.quiet.stage, h.quiet.position, h.quiet.data⟩,
      ⟨hempty, rfl, hsent⟩⟩
    dsimp only
    rw [h.previous, h.last]
    rfl

/-- The importer learns that its credit has left. -/
theorem Phase.creditSent (h : w.Phase c capacity) (hcr : w.importer.credited = true)
    (hfull : w.importer.creditSend = creditBytes) :
    Phase c capacity { w with importer := { w.importer with credited := false } } := by
  have hsent : w.creditSent = creditBytes := by rw [Wire.creditSent, if_pos hcr, hfull]
  have hkeep : ∀ hs : w.Settled,
      Settled { w with importer := { w.importer with credited := false } } :=
    fun hs => ⟨hs.credits, hs.received, rfl⟩
  cases h with
  | idle h =>
    exact .idle { h with
      quiet := ⟨h.quiet.stage, h.quiet.position, h.quiet.data⟩
      settled := hkeep h.settled }
  | flight f h => exact .flight f { h with settled := hkeep h.settled }
  | returning f h =>
    refine .returning f { h with
      quiet := ⟨h.quiet.stage, h.quiet.position, h.quiet.data⟩
      credit := ?_ }
    rcases h.credit with ⟨hc, hst, hs⟩ | hd
    · exact Or.inl ⟨hc, hst, hkeep hs⟩
    · have hrecv := hd.received
      have hcredits := hd.credits
      rw [hsent] at hrecv hcredits
      exact Or.inr ⟨hd.credited, hrecv, le_refl _, hcredits, hd.credit⟩

/-- Frame bytes at the importer exist only for a frame in flight. -/
theorem Phase.inFlight (h : w.Phase c capacity) (hpos : w.importer.data ≠ 0) :
    ∃ f, w.Flight c capacity f := by
  cases h with
  | idle h => exact absurd h.quiet.position hpos
  | flight f h => exact ⟨f, h⟩
  | returning f h => exact absurd h.quiet.position hpos

/-- The importer reads the header of the frame in flight. -/
theorem Flight.header {f : Frame} (h : w.Flight c capacity f) :
    Phase c capacity { w with
      importer := { w.importer with
        revision := c.revision
        sequence := f.sequence
        length := headerBytes + f.payload.length
        stage := if w.importer.data = headerBytes + f.payload.length then .admission
          else .payload } } := by
  refine .flight f { h with
    arriving := Or.inr ⟨?_, h.length.symm, rfl, h.revision.symm⟩
    settled := ⟨h.settled.credits, h.settled.received, h.settled.sent⟩ }
  by_cases hfull : w.importer.data = headerBytes + f.payload.length
  · exact Or.inr ⟨if_pos hfull, hfull.trans h.length.symm⟩
  · exact Or.inl (if_neg hfull)

/-- What the importer has of a header is the header of the frame in flight. -/
theorem Flight.take_header {f : Frame} (h : w.Flight c capacity f)
    (hlong : headerBytes ≤ w.importer.data) :
    w.target.take headerBytes = Transport.header c f.sequence f.payload.length := by
  have ht := congrArg (List.take headerBytes) h.target
  rw [List.take_take, List.take_take, Nat.min_eq_left hlong] at ht
  rw [ht, Frame.bytes, List.take_left' (length_header _ _ _)]

/-- The importer has more of the payload, perhaps all of it. -/
theorem Flight.payload {f : Frame} (h : w.Flight c capacity f)
    (hst : w.importer.stage = .payload) :
    Phase c capacity { w with
      importer := { w.importer with
        stage := if w.importer.data = w.importer.length then .admission else .payload } } := by
  rcases h.arriving with ha | ⟨-, hlen, hseq, hrev⟩
  · rw [hst] at ha
    cases ha
  · refine .flight f { h with
      arriving := Or.inr ⟨?_, hlen, hseq, hrev⟩
      settled := ⟨h.settled.credits, h.settled.received, h.settled.sent⟩ }
    by_cases hfull : w.importer.data = w.importer.length
    · exact Or.inr ⟨if_pos hfull, hfull.trans hlen⟩
    · exact Or.inl (if_neg hfull)

/-! ## Provision and admission -/

theorem Phase.provide (h : w.Phase c capacity) (hst : w.exporter.stage = .source) (f : Frame)
    (output : List UInt8) (hlast : w.provided.getLast?.all
      (fun g => c.delivery.follows g.sequence f.sequence) = true)
    (hrev : f.revision = c.revision) (hshort : f.payload.length ≤ u32Max)
    (hfits : headerBytes + f.payload.length ≤ capacity)
    (hout : output.take (headerBytes + f.payload.length) = f.bytes c) :
    Phase c capacity { w with
      exporter := { w.exporter with
        sequence := f.sequence
        length := headerBytes + f.payload.length
        data := 0
        credited := false
        stage := .sending }
      source := output
      provided := w.provided ++ [f] } := by
  cases h with
  | idle h =>
    refine .flight f
      { logs := by rw [h.logs]
        previous := h.previous
        follows := ?_
        revision := hrev
        short := hshort
        fits := hfits
        stage := Or.inl rfl
        length := rfl
        sequence := rfl
        credited := rfl
        source := hout
        sent := Nat.zero_le _
        got := h.quiet.position.le
        data := by simp [h.quiet.data, h.quiet.position]
        target := by simp [h.quiet.position]
        arriving := Or.inl h.quiet.stage
        settled := ⟨h.settled.credits, h.settled.received, h.settled.sent⟩ }
    intro last hl
    dsimp only at hl
    rw [h.previous, h.logs] at hl
    cases hp : w.provided.getLast? with
    | none => simp [hp] at hl
    | some g =>
      rw [hp] at hlast hl
      cases hl
      simpa using hlast
  | flight f h =>
    rcases h.stage with h' | ⟨h', -⟩ <;> rw [hst] at h' <;> cases h'
  | returning f h =>
    rcases h.stage with h' | h' <;> rw [hst] at h' <;> cases h'

/-- What the importer hands out is the frame in flight, and its credit becomes due. -/
theorem Phase.admission (h : w.Phase c capacity) (hst : w.importer.stage = .admission) :
    Phase c capacity { w with
      importer := { w.importer with
        previous := some w.importer.sequence
        credited := true
        creditSend := 0
        data := 0
        length := headerBytes
        stage := .header }
      admitted := w.admitted ++ [⟨w.importer.sequence, w.importer.revision,
        Bytes.slice w.target headerBytes w.importer.length⟩] } := by
  cases h with
  | idle h =>
    have := h.quiet.stage
    rw [hst] at this
    cases this
  | returning f h =>
    have := h.quiet.stage
    rw [hst] at this
    cases this
  | flight f h =>
    rcases h.arriving with ha | ⟨ha, hlen, hseq, hrev⟩
    · rw [hst] at ha
      cases ha
    · have hfull : w.importer.data = w.exporter.length := by
        rcases ha with ha | ⟨-, hfull⟩
        · rw [hst] at ha
          cases ha
        · exact hfull
      have hgot := h.got
      have hsent := h.sent
      have htarget : w.target.take w.importer.length = f.bytes c := by
        have ht := h.target
        rw [hfull, ← hlen, List.take_of_length_le (l := f.bytes c)] at ht
        · exact ht
        · rw [Frame.length_bytes, hlen, h.length]
      have hpayload : Bytes.slice w.target headerBytes w.importer.length = f.payload := by
        rw [← Bytes.slice_take (le_refl w.importer.length), htarget, Frame.bytes,
          Bytes.slice_append_right (by simp), length_header, hlen, h.length]
        exact Bytes.slice_self (by omega)
      have hframe : (⟨w.importer.sequence, w.importer.revision,
          Bytes.slice w.target headerBytes w.importer.length⟩ : Frame) = f := by
        rw [hseq, hrev, hpayload]
      rw [hframe]
      refine .returning f
        { logs := h.logs.symm
          last := by simp
          previous := congrArg some hseq
          sequence := h.sequence
          stage := h.stage.imp_right And.left
          sent := by
            dsimp only
            omega
          quiet := ⟨rfl, rfl, ?_⟩
          credit := Or.inr ⟨h.credited, ?_, Nat.zero_le _, ?_, ?_⟩ }
      · have hx : w.exporter.data = w.importer.data := by omega
        dsimp only
        rw [h.data, hx, Bytes.slice_same]
      · exact h.settled.received.le
      · simp [h.settled.credits, h.settled.received, Wire.creditSent]
      · simp [h.settled.received]

end Wire

end Hiway.Transport
