import Hiway.Transport.ProtocolSteps
import Hiway.Transport.Wire

/-!
# Credit against any peer

An importing machine with the ledger of what its host has seen: the frames admitted
so far, the bytes that arrived for the frame under way, and the bytes that left on the
credit lane. The peer is arbitrary, so nothing is assumed of the received bytes, of the
order of the inputs or of the completion sizes.

The next header can overwrite the sequence, length and revision of the machine while
the last credit is half sent. The credit still names the admitted frame because
`previous` and the captured buffer do, and `credited` holds the admission back.

* `Inv.disciplined`: what the invariant says of the frames admitted and the credit owed.
* `inv_step`: every input that leaves the machine open keeps it.
* `run_disciplined`: whatever the peer sends, an importer admits complete frames of its
  contract in sequence, and what it has sent is a prefix of their credits.
-/

namespace Hiway.Transport

open Exec Target

/-- A frame whose admission succeeded: the header that was parsed for it and how many
bytes had arrived. -/
structure Admission where
  header : List UInt8
  received : Nat
  deriving DecidableEq, Repr

namespace Admission

def sequence (a : Admission) : UInt64 := headerSequence a.header

/-- The nine bytes that acknowledge the frame. -/
def credit (a : Admission) : List UInt8 := creditOf a.sequence

@[simp] theorem length_credit (a : Admission) : a.credit.length = creditBytes :=
  length_creditOf _

/-- The header belongs to the contract and everything it announces has arrived. -/
structure Complete [Target] (c : Contract) (a : Admission) : Prop where
  length : a.header.length = headerBytes
  accepted : headerMatches c a.header = true
  received : a.received = headerBytes + headerLength a.header

end Admission

/-- An importing machine and the ledger of its host. `buffer` is the credit captured
when its first byte was submitted. -/
structure Importer where
  protocol : Protocol
  buffer : List UInt8
  header : List UInt8
  received : Nat
  admitted : List Admission
  sent : List UInt8

namespace Importer

def start (p : Protocol) : Importer := ⟨p, [], [], 0, [], []⟩

/-- Every credit that is owed or paid, in the order of the admissions. -/
def credits (i : Importer) : List UInt8 := i.admitted.flatMap Admission.credit

/-- `length` bytes of the request that `op` was accepted for have moved. -/
def moved (i : Importer) (lane : Lane) (effect : Effect) (count : Nat) (buffer : List UInt8) :
    Importer :=
  match lane, effect with
  | .data, _ =>
    { i with
      header := if i.received < headerBytes ∧ headerBytes ≤ i.received + count
        then buffer.take headerBytes else i.header
      received := i.received + count }
  | .creditSend, .transmit _ offset length =>
    { i with sent := i.sent ++ Bytes.slice i.buffer offset (offset + min count length) }
  | _, _ => i

/-- What the host writes down about an input that the machine answered with `r`. -/
def observe (i : Importer) (r : Except Error Unit) : Input → Importer
  | .accepted .creditSend _ =>
    if r = .ok () ∧ i.protocol.offsets.creditSend = 0
    then { i with buffer := i.protocol.credit } else i
  | .completed op (.bytes count) buffer =>
    match i.protocol.laneOf op with
    | none => i
    | some lane =>
      match i.protocol.active.get lane with
      | none => i
      | some (_, effect) => i.moved lane effect count buffer
  | .admitted =>
    if r = .ok () then
      { i with admitted := i.admitted ++ [⟨i.header, i.received⟩], header := [], received := 0 }
    else i
  | _ => i

def step [Target] (i : Importer) (input : Input) : Exec Importer := do
  let (q, r) ← i.protocol.input input
  return { i.observe r input with protocol := q }

def run [Target] (i : Importer) (inputs : List Input) : Exec Importer := steps step i inputs

/-! ## The ledger -/

/-- The credit of the last admitted frame has left up to `offset`, all earlier ones
completely. -/
def Owed (i : Importer) (last : Admission) (offset : Nat) : Prop :=
  ∃ front, i.admitted = front ++ [last] ∧
    i.sent = front.flatMap Admission.credit ++ last.credit.take offset

/-- A credit being sent is the one of the last admitted frame, from where it stopped. -/
def InFlight (i : Importer) (e : Effect) : Prop :=
  ∃ last offset, e = .transmit .creditSend offset (creditBytes - offset) ∧ offset ≤ creditBytes ∧
    i.Owed last offset ∧ i.buffer = last.credit

/-- What holds of the ledger whether the machine is open or closed. -/
structure Ledger [Target] (c : Contract) (i : Importer) : Prop where
  complete : ∀ a ∈ i.admitted, a.Complete c
  follows : i.admitted.IsChain fun a b => c.delivery.follows a.sequence b.sequence = true
  sent : i.sent <+: i.credits
  active : ∀ op e, i.protocol.active.creditSend = some (op, e) → i.InFlight e

/-- A parsed header describes the frame that the machine is receiving. -/
structure Parsed [Target] (c : Contract) (i : Importer) : Prop where
  length : i.header.length = headerBytes
  accepted : headerMatches c i.header = true
  sequence : i.protocol.sequence = headerSequence i.header
  total : i.protocol.length = headerBytes + headerLength i.header
  follows : ∀ last ∈ i.protocol.previous, c.delivery.follows last i.protocol.sequence = true

/-- The frame under way at an open machine. -/
structure Arriving [Target] (c : Contract) (i : Importer) : Prop where
  received : i.received = i.protocol.offsets.data
  parsed : i.protocol.stage = .payload ∨ i.protocol.stage = .admission → i.Parsed c
  beyond : i.protocol.stage = .payload → headerBytes ≤ i.protocol.offsets.data
  full : i.protocol.stage = .admission → i.protocol.offsets.data = i.protocol.length

/-- The credit that an open machine owes. -/
structure Owing (i : Importer) : Prop where
  previous : i.protocol.previous = i.admitted.getLast?.map Admission.sequence
  paid : i.protocol.credited = false → i.sent = i.credits
  owed : i.protocol.credited = true → ∃ last, i.Owed last i.protocol.offsets.creditSend ∧
    (i.protocol.offsets.creditSend ≠ 0 → i.buffer = last.credit)

structure Inv [Target] (c : Contract) (i : Importer) : Prop where
  safe : i.protocol.Safe
  importing : i.protocol.direction = .importing
  contract : i.protocol.contract = c
  ledger : i.Ledger c
  arriving : i.protocol.closed = none → i.Arriving c
  owing : i.protocol.closed = none → i.Owing

/-! ## What the host writes down -/

section Observe

variable (i : Importer) (r : Except Error Unit) (input : Input)

end Observe

variable {c : Contract} {i : Importer}

theorem Owed.sent_le {last : Admission} {offset : Nat} (h : i.Owed last offset) :
    i.sent <+: i.credits := by
  obtain ⟨front, ha, hs⟩ := h
  rw [hs, credits, ha, List.flatMap_append, List.flatMap_singleton]
  exact (List.prefix_append_right_inj _).mpr ⟨_, List.take_append_drop offset last.credit⟩

theorem Owed.paid {last : Admission} (h : i.Owed last creditBytes) : i.sent = i.credits := by
  obtain ⟨front, ha, hs⟩ := h
  rw [hs, credits, ha, List.flatMap_append, List.flatMap_singleton,
    List.take_of_length_le (Admission.length_credit last).le]

/-- Sending on from where the credit stopped. -/
theorem Owed.send {last : Admission} {offset : Nat} (h : i.Owed last offset) (count : Nat)
    (hb : i.buffer = last.credit) :
    Owed { i with sent := i.sent ++ Bytes.slice i.buffer offset (offset + count) } last
      (offset + count) := by
  obtain ⟨front, ha, hs⟩ := h
  refine ⟨front, ha, ?_⟩
  dsimp only
  rw [hs, hb, List.append_assoc, Bytes.take_append_slice (Nat.le_add_right _ _)]

/-- The ledger reads the machine only through the credit it is sending. -/
theorem Ledger.congr [Target] {j : Importer} (h : i.Ledger c) (ha : j.admitted = i.admitted)
    (hs : j.sent = i.sent)
    (hactive : ∀ op e, j.protocol.active.creditSend = some (op, e) →
      i.protocol.active.creditSend = some (op, e) ∧ j.buffer = i.buffer) : j.Ledger c where
  complete := ha ▸ h.complete
  follows := ha ▸ h.follows
  sent := by
    rw [hs, credits, ha]
    exact h.sent
  active := by
    intro op e he
    obtain ⟨he', hb⟩ := hactive op e he
    obtain ⟨last, offset, heq, hle, ⟨front, hadm, hsent⟩, hbuf⟩ := h.active op e he'
    exact ⟨last, offset, heq, hle, ⟨front, ha.trans hadm, hs.trans hsent⟩, hb.trans hbuf⟩

/-! ## Accepted operations -/

/-- What the machine asks of the credit lane is the rest of the last owed credit, and
the captured credit is that credit. -/
theorem Owing.inFlight (h : i.Owing) {e : Effect}
    (he : i.protocol.offer .creditSend = .ok (some e)) :
    InFlight { i with
      buffer := if i.protocol.offsets.creditSend = 0 then i.protocol.credit else i.buffer } e := by
  obtain ⟨-, hcr, hle, rfl⟩ := Protocol.offer_creditSend_request he
  obtain ⟨last, howed, hbuf⟩ := h.owed hcr
  refine ⟨last, _, rfl, hle, howed, ?_⟩
  dsimp only
  split
  · obtain ⟨front, hadm, -⟩ := howed
    have hprev : i.protocol.previous = some last.sequence := by simp [h.previous, hadm]
    simp [Protocol.credit, Admission.credit, creditOf, hprev]
  · rename_i hne
    exact hbuf hne

theorem ledger_accepted [Target] (h : i.Inv c) {q : Protocol} {r : Except Error Unit} {lane : Lane}
    {op : OpId} (hq : i.protocol.input (.accepted lane op) = .ok (q, r)) :
    Ledger c { i.observe r (.accepted lane op) with protocol := q } := by
  cases r with
  | error error =>
    have hkeep : i.observe (.error error) (.accepted lane op) = i := by
      cases lane <;> simp [observe]
    rw [hkeep]
    cases Protocol.input_active hq with
    | same ha =>
      refine h.ledger.congr rfl rfl fun op' e he => ⟨?_, rfl⟩
      rwa [← ha]
    | accept _ _ _ _ _ hok => cases hok
  | ok _ =>
    obtain ⟨hc, -, hstep⟩ := Protocol.input_open hq (Protocol.input_accepted_open hq)
    cases hstep with
    | accept hfree he hr hq =>
      subst hq
      rename_i e
      cases lane with
      | creditSend =>
        have hfl := (h.owing hc).inFlight he
        refine ⟨?_, ?_, ?_, ?_⟩
        · simp only [observe]
          split <;> exact h.ledger.complete
        · simp only [observe]
          split <;> exact h.ledger.follows
        · simp only [observe]
          split <;> exact h.ledger.sent
        · intro op' e' he'
          change some (op, e) = some (op', e') at he'
          cases he'
          obtain ⟨last, offset, heq, hle, ⟨front, hadm, hsent⟩, hbuf⟩ := hfl
          refine ⟨last, offset, heq, hle, ⟨front, ?_, ?_⟩, ?_⟩ <;> simp only [observe]
          · split <;> exact hadm
          · split <;> exact hsent
          · split at hbuf <;> rename_i hz
            · simpa [hz] using hbuf
            · simpa [hz] using hbuf
      | data | creditReceive => exact h.ledger.congr rfl rfl fun op' e he => ⟨he, rfl⟩

/-! ## Completions -/

/-- Whatever moves on the other lanes, the credit ledger stays. -/
theorem moved_other (lane : Lane) (hl : lane ≠ .creditSend) (e : Effect) (count : Nat)
    (buffer : List UInt8) :
    (i.moved lane e count buffer).admitted = i.admitted ∧
      (i.moved lane e count buffer).sent = i.sent ∧
      (i.moved lane e count buffer).buffer = i.buffer := by
  cases lane with
  | creditSend => exact absurd rfl hl
  | data | creditReceive => exact ⟨rfl, rfl, rfl⟩

theorem ledger_completed [Target] (h : i.Inv c) {q : Protocol} {r : Except Error Unit} {op : OpId}
    {result : IoResult} {buffer : List UInt8}
    (hq : i.protocol.input (.completed op result buffer) = .ok (q, r)) :
    Ledger c { i.observe r (.completed op result buffer) with protocol := q } := by
  cases hl : i.protocol.laneOf op with
  | none =>
    have hkeep : i.observe r (.completed op result buffer) = i := by
      cases result <;> simp [observe, hl]
    have ha := Protocol.input_stale_active hl hq
    rw [hkeep]
    refine h.ledger.congr rfl rfl fun op' e he => ⟨?_, rfl⟩
    rwa [← ha]
  | some lane =>
    obtain ⟨e, he⟩ := Protocol.laneOf_some hl
    have ha := Protocol.input_completed_active hl hq
    have hold : ∀ op' e', q.active.creditSend = some (op', e') → lane ≠ .creditSend ∧
        i.protocol.active.creditSend = some (op', e') := by
      intro op' e' hact
      rw [ha] at hact
      cases lane with
      | creditSend => cases hact
      | data | creditReceive => exact ⟨by simp, hact⟩
    have hkeep : ∀ j : Importer, j.admitted = i.admitted → j.sent = i.sent →
        j.buffer = i.buffer → Ledger c { j with protocol := q } := by
      intro j hadm hsent hbuf
      exact h.ledger.congr hadm hsent fun op' e' hact => ⟨(hold op' e' hact).2, hbuf⟩
    cases result with
    | retry | failed code => exact hkeep _ rfl rfl rfl
    | bytes count =>
      have hobs : i.observe r (.completed op (.bytes count) buffer) =
          i.moved lane e count buffer := by
        simp [observe, hl, he]
      rw [hobs]
      by_cases hlane : lane = .creditSend
      · subst hlane
        obtain ⟨last, offset, rfl, hle, howed, hbuf⟩ := h.ledger.active op e he
        have hsend := howed.send (min count (creditBytes - offset)) hbuf
        refine ⟨h.ledger.complete, h.ledger.follows, hsend.sent_le, ?_⟩
        intro op' e' hact
        exact absurd rfl (hold op' e' hact).1
      · obtain ⟨hadm, hsent, hbuf⟩ := moved_other (i := i) lane hlane e count buffer
        exact hkeep _ hadm hsent hbuf

/-! ## Admissions -/

/-- The record of an admission describes a complete frame. -/
theorem Arriving.complete [Target] (h : i.Arriving c) (hs : i.protocol.stage = .admission) :
    Admission.Complete c ⟨i.header, i.received⟩ := by
  have hp := h.parsed (Or.inr hs)
  refine ⟨hp.length, hp.accepted, ?_⟩
  calc i.received = i.protocol.offsets.data := h.received
    _ = i.protocol.length := h.full hs
    _ = headerBytes + headerLength i.header := hp.total

theorem Arriving.chain [Target] (h : i.Arriving c) (ho : i.Owing) (hl : i.Ledger c)
    (hs : i.protocol.stage = .admission) :
    List.IsChain (fun a b : Admission => c.delivery.follows a.sequence b.sequence = true)
      (i.admitted ++ [⟨i.header, i.received⟩]) := by
  have hp := h.parsed (Or.inr hs)
  rw [List.isChain_append]
  refine ⟨hl.follows, List.isChain_singleton _, ?_⟩
  intro a ha b hb
  cases hb
  have hlast : a.sequence ∈ i.protocol.previous := by
    rw [ho.previous]
    exact Option.mem_map_of_mem _ ha
  have hfol := hp.follows _ hlast
  rwa [hp.sequence] at hfol

/-- No credit is being sent while none is owed. -/
theorem Inv.idle [Target] (h : i.Inv c) (hc : i.protocol.closed = none)
    (hcr : i.protocol.credited = false) : i.protocol.active.creditSend = none := by
  cases ha : i.protocol.active.creditSend with
  | none => rfl
  | some a =>
    obtain ⟨op, e⟩ := a
    have hoffer := (h.safe.framed hc).send.active op e ha
    rw [(Protocol.offer_creditSend_request hoffer).2.1] at hcr
    cases hcr

theorem ledger_admitted [Target] (h : i.Inv c) {q : Protocol} {r : Except Error Unit}
    (hq : i.protocol.input .admitted = .ok (q, r)) :
    Ledger c { i.observe r .admitted with protocol := q } := by
  cases r with
  | error error =>
    cases Protocol.input_active hq with
    | same ha =>
      refine h.ledger.congr rfl rfl fun op e he => ⟨?_, rfl⟩
      rwa [← ha]
  | ok _ =>
    obtain ⟨hc, -, hstep⟩ := Protocol.input_open hq (Protocol.input_admitted_open hq)
    cases hstep with
    | admitted hs hcr hq =>
      subst hq
      have harr := h.arriving hc
      have how := h.owing hc
      refine ⟨?_, harr.chain how h.ledger hs, ?_, ?_⟩
      · intro a ha
        rcases List.mem_append.mp ha with ha | ha
        · exact h.ledger.complete a ha
        · cases List.mem_singleton.mp ha
          exact harr.complete hs
      · change i.sent <+: (i.admitted ++ _).flatMap Admission.credit
        rw [how.paid hcr, List.flatMap_append]
        exact List.prefix_append _ _
      · intro op e he
        change i.protocol.active.creditSend = some (op, e) at he
        rw [h.idle hc hcr] at he
        cases he

theorem ledger_step [Target] (h : i.Inv c) {q : Protocol} {r : Except Error Unit} {input : Input}
    (hq : i.protocol.input input = .ok (q, r)) :
    Ledger c { i.observe r input with protocol := q } := by
  cases input with
  | accepted lane op => exact ledger_accepted h hq
  | completed op result buffer => exact ledger_completed h hq
  | admitted => exact ledger_admitted h hq
  | provided | revoked | closed =>
    cases Protocol.input_active hq with
    | same ha =>
      refine h.ledger.congr rfl rfl fun op e he => ⟨?_, rfl⟩
      rwa [← ha]

/-! ## The machine while it is open -/

theorem Arriving.congr [Target] {j : Importer} (h : i.Arriving c)
    (hprev : j.protocol.previous = i.protocol.previous)
    (hstage : j.protocol.stage = i.protocol.stage)
    (hoff : j.protocol.offsets.data = i.protocol.offsets.data)
    (hlen : j.protocol.length = i.protocol.length)
    (hseq : j.protocol.sequence = i.protocol.sequence) (hhead : j.header = i.header)
    (hrecv : j.received = i.received) : j.Arriving c where
  received := by rw [hrecv, hoff, h.received]
  parsed := by
    rw [hstage]
    intro hs
    have hp := h.parsed hs
    exact ⟨by rw [hhead, hp.length], by rw [hhead, hp.accepted], by rw [hseq, hhead, hp.sequence],
      by rw [hlen, hhead, hp.total], by rw [hprev, hseq]; exact hp.follows⟩
  beyond := by
    rw [hstage, hoff]
    exact h.beyond
  full := by
    rw [hstage, hoff, hlen]
    exact h.full

theorem Owing.congr {j : Importer} (h : i.Owing)
    (hprev : j.protocol.previous = i.protocol.previous)
    (hcr : j.protocol.credited = i.protocol.credited)
    (hoff : j.protocol.offsets.creditSend = i.protocol.offsets.creditSend)
    (hadm : j.admitted = i.admitted) (hsent : j.sent = i.sent)
    (hbuf : i.protocol.offsets.creditSend ≠ 0 → j.buffer = i.buffer) : j.Owing where
  previous := by rw [hprev, hadm, h.previous]
  paid := by
    rw [hcr, credits, hadm, hsent]
    exact h.paid
  owed := by
    rw [hcr, hoff]
    intro hc
    obtain ⟨last, ⟨front, ha, hs⟩, hb⟩ := h.owed hc
    exact ⟨last, ⟨front, hadm.trans ha, hsent.trans hs⟩, fun hne => (hbuf hne).trans (hb hne)⟩

/-- More of a frame arrives. The header is read once, when its last byte is there. -/
theorem arriving_data [Target] (h : i.Inv c) (hc : i.protocol.closed = none) {q : Protocol}
    {op : OpId} {e : Effect} {count : Nat} {buffer : List UInt8}
    (ha : i.protocol.active.data = some (op, e))
    (hq : (i.protocol.advance .data count).progress .data buffer = .ok (q, .ok ())) :
    Arriving c { i.moved .data e count buffer with protocol := q } := by
  have hf := h.safe.framed hc
  have harr := h.arriving hc
  have hrecv : i.received + count = i.protocol.offsets.data + count := by rw [harr.received]
  have hoff : (i.protocol.advance .data count).offsets.data = i.protocol.offsets.data + count := rfl
  rcases Protocol.offer_data_request (hf.data.active op e ha) (h.safe.request .data op e ha) with
    ⟨hs, -, rfl⟩ | ⟨hs, -, rfl⟩ | ⟨hs, -, rfl⟩
  · simpa [Protocol.StageOf, h.importing, hs] using hf.data.stage
  · have hlt := hf.data.header hs
    have hs' : (i.protocol.advance .data count).stage = .header := hs
    by_cases hfull : headerBytes ≤ i.protocol.offsets.data + count
    · simp only [Protocol.progress, hs', PerLane.get_data, hoff, if_pos hfull] at hq
      obtain ⟨ho, -, hprev, -, -, hle, hst⟩ := Protocol.parseHeader_ok (Except.ok.inj hq)
      obtain ⟨hlen, hm, hseq, htotal, hfol⟩ := Protocol.parseHeader_parsed (Except.ok.inj hq)
      have hhead : i.received < headerBytes ∧ headerBytes ≤ i.received + count := by
        rw [harr.received]
        exact ⟨hlt, hfull⟩
      have hqoff : q.offsets.data = i.protocol.offsets.data + count := by rw [ho, hoff]
      refine ⟨?_, ?_, ?_, ?_⟩
      · rw [hqoff, ← harr.received]
        rfl
      · intro _
        refine ⟨?_, ?_, ?_, ?_, ?_⟩ <;> simp only [moved, if_pos hhead]
        · exact List.length_take_of_le hlen
        · rw [← h.contract]
          exact hm
        · exact hseq
        · exact htotal
        · rw [hprev, ← h.contract]
          exact hfol
      · intro _
        rw [hqoff]
        exact hfull
      · intro hadm
        change q.stage = .admission at hadm
        rw [hst] at hadm
        split at hadm
        · rename_i heq
          rw [hqoff]
          exact heq
        · cases hadm
    · simp only [Protocol.progress, hs', PerLane.get_data, hoff, if_neg hfull] at hq
      cases hq
      have hne : ∀ s, s ≠ Stage.header → (i.protocol.advance .data count).stage ≠ s := by
        intro s hne he
        exact hne (he.symm.trans hs')
      refine ⟨hrecv, ?_, fun he => absurd he (hne _ (by simp)), fun he => absurd he (hne _ (by simp))⟩
      rintro (he | he)
      · exact absurd he (hne _ (by simp))
      · exact absurd he (hne _ (by simp))
  · have hge := harr.beyond hs
    have hp := harr.parsed (Or.inl hs)
    have hs' : (i.protocol.advance .data count).stage = .payload := hs
    have hhead : ¬(i.received < headerBytes ∧ headerBytes ≤ i.received + count) := by
      rw [harr.received]
      omega
    have hlen : (i.protocol.advance .data count).length = i.protocol.length := rfl
    simp only [Protocol.progress, hs', PerLane.get_data, hoff, hlen] at hq
    have hparsed : ∀ stage, Parsed c { i.moved .data (.receive .data i.protocol.offsets.data
        (i.protocol.length - i.protocol.offsets.data)) count buffer with
        protocol := { i.protocol.advance .data count with stage := stage } } := by
      intro stage
      refine ⟨?_, ?_, ?_, ?_, hp.follows⟩ <;> simp only [moved, if_neg hhead]
      · exact hp.length
      · exact hp.accepted
      · exact hp.sequence
      · exact hp.total
    by_cases hfull : i.protocol.offsets.data + count = i.protocol.length
    · rw [if_pos hfull] at hq
      cases hq
      exact ⟨hrecv, fun _ => hparsed .admission, fun he => Stage.noConfusion he, fun _ => hfull⟩
    · rw [if_neg hfull] at hq
      cases hq
      refine ⟨hrecv, fun _ => ?_, fun _ => Nat.le_add_right_of_le hge, ?_⟩
      · have := hparsed .payload
        rwa [← hs'] at this
      · intro he
        exact absurd (hs'.symm.trans he) (by simp)

theorem moved_creditSend {offset count : Nat} (h : count ≤ creditBytes - offset)
    (buffer : List UInt8) :
    i.moved .creditSend (.transmit .creditSend offset (creditBytes - offset)) count buffer =
      { i with sent := i.sent ++ Bytes.slice i.buffer offset (offset + count) } := by
  simp [moved, Nat.min_eq_left h]

/-- More of the owed credit leaves. -/
theorem owing_creditSend [Target] (h : i.Inv c) (hc : i.protocol.closed = none) {q : Protocol}
    {op : OpId} {e : Effect} {count : Nat} {buffer : List UInt8}
    (ha : i.protocol.active.creditSend = some (op, e)) (hle : count ≤ e.requested)
    (hq : (i.protocol.advance .creditSend count).progress .creditSend buffer = .ok (q, .ok ())) :
    Owing { i.moved .creditSend e count buffer with protocol := q } := by
  have howing := h.owing hc
  have hoffer := (h.safe.framed hc).send.active op e ha
  obtain ⟨-, hcr, hoff, rfl⟩ := Protocol.offer_creditSend_request hoffer
  obtain ⟨last, offset, heq, -, howed, hbuf⟩ := h.ledger.active op _ ha
  cases heq
  simp only [Effect.requested] at hle
  have hsend := howed.send count hbuf
  have hoff' : (i.protocol.advance .creditSend count).offsets.creditSend =
      i.protocol.offsets.creditSend + count := rfl
  rw [moved_creditSend hle]
  simp only [Protocol.progress, PerLane.get_creditSend, hoff'] at hq
  split at hq
  · -- the last byte of the credit
    rename_i hfull
    rw [hfull] at hsend
    have hpaid := hsend.paid
    rw [hfull]
    split at hq
    · cases hq
      exact ⟨howing.previous, fun _ => hpaid, fun hcr => Bool.noConfusion hcr⟩
    · obtain ⟨_, -, hq⟩ := bind_eq_ok.mp hq
      cases hq
      exact ⟨howing.previous, fun _ => hpaid, fun hcr => Bool.noConfusion hcr⟩
  · cases hq
    refine ⟨howing.previous, ?_, fun _ => ⟨last, hsend, fun _ => hbuf⟩⟩
    intro hfalse
    change i.protocol.credited = false at hfalse
    rw [hcr] at hfalse
    cases hfalse

/-! ## One input -/

/-- An input that leaves the machine open keeps the frame under way and the owed credit. -/
theorem current_step [Target] (h : i.Inv c) {q : Protocol} {r : Except Error Unit} {input : Input}
    (hin : i.protocol.input input = .ok (q, r)) (hopen : q.closed = none) :
    Arriving c { i.observe r input with protocol := q } ∧
      Owing { i.observe r input with protocol := q } := by
  obtain ⟨hc, rfl, hstep⟩ := Protocol.input_open hin hopen
  have hf := h.safe.framed hc
  have harr := h.arriving hc
  have how := h.owing hc
  cases hstep with
  | accept hfree he hr hq =>
    subst hq
    rename_i lane op e
    cases lane with
    | creditSend =>
      simp only [observe, true_and]
      split
      · rename_i hz
        exact ⟨harr.congr rfl rfl rfl rfl rfl rfl rfl,
          how.congr rfl rfl rfl rfl rfl fun hne => absurd hz hne⟩
      · exact ⟨harr.congr rfl rfl rfl rfl rfl rfl rfl, how.congr rfl rfl rfl rfl rfl fun _ => rfl⟩
    | data | creditReceive =>
      exact ⟨harr.congr rfl rfl rfl rfl rfl rfl rfl, how.congr rfl rfl rfl rfl rfl fun _ => rfl⟩
  | stale hl hq =>
    subst hq
    rename_i op result buffer
    have hkeep : i.observe (.ok ()) (.completed op result buffer) = i := by
      cases result <;> simp [observe, hl]
    rw [hkeep]
    exact ⟨harr, how⟩
  | retry hl hq =>
    subst hq
    exact ⟨harr.congr rfl rfl rfl rfl rfl rfl rfl, how.congr rfl rfl rfl rfl rfl fun _ => rfl⟩
  | bytes hl ha hpos hle hq =>
    rename_i op count buffer lane e
    have hobs : i.observe (.ok ()) (.completed op (.bytes count) buffer) =
        i.moved lane e count buffer := by
      simp [observe, hl, ha]
    rw [hobs]
    cases lane with
    | data =>
      obtain ⟨hprev, hcr, hoff⟩ := Protocol.progress_data_credit hq
      have hkeep : q.offsets.creditSend = i.protocol.offsets.creditSend := by
        rw [hoff]
        rfl
      exact ⟨arriving_data h hc ha hq, how.congr hprev hcr hkeep rfl rfl fun _ => rfl⟩
    | creditSend =>
      obtain ⟨hprev, hst, hoff, hlen, hseq⟩ := Protocol.progress_creditSend_frame hq
      have hkeep : q.offsets.data = i.protocol.offsets.data := by
        rw [hoff]
        rfl
      refine ⟨harr.congr hprev hst hkeep hlen hseq ?_ ?_,
        owing_creditSend h hc ha hle hq⟩
      · cases e <;> rfl
      · cases e <;> rfl
    | creditReceive =>
      -- an importer only watches this lane
      simp only [Protocol.progress] at hq
      rw [if_pos (show (i.protocol.advance .creditReceive count).direction = .importing from
        h.importing)] at hq
      cases hq
  | provide hs hge hle hq => simpa [Protocol.StageOf, h.importing, hs] using hf.data.stage
  | admitted hs hcr hq =>
    subst hq
    refine ⟨⟨rfl, ?_, ?_, ?_⟩, ⟨?_, ?_, ?_⟩⟩
    · rintro (he | he) <;> cases he
    · intro he
      cases he
    · intro he
      cases he
    · have hp := harr.parsed (Or.inr hs)
      simp [observe, Protocol.admitFrame, Admission.sequence, hp.sequence]
    · intro he
      cases he
    · intro _
      refine ⟨⟨i.header, i.received⟩, ⟨i.admitted, rfl, ?_⟩, fun hne => absurd rfl hne⟩
      exact (how.paid hcr).trans (List.append_nil _).symm

theorem inv_step [Target] (h : i.Inv c) (input : Input) :
    ∃ j, i.step input = .ok j ∧ j.Inv c := by
  obtain ⟨q, r, hq, hsafe, hcontract, hdir, -⟩ := Protocol.input_safe h.safe input
  refine ⟨{ i.observe r input with protocol := q }, by simp only [step, hq, ok_bind, pure_eq], ?_⟩
  exact ⟨hsafe, hdir.trans h.importing, hcontract.trans h.contract, ledger_step h hq,
    fun hopen => (current_step h hq hopen).1, fun hopen => (current_step h hq hopen).2⟩

theorem inv_start [Target] {capacity : Nat} {p : Protocol} (hword : capacity ≤ usizeMax)
    (h : Protocol.Provisioned c .importing capacity p) : (start p).Inv c := by
  have hsafe := (Protocol.provisioned_safe hword h).1
  obtain ⟨a, rfl⟩ := Protocol.provisioned_eq h
  refine ⟨hsafe, rfl, rfl, ⟨?_, List.isChain_nil, List.nil_prefix, ?_⟩, ?_, ?_⟩
  · intro a ha
    cases ha
  · intro op e he
    cases he
  · intro _
    refine ⟨rfl, ?_, ?_, ?_⟩
    · rintro (he | he) <;> cases he
    · intro he
      cases he
    · intro he
      cases he
  · intro _
    refine ⟨rfl, fun _ => rfl, ?_⟩
    intro he
    cases he

/-! ## Credit discipline -/

/-- The credit of `last`, from the byte where it stopped to its end, is what the machine
offers on the credit lane, and every earlier credit has been sent. -/
structure Offered (i : Importer) (offset length : Nat) (last : Admission) : Prop where
  owed : i.Owed last offset
  rest : offset + length = creditBytes
  bytes : (if offset = 0 then i.protocol.credit else i.buffer) = last.credit

structure Disciplined [Target] (c : Contract) (i : Importer) : Prop where
  complete : ∀ a ∈ i.admitted, a.Complete c
  follows : i.admitted.IsChain fun a b => c.delivery.follows a.sequence b.sequence = true
  sent : i.sent <+: i.credits
  offered : ∀ lane offset length,
    i.protocol.effect .creditSend = .ok (some (.transmit lane offset length)) →
    lane = .creditSend ∧ ∃ last, i.Offered offset length last
  withheld : ∀ length revision,
    i.protocol.effect .data = .ok (some (.admission length revision)) → i.sent = i.credits
  refused : ∀ q, i.protocol.input .admitted = .ok (q, .ok ()) → i.sent = i.credits

theorem Inv.disciplined [Target] (h : i.Inv c) : i.Disciplined c where
  complete := h.ledger.complete
  follows := h.ledger.follows
  sent := h.ledger.sent
  offered := by
    intro lane offset length he
    obtain ⟨hc, -, hoffer⟩ := Protocol.effect_request he rfl
    obtain ⟨-, -, -, heq⟩ := Protocol.offer_creditSend_request hoffer
    cases heq
    obtain ⟨last, offset, heq, hle, howed, hbuf⟩ := (h.owing hc).inFlight hoffer
    cases heq
    exact ⟨rfl, last, howed, Nat.add_sub_cancel' hle, hbuf⟩
  withheld := by
    intro length revision he
    obtain ⟨hc, -, hcr⟩ := Protocol.effect_admission he
    exact (h.owing hc).paid hcr
  refused := by
    intro q hq
    obtain ⟨hc, -, hstep⟩ := Protocol.input_open hq (Protocol.input_admitted_open hq)
    cases hstep with
    | admitted hs hcr _ => exact (h.owing hc).paid hcr

/-- Whatever the peer sends, an importer admits complete frames of its contract in
sequence, and what it has sent on the credit lane is a prefix of the credits of the
frames it admitted. It offers no byte of a credit before the admission of its frame and
no admission before the last credit has left completely. -/
theorem run_disciplined [Target] (c : Contract) (capacity : Nat) (hword : capacity ≤ usizeMax)
    (p : Protocol) (hp : Protocol.Provisioned c .importing capacity p) (inputs : List Input) :
    ∃ i, (start p).run inputs = .ok i ∧ i.Disciplined c := by
  obtain ⟨i, hi, hinv⟩ := steps_invariant (fun i input h => inv_step (c := c) h input)
    (inv_start hword hp) inputs
  exact ⟨i, hi, hinv.disciplined⟩

/-- A frame of one byte is admitted and five bytes of its credit are still owed. -/
theorem run_disciplined_partial :
    let _ := Target.x64
    let c : Contract := ⟨⟨7⟩, 1, 1, .ordered⟩
    ∃ p i, Protocol.new c .importing 64 = .ok p ∧
      (start p).run [.accepted .data ⟨0, 1⟩,
        .completed ⟨0, 1⟩ (.bytes 39) (Transport.header c 3 1 ++ [5]), .admitted,
        .accepted .creditSend ⟨1, 1⟩, .completed ⟨1, 1⟩ (.bytes 4) []] = .ok i ∧
      i.admitted.length = 1 ∧ i.sent.length = 4 ∧ i.Disciplined c := by
  intro _ c
  obtain ⟨p, hp⟩ : ∃ p, Protocol.new c .importing 64 = .ok p := ⟨_, rfl⟩
  obtain ⟨i, hi, hd⟩ := run_disciplined c 64 (by decide) p (Or.inl hp) [.accepted .data ⟨0, 1⟩,
    .completed ⟨0, 1⟩ (.bytes 39) (Transport.header c 3 1 ++ [5]), .admitted,
    .accepted .creditSend ⟨1, 1⟩, .completed ⟨1, 1⟩ (.bytes 4) []]
  obtain ⟨j, hj, htest⟩ : ∃ j, (start p).run [.accepted .data ⟨0, 1⟩,
      .completed ⟨0, 1⟩ (.bytes 39) (Transport.header c 3 1 ++ [5]), .admitted,
      .accepted .creditSend ⟨1, 1⟩, .completed ⟨1, 1⟩ (.bytes 4) []] = .ok j ∧
      (j.admitted.length == 1 && j.sent.length == 4) = true := by
    cases hp
    exact Exec.of_any (by decide +kernel)
  rw [hi] at hj
  cases hj
  simp only [Bool.and_eq_true, beq_iff_eq] at htest
  exact ⟨p, i, hp, hi, htest.1, htest.2, hd⟩

end Importer

end Hiway.Transport
