import Hiway.Transport.Delivery
import Hiway.Transport.Importer
import Hiway.Unix.Link

/-!
# The two implementations of the wire format agree

The protocol machine parses what has arrived in a buffer, at stages and offsets; the
Unix backend reads exactly one header or one credit at a time. Both write the same
frames, both accept the same headers and credits, and where they refuse they refuse for
the same reason.

* `encodesAlike`: both backends write the same frames.
* `parseHeader_answers`, `decodesAlike`: they give corresponding answers to every header, by
  the same checks in the same order.
* `parseCredit_answers`, `creditsAlike`: and to every credit.
* `backends_agree`: all three together.
-/

namespace Hiway.Unix

open Exec Target Transport

/-! ## Encoding -/

theorem encodeHeader_eq {c : Contract} {sequence : UInt64} {length : Nat}
    (h : length ≤ u32Max) : encodeHeader c sequence length = .ok (header c sequence length) := by
  have hrep : headerBytes ≤ (List.replicate headerBytes (0 : UInt8)).length := by simp
  rw [encodeHeader, if_neg (by omega), writeHeader_eq hrep]
  simp

/-- What both encoders need: the payload fits, has a 32-bit length and encodes to it. -/
theorem encodeData_eq_ok {α : Type} {E : WireCodec α} {sequence : UInt64} {payload : α}
    {buffer head body : List UInt8} :
    encodeData E sequence payload buffer = .ok (head, body) ↔
      E.encodedLen payload ≤ buffer.length ∧ E.encodedLen payload ≤ u32Max ∧
        E.encode payload (buffer.take (E.encodedLen payload)) =
          (.ok (E.encodedLen payload), body) ∧
        head = header E.contract sequence (E.encodedLen payload) := by
  unfold encodeData
  dsimp only
  constructor
  · intro h
    split at h
    · cases h
    · rename_i hfit
      split at h
      · cases h
      · rename_i encoded henc
        split at h
        · cases h
        · rename_i heq
          push Not at heq
          by_cases hu : E.encodedLen payload ≤ u32Max
          · rw [encodeHeader_eq hu] at h
            cases h
            exact ⟨Nat.le_of_not_gt hfit, hu, Prod.ext (henc.trans (congrArg _ heq)) rfl, rfl⟩
          · rw [encodeHeader, if_pos (Nat.lt_of_not_le hu)] at h
            cases h
  · rintro ⟨hfit, hu, henc, rfl⟩
    rw [if_neg (Nat.not_lt.mpr hfit), henc]
    simp [encodeHeader_eq hu]

theorem encodeFrame_eq_ok [Target] {α : Type} {E : WireCodec α} {sequence : UInt64} {payload : α}
    {output out : List UInt8} {total : Nat} (hword : output.length ≤ usizeMax) :
    encodeFrame E sequence payload output = (.ok total, out) ↔
      total = headerBytes + E.encodedLen payload ∧ total ≤ output.length ∧
        E.encodedLen payload ≤ u32Max ∧ ∃ body,
          E.encode payload (Bytes.slice output headerBytes total) =
            (.ok (E.encodedLen payload), body) ∧
          out = writeHeader E.contract sequence (E.encodedLen payload)
            (Bytes.write output headerBytes body) := by
  unfold encodeFrame
  dsimp only
  constructor
  · intro h
    split at h
    · cases h
    · rename_i total' hadd
      obtain ⟨-, rfl⟩ := checkedAdd_eq_some.mp hadd
      split at h
      · cases h
      · rename_i hfit
        split at h
        · cases h
        · rename_i hu
          split at h
          · cases h
          · rename_i written henc
            split at h
            · cases h
            · rename_i heq
              push Not at heq
              cases h
              exact ⟨rfl, Nat.le_of_not_gt hfit, Nat.le_of_not_lt hu, _,
                Prod.ext (henc.trans (congrArg _ heq)) rfl, rfl⟩
  · rintro ⟨rfl, hfit, hu, body, henc, rfl⟩
    have hadd : checkedAdd headerBytes (E.encodedLen payload) =
        some (headerBytes + E.encodedLen payload) :=
      checkedAdd_eq_some.mpr ⟨hfit.trans hword, rfl⟩
    rw [hadd]
    simp [Nat.not_lt.mpr hfit, Nat.not_lt.mpr hu, henc]

/-- Over storage with room for a header and a payload of `m` bytes, the two encoders
succeed together, and the frame is what the Unix backend writes in two pieces. -/
def EncodesAlike [Target] {α : Type} (E : WireCodec α) (m : Nat) : Prop :=
  ∀ (sequence : UInt64) (payload : α) (output : List UInt8), output.length = headerBytes + m →
    (∀ head body, encodeData E sequence payload (output.drop headerBytes) = .ok (head, body) →
      ∃ out, encodeFrame E sequence payload output =
        (.ok (head.length + body.length), out) ∧
        out.take (head.length + body.length) = head ++ body) ∧
    (∀ total out, encodeFrame E sequence payload output = (.ok total, out) →
      ∃ head body, encodeData E sequence payload (output.drop headerBytes) = .ok (head, body) ∧
        total = head.length + body.length)

theorem encodesAlike [Target] {α : Type} (E : WireCodec α) {m : Nat}
    (hword : headerBytes + m ≤ usizeMax) : EncodesAlike E m := by
  intro sequence payload output hlen
  have hslice : Bytes.slice output headerBytes (headerBytes + E.encodedLen payload) =
      (output.drop headerBytes).take (E.encodedLen payload) := by
    rw [Bytes.slice, Nat.add_sub_cancel_left]
  have hbody : ∀ {body}, E.encodedLen payload ≤ m →
      E.encode payload ((output.drop headerBytes).take (E.encodedLen payload)) =
        (.ok (E.encodedLen payload), body) → body.length = E.encodedLen payload := by
    intro body hfit henc
    have h := E.encode_length payload ((output.drop headerBytes).take (E.encodedLen payload))
    rw [henc, List.length_take, List.length_drop] at h
    dsimp only at h
    omega
  have hdrop : (output.drop headerBytes).length = m := by
    rw [List.length_drop]
    omega
  constructor
  · intro head body h
    obtain ⟨hfit, hu, henc, rfl⟩ := encodeData_eq_ok.mp h
    rw [hdrop] at hfit
    have hlenb := hbody hfit henc
    rw [length_header]
    refine ⟨writeHeader E.contract sequence (E.encodedLen payload)
      (Bytes.write output headerBytes body), ?_, ?_⟩
    · rw [hlenb]
      exact (encodeFrame_eq_ok (by omega)).mpr ⟨rfl, by omega, hu, body, by rw [hslice, henc], rfl⟩
    · exact take_writeHeader_write (by omega)
  · intro total out h
    obtain ⟨rfl, hfit, hu, body, henc, -⟩ := (encodeFrame_eq_ok (by omega)).mp h
    rw [hslice] at henc
    have hlenb := hbody (by omega) henc
    refine ⟨header E.contract sequence (E.encodedLen payload), body,
      encodeData_eq_ok.mpr ⟨by omega, hu, henc, rfl⟩, ?_⟩
    rw [length_header, hlenb]

/-! ## Headers -/

/-- Comparing the decoded fields is comparing the encoded ones. -/
theorem headerMatches_iff (c : Contract) {header : List UInt8} (hlen : header.length = headerBytes) :
    headerMatches c header = true ↔
      ¬(Bytes.slice header 0 4 ≠ magic ∨
        (⟨BitVec.ofNat 128 (Bytes.ofLe (Bytes.slice header 4 20))⟩ : EventId) ≠ c.event ∨
        UInt16.ofNat (Bytes.ofLe (Bytes.slice header 20 22)) ≠ c.major) := by
  have h38 : header.length = 38 := hlen
  have hevent : Bytes.slice header 4 20 = Bytes.toLe 16 c.event.raw.toNat ↔
      (⟨BitVec.ofNat 128 (Bytes.ofLe (Bytes.slice header 4 20))⟩ : EventId) = c.event := by
    have hl : (Bytes.slice header 4 20).length = 16 := by
      rw [Bytes.length_slice]
      omega
    have hlt := Bytes.ofLe_lt (Bytes.slice header 4 20)
    rw [hl] at hlt
    rw [Bytes.eq_toLe_iff hl (by have := c.event.raw.isLt; norm_num; omega)]
    obtain ⟨event⟩ := c.event
    rw [EventId.mk.injEq, ← BitVec.toNat_inj, BitVec.toNat_ofNat,
      Nat.mod_eq_of_lt (by norm_num at hlt ⊢; omega)]
  have hmajor : Bytes.slice header 20 22 = Bytes.toLe 2 c.major.toNat ↔
      UInt16.ofNat (Bytes.ofLe (Bytes.slice header 20 22)) = c.major := by
    have hl : (Bytes.slice header 20 22).length = 2 := by
      rw [Bytes.length_slice]
      omega
    have hlt := Bytes.ofLe_lt (Bytes.slice header 20 22)
    rw [hl] at hlt
    rw [Bytes.eq_toLe_iff hl (by have := c.major.toNat_lt; norm_num; omega),
      ← UInt16.toNat_inj, UInt16.toNat_ofNat', Nat.mod_eq_of_lt (by norm_num at hlt ⊢; omega)]
  simp only [headerMatches, decide_eq_true_eq, hevent, hmajor, not_or, not_not, ne_eq]

/-- An answer of the protocol machine corresponds to one of the Unix backend. -/
def Answers (q : Protocol) (r : Except Error Unit) :
    Except IpcError (UInt64 × SchemaRevision × Nat) → Prop
  | .ok (sequence, revision, length) => r = .ok () ∧ q.sequence = sequence ∧
      q.revision = revision ∧ q.length = headerBytes + length
  | .error e => ∃ error, e.recorded = some error ∧ r = .error error

theorem acceptHeader_oversized [Target] {c : Contract} {header : List UInt8} {m : Nat}
    {previous : Option UInt64} (hlen : header.length = headerBytes)
    (hm : headerMatches c header = true) (hbig : m < headerLength header) :
    acceptHeader c header m previous = .error (.oversized (headerLength header) m) := by
  simp only [acceptHeader, decodeHeader]
  rw [if_neg ((headerMatches_iff c hlen).mp hm), if_pos hbig]
  rfl

theorem acceptHeader_fits [Target] {c : Contract} {header : List UInt8} {m : Nat}
    {previous : Option UInt64} (hlen : header.length = headerBytes)
    (hm : headerMatches c header = true) (hfit : headerLength header ≤ m) :
    acceptHeader c header m previous =
      if previous.any fun last => !c.delivery.follows last (headerSequence header) then
        .error .protocol
      else .ok (headerSequence header, headerRevision header, headerLength header) := by
  simp only [acceptHeader, decodeHeader]
  rw [if_neg ((headerMatches_iff c hlen).mp hm), if_neg (Nat.not_lt.mpr hfit)]
  rfl

theorem acceptHeader_foreign [Target] {c : Contract} {header : List UInt8} {m : Nat}
    {previous : Option UInt64} (hlen : header.length = headerBytes)
    (hm : headerMatches c header = false) : acceptHeader c header m previous = .error .protocol := by
  have hbad : ¬headerMatches c header = true := by simp [hm]
  rw [headerMatches_iff c hlen, not_not] at hbad
  simp only [acceptHeader, decodeHeader]
  rw [if_pos hbad]
  rfl

/-- The header checks are made in the same order on both sides. -/
theorem parseHeader_answers [Target] {p q : Protocol} {r : Except Error Unit} {m offset : Nat}
    {buffer : List UInt8} (hword : headerBytes + m ≤ usizeMax)
    (hcap : p.capacity = headerBytes + m) (hbuf : headerBytes ≤ buffer.length)
    (hoff : offset ≤ headerBytes + headerLength (buffer.take headerBytes))
    (h : p.parseHeader offset buffer = (q, r)) :
    Answers q r (acceptHeader p.contract (buffer.take headerBytes) m p.previous) := by
  have hlen : (buffer.take headerBytes).length = headerBytes := List.length_take_of_le hbuf
  unfold Protocol.parseHeader at h
  rw [if_neg (Nat.not_lt.mpr hbuf)] at h
  dsimp only at h
  split at h
  · rename_i hm
    change headerMatches p.contract (buffer.take headerBytes) = false at hm
    cases h
    rw [acceptHeader_foreign hlen hm]
    exact ⟨_, rfl, rfl⟩
  · rename_i hm
    have hm : headerMatches p.contract (buffer.take headerBytes) = true := by simpa using hm
    split at h
    · -- the frame length is not representable, let alone within the bound
      rename_i hadd
      cases h
      have hbig : m < headerLength (buffer.take headerBytes) := by
        by_contra hle
        have hsome : checkedAdd headerBytes (headerLength (buffer.take headerBytes)) =
            some (headerBytes + headerLength (buffer.take headerBytes)) :=
          checkedAdd_eq_some.mpr ⟨by omega, rfl⟩
        rw [hsome] at hadd
        cases hadd
      rw [acceptHeader_oversized hlen hm hbig]
      exact ⟨_, rfl, rfl⟩
    · rename_i length hadd
      obtain ⟨-, rfl⟩ := checkedAdd_eq_some.mp hadd
      split at h
      · rename_i hc
        cases h
        simp only [Protocol.observeSequence_eq, Protocol.account_capacity, hcap] at hc
        rw [acceptHeader_oversized hlen hm (by omega)]
        exact ⟨_, rfl, rfl⟩
      · rename_i hc
        simp only [Protocol.observeSequence_eq, Protocol.account_capacity, hcap] at hc
        rw [if_neg (Nat.not_lt.mpr hoff)] at h
        rw [acceptHeader_fits hlen hm (by omega)]
        split at h
        · rename_i hf
          change p.previous.any (fun last => !p.contract.delivery.follows last
            (headerSequence (buffer.take headerBytes))) = true at hf
          cases h
          rw [if_pos hf]
          exact ⟨_, rfl, rfl⟩
        · rename_i hf
          change ¬p.previous.any (fun last => !p.contract.delivery.follows last
            (headerSequence (buffer.take headerBytes))) = true at hf
          cases h
          rw [if_neg hf]
          exact ⟨rfl, rfl, rfl, rfl⟩

/-- Every header that is complete in the buffer, with no byte beyond the frame that it
declares, is answered alike. -/
def DecodesAlike [Target] (c : Contract) (m : Nat) : Prop :=
  ∀ (start p : Protocol) (inputs : List Input), Protocol.Provisioned c .importing
      (headerBytes + m) start → start.run inputs = .ok p → p.closed = none → p.stage = .header →
    ∀ (op : OpId) (count : Nat) (buffer : List UInt8), p.laneOf op = some .data →
      headerBytes ≤ p.offsets.data + count → p.offsets.data + count ≤ headerBytes + m →
      headerBytes ≤ buffer.length →
      p.offsets.data + count ≤ headerBytes + headerLength (buffer.take headerBytes) →
      ∃ q r, p.input (.completed op (.bytes count) buffer) = .ok (q, r) ∧
        Answers q r (acceptHeader c (buffer.take headerBytes) m p.previous)

/-- A run keeps the machine's provisioning. -/
theorem run_provisioned [Target] {c : Contract} {direction : Direction} {capacity : Nat}
    {start p : Protocol} (hword : capacity ≤ usizeMax)
    (hp : Protocol.Provisioned c direction capacity start) {inputs : List Input}
    (hrun : start.run inputs = .ok p) :
    p.Safe ∧ p.contract = c ∧ p.direction = direction ∧ p.capacity = capacity := by
  obtain ⟨hsafe, hcap⟩ := Protocol.provisioned_safe hword hp
  have hstart : start.contract = c ∧ start.direction = direction := by
    obtain ⟨a, rfl⟩ := Protocol.provisioned_eq hp
    exact ⟨rfl, rfl⟩
  have hstep : ∀ (s : Protocol) (i : Input), (s.Safe ∧ s.contract = c ∧ s.direction = direction ∧
      s.capacity = capacity) → ∃ q, Protocol.next s i = .ok q ∧ q.Safe ∧ q.contract = c ∧
        q.direction = direction ∧ q.capacity = capacity := by
    rintro s i ⟨hs, h1, h2, h3⟩
    obtain ⟨q, r, hq, hsafe, hc, hd, hcap⟩ := Protocol.input_safe hs i
    exact ⟨q, by simp only [Protocol.next, hq, ok_bind, pure_eq], hsafe, hc.trans h1,
      hd.trans h2, hcap.trans h3⟩
  obtain ⟨q, hq, hinv⟩ := steps_invariant hstep ⟨hsafe, hstart.1, hstart.2, hcap⟩ inputs
  rw [Protocol.run, hq] at hrun
  cases hrun
  exact hinv

theorem Answers.settle {q : Protocol} {r : Except Error Unit} {i : Input}
    {x : Except IpcError (UInt64 × SchemaRevision × Nat)} (h : Answers q r x) :
    Answers ((q.conclude r).settle i) r x := by
  have hs := Protocol.settle_eq (q.conclude r) i
  cases x with
  | error e => exact h
  | ok x =>
    obtain ⟨hr, h1, h2, h3⟩ := h
    subst hr
    rcases hs with hs | ⟨f, hs⟩ <;> rw [hs] <;> exact ⟨rfl, h1, h2, h3⟩

theorem decodesAlike [Target] (c : Contract) {m : Nat} (hword : headerBytes + m ≤ usizeMax) :
    DecodesAlike c m := by
  intro start p inputs hp hrun hc hs op count buffer hl hge hle hbuf hdeclared
  obtain ⟨hsafe, hcontract, -, hcap⟩ := run_provisioned hword hp hrun
  have hf := hsafe.framed hc
  obtain ⟨e, ha⟩ := Protocol.laneOf_some hl
  have hlt := hf.data.header hs
  have hreq : e = .receive .data p.offsets.data (p.capacity - p.offsets.data) := by
    rcases Protocol.offer_data_request (hf.data.active op e ha) (hsafe.request .data op e ha) with
      ⟨hs', -⟩ | ⟨-, -, he⟩ | ⟨hs', -⟩
    · simp [hs] at hs'
    · exact he
    · simp [hs] at hs'
  have hcount : count ≤ e.requested := by
    rw [hreq, Effect.requested]
    omega
  obtain ⟨q, r, hparse⟩ : ∃ q r, (p.advance .data count).parseHeader
      (p.offsets.data + count) buffer = (q, r) := ⟨_, _, rfl⟩
  have hprog : (p.advance .data count).progress .data buffer = .ok (q, r) := by
    have hs' : (p.advance .data count).stage = .header := hs
    have hoff : (p.advance .data count).offsets.data = p.offsets.data + count := rfl
    simp only [Protocol.progress, hs', PerLane.get_data, hoff, if_pos hge, hparse]
  refine ⟨_, r, Protocol.input_progress hsafe hc hl ha (by omega) hcount hprog, ?_⟩
  have hanswers := parseHeader_answers (p := p.advance .data count) hword hcap hbuf hdeclared hparse
  rw [show (p.advance .data count).contract = c from hcontract] at hanswers
  exact hanswers.settle

/-! ## Credits -/

/-- Where an exporter stands when a credit arrives. -/
inductive Situation where
  | idle
  | uncredited (sequence : UInt64)
  | credited (sequence : UInt64)
  deriving DecidableEq, Repr

def Credits.At (credits : Credits) : Situation → Prop
  | .idle => credits.outstanding = false
  | .uncredited sequence => credits.outstanding = true ∧ credits.sequence = sequence
  | .credited sequence => credits.outstanding = false ∧ credits.sequence = sequence

/-- The machine forgets a credited frame once all of it has been sent. -/
def ExporterAt (p : Protocol) : Situation → Prop
  | .idle => p.stage = .source
  | .uncredited sequence =>
    (p.stage = .sending ∨ p.stage = .credit) ∧ p.credited = false ∧ p.sequence = sequence
  | .credited sequence => p.stage = .sending ∧ p.credited = true ∧ p.sequence = sequence

/-- A frame that waits for its credit has none. -/
def Waits (p : Protocol) : Prop := p.closed = none → p.stage = .credit → p.credited = false

theorem waits_progress [Target] {p q : Protocol} {lane : Lane} {buffer : List UInt8}
    (h : p.stage = .credit → p.credited = false)
    (hq : p.progress lane buffer = .ok (q, .ok ())) (hs : q.stage = .credit) :
    q.credited = false := by
  cases lane with
  | data =>
    obtain ⟨-, hcr, -⟩ := Protocol.progress_data_credit hq
    rw [hcr]
    simp only [Protocol.progress] at hq
    split at hq
    · rename_i hst
      split at hq
      · cases hc : p.credited with
        | false => rfl
        | true =>
          simp only [hc, if_true] at hq
          cases hq
          cases hs
      · cases hq
        exact h hs
    · split at hq
      · obtain ⟨-, -, -, -, -, -, hst⟩ := Protocol.parseHeader_ok (Except.ok.inj hq)
        rw [hst] at hs
        split at hs <;> cases hs
      · cases hq
        exact h hs
    · rename_i hst
      cases hq
      split at hs
      · cases hs
      · exact h hs
    · cases hq
  | creditSend =>
    simp only [Protocol.progress] at hq
    split at hq
    · split at hq
      · cases hq
        rfl
      · obtain ⟨_, -, hq⟩ := bind_eq_ok.mp hq
        cases hq
        rfl
    · cases hq
      exact h hs
  | creditReceive =>
    simp only [Protocol.progress] at hq
    split at hq
    · cases hq
    · split at hq
      · obtain ⟨-, hst, -, -, -, -, hqst⟩ := Protocol.parseCredit_ok (Except.ok.inj hq)
        rw [hqst] at hs
        split at hs
        · cases hs
        · rename_i hne
          exact absurd hs hne
      · cases hq
        exact h hs

theorem waits_input [Target] {p q : Protocol} {i : Input} {r : Except Error Unit}
    (h : Waits p) (hin : p.input i = .ok (q, r)) : Waits q := by
  intro hq hs
  obtain ⟨hc, -, hstep⟩ := Protocol.input_open hin hq
  have hp := h hc
  cases hstep with
  | accept hfree he hr hq =>
    subst hq
    exact hp hs
  | stale hl hq =>
    subst hq
    exact hp hs
  | retry hl hq =>
    subst hq
    exact hp hs
  | bytes hl ha hpos hle hq =>
    rename_i op count buffer lane e
    have hp' : (p.advance lane count).stage = .credit → (p.advance lane count).credited = false :=
      hp
    exact waits_progress hp' hq hs
  | provide _ _ _ hq =>
    subst hq
    cases hs
  | admitted _ _ hq =>
    subst hq
    cases hs

/-- Every open exporter is in one of the situations. -/
theorem run_situated [Target] {c : Contract} {capacity : Nat} {start p : Protocol}
    (hword : capacity ≤ usizeMax) (hp : Protocol.Provisioned c .exporting capacity start)
    {inputs : List Input} (hrun : start.run inputs = .ok p) (hc : p.closed = none) :
    ∃ situation, ExporterAt p situation := by
  obtain ⟨hsafe, -, hd, -⟩ := run_provisioned hword hp hrun
  have hstart : Waits start := by
    obtain ⟨a, rfl⟩ := Protocol.provisioned_eq hp
    intro _ hs
    cases hs
  have hwaits : Waits p := by
    refine steps_preserves ?_ hstart hrun
    intro s i s' hs hnext
    obtain ⟨⟨q, r⟩, hin, hnext⟩ := bind_eq_ok.mp hnext
    cases hnext
    exact waits_input hs hin
  have hstage := (hsafe.framed hc).data.stage
  rw [hd] at hstage
  rcases hstage with hs | hs | hs
  · exact ⟨.idle, hs⟩
  · cases hcr : p.credited with
    | true => exact ⟨.credited p.sequence, hs, hcr, rfl⟩
    | false => exact ⟨.uncredited p.sequence, Or.inl hs, hcr, rfl⟩
  · exact ⟨.uncredited p.sequence, Or.inr hs, hwaits hc hs, rfl⟩

/-- A credit names a sequence: its first byte is one and the rest decodes to it. -/
theorem credit_fields {frame : List UInt8} (hlen : frame.length = creditBytes)
    (sequence : UInt64) :
    (Bytes.slice frame 0 1 = [1] ↔ frame[0]? = some 1) ∧
      (Bytes.slice frame 1 creditBytes = Bytes.toLe 8 sequence.toNat ↔
        UInt64.ofNat (Bytes.ofLe (Bytes.slice frame 1 creditBytes)) = sequence) := by
  constructor
  · cases frame with
    | nil => cases hlen
    | cons b rest => simp [Bytes.slice]
  · have hl : (Bytes.slice frame 1 creditBytes).length = 8 := by
      have h9 : frame.length = 9 := hlen
      have hc : creditBytes = 9 := rfl
      rw [Bytes.length_slice]
      omega
    have hlt := Bytes.ofLe_lt (Bytes.slice frame 1 creditBytes)
    rw [hl] at hlt
    rw [Bytes.eq_toLe_iff hl (by have := sequence.toNat_lt; norm_num; omega),
      ← UInt64.toNat_inj, UInt64.toNat_ofNat', Nat.mod_eq_of_lt (by norm_num at hlt ⊢; omega)]

/-- After an accepted credit the frame is credited, and forgotten by a machine that had
sent all of it. -/
def CreditAnswers (situation : Situation) (q : Protocol) (r : Except Error Unit) :
    Except IpcError (Credits × Option UInt64) → Prop
  | .ok (credits, _) => r = .ok () ∧ ∃ sequence, situation = .uncredited sequence ∧
      credits.At (.credited sequence) ∧ (ExporterAt q (.credited sequence) ∨ ExporterAt q .idle)
  | .error e => e = .protocol ∧ r = .error .protocol

theorem receive_idle {credits : Credits} (h : credits.outstanding = false) (frame : List UInt8) :
    credits.receive frame = .error .protocol := by
  simp [Credits.receive, h]

theorem parseCredit_answers {p q : Protocol} {r : Except Error Unit} {buffer : List UInt8}
    {situation : Situation} {credits : Credits} (hp : ExporterAt p situation)
    (hcredits : credits.At situation) (hbuf : creditBytes ≤ buffer.length)
    (h : p.parseCredit buffer = (q, r)) :
    CreditAnswers situation q r (credits.receive (buffer.take creditBytes)) := by
  have hlen : (buffer.take creditBytes).length = creditBytes := List.length_take_of_le hbuf
  obtain ⟨hone, hseq⟩ := credit_fields hlen p.sequence
  unfold Protocol.parseCredit at h
  rw [if_neg (Nat.not_lt.mpr hbuf)] at h
  dsimp only at h
  cases situation with
  | idle =>
    have hs : p.stage = .source := hp
    rw [receive_idle hcredits]
    rw [if_pos (Or.inr (Or.inr (Or.inr (by simp [hs]))))] at h
    cases h
    exact ⟨rfl, rfl⟩
  | credited sequence =>
    obtain ⟨-, hcr, -⟩ := hp
    rw [receive_idle hcredits.1]
    rw [if_pos (Or.inr (Or.inr (Or.inl hcr)))] at h
    cases h
    exact ⟨rfl, rfl⟩
  | uncredited sequence =>
    obtain ⟨hs, hcr, rfl⟩ := hp
    obtain ⟨hout, hsequence⟩ := hcredits
    simp only [Credits.receive]
    split at h
    · rename_i hbad
      cases h
      have hunix : (buffer.take creditBytes)[0]? ≠ some 1 ∨ credits.outstanding = false ∨
          UInt64.ofNat (Bytes.ofLe (Bytes.slice (buffer.take creditBytes) 1 creditBytes)) ≠
            credits.sequence := by
        rcases hbad with hbad | hbad | hbad | hbad
        · exact Or.inl fun hfirst => hbad (hone.mpr hfirst)
        · refine Or.inr (Or.inr ?_)
          rw [hsequence]
          exact fun hs => hbad (hseq.mpr hs)
        · rw [hcr] at hbad
          cases hbad
        · exact absurd hs hbad
      rw [if_pos hunix]
      exact ⟨rfl, rfl⟩
    · rename_i hgood
      push Not at hgood
      obtain ⟨h1, h2, -, -⟩ := hgood
      have hunix : ¬((buffer.take creditBytes)[0]? ≠ some 1 ∨ credits.outstanding = false ∨
          UInt64.ofNat (Bytes.ofLe (Bytes.slice (buffer.take creditBytes) 1 creditBytes)) ≠
            credits.sequence) := by
        simp only [hone.mp h1, hseq.mp h2, hout, hsequence]
        simp
      rw [if_neg hunix]
      split at h <;> rename_i hst
      · cases h
        exact ⟨rfl, p.sequence, rfl, ⟨rfl, hsequence⟩, Or.inr rfl⟩
      · cases h
        exact ⟨rfl, p.sequence, rfl, ⟨rfl, hsequence⟩, Or.inl ⟨hs.resolve_right hst, rfl, rfl⟩⟩

/-- A credit that is complete in the buffer is answered alike in every situation of an
exporter, and there is no other situation. -/
def CreditsAlike [Target] (c : Contract) (m : Nat) : Prop :=
  ∀ (start p : Protocol) (inputs : List Input), Protocol.Provisioned c .exporting
      (headerBytes + m) start → start.run inputs = .ok p → p.closed = none →
    (∃ situation, ExporterAt p situation) ∧
    ∀ (situation : Situation) (credits : Credits), ExporterAt p situation →
      credits.At situation → ∀ (op : OpId) (count : Nat) (buffer : List UInt8),
      p.laneOf op = some .creditReceive → p.offsets.creditReceive + count = creditBytes →
      creditBytes ≤ buffer.length →
      ∃ q r, p.input (.completed op (.bytes count) buffer) = .ok (q, r) ∧
        CreditAnswers situation q r (credits.receive (buffer.take creditBytes))

theorem CreditAnswers.settle {situation : Situation} {q : Protocol} {r : Except Error Unit}
    {i : Input} {x : Except IpcError (Credits × Option UInt64)}
    (h : CreditAnswers situation q r x) :
    CreditAnswers situation ((q.conclude r).settle i) r x := by
  have hs := Protocol.settle_eq (q.conclude r) i
  cases x with
  | error e => exact h
  | ok x =>
    obtain ⟨hr, sequence, h1, h2, h3⟩ := h
    subst hr
    rcases hs with hs | ⟨f, hs⟩ <;> rw [hs] <;> exact ⟨rfl, sequence, h1, h2, h3⟩

theorem creditsAlike [Target] (c : Contract) {m : Nat} (hword : headerBytes + m ≤ usizeMax) :
    CreditsAlike c m := by
  intro start p inputs hp hrun hc
  refine ⟨run_situated hword hp hrun hc, ?_⟩
  intro situation credits hat hcredits op count buffer hl hfull hbuf
  obtain ⟨hsafe, -, hd, -⟩ := run_provisioned hword hp hrun
  have hf := hsafe.framed hc
  obtain ⟨e, ha⟩ := Protocol.laneOf_some hl
  have hlt := hf.receive.exporting hd
  have hcount : count ≤ e.requested := by
    rcases Protocol.offer_creditReceive_request (hf.receive.active op e ha) with
      ⟨-, -, he⟩ | ⟨hi, -⟩
    · rw [he, Effect.requested]
      omega
    · rw [hd] at hi
      cases hi
  obtain ⟨q, r, hparse⟩ : ∃ q r, (p.advance .creditReceive count).parseCredit buffer = (q, r) :=
    ⟨_, _, rfl⟩
  have hprog : (p.advance .creditReceive count).progress .creditReceive buffer = .ok (q, r) := by
    have hdir : (p.advance .creditReceive count).direction ≠ .importing := by
      change p.direction ≠ .importing
      simp [hd]
    have hoff : (p.advance .creditReceive count).offsets.creditReceive =
        p.offsets.creditReceive + count := rfl
    simp only [Protocol.progress, if_neg hdir, PerLane.get_creditReceive, hoff, if_pos hfull,
      hparse]
  have hat' : ExporterAt (p.advance .creditReceive count) situation := by
    cases situation <;> exact hat
  exact ⟨_, r, Protocol.input_progress hsafe hc hl ha (by omega) hcount hprog,
    (parseCredit_answers hat' hcredits hbuf hparse).settle⟩

/-- The two implementations write the same frames and give corresponding answers to every
header and to every credit. -/
theorem backends_agree [Target] {α : Type} (E : WireCodec α) (m : Nat)
    (hword : headerBytes + m ≤ usizeMax) :
    EncodesAlike E m ∧ DecodesAlike E.contract m ∧ CreditsAlike E.contract m :=
  ⟨encodesAlike E hword, decodesAlike E.contract hword, creditsAlike E.contract hword⟩

/-- Payloads of one byte behind a bound of four. -/
theorem backends_agree_bytes :
    let _ := Target.x64
    EncodesAlike Duplex.byteCodec 4 ∧ DecodesAlike Duplex.byteCodec.contract 4 ∧
      CreditsAlike Duplex.byteCodec.contract 4 := by
  intro _
  exact backends_agree Duplex.byteCodec 4 (by decide)

end Hiway.Unix
