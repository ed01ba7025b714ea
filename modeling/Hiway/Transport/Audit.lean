import Hiway.Transport.Importer
import Hiway.Transport.Written

/-!
# Audit history of a link

A tracked machine beside the full sequence of the records it has produced, before the
ring overwrites or the host drains any. The history pairs every admission with its
completion, and ends in one terminal record once the machine is closed.

On import the parsed sequence runs ahead of the one being credited, so a completion
names `previous`. On export the last of two events completes a frame, the end of the
transmission or its credit.

* `history_step`: what an input that leaves the machine open adds to the history.
* `input_eq`: what an input leaves of the audit, given what the machine answers.
* `inv_step`, `inv_run`: every input and every host call keeps the audit, in any order.
* `run_accounted`: the records of a tracked link pair each admission with its completion,
  the last frame may lack its own, and one terminal record ends them.
-/

namespace Hiway.Transport

open Exec Target

/-! ## Runs -/

/-- What an exporter's host has seen: the sequences it provided, and how much of the last
frame and of its credit has moved. -/
structure Sending where
  provided : List UInt64
  length : Nat
  data : Nat
  credit : Nat
  acknowledged : Bool

namespace Sending

def start : Sending := ⟨[], 0, 0, 0, false⟩

/-- A completion of `count` bytes. A credit is acknowledged when its last byte is in the
buffer and it names the last frame provided. -/
def moved (x : Sending) (lane : Lane) (count : Nat) (buffer : List UInt8) : Sending :=
  match lane with
  | .data => { x with data := x.data + count }
  | .creditSend => x
  | .creditReceive =>
    if x.credit + count = creditBytes then
      { x with
        credit := 0
        acknowledged := x.provided.getLast?.any fun s => buffer.take creditBytes = creditOf s }
    else { x with credit := x.credit + count }

/-- The last frame has been sent and its credit has been read. -/
def finished (x : Sending) : Bool := x.data = x.length ∧ x.acknowledged

/-- What the host writes down about an input that leaves the machine `p` open. -/
def observe (x : Sending) (p : Protocol) : Input → Sending
  | .provided sequence length =>
    { x with
      provided := x.provided ++ [sequence]
      length := length
      data := 0
      acknowledged := false }
  | .completed op (.bytes count) buffer =>
    match p.laneOf op with
    | none => x
    | some lane => x.moved lane count buffer
  | _ => x

end Sending

/-- The sequences of the admitted frames. -/
def Importer.frames (i : Importer) : List UInt64 := i.admitted.map Admission.sequence

inductive HostCall where
  | input (i : Input)
  | observe (sequence : UInt64)
  | pop
  deriving DecidableEq, Repr

/-- A machine, the ledgers of its host and everything the machine has recorded.
`complete` says whether the last frame was settled when the machine was last open, and
`closing` is the input that closed it. -/
structure Audit where
  link : Importer
  sending : Sending
  log : List FrameRecord
  complete : Bool
  closing : Option Input

namespace Audit

def protocol (s : Audit) : Protocol := s.link.protocol

/-- The frames admitted by an importer, or provided to an exporter. -/
def frames (s : Audit) : List UInt64 :=
  match s.protocol.direction with
  | .importing => s.link.frames
  | .exporting => s.sending.provided

/-- Nothing of the last frame is outstanding: an importer has sent all of its credit, an
exporter has sent all of the frame and read its credit. -/
def finished (s : Audit) : Bool :=
  match s.protocol.direction with
  | .importing => s.link.sent = s.link.credits
  | .exporting => s.sending.finished

def start (p : Protocol) : Audit :=
  let s : Audit := ⟨Importer.start p, Sending.start, [], false, none⟩
  { s with complete := s.finished }

def onProtocol (s : Audit) (f : Protocol → Protocol) : Audit :=
  { s with link := { s.link with protocol := f s.link.protocol } }

def input [Target] (s : Audit) (i : Input) : Exec Audit := do
  let link ← s.link.step i
  let records ← s.protocol.written i
  let s' := { s with link := link, log := s.log ++ records }
  match link.protocol.closed with
  | none =>
    let s' := { s' with sending := s.sending.observe s.protocol i }
    return { s' with complete := s'.finished }
  | some _ => return { s' with closing := s.closing.or (some i) }

def step [Target] (s : Audit) : HostCall → Exec Audit
  | .input i => s.input i
  | .observe sequence => .ok (s.onProtocol fun p => p.observeSequence sequence)
  | .pop => .ok (s.onProtocol fun p => p.popRecord.2)

def run [Target] (s : Audit) (calls : List HostCall) : Exec Audit := steps step s calls

end Audit

/-! ## The host's promise -/

/-- The sequence that the host has observed and not yet provided. -/
def HostCall.announce (pending : Option UInt64) : HostCall → Option UInt64
  | .observe sequence => some sequence
  | .input (.provided _ _) => none
  | _ => pending

/-- After observing a sequence the host provides it before it turns to another frame. -/
def HostCall.Keeps (pending : Option UInt64) : HostCall → Prop
  | .observe sequence => ∀ s ∈ pending, s = sequence
  | .input (.provided sequence _) => ∀ s ∈ pending, s = sequence
  | .input .admitted => pending = none
  | _ => True

/-- `observe_sequence` is called only with the sequence that is then provided. -/
def Faithful : Option UInt64 → List HostCall → Prop
  | _, [] => True
  | pending, a :: rest => a.Keeps pending ∧ Faithful (a.announce pending) rest

/-! ## The shape of a history -/

/-- The two records of a settled frame. -/
def exchange (sequence : UInt64) : List FrameRecord :=
  [⟨some sequence, .admitted⟩, ⟨some sequence, .completed⟩]

/-- Every frame admitted and completed, the last one perhaps not completed yet. -/
def history (frames : List UInt64) (complete : Bool) : List FrameRecord :=
  if complete then frames.flatMap exchange
  else frames.dropLast.flatMap exchange ++
    frames.getLast?.toList.map fun s => ⟨some s, .admitted⟩

theorem history_admitted {frames : List UInt64} {complete : Bool}
    (h : complete = true ∨ frames = []) (s : UInt64) :
    history (frames ++ [s]) false = history frames complete ++ [⟨some s, .admitted⟩] := by
  rcases h with rfl | rfl
  · simp [history]
  · simp [history]

theorem history_complete {frames : List UInt64} {s : UInt64} (h : frames.getLast? = some s) :
    history frames true = history frames false ++ [⟨some s, .completed⟩] := by
  obtain ⟨front, rfl⟩ := List.getLast?_eq_some_iff.mp h
  simp [history, exchange]

theorem written_completed {a : Accountability} (ht : a.terminal = false) (s : UInt64) :
    Note.writtenAll [.completed s] a = [⟨some s, .completed⟩] := by
  simp [Note.writtenAll, Note.written, ht]

/-! ## An importer's records -/

namespace Importer

variable {c : Contract} {i : Importer}

/-- An owed credit has not been sent completely. -/
theorem Owed.unpaid {last : Admission} {offset : Nat} (h : i.Owed last offset)
    (hlt : offset < creditBytes) : i.sent ≠ i.credits := by
  obtain ⟨front, ha, hs⟩ := h
  intro heq
  have hlen := congrArg List.length heq
  rw [hs, credits, ha, List.flatMap_append, List.flatMap_singleton, List.length_append,
    List.length_append, List.length_take, Admission.length_credit] at hlen
  omega

theorem Owed.last {last : Admission} {offset : Nat} (h : i.Owed last offset) :
    i.frames.getLast? = some last.sequence := by
  obtain ⟨front, ha, -⟩ := h
  simp [frames, ha]

theorem Inv.unpaid [Target] (h : i.Inv c) (hc : i.protocol.closed = none)
    (hcr : i.protocol.credited = true) : i.sent ≠ i.credits := by
  obtain ⟨last, howed, -⟩ := (h.owing hc).owed hcr
  exact howed.unpaid ((h.safe.framed hc).send.credited h.importing hcr).1

/-- Data that arrives writes no record. -/
theorem written_data [Target] (p : Protocol) (a : Accountability) (buffer : List UInt8)
    (hs : p.stage ≠ .sending) : Note.writtenAll (p.progressNotes .data buffer) a = [] := by
  unfold Protocol.progressNotes
  split
  · rfl
  · simp [Protocol.completes, hs, Note.writtenAll]

/-- The last byte of a credit completes its frame. -/
theorem history_creditSend [Target] (h : i.Inv c) (hc : i.protocol.closed = none) {op : OpId}
    {e : Effect} {count : Nat} {a : Accountability}
    (hactive : i.protocol.active.creditSend = some (op, e)) (hle : count ≤ e.requested)
    (ht : a.terminal = false) (buffer : List UInt8) :
    history i.frames (i.sent = i.credits) ++ Note.writtenAll
        ((i.protocol.advance .creditSend count).progressNotes .creditSend buffer) a =
      history (i.moved .creditSend e count buffer).frames
        ((i.moved .creditSend e count buffer).sent =
          (i.moved .creditSend e count buffer).credits) := by
  have hoffer := (h.safe.framed hc).send.active op e hactive
  obtain ⟨-, hcr, hoff, rfl⟩ := Protocol.offer_creditSend_request hoffer
  obtain ⟨last, offset, heq, -, howed, hbuf⟩ := h.ledger.active op _ hactive
  cases heq
  simp only [Effect.requested] at hle
  have hunpaid := h.unpaid hc hcr
  have hprev : i.protocol.previous = some last.sequence := by
    rw [(h.owing hc).previous]
    have hl := howed.last
    rwa [frames, List.getLast?_map] at hl
  have hsend := howed.send count hbuf
  rw [decide_eq_false hunpaid, moved_creditSend hle]
  by_cases hfull : i.protocol.offsets.creditSend + count = creditBytes
  · have hnotes : (i.protocol.advance .creditSend count).progressNotes .creditSend buffer =
        [.completed last.sequence] := by
      simp [Protocol.progressNotes, Protocol.completes, Protocol.advance, Protocol.release,
        Protocol.move, PerLane.set, hfull, hprev]
    rw [hfull] at hsend ⊢
    rw [hnotes, written_completed ht, decide_eq_true hsend.paid, ← history_complete howed.last]
    rfl
  · have hnotes : (i.protocol.advance .creditSend count).progressNotes .creditSend buffer =
        [] := by
      simp [Protocol.progressNotes, Protocol.completes, Protocol.advance, Protocol.release,
        Protocol.move, PerLane.set, hfull]
    rw [hnotes, decide_eq_false (hsend.unpaid (by omega)), Note.writtenAll, List.append_nil]
    rfl

theorem history_step [Target] (h : i.Inv c) {q : Protocol} {r : Except Error Unit} {input : Input}
    (hin : i.protocol.input input = .ok (q, r)) (hopen : q.closed = none) {a : Accountability}
    (ht : a.terminal = false)
    (hseq : input = .admitted → a.sequence = some i.protocol.sequence) :
    history i.frames (i.sent = i.credits) ++
        Note.writtenAll (i.protocol.inputNotes input) a =
      history (i.observe r input).frames
        ((i.observe r input).sent = (i.observe r input).credits) := by
  obtain ⟨hc, rfl, hstep⟩ := Protocol.input_open hin hopen
  have hf := h.safe.framed hc
  have harr := h.arriving hc
  have how := h.owing hc
  have hkeep : ∀ j : Importer, j.admitted = i.admitted → j.sent = i.sent →
      history i.frames (i.sent = i.credits) ++ [] = history j.frames (j.sent = j.credits) := by
    intro j ha hs
    rw [List.append_nil, frames, frames, credits, credits, ha, hs]
  cases hstep with
  | accept hfree he hr hq =>
    rename_i lane op e
    refine hkeep _ ?_ ?_
    · cases lane with
      | creditSend =>
        simp only [observe]
        split <;> rfl
      | data | creditReceive => rfl
    · cases lane with
      | creditSend =>
        simp only [observe]
        split <;> rfl
      | data | creditReceive => rfl
  | stale hl hq =>
    rename_i op result buffer
    have hsame : i.observe (.ok ()) (.completed op result buffer) = i := by
      cases result <;> simp [observe, hl]
    have hnone : i.protocol.inputNotes (.completed op result buffer) = [] := by
      cases result <;> simp [Protocol.inputNotes, hl]
    rw [hsame, hnone]
    exact hkeep i rfl rfl
  | retry hl hq => exact hkeep _ rfl rfl
  | bytes hl ha hpos hle hq =>
    rename_i op count buffer lane e
    have hobs : i.observe (.ok ()) (.completed op (.bytes count) buffer) =
        i.moved lane e count buffer := by
      simp [observe, hl, ha]
    have hnotes : i.protocol.inputNotes (.completed op (.bytes count) buffer) =
        (i.protocol.advance lane count).progressNotes lane buffer := by
      simp [Protocol.inputNotes, hl]
    rw [hobs, hnotes]
    cases lane with
    | data =>
      have hs : (i.protocol.advance .data count).stage ≠ .sending := by
        change i.protocol.stage ≠ .sending
        intro hs
        simpa [Protocol.StageOf, h.importing, hs] using hf.data.stage
      rw [written_data _ _ _ hs]
      exact hkeep _ rfl rfl
    | creditSend => exact history_creditSend h hc ha hle ht buffer
    | creditReceive =>
      simp only [Protocol.progress] at hq
      rw [if_pos (show (i.protocol.advance .creditReceive count).direction = .importing from
        h.importing)] at hq
      cases hq
  | provide hs hge hle hq => simpa [Protocol.StageOf, h.importing, hs] using hf.data.stage
  | admitted hs hcr hq =>
    have hpaid := how.paid hcr
    have hrecord : Note.writtenAll (i.protocol.inputNotes .admitted) a =
        [⟨some i.protocol.sequence, .admitted⟩] := by
      simp [Protocol.inputNotes, Note.writtenAll, Note.written, ht, hseq rfl]
    have hframes : (i.observe (.ok ()) .admitted).frames =
        i.frames ++ [i.protocol.sequence] := by
      simp [observe, frames, Admission.sequence, (harr.parsed (Or.inr hs)).sequence]
    have hunpaid : (i.observe (.ok ()) .admitted).sent ≠
        (i.observe (.ok ()) .admitted).credits := by
      intro heq
      have hlen := congrArg List.length heq
      simp [observe, credits, hpaid, creditBytes] at hlen
    rw [hrecord, hframes, decide_eq_true hpaid, decide_eq_false hunpaid]
    exact (history_admitted (Or.inl rfl) _).symm

/-- The connection's sequence is the one of the frame under way. -/
def Follows (p : Protocol) (a : Accountability) : Prop :=
  p.stage = .payload ∨ p.stage = .admission → a.sequence = some p.sequence

theorem sequence_completed (s : UInt64) (a : Accountability) :
    (a.completed s).sequence = a.sequence := by
  cases ht : a.terminal <;> simp [Accountability.completed, Accountability.record, ht]

theorem sequence_progressNotes {p : Protocol} {lane : Lane} {buffer : List UInt8}
    (h : ¬(lane = .data ∧ p.stage = .header ∧ headerBytes ≤ p.offsets.data))
    (a : Accountability) :
    (Note.applyAll (p.progressNotes lane buffer) a).sequence = a.sequence := by
  rw [Protocol.progressNotes, if_neg h]
  cases p.completes lane with
  | none => rfl
  | some s => exact sequence_completed s a

theorem follows_data [Target] {p q : Protocol} {buffer : List UInt8} {a : Accountability}
    (hs : p.stage ≠ .sending) (h : Follows p a)
    (hq : p.progress .data buffer = .ok (q, .ok ())) :
    Follows q (Note.applyAll (p.progressNotes .data buffer) a) := by
  intro hstage
  simp only [Protocol.progress] at hq
  split at hq
  · rename_i hs'
    exact absurd hs' hs
  · rename_i hs'
    split at hq <;> rename_i hfull
    · change headerBytes ≤ p.offsets.data at hfull
      obtain ⟨-, -, hseq, -⟩ := Protocol.parseHeader_parsed (Except.ok.inj hq)
      rw [Protocol.progressNotes, if_pos ⟨rfl, hs', hfull⟩, hseq]
      rfl
    · cases hq
      rcases hstage with he | he <;> simp [hs'] at he
  · rename_i hs'
    have hnot : ¬(Lane.data = .data ∧ p.stage = .header ∧ headerBytes ≤ p.offsets.data) := by
      simp [hs']
    cases hq
    rw [sequence_progressNotes hnot, h (Or.inl hs')]
    split <;> rfl
  · cases hq

theorem follows_step [Target] (h : i.Inv c) {q : Protocol} {r : Except Error Unit} {input : Input}
    (hin : i.protocol.input input = .ok (q, r)) (hopen : q.closed = none) {a : Accountability}
    (ha : Follows i.protocol a) :
    Follows q (Note.applyAll (i.protocol.inputNotes input) a) := by
  obtain ⟨hc, -, hstep⟩ := Protocol.input_open hin hopen
  have hsending : i.protocol.stage ≠ .sending := by
    intro hs
    simpa [Protocol.StageOf, h.importing, hs] using (h.safe.framed hc).data.stage
  cases hstep with
  | accept hfree he hr hq =>
    subst hq
    exact ha
  | stale hl hq =>
    subst hq
    rename_i op result buffer
    cases result <;> simpa [Protocol.inputNotes, hl] using ha
  | retry hl hq =>
    subst hq
    exact ha
  | bytes hl hact hpos hle hq =>
    rename_i op count buffer lane e
    simp only [Protocol.inputNotes, hl]
    cases lane with
    | data => exact follows_data hsending ha hq
    | creditSend =>
      obtain ⟨-, hst, -, -, hseq⟩ := Protocol.progress_creditSend_frame hq
      intro hstage
      rw [sequence_progressNotes (by simp), hseq]
      rw [hst] at hstage
      exact ha hstage
    | creditReceive =>
      simp only [Protocol.progress] at hq
      rw [if_pos (show (i.protocol.advance .creditReceive count).direction = .importing from
        h.importing)] at hq
      cases hq
  | provide hs hge hle hq =>
    simpa [Protocol.StageOf, h.importing, hs] using (h.safe.framed hc).data.stage
  | admitted hs hcr hq =>
    subst hq
    rintro (he | he) <;> cases he

end Importer

/-! ## An exporter's records -/

namespace Sending

/-- The exporter's ledger agrees with an open machine. -/
structure Agrees (x : Sending) (p : Protocol) : Prop where
  sequence : ∀ s ∈ x.provided.getLast?, s = p.sequence
  started : p.stage ≠ .source → x.provided ≠ []
  length : x.provided ≠ [] → x.length = p.length
  data : x.data = p.offsets.data
  credit : x.credit = p.offsets.creditReceive
  acknowledged : x.acknowledged = p.credited
  source : p.stage = .source → x.provided ≠ [] → x.data = x.length ∧ x.acknowledged = true
  waiting : p.stage = .credit → x.data = x.length ∧ x.acknowledged = false

variable {x : Sending} {p : Protocol}

/-- Before another frame is provided nothing is outstanding. -/
theorem Agrees.idle (h : x.Agrees p) (hs : p.stage = .source) :
    x.finished = true ∨ x.provided = [] := by
  by_cases hp : x.provided = []
  · exact Or.inr hp
  · exact Or.inl (by simpa [finished] using h.source hs hp)

theorem Agrees.unfinished (h : x.Agrees p) (hf : p.Framed)
    (hs : p.stage = .sending ∨ p.stage = .credit) : x.finished = false := by
  rcases hs with hs | hs
  · have hlt := hf.data.sending hs
    have hlen := h.length (h.started (by simp [hs]))
    have hne : x.data ≠ x.length := by
      rw [h.data, hlen]
      exact hlt.ne
    simp [finished, hne]
  · simp [finished, (h.waiting hs).2]

theorem Agrees.last (h : x.Agrees p) (hs : p.stage ≠ .source) :
    x.provided.getLast? = some p.sequence := by
  have hlast := List.getLast?_eq_some_getLast (h.started hs)
  rw [hlast, h.sequence _ hlast]

/-! ### One input of an exporter -/

theorem Agrees.congr {q : Protocol} (h : x.Agrees p) (hs : q.stage = p.stage)
    (hl : q.length = p.length) (ho : q.offsets = p.offsets) (hseq : q.sequence = p.sequence)
    (hc : q.credited = p.credited) : x.Agrees q where
  sequence := by
    rw [hseq]
    exact h.sequence
  started := by
    rw [hs]
    exact h.started
  length := by
    rw [hl]
    exact h.length
  data := by rw [ho, h.data]
  credit := by rw [ho, h.credit]
  acknowledged := by rw [hc, h.acknowledged]
  source := by
    rw [hs]
    exact h.source
  waiting := by
    rw [hs]
    exact h.waiting

theorem agrees_data [Target] (h : x.Agrees p) (hf : p.Framed) (hd : p.direction = .exporting)
    {q : Protocol} {op : OpId} {e : Effect} {count : Nat} {buffer : List UInt8}
    {a : Accountability} (ht : a.terminal = false) (hact : p.active.data = some (op, e))
    (hr : e.isRequest = true)
    (hq : (p.advance .data count).progress .data buffer = .ok (q, .ok ())) :
    (x.moved .data count buffer).Agrees q ∧
      history x.provided x.finished ++
          Note.writtenAll ((p.advance .data count).progressNotes .data buffer) a =
        history (x.moved .data count buffer).provided (x.moved .data count buffer).finished := by
  have hs : p.stage = .sending := by
    rcases Protocol.offer_data_request (hf.data.active op e hact) hr with
      ⟨hs, -⟩ | ⟨hs, -⟩ | ⟨hs, -⟩
    · exact hs
    all_goals simpa [Protocol.StageOf, hd, hs] using hf.data.stage
  have hs' : (p.advance .data count).stage = .sending := hs
  have hne : p.stage ≠ .source := by simp [hs]
  have hlen := h.length (h.started hne)
  have hunf := h.unfinished hf (Or.inl hs)
  have hoff : (p.advance .data count).offsets.data = p.offsets.data + count := rfl
  have hplen : (p.advance .data count).length = p.length := rfl
  have hcr : (p.advance .data count).credited = p.credited := rfl
  simp only [Protocol.progress, hs', PerLane.get_data, hoff, hplen, hcr] at hq
  have hxdata : (x.moved .data count buffer).data = p.offsets.data + count := by
    simp [moved, h.data]
  have hack : (x.moved .data count buffer).acknowledged = p.credited := h.acknowledged
  by_cases hfull : p.offsets.data + count = p.length
  · rw [if_pos hfull] at hq
    have hdone : (x.moved .data count buffer).data = (x.moved .data count buffer).length := by
      rw [hxdata, hfull]
      exact hlen.symm
    cases hc : p.credited with
    | true =>
      simp only [hc, if_true] at hq
      cases hq
      have hnotes : (p.advance .data count).progressNotes .data buffer =
          [.completed p.sequence] := by
        simp [Protocol.progressNotes, Protocol.completes, hs', hoff, hplen, hcr, hfull, hc]
        rfl
      have hfin : (x.moved .data count buffer).finished = true := by
        simp [finished, hdone, hack, hc]
      refine ⟨⟨h.sequence, fun he => absurd rfl he, fun _ => hlen, hxdata, h.credit,
        hack.trans hc, fun _ _ => ⟨hdone, hack.trans hc⟩, fun he => Stage.noConfusion he⟩, ?_⟩
      rw [hnotes, hunf, hfin, written_completed ht]
      exact (history_complete (h.last hne)).symm
    | false =>
      simp only [hc, Bool.false_eq_true, if_false] at hq
      cases hq
      have hnotes : (p.advance .data count).progressNotes .data buffer = [] := by
        simp [Protocol.progressNotes, Protocol.completes, hs', hcr, hc]
      have hfin : (x.moved .data count buffer).finished = false := by
        simp [finished, hack, hc]
      refine ⟨⟨h.sequence, fun _ => h.started hne, fun _ => hlen, hxdata, h.credit,
        hack.trans hc, fun he => Stage.noConfusion he, fun _ => ⟨hdone, hack.trans hc⟩⟩, ?_⟩
      rw [hnotes, hunf, hfin, Note.writtenAll, List.append_nil]
      rfl
  · rw [if_neg hfull] at hq
    cases hq
    have hnotes : (p.advance .data count).progressNotes .data buffer = [] := by
      simp [Protocol.progressNotes, Protocol.completes, hs', hoff, hplen, hfull]
    have hfin : (x.moved .data count buffer).finished = false := by
      have hxlen : (x.moved .data count buffer).length = p.length := hlen
      simp [finished, hxdata, hxlen, hfull]
    refine ⟨⟨h.sequence, fun _ => h.started hne, fun _ => hlen, hxdata, h.credit, hack,
      fun he => ?_, fun he => ?_⟩, ?_⟩
    · rw [hs'] at he
      cases he
    · rw [hs'] at he
      cases he
    · rw [hnotes, hunf, hfin, Note.writtenAll, List.append_nil]
      rfl

/-- An accepted credit is the credit of the frame being sent. -/
theorem parseCredit_credit {q : Protocol} {buffer : List UInt8}
    (h : p.parseCredit buffer = (q, .ok ())) :
    q.sequence = p.sequence ∧ buffer.take creditBytes = creditOf p.sequence := by
  unfold Protocol.parseCredit at h
  split at h
  · cases h
  · rename_i hlen
    dsimp only at h
    split at h
    · cases h
    · rename_i hok
      push Not at hok
      obtain ⟨hone, hseq, -⟩ := hok
      have htake : buffer.take creditBytes = creditOf p.sequence := by
        have hsplit := @Bytes.take_append_slice (buffer.take creditBytes) 1 creditBytes (by decide)
        have hfirst : (buffer.take creditBytes).take 1 = [1] := by
          rw [← hone]
          simp [Bytes.slice]
        rw [hfirst, hseq, List.take_take, Nat.min_self] at hsplit
        exact hsplit.symm
      split at h <;> cases h
      · exact ⟨rfl, htake⟩
      · exact ⟨rfl, htake⟩

theorem agrees_creditReceive [Target] (h : x.Agrees p) (hf : p.Framed)
    (hd : p.direction = .exporting) {q : Protocol} {count : Nat} {buffer : List UInt8}
    {a : Accountability} (ht : a.terminal = false)
    (hq : (p.advance .creditReceive count).progress .creditReceive buffer = .ok (q, .ok ())) :
    (x.moved .creditReceive count buffer).Agrees q ∧
      history x.provided x.finished ++ Note.writtenAll
          ((p.advance .creditReceive count).progressNotes .creditReceive buffer) a =
        history (x.moved .creditReceive count buffer).provided
          (x.moved .creditReceive count buffer).finished := by
  have hoff : (p.advance .creditReceive count).offsets.creditReceive =
      p.offsets.creditReceive + count := rfl
  have hdir : (p.advance .creditReceive count).direction ≠ .importing := by
    change p.direction ≠ .importing
    simp [hd]
  simp only [Protocol.progress, if_neg hdir, PerLane.get_creditReceive, hoff] at hq
  by_cases hfull : p.offsets.creditReceive + count = creditBytes
  · rw [if_pos hfull] at hq
    obtain ⟨hcr, hst, hqcr, hqoff, hqlen, -, hqst⟩ := Protocol.parseCredit_ok (Except.ok.inj hq)
    obtain ⟨hqseq, hbytes⟩ := parseCredit_credit (Except.ok.inj hq)
    change p.stage = .sending ∨ p.stage = .credit at hst
    have hne : p.stage ≠ .source := by
      rcases hst with hst | hst <;> simp [hst]
    have hlen := h.length (h.started hne)
    have hmoved : x.moved .creditReceive count buffer =
        { x with credit := 0, acknowledged := true } := by
      have hbytes' : buffer.take creditBytes = creditOf p.sequence := hbytes
      simp [moved, h.credit, hfull, h.last hne, hbytes']
    have hqdata : q.offsets.data = p.offsets.data := by
      rw [hqoff]
      rfl
    have hqcredit : q.offsets.creditReceive = 0 := by
      rw [hqoff]
      rfl
    have hunf := h.unfinished hf hst
    change q.stage = if p.stage = .credit then .source else p.stage at hqst
    rw [hmoved, hunf]
    rcases hst with hst | hst <;> rw [hst] at hqst
    · have hnotes : (p.advance .creditReceive count).progressNotes .creditReceive buffer = [] := by
        have hst' : (p.advance .creditReceive count).stage = .sending := hst
        simp [Protocol.progressNotes, Protocol.completes, hst']
      have hlt : x.data ≠ x.length := by
        rw [h.data, hlen]
        exact (hf.data.sending hst).ne
      have hqst : q.stage = .sending := hqst
      refine ⟨⟨?_, fun _ => h.started hne, fun _ => hlen.trans hqlen.symm, h.data.trans hqdata.symm,
        hqcredit.symm, hqcr.symm, fun he => ?_, fun he => ?_⟩, ?_⟩
      · rw [hqseq]
        exact h.sequence
      · rw [hqst] at he
        cases he
      · rw [hqst] at he
        cases he
      · rw [hnotes, Note.writtenAll, List.append_nil]
        simp [finished, hlt]
    · have hnotes : (p.advance .creditReceive count).progressNotes .creditReceive buffer =
          [.completed p.sequence] := by
        have hst' : (p.advance .creditReceive count).stage = .credit := hst
        simp [Protocol.progressNotes, Protocol.completes, hoff, hfull, hst']
        rfl
      have hdone := (h.waiting hst).1
      have hqst : q.stage = .source := hqst
      refine ⟨⟨?_, fun he => absurd hqst he, fun _ => hlen.trans hqlen.symm,
        h.data.trans hqdata.symm, hqcredit.symm, hqcr.symm, fun _ _ => ⟨hdone, rfl⟩,
        fun he => ?_⟩, ?_⟩
      · rw [hqseq]
        exact h.sequence
      · rw [hqst] at he
        cases he
      · rw [hnotes, written_completed ht]
        simp only [finished, hdone, and_self, decide_true]
        exact (history_complete (h.last hne)).symm
  · rw [if_neg hfull] at hq
    cases hq
    have hnotes : (p.advance .creditReceive count).progressNotes .creditReceive buffer = [] := by
      simp [Protocol.progressNotes, Protocol.completes, hoff, hfull]
    have hmoved : x.moved .creditReceive count buffer =
        { x with credit := x.credit + count } := by
      simp [moved, h.credit, hfull]
    rw [hmoved, hnotes, Note.writtenAll, List.append_nil]
    exact ⟨⟨h.sequence, h.started, h.length, h.data, congrArg (· + count) h.credit,
      h.acknowledged, h.source, h.waiting⟩, rfl⟩

theorem agrees_step [Target] (h : x.Agrees p) (hsafe : p.Safe) (hd : p.direction = .exporting)
    {q : Protocol} {r : Except Error Unit} {input : Input}
    (hin : p.input input = .ok (q, r)) (hopen : q.closed = none) {a : Accountability}
    (ht : a.terminal = false) :
    (x.observe p input).Agrees q ∧
      history x.provided x.finished ++ Note.writtenAll (p.inputNotes input) a =
        history (x.observe p input).provided (x.observe p input).finished := by
  obtain ⟨hc, -, hstep⟩ := Protocol.input_open hin hopen
  have hf := hsafe.framed hc
  cases hstep with
  | accept hfree he hr hq =>
    subst hq
    exact ⟨h.congr rfl rfl rfl rfl rfl, List.append_nil _⟩
  | stale hl hq =>
    subst hq
    rename_i op result buffer
    have hsame : x.observe q (.completed op result buffer) = x := by
      cases result <;> simp [observe, hl]
    have hnone : q.inputNotes (.completed op result buffer) = [] := by
      cases result <;> simp [Protocol.inputNotes, hl]
    rw [hsame, hnone]
    exact ⟨h, List.append_nil _⟩
  | retry hl hq =>
    subst hq
    exact ⟨h.congr rfl rfl rfl rfl rfl, List.append_nil _⟩
  | bytes hl hact hpos hle hq =>
    rename_i op count buffer lane e
    have hobs : x.observe p (.completed op (.bytes count) buffer) = x.moved lane count buffer := by
      simp [observe, hl]
    have hnotes : p.inputNotes (.completed op (.bytes count) buffer) =
        (p.advance lane count).progressNotes lane buffer := by
      simp [Protocol.inputNotes, hl]
    rw [hobs, hnotes]
    cases lane with
    | data => exact agrees_data h hf hd ht hact (hsafe.request .data op e hact) hq
    | creditSend =>
      obtain ⟨hi, -⟩ := Protocol.offer_creditSend_request (hf.send.active op e hact)
      rw [hd] at hi
      cases hi
    | creditReceive => exact agrees_creditReceive h hf hd ht hq
  | provide hs hge hle hq =>
    subst hq
    rename_i sequence length
    have hrecord : Note.writtenAll (p.inputNotes (.provided sequence length)) a =
        [⟨some sequence, .admitted⟩] := by
      simp [Protocol.inputNotes, Note.writtenAll, Note.written, Note.apply,
        Accountability.observe, ht]
    have hfin : (x.observe p (.provided sequence length)).finished = false := by
      simp [observe, finished]
    refine ⟨⟨?_, ?_, fun _ => rfl, rfl, h.credit, rfl, fun he => ?_, fun he => ?_⟩, ?_⟩
    · intro s hs
      change s = sequence
      simpa [observe] using hs.symm
    · intro _
      simp [observe]
    · cases he
    · cases he
    · rw [hrecord, hfin]
      exact (history_admitted (h.idle hs) sequence).symm
  | admitted hs hcr hq => simpa [Protocol.StageOf, hd, hs] using hf.data.stage

end Sending

/-! ## The invariant -/

namespace Audit

/-- A tracked machine whose connection is over exactly when it is closed. Unless the host
has announced another frame, an importer's connection is at the frame under way. -/
structure Tracked (pending : Option UInt64) (p : Protocol) (a : Accountability) : Prop where
  accountability : p.accountability = some a
  terminal : a.terminal = p.closed.isSome
  follows : p.closed = none → p.direction = .importing → pending = none → Importer.Follows p a

structure Inv [Target] (c : Contract) (pending : Option UInt64) (s : Audit) : Prop where
  safe : s.protocol.Safe
  tracked : ∃ a, Tracked pending s.protocol a
  link : s.protocol.direction = .importing → s.link.Inv c
  sending : s.protocol.closed = none → s.protocol.direction = .exporting →
    s.sending.Agrees s.protocol
  complete : s.protocol.closed = none → s.complete = s.finished
  running : s.protocol.closed = none → s.closing = none ∧ s.log = history s.frames s.complete
  closed : ∀ error, s.protocol.closed = some error → ∃ sequence i, s.closing = some i ∧
    s.log = history s.frames s.complete ++ [⟨sequence, i.outcome error⟩]

variable {c : Contract} {pending : Option UInt64} {s : Audit}

/-! ## Observing and draining -/

theorem link_account [Target] {i : Importer} (h : i.Inv c) (f : Accountability → Accountability) :
    Importer.Inv c { i with protocol := i.protocol.account f } where
  safe := Protocol.safe_account h.safe f
  importing := h.importing
  contract := h.contract
  ledger := h.ledger.congr rfl rfl fun _ _ he => ⟨he, rfl⟩
  arriving := fun hc => (h.arriving hc).congr rfl rfl rfl rfl rfl rfl rfl
  owing := fun hc => (h.owing hc).congr rfl rfl rfl rfl rfl fun _ => rfl

/-- A host call that touches the connection only. -/
theorem inv_account [Target] (h : s.Inv c pending) {pending' : Option UInt64}
    {f : Accountability → Accountability} (hterm : ∀ a, (f a).terminal = a.terminal)
    (hseq : pending' = none → pending = none ∧ ∀ a, (f a).sequence = a.sequence) :
    Inv c pending' (s.onProtocol fun p => p.account f) where
  safe := Protocol.safe_account h.safe f
  tracked := by
    obtain ⟨a, ha, ht, hfollows⟩ := h.tracked
    have hf : (s.protocol.account f).accountability = some (f a) := by
      simp [Protocol.account, ha]
    refine ⟨f a, hf, (hterm a).trans ht, ?_⟩
    intro hc hd hp hstage
    obtain ⟨hpending, hsame⟩ := hseq hp
    rw [hsame]
    exact hfollows hc hd hpending hstage
  link := fun hd => link_account (h.link hd) f
  sending := fun hc hd => (h.sending hc hd).congr rfl rfl rfl rfl rfl
  complete := h.complete
  running := h.running
  closed := h.closed

theorem popRecord_eq (p : Protocol) : p.popRecord.2 = p.account fun a => a.pop.2 := by
  obtain ⟨_, _, _, _, _, _, _, _, _, _, _, _, acc⟩ := p
  cases acc <;> rfl

/-! ## One input -/

theorem step_link [Target] {i : Importer} {q : Protocol} {r : Except Error Unit} {input : Input}
    (h : i.protocol.input input = .ok (q, r)) :
    i.step input = .ok { i.observe r input with protocol := q } := by
  simp only [Importer.step, h, ok_bind, pure_eq]

/-- No frame is admitted by an input that closes the machine. -/
theorem admitted_of_closed [Target] {i : Importer} {q : Protocol} {r : Except Error Unit}
    {input : Input} (h : i.protocol.input input = .ok (q, r)) (hq : q.closed ≠ none) :
    (i.observe r input).admitted = i.admitted := by
  unfold Importer.observe
  split
  · split <;> rfl
  · split
    · rfl
    · split
      · rfl
      · unfold Importer.moved
        split <;> rfl
  · split
    · rename_i hr
      subst hr
      exact absurd (Protocol.input_admitted_open h) hq
    · rfl
  · rfl

/-- What an input leaves of the audit, given what the machine answers. -/
theorem input_eq [Target] {i : Input} {q : Protocol} {r : Except Error Unit}
    {records : List FrameRecord} (hin : s.protocol.input i = .ok (q, r))
    (hw : s.protocol.written i = .ok records) :
    s.input i = .ok
      (match q.closed with
      | none =>
        let s' : Audit :=
          { s with
            link := { s.link.observe r i with protocol := q }
            log := s.log ++ records
            sending := s.sending.observe s.protocol i }
        { s' with complete := s'.finished }
      | some _ =>
        { s with
          link := { s.link.observe r i with protocol := q }
          log := s.log ++ records
          closing := s.closing.or (some i) }) := by
  simp only [input, step_link hin, hw, ok_bind, pure_eq]
  cases q.closed <;> rfl

theorem history_importing (s : Audit) (h : s.protocol.direction = .importing) :
    history s.frames s.finished = history s.link.frames (s.link.sent = s.link.credits) := by
  rw [frames, finished, h]

theorem history_exporting (s : Audit) (h : s.protocol.direction = .exporting) :
    history s.frames s.finished = history s.sending.provided s.sending.finished := by
  rw [frames, finished, h]

/-- An input after which the machine is closed leaves the frames as they are. -/
theorem inv_shut [Target] {i : Input} {pending' : Option UInt64} {q : Protocol}
    {r : Except Error Unit} {error : Error} {records : List FrameRecord} {b : Accountability}
    (hin : s.protocol.input i = .ok (q, r)) (hw : s.protocol.written i = .ok records)
    (hq : q.closed = some error) (hsafe : q.Safe)
    (hdir : q.direction = s.protocol.direction)
    (hlink : s.protocol.direction = .importing →
      Importer.Inv c { s.link.observe r i with protocol := q })
    (hb : q.accountability = some b) (ht : b.terminal = true)
    (hlog : ∃ sequence i', s.closing.or (some i) = some i' ∧
      s.log ++ records = history s.frames s.complete ++ [⟨sequence, i'.outcome error⟩]) :
    ∃ s', s.input i = .ok s' ∧ s'.Inv c pending' := by
  have hadm := admitted_of_closed hin (by rw [hq]; simp)
  have hopen : q.closed ≠ none := by
    rw [hq]
    simp
  refine ⟨_, input_eq hin hw, ?_⟩
  rw [hq]
  dsimp only
  have hframes : frames { s with
      link := { s.link.observe r i with protocol := q }
      log := s.log ++ records
      closing := s.closing.or (some i) } = s.frames := by
    simp only [frames, protocol] at hdir ⊢
    rw [hdir, Importer.frames, Importer.frames, hadm]
  refine ⟨hsafe, ⟨b, hb, ?_, fun hc => absurd hc hopen⟩, ?_, fun hc => absurd hc hopen,
    fun hc => absurd hc hopen, fun hc => absurd hc hopen, ?_⟩
  · change b.terminal = q.closed.isSome
    rw [ht, hq]
    rfl
  · intro hd
    exact hlink (hdir.symm.trans hd)
  · intro error' he
    change q.closed = some error' at he
    rw [hq] at he
    cases he
    rw [hframes]
    exact hlog

theorem terminal_progressNotes (p : Protocol) (lane : Lane) (buffer : List UInt8)
    (a : Accountability) :
    (Note.applyAll (p.progressNotes lane buffer) a).terminal = a.terminal := by
  unfold Protocol.progressNotes
  split
  · rfl
  · cases p.completes lane with
    | none => rfl
    | some s =>
      cases ht : a.terminal <;>
        simp [Note.apply, Accountability.completed, Accountability.record, ht]

/-- Only a closing input ends a connection. -/
theorem terminal_inputNotes (p : Protocol) (i : Input) (a : Accountability) :
    (Note.applyAll (p.inputNotes i) a).terminal = a.terminal := by
  cases i with
  | accepted | revoked | closed => rfl
  | provided | admitted =>
    cases ht : a.terminal <;>
      simp [Protocol.inputNotes, Note.apply, Accountability.observe, Accountability.admitted,
        Accountability.record, ht]
  | completed op result buffer =>
    cases result with
    | retry | failed => rfl
    | bytes count =>
      simp only [Protocol.inputNotes]
      split
      · rfl
      · exact terminal_progressNotes _ _ _ a

/-- What an input announces is pending already, unless it provides the frame. -/
theorem announce_eq {p q : Protocol} [Target] {i : Input} {r : Except Error Unit}
    (hsafe : p.Safe) (hd : p.direction = .importing) (hin : p.input i = .ok (q, r))
    (hq : q.closed = none) : HostCall.announce pending (.input i) = pending := by
  obtain ⟨hc, -, hstep⟩ := Protocol.input_open hin hq
  cases hstep with
  | provide hs hge hle _ =>
    simpa [Protocol.StageOf, hd, hs] using (hsafe.framed hc).data.stage
  | accept | stale | retry | bytes | admitted => rfl

/-- An importer admits the frame that its connection observed. -/
theorem sequence_of_admitted [Target] {p q : Protocol} {i : Input} {r : Except Error Unit}
    {a : Accountability} (hk : HostCall.Keeps pending (.input i))
    (hfollows : pending = none → Importer.Follows p a) (hin : p.input i = .ok (q, r))
    (hq : q.closed = none) (hi : i = .admitted) : a.sequence = some p.sequence := by
  subst hi
  obtain ⟨-, -, hstep⟩ := Protocol.input_open hin hq
  cases hstep with
  | admitted hs _ _ => exact hfollows hk (Or.inr hs)

theorem inv_input [Target] (h : s.Inv c pending) {i : Input}
    (hk : HostCall.Keeps pending (.input i)) :
    ∃ s', s.input i = .ok s' ∧ s'.Inv c (HostCall.announce pending (.input i)) := by
  obtain ⟨q, r, hin, hsafe, hcontract, hdir, -⟩ := Protocol.input_safe h.safe i
  obtain ⟨a, ha, ht, hfollows⟩ := h.tracked
  have hlink : s.protocol.direction = .importing →
      Importer.Inv c { s.link.observe r i with protocol := q } := by
    intro hd
    obtain ⟨j, hj, hinv⟩ := Importer.inv_step (h.link hd) i
    rw [step_link hin] at hj
    cases hj
    exact hinv
  cases hq : q.closed with
  | some error =>
    cases hc : s.protocol.closed with
    | some error' =>
      -- closed before: nothing is written
      have hq' := Protocol.input_closed hc hin
      obtain ⟨hw, b, hb, htb⟩ := Protocol.written_terminal ha (by rw [ht, hc]; rfl) hin
      rw [hq] at hq'
      cases hq'
      obtain ⟨sequence, i', hi', hlog⟩ := h.closed error hc
      refine inv_shut hin hw hq hsafe hdir hlink hb htb ⟨sequence, i', ?_, ?_⟩
      · rw [hi']
        rfl
      · rw [List.append_nil, hlog]
    | none =>
      obtain ⟨sequence, b, hb, htb, hw⟩ :=
        Protocol.written_closing ha (by rw [ht, hc]; rfl) hc hin hq
      obtain ⟨hclosing, hlog⟩ := h.running hc
      refine inv_shut hin hw hq hsafe hdir hlink hb htb ⟨sequence, i, ?_, ?_⟩
      · rw [hclosing]
        rfl
      · rw [hlog]
  | none =>
    have hc := (Protocol.input_open hin hq).1
    have hta : a.terminal = false := by
      rw [ht, hc]
      rfl
    obtain ⟨hb, hw⟩ := Protocol.written_open ha hin hq
    obtain ⟨hclosing, hlog⟩ := h.running hc
    have hcomplete := h.complete hc
    refine ⟨_, input_eq hin hw, ?_⟩
    rw [hq]
    dsimp only
    refine ⟨hsafe, ⟨_, hb, ?_, ?_⟩, fun hd => hlink (hdir.symm.trans hd), ?_, fun _ => rfl,
      fun _ => ⟨hclosing, ?_⟩, fun error he => ?_⟩
    · change (Note.applyAll (s.protocol.inputNotes i) a).terminal = q.closed.isSome
      rw [terminal_inputNotes, hta, hq]
      rfl
    · intro _ hd hp
      have hd' : s.protocol.direction = .importing := hdir.symm.trans hd
      rw [announce_eq h.safe hd' hin hq] at hp
      exact Importer.follows_step (h.link hd') hin hq (hfollows hc hd' hp)
    · intro _ hd
      have hd' : s.protocol.direction = .exporting := hdir.symm.trans hd
      exact (Sending.agrees_step (h.sending hc hd') h.safe hd' hin hq hta).1
    · cases hd : s.protocol.direction with
      | importing =>
        have hstep := Importer.history_step (h.link hd) hin hq hta
          (sequence_of_admitted hk (fun hp => hfollows hc hd hp) hin hq)
        refine Eq.trans ?_ (Eq.symm (history_importing _ ?_))
        · change s.log ++ _ = _
          rw [hlog, hcomplete, history_importing s hd]
          exact hstep
        · exact hdir.trans hd
      | exporting =>
        have hstep := (Sending.agrees_step (h.sending hc hd) h.safe hd hin hq hta).2
        refine Eq.trans ?_ (Eq.symm (history_exporting _ ?_))
        · change s.log ++ _ = _
          rw [hlog, hcomplete, history_exporting s hd]
          exact hstep
        · exact hdir.trans hd
    · change q.closed = some error at he
      rw [hq] at he
      cases he

/-! ## Whole runs -/

theorem inv_step [Target] (h : s.Inv c pending) {call : HostCall} (hk : call.Keeps pending) :
    ∃ s', s.step call = .ok s' ∧ s'.Inv c (call.announce pending) := by
  cases call with
  | input i => exact inv_input h hk
  | observe sequence =>
    refine ⟨_, rfl, inv_account h (fun _ => rfl) fun hp => ?_⟩
    cases hp
  | pop =>
    refine ⟨_, rfl, ?_⟩
    have hpop : (fun p : Protocol => p.popRecord.2) = fun p => p.account fun a => a.pop.2 :=
      funext popRecord_eq
    rw [hpop]
    exact inv_account h (fun _ => rfl) fun hp => ⟨hp, fun _ => rfl⟩

theorem inv_run [Target] (h : s.Inv c pending) {calls : List HostCall}
    (hf : Faithful pending calls) : ∃ s' pending', s.run calls = .ok s' ∧ s'.Inv c pending' := by
  induction calls generalizing s pending with
  | nil => exact ⟨s, pending, rfl, h⟩
  | cons call rest ih =>
    obtain ⟨s₁, h₁, hinv⟩ := inv_step h hf.1
    obtain ⟨s₂, pending₂, h₂, hinv₂⟩ := ih hinv hf.2
    refine ⟨s₂, pending₂, ?_, hinv₂⟩
    rw [run, steps, h₁, ok_bind]
    exact h₂

theorem inv_start [Target] {direction : Direction} {capacity : Nat} {connection : Connection}
    {p : Protocol} (hword : capacity ≤ usizeMax)
    (h : Protocol.withConnection c direction capacity connection = .ok p) :
    (start p).Inv c none := by
  have hprov : Protocol.Provisioned c direction capacity p := Or.inr ⟨connection, h⟩
  have hsafe := (Protocol.provisioned_safe hword hprov).1
  have hlink : direction = .importing → Importer.Inv c (Importer.start p) := by
    rintro rfl
    exact Importer.inv_start hword hprov
  obtain ⟨q, hq, rfl⟩ := Protocol.withConnection_eq h
  obtain ⟨acc, rfl⟩ := Protocol.provisioned_eq (Or.inl hq)
  refine ⟨hsafe, ⟨_, rfl, rfl, ?_⟩, hlink, ?_, ?_, ?_, ?_⟩
  · rintro _ hd _ hstage
    cases hd
    rcases hstage with he | he <;> cases he
  · intro _ hd
    cases hd
    refine ⟨?_, fun he => absurd rfl he, fun he => absurd rfl he, rfl, rfl, rfl,
      fun _ he => absurd rfl he, fun he => Stage.noConfusion he⟩
    intro s hs
    cases hs
  · exact fun _ => rfl
  · intro _
    refine ⟨rfl, ?_⟩
    cases direction <;> rfl
  · intro error he
    cases he

/-- What an audit of a link may rely on. -/
structure Accounted (s : Audit) : Prop where
  running : s.protocol.closed = none → s.log = history s.frames s.finished
  closed : ∀ error, s.protocol.closed = some error → ∃ sequence i, s.closing = some i ∧
    s.log = history s.frames s.complete ++ [⟨sequence, i.outcome error⟩]

/-- For every order of inputs the records of a tracked link pair each admission with its
completion, the last frame being completed exactly when nothing of it is outstanding, and
end in one terminal record once the link is closed. -/
theorem run_accounted [Target] (contract : Contract) (direction : Direction) (capacity : Nat)
    (connection : Connection) (hword : capacity ≤ usizeMax) (p : Protocol)
    (hp : Protocol.withConnection contract direction capacity connection = .ok p)
    (calls : List HostCall) (hf : Faithful none calls) :
    ∃ s, (start p).run calls = .ok s ∧ s.Accounted := by
  obtain ⟨s, pending, hs, hinv⟩ := inv_run (inv_start hword hp) hf
  refine ⟨s, hs, fun hc => ?_, hinv.closed⟩
  rw [← hinv.complete hc]
  exact (hinv.running hc).2

/-- A frame is exchanged, the next one is cut off by a revocation, and the host drains two
records on the way. -/
theorem run_accounted_revoked :
    let _ := Target.x64
    let c : Contract := ⟨⟨7⟩, 1, 1, .ordered⟩
    ∃ p s, Protocol.withConnection c .exporting 64 ⟨5, 1⟩ = .ok p ∧
      (start p).run [.observe 3, .input (.provided 3 40), .input (.accepted .data ⟨0, 1⟩),
        .input (.completed ⟨0, 1⟩ (.bytes 40) []), .pop, .input (.accepted .creditReceive ⟨2, 1⟩),
        .input (.completed ⟨2, 1⟩ (.bytes 9) (creditOf 3)), .pop, .observe 4,
        .input (.provided 4 40), .input .revoked, .input (.closed .protocol)] = .ok s ∧
      s.log = exchange 3 ++ [⟨some 4, .admitted⟩, ⟨some 4, .cancelled⟩] ∧ s.Accounted := by
  intro _ c
  obtain ⟨p, hp⟩ : ∃ p, Protocol.withConnection c .exporting 64 ⟨5, 1⟩ = .ok p := ⟨_, rfl⟩
  obtain ⟨s, hs, hacc⟩ := run_accounted c .exporting 64 ⟨5, 1⟩ (by decide) p hp
    [.observe 3, .input (.provided 3 40), .input (.accepted .data ⟨0, 1⟩),
      .input (.completed ⟨0, 1⟩ (.bytes 40) []), .pop, .input (.accepted .creditReceive ⟨2, 1⟩),
      .input (.completed ⟨2, 1⟩ (.bytes 9) (creditOf 3)), .pop, .observe 4,
      .input (.provided 4 40), .input .revoked, .input (.closed .protocol)]
    ⟨nofun, fun _ hs => (Option.some.inj hs).symm, trivial, trivial, trivial, trivial, trivial,
      trivial, nofun, fun _ hs => (Option.some.inj hs).symm, trivial, trivial, trivial⟩
  refine ⟨p, s, hp, hs, ?_, hacc⟩
  obtain ⟨s', hs', htest⟩ : ∃ s', (start p).run
      [.observe 3, .input (.provided 3 40), .input (.accepted .data ⟨0, 1⟩),
        .input (.completed ⟨0, 1⟩ (.bytes 40) []), .pop, .input (.accepted .creditReceive ⟨2, 1⟩),
        .input (.completed ⟨2, 1⟩ (.bytes 9) (creditOf 3)), .pop, .observe 4,
        .input (.provided 4 40), .input .revoked, .input (.closed .protocol)] = .ok s' ∧
      (s'.log == exchange 3 ++ [⟨some 4, .admitted⟩, ⟨some 4, .cancelled⟩]) = true := by
    cases hp
    exact Exec.of_any (by decide +kernel)
  rw [hs] at hs'
  cases hs'
  exact eq_of_beq htest

end Audit

end Hiway.Transport
