import Hiway.Unix.Export

/-!
# The window of an exporting link

Whatever its peer sends and however its two loops take turns, a link has one frame under
way: the next one is started when the last one was written and credited. What the two flags
of the credit say of the last frame is the invariant; it holds whenever both loops await.

* `Credits.receive_eq`: the credit of the last frame while it is outstanding, and no other
  bytes, is accepted.
* `Inv.step`: what either loop does from one await to the next.
* `Settles.step`: a link that has ended changes nothing but what its host drains.
* `run_windowed`: a frame is started when the last one was written and credited, and the
  records say so and end in one.
-/

namespace Hiway.Unix

open Target Transport

variable {α : Type}

/-! ## Credits -/

theorem eq_creditOf_iff {frame : List UInt8} (hlen : frame.length = creditBytes)
    (sequence : UInt64) :
    frame = creditOf sequence ↔ frame[0]? = some 1 ∧
      UInt64.ofNat (Bytes.ofLe (Bytes.slice frame 1 creditBytes)) = sequence := by
  obtain ⟨hone, hseq⟩ := credit_fields hlen sequence
  rw [← hone, ← hseq]
  constructor
  · rintro rfl
    exact ⟨rfl, List.take_of_length_le (by simp [creditBytes])⟩
  · rintro ⟨hfirst, hrest⟩
    have hsplit := @Bytes.take_append_slice frame 1 creditBytes (by decide)
    have htake : frame.take 1 = [1] := hfirst
    rw [htake, hrest, ← hlen, List.take_length] at hsplit
    exact hsplit.symm

/-- The credit of the last frame while it is outstanding, and no other bytes, is
accepted. -/
theorem Credits.receive_eq (credits : Credits) {frame : List UInt8}
    (hlen : frame.length = creditBytes) :
    credits.receive frame =
      if credits.outstanding = true ∧ frame = creditOf credits.sequence then
        .ok ({ credits with outstanding := false },
          if credits.sent then some credits.sequence else none)
      else .error .protocol := by
  unfold receive
  simp only [eq_creditOf_iff hlen]
  by_cases hone : frame[0]? = some 1
  · by_cases hout : credits.outstanding = true
    · by_cases hseq : UInt64.ofNat (Bytes.ofLe (Bytes.slice frame 1 creditBytes)) =
          credits.sequence
      · refine (if_neg (by simp [hone, hout, hseq])).trans
          (Eq.trans ?_ (if_pos ⟨hout, hone, hseq⟩).symm)
        rw [hseq]
      · rw [if_pos (Or.inr (Or.inr hseq)), if_neg fun h => hseq h.2.2]
    · rw [if_pos (Or.inr (Or.inl (by simpa using hout))), if_neg fun h => hout h.1]
  · rw [if_pos (Or.inl hone), if_neg fun h => hone h.2.1]

/-! ## Records -/

/-- A link that ends makes one record of it, whatever else it still says. -/
theorem Exporter.closing_written (outcome : Option IpcError) {a : Accountability}
    (h : a.terminal = false) :
    ∃ r : FrameRecord, Note.writtenAll (closing outcome) a = [r] ∧ r.outcome ≠ .admitted ∧
      r.outcome ≠ .completed := by
  cases outcome with
  | none =>
    refine ⟨⟨a.sequence, .cancelled⟩, ?_, fun ho => (by cases ho), fun ho => by cases ho⟩
    simp [closing, Note.writtenAll, Note.written, h]
  | some error =>
    cases hrecorded : error.recorded with
    | none =>
      refine ⟨⟨a.sequence, .cancelled⟩, ?_, fun ho => (by cases ho), fun ho => by cases ho⟩
      simp [closing, hrecorded, Note.writtenAll, Note.written, Note.apply,
        Accountability.cancel, h]
    | some e =>
      refine ⟨⟨a.sequence, .rejected e⟩, ?_, fun ho => (by cases ho), fun ho => by cases ho⟩
      simp [closing, hrecorded, Note.writtenAll, Note.written, Note.apply,
        Accountability.finish, h]

/-- The completed frames of a history. -/
theorem completed_history (frames : List UInt64) (complete : Bool) :
    ((Transport.history frames complete).filter fun r => r.outcome = .completed).map (·.sequence) =
      (if complete then frames else frames.dropLast).map some := by
  have hall : ∀ l : List UInt64,
      ((l.flatMap exchange).filter fun r => r.outcome = .completed).map (·.sequence) =
        l.map some := by
    intro l
    induction l with
    | nil => rfl
    | cons s rest ih =>
      rw [List.flatMap_cons, List.filter_append, List.map_append, ih]
      rfl
  cases complete with
  | true => simp [Transport.history, hall]
  | false =>
    unfold Transport.history
    rw [if_neg (by decide), if_neg (by decide), List.filter_append, List.map_append, hall]
    cases frames.getLast? with
    | none => simp
    | some s => simp

namespace Exported

/-! ## The invariant -/

/-- What the flags and the rest of the frame say of the last frame. -/
structure Stands (e : Exporter) (last : Started) : Prop where
  sequence : e.credits.sequence = last.sequence
  outstanding : e.credits.outstanding = !last.credited
  sent : e.credits.sent = decide (last.written = last.bytes)
  writing : ∀ header payload, e.exporting = .writing header payload →
    last.written ++ (header ++ payload) = last.bytes ∧ ¬(header = [] ∧ payload = [])
  written : (∀ header payload, e.exporting ≠ .writing header payload) →
    last.written = last.bytes

/-- A link between two of its awaits. -/
structure Inv (s : Exported) : Prop where
  opened : s.link.outcome = none
  going : s.trace.terminal = false
  reading : ∀ frame, s.link.crediting = .reading frame → frame.length < creditBytes
  receiving : s.link.exporting = .receiving → s.link.credits.outstanding = false
  frames : s.frames = [] ∧ s.link.exporting = .receiving ∨
    ∃ front last, s.frames = front ++ [last] ∧ (∀ f ∈ front, f.complete = true) ∧
      Stands s.link last
  log : s.log = Transport.history (s.frames.map Started.sequence) (s.frames.all Started.complete)

/-- The frames and the records of a link that goes on or has ended. -/
structure Settles (s : Exported) : Prop where
  earlier : ∀ f ∈ s.frames.dropLast, f.complete = true
  written : ∀ f ∈ s.frames, f.written <+: f.bytes
  log : ∃ rest, s.log =
      Transport.history (s.frames.map Started.sequence) (s.frames.all Started.complete) ++ rest ∧
    (s.link.outcome = none → rest = []) ∧ (s.link.outcome ≠ none → rest.length = 1) ∧
    ∀ r ∈ rest, r.outcome ≠ .admitted ∧ r.outcome ≠ .completed

variable {s : Exported}

theorem Inv.settles (h : s.Inv) : s.Settles := by
  refine ⟨?_, ?_, [], ?_, fun _ => rfl, fun hended => absurd h.opened hended, nofun⟩
  · rcases h.frames with ⟨hnil, -⟩ | ⟨front, last, hframes, hfront, -⟩
    · rw [hnil]
      nofun
    · rw [hframes, List.dropLast_concat]
      exact hfront
  · rcases h.frames with ⟨hnil, -⟩ | ⟨front, last, hframes, hfront, hlast⟩
    · rw [hnil]
      nofun
    · rw [hframes]
      intro f hf
      rcases List.mem_append.mp hf with hf | hf
      · have hcomplete := hfront f hf
        simp only [Started.complete, Bool.and_eq_true, decide_eq_true_eq] at hcomplete
        rw [hcomplete.2]
      · cases List.mem_singleton.mp hf
        cases hexporting : s.link.exporting with
        | writing header payload =>
          exact ⟨_, (hlast.writing header payload hexporting).1⟩
        | _ =>
          rw [hlast.written (by simp [hexporting])]
  · rw [List.append_nil]
    exact h.log

/-- What becomes of a link in one step. -/
def Keeps (s : Exported) : Prop := s.Inv ∨ s.link.outcome ≠ none ∧ s.Settles

/-- The link ends, perhaps after it has observed one more sequence. -/
theorem Inv.ends (h : s.Inv) {s' : Exported} (outcome : Option IpcError) (notes : List Note)
    (hnotes : notes = [] ∨ ∃ sequence, notes = [.observe sequence])
    (hlink : s'.link.outcome = some outcome) (hframes : s'.frames = s.frames)
    (hlog : s'.log =
      s.log ++ Note.writtenAll (notes ++ Exporter.closing outcome) s.trace) :
    s'.Keeps := by
  obtain ⟨r, hover, hr⟩ : ∃ r,
      Note.writtenAll (notes ++ Exporter.closing outcome) s.trace = [r] ∧
        r.outcome ≠ .admitted ∧ r.outcome ≠ .completed := by
    rcases hnotes with rfl | ⟨sequence, rfl⟩
    · exact Exporter.closing_written outcome h.going
    · exact Exporter.closing_written outcome (a := s.trace.observe sequence) h.going
  have hsettles := h.settles
  refine Or.inr ⟨by simp [hlink], ?_, ?_, [r], ?_, ?_, fun _ => rfl, by simpa using hr⟩
  · rw [hframes]
    exact hsettles.earlier
  · rw [hframes]
    exact hsettles.written
  · rw [hlog, hover, h.log, hframes]
  · intro hnone
    rw [hlink] at hnone
    cases hnone

/-! ## The last frame -/

theorem onLast_nil (h : s.frames = []) (f : Started → Started) : s.onLast f = [] := by
  unfold onLast
  rw [h]
  rfl

theorem onLast_concat {front : List Started} {last : Started} (h : s.frames = front ++ [last])
    (f : Started → Started) : s.onLast f = front ++ [f last] := by
  unfold onLast
  rw [h, List.getLast?_concat]
  dsimp only
  rw [List.dropLast_concat]

theorem all_complete {front : List Started} (hfront : ∀ f ∈ front, f.complete = true)
    (last : Started) : (front ++ [last]).all Started.complete = last.complete := by
  rw [List.all_append, List.all_eq_true.mpr hfront]
  simp

/-- The records after the last frame has changed. -/
theorem history_last (front : List Started) (last last' : Started)
    (hfront : ∀ f ∈ front, f.complete = true) (hsequence : last'.sequence = last.sequence)
    (hcomplete : last.complete = false) :
    Transport.history ((front ++ [last']).map Started.sequence)
        ((front ++ [last']).all Started.complete) =
      Transport.history ((front ++ [last]).map Started.sequence)
          ((front ++ [last]).all Started.complete) ++
        (if last'.complete then [⟨some last.sequence, .completed⟩] else []) := by
  rw [all_complete hfront, all_complete hfront, hcomplete, List.map_append, List.map_append]
  simp only [List.map_cons, List.map_nil, hsequence]
  cases last'.complete with
  | false => rw [if_neg (by decide), List.append_nil]
  | true =>
    rw [if_pos rfl]
    exact history_complete List.getLast?_concat

/-! ## One step -/

section

variable {E : WireCodec α}

/-- The loops go on, and no frame has changed. -/
theorem Inv.goes (h : s.Inv) {link : Exporter} (hcredits : link.credits = s.link.credits)
    (houtcome : link.outcome = none)
    (hreading : ∀ frame, link.crediting = .reading frame → frame.length < creditBytes)
    (hexporting : link.exporting = s.link.exporting ∨
      s.link.exporting ≠ .receiving ∧ (∀ header payload, s.link.exporting ≠ .writing header payload) ∧
        link.exporting = if s.link.credits.outstanding then .waiting else .receiving) :
    Inv { s with link := link } where
  opened := houtcome
  going := h.going
  reading := hreading
  receiving := by
    intro hr
    dsimp only at hr ⊢
    rw [hcredits]
    rcases hexporting with he | ⟨-, -, he⟩
    · exact h.receiving (he.symm.trans hr)
    · rw [hr] at he
      split at he
      · cases he
      · rename_i hout
        simpa using hout
  frames := by
    rcases h.frames with ⟨hnil, hr⟩ | ⟨front, last, hframes, hfront, hlast⟩
    · rcases hexporting with he | ⟨hne, -, -⟩
      · exact Or.inl ⟨hnil, he.trans hr⟩
      · exact absurd hr hne
    · refine Or.inr ⟨front, last, hframes, hfront, ?_⟩
      rcases hexporting with he | ⟨-, hnot, he⟩
      · exact
          { sequence := by rw [hcredits]; exact hlast.sequence
            outstanding := by rw [hcredits]; exact hlast.outstanding
            sent := by rw [hcredits]; exact hlast.sent
            writing := by rw [he]; exact hlast.writing
            written := by rw [he]; exact hlast.written }
      · refine
          { sequence := by rw [hcredits]; exact hlast.sequence
            outstanding := by rw [hcredits]; exact hlast.outstanding
            sent := by rw [hcredits]; exact hlast.sent
            writing := ?_
            written := fun _ => hlast.written hnot }
        intro header payload hw
        rw [hw] at he
        split at he <;> cases he
  log := h.log

/-- A new frame is started when the last one is complete. -/
theorem Inv.provided (h : s.Inv) (hr : s.link.exporting = .receiving) {sequence : UInt64}
    {payload : α} {header body : List UInt8}
    (hencode : encodeData E sequence payload s.link.buffer = .ok (header, body))
    (buffer : List UInt8) :
    Inv
      { link := { s.link with
          credits := s.link.credits.start sequence
          exporting := .writing header body
          buffer := buffer }
        trace := Note.applyAll [.observe sequence, .admitted] s.trace
        frames := s.frames ++ [⟨sequence, header ++ body, [], false⟩]
        log := s.log ++ Note.writtenAll [.observe sequence, .admitted] s.trace } := by
  have hout := h.receiving hr
  have hall : ∀ f ∈ s.frames, f.complete = true := by
    rcases h.frames with ⟨hnil, -⟩ | ⟨front, last, hframes, hfront, hlast⟩
    · rw [hnil]
      exact fun f hf => by cases hf
    · rw [hframes]
      intro f hf
      rcases List.mem_append.mp hf with hf | hf
      · exact hfront f hf
      · cases List.mem_singleton.mp hf
        have hcredited := hlast.outstanding
        rw [hout] at hcredited
        have hwritten := hlast.written (by simp [hr])
        simp only [Started.complete, Bool.and_eq_true, decide_eq_true_eq]
        exact ⟨by simpa using hcredited.symm, hwritten⟩
  have hne : header ++ body ≠ [] := by
    obtain ⟨-, -, -, rfl⟩ := encodeData_eq_ok.mp hencode
    intro hnil
    have hlen := congrArg List.length hnil
    simp [headerBytes] at hlen
  have hempty : ¬ (header = [] ∧ body = []) := by
    rintro ⟨rfl, rfl⟩
    exact hne rfl
  have hnew : Started.complete ⟨sequence, header ++ body, [], false⟩ = false := rfl
  refine
    { opened := h.opened
      going := ?_
      reading := h.reading
      receiving := fun hr => by cases hr
      frames := Or.inr ⟨s.frames, _, rfl, hall, rfl, rfl, ?_, ?_, ?_⟩
      log := ?_ }
  · simp [Note.apply, Accountability.observe, Accountability.admitted, Accountability.record,
      h.going]
  · exact (decide_eq_false fun heq => hne heq.symm).symm
  · intro header' payload' hw
    cases hw
    exact ⟨rfl, hempty⟩
  · intro hnot
    exact absurd rfl (hnot header body)
  · have hwritten : Note.writtenAll [.observe sequence, .admitted] s.trace =
        [⟨some sequence, .admitted⟩] := by
      simp [Note.writtenAll, Note.written, Note.apply, Accountability.observe, h.going]
    rw [hwritten, h.log, all_complete hall, hnew, List.all_eq_true.mpr hall, List.map_append]
    exact (history_admitted (Or.inl rfl) _).symm

/-- More of the last frame was written. -/
theorem Inv.wrote (h : s.Inv) {header payload : List UInt8}
    (hw : s.link.exporting = .writing header payload) {header' payload' part : List UInt8}
    (hpart : part ++ (header' ++ payload') = header ++ payload) :
    let next := s.link.write header' payload'
    Inv
      { link := next.1
        trace := Note.applyAll next.2 s.trace
        frames := s.onLast fun last => { last with written := last.written ++ part }
        log := s.log ++ Note.writtenAll next.2 s.trace } := by
  rcases h.frames with ⟨-, hr⟩ | ⟨front, last, hframes, hfront, hlast⟩
  · cases hw.symm.trans hr
  obtain ⟨hbytes, hrest⟩ := hlast.writing header payload hw
  have hcut : ∀ {written part : List UInt8}, written ++ part = last.bytes → part ≠ [] →
      written ≠ last.bytes := by
    rintro written part heq hne rfl
    exact hne (List.append_right_eq_self.mp heq)
  have hunwritten : last.written ≠ last.bytes := hcut hbytes (by simpa using hrest)
  have hincomplete : last.complete = false := by
    rw [Started.complete, decide_eq_false hunwritten, Bool.and_false]
  have hbytes' : last.written ++ part ++ (header' ++ payload') = last.bytes := by
    rw [List.append_assoc, hpart, hbytes]
  have hlog := history_last front last { last with written := last.written ++ part } hfront rfl
    hincomplete
  rw [← hframes, ← h.log] at hlog
  rw [onLast_concat hframes]
  unfold Exporter.write
  split
  · rename_i hdone
    obtain ⟨rfl, rfl⟩ := hdone
    have hall : last.written ++ part = last.bytes := by simpa using hbytes'
    have hcomplete : Started.complete { last with written := last.written ++ part } =
        last.credited := by
      rw [Started.complete, decide_eq_true hall, Bool.and_true]
    refine
      { opened := h.opened
        going := ?_
        reading := h.reading
        receiving := fun hr => by cases hr
        frames := Or.inr ⟨front, _, rfl, hfront, hlast.sequence, hlast.outstanding,
          (decide_eq_true hall).symm, fun _ => (by simp), fun _ => hall⟩
        log := ?_ }
    · dsimp only
      split
      · exact h.going
      · simp [Note.apply, Accountability.completed, Accountability.record, h.going]
    · rw [hlog, hcomplete]
      dsimp only
      rw [hlast.outstanding, hlast.sequence]
      cases last.credited with
      | false => rfl
      | true => rw [if_neg (by decide), if_pos rfl, written_completed h.going]
  · rename_i hmore
    have hunwritten' : last.written ++ part ≠ last.bytes :=
      hcut hbytes' (by simpa using hmore)
    have hincomplete' : Started.complete { last with written := last.written ++ part } = false := by
      rw [Started.complete, decide_eq_false hunwritten', Bool.and_false]
    refine
      { opened := h.opened
        going := h.going
        reading := h.reading
        receiving := fun hr => by cases hr
        frames := Or.inr ⟨front, _, rfl, hfront, hlast.sequence, hlast.outstanding, ?_, ?_, ?_⟩
        log := ?_ }
    · rw [hlast.sent, decide_eq_false hunwritten]
      exact (decide_eq_false hunwritten').symm
    · intro header'' payload'' hw''
      cases hw''
      exact ⟨hbytes', hmore⟩
    · intro hnot
      exact absurd rfl (hnot header' payload')
    · rw [hlog, hincomplete']
      rfl

/-- A credit was read to its end. -/
theorem Inv.credited (h : s.Inv) {frame : List UInt8} (hlen : frame.length = creditBytes) :
    let next := s.link.credit frame
    let s' : Exported :=
      { link := next.1
        trace := Note.applyAll next.2 s.trace
        frames := s.onLast fun last =>
          { last with credited := last.credited || decide (frame = creditOf last.sequence) }
        log := s.log ++ Note.writtenAll next.2 s.trace }
    s'.Keeps ∧
      s'.link.outcome = if ∃ last, s.frames.getLast? = some last ∧ last.credited = false ∧
        frame = creditOf last.sequence then none else some (some .protocol) := by
  have hcredit := s.link.credits.receive_eq hlen
  unfold Exporter.credit
  rcases h.frames with ⟨hnil, hr⟩ | ⟨front, last, hframes, hfront, hlast⟩
  · rw [if_neg fun hn => Bool.false_ne_true ((h.receiving hr).symm.trans hn.1)] at hcredit
    rw [hcredit, hnil, onLast_nil hnil, if_neg (by simp)]
    exact ⟨h.ends _ [] (Or.inl rfl) rfl hnil.symm rfl, rfl⟩
  · rw [hlast.outstanding, hlast.sequence] at hcredit
    rw [onLast_concat hframes, hframes, List.getLast?_concat]
    by_cases hok : last.credited = false ∧ frame = creditOf last.sequence
    · obtain ⟨hopen, rfl⟩ := hok
      have hgood : (!last.credited) = true ∧ creditOf last.sequence = creditOf last.sequence :=
        ⟨by rw [hopen]; rfl, rfl⟩
      rw [if_pos hgood] at hcredit
      have hmatches : ∃ last', some last = some last' ∧ last'.credited = false ∧
          creditOf last.sequence = creditOf last'.sequence := ⟨last, rfl, hopen, rfl⟩
      rw [hcredit, if_pos hmatches]
      have hincomplete : last.complete = false := by
        rw [Started.complete, hopen, Bool.false_and]
      have hcomplete : Started.complete { last with
          credited := last.credited || decide (creditOf last.sequence = creditOf last.sequence) } =
            s.link.credits.sent := by
        rw [Started.complete, decide_eq_true rfl, Bool.or_true, Bool.true_and, hlast.sent]
      have hlog := history_last front last { last with
        credited := last.credited || decide (creditOf last.sequence = creditOf last.sequence) }
        hfront rfl hincomplete
      rw [← hframes, ← h.log, hcomplete] at hlog
      refine ⟨Or.inl ?_, h.opened⟩
      refine
        { opened := h.opened
          going := ?_
          reading := nofun
          receiving := fun _ => rfl
          frames := Or.inr ⟨front, _, rfl, hfront, rfl, ?_, hlast.sent, hlast.writing,
            hlast.written⟩
          log := ?_ }
      · dsimp only
        split
        · simp [Note.apply, Accountability.completed, Accountability.record, h.going]
        · exact h.going
      · simp
      · rw [hlog]
        dsimp only
        cases s.link.credits.sent with
        | false => rfl
        | true =>
          rw [if_pos rfl, if_pos rfl, Option.toList_some, List.map_singleton,
            written_completed h.going]
    · have hbad : ¬ ((!last.credited) = true ∧ frame = creditOf last.sequence) := by
        rintro ⟨hopen, hframe⟩
        exact hok ⟨by simpa using hopen, hframe⟩
      rw [if_neg hbad] at hcredit
      have hsame : (last.credited || decide (frame = creditOf last.sequence)) = last.credited := by
        cases hcredited : last.credited with
        | true => rfl
        | false => rw [decide_eq_false fun hf => hok ⟨hcredited, hf⟩, Bool.or_false]
      rw [hcredit, hsame, if_neg]
      · exact ⟨h.ends _ [] (Or.inl rfl) rfl hframes.symm rfl, rfl⟩
      · rintro ⟨last', hlast', hopen⟩
        cases hlast'
        exact hok hopen

/-- A step of the link, with its history. -/
theorem step_eq {a : Action α} {link : Exporter} {notes : List Note} {frames : List Started}
    (hstep : s.link.step E a = (link, notes)) (hsee : s.see E a = frames) (hpop : a ≠ .popped) :
    s.step E a =
      ⟨link, Note.applyAll notes s.trace, frames, s.log ++ Note.writtenAll notes s.trace⟩ := by
  cases a with
  | popped => exact absurd rfl hpop
  | _ => simp only [Exported.step, hstep, hsee]

/-- The loops go on, and no call is made. -/
theorem Inv.quiet (h : s.Inv) {action : Action α} {link : Exporter} (hpop : action ≠ .popped)
    (hstep : s.link.step E action = (link, [])) (hsee : s.see E action = s.frames)
    (hcredits : link.credits = s.link.credits) (houtcome : link.outcome = none)
    (hreading : ∀ frame, link.crediting = .reading frame → frame.length < creditBytes)
    (hexporting : link.exporting = s.link.exporting ∨
      s.link.exporting ≠ .receiving ∧
        (∀ header payload, s.link.exporting ≠ .writing header payload) ∧
        link.exporting = if s.link.credits.outstanding then .waiting else .receiving) :
    (s.step E action).Keeps := by
  rw [step_eq hstep hsee hpop]
  refine Or.inl ?_
  have hgoes := h.goes hcredits houtcome hreading hexporting
  exact { hgoes with log := by rw [Note.writtenAll, List.append_nil]; exact h.log }

/-- An await that is not under way changes nothing. -/
theorem Inv.stays (h : s.Inv) {action : Action α} (hpop : action ≠ .popped)
    (hstep : s.link.step E action = (s.link, [])) (hsee : s.see E action = s.frames) :
    (s.step E action).Keeps :=
  h.quiet hpop hstep hsee rfl h.opened h.reading (Or.inl rfl)

/-- The link ends without another call. -/
theorem Inv.finishes (h : s.Inv) {action : Action α} (outcome : Option IpcError)
    (hpop : action ≠ .popped) (hstep : s.link.step E action = s.link.finish outcome)
    (hsee : s.see E action = s.frames) : (s.step E action).Keeps := by
  rw [step_eq hstep hsee hpop]
  exact h.ends outcome [] (Or.inl rfl) rfl rfl rfl

/-- Nothing was written to the last frame. -/
theorem Inv.onLast_self (h : s.Inv) {f : Started → Started}
    (hf : ∀ last, s.frames.getLast? = some last → f last = last) : s.onLast f = s.frames := by
  rcases h.frames with ⟨hnil, -⟩ | ⟨front, last, hframes, -⟩
  · rw [onLast_nil hnil, hnil]
  · rw [onLast_concat hframes, hf last (by rw [hframes, List.getLast?_concat]), hframes]

/-- The item that `export_data` awaits. -/
theorem Inv.received (h : s.Inv) (hr : s.link.exporting = .receiving) (sequence : UInt64)
    (payload : α) : (s.step E (.received sequence payload)).Keeps := by
  have hstep : s.link.step E (.received sequence payload) = s.link.provide E sequence payload := by
    simp only [Exporter.step, h.opened, hr]
  cases hencode : encodeData E sequence payload s.link.buffer with
  | error error =>
    have hsee : s.see E (.received sequence payload) = s.frames := by
      simp only [see, h.opened, hr, hencode]
    have hprovide : s.link.provide E sequence payload = ((s.link.finish (some error)).1,
        [.observe sequence] ++ Exporter.closing (some error)) := by
      simp only [Exporter.provide, hencode]
      rfl
    rw [step_eq (hstep.trans hprovide) hsee nofun]
    exact h.ends (some error) [.observe sequence] (Or.inr ⟨sequence, rfl⟩) rfl rfl rfl
  | ok made =>
    obtain ⟨header, body⟩ := made
    have hsee : s.see E (.received sequence payload) =
        s.frames ++ [⟨sequence, header ++ body, [], false⟩] := by
      simp only [see, h.opened, hr, hencode]
    have hprovide : s.link.provide E sequence payload =
        ({ s.link with
            credits := s.link.credits.start sequence
            exporting := .writing header body
            buffer := body ++ s.link.buffer.drop body.length },
          [.observe sequence, .admitted]) := by
      simp only [Exporter.provide, hencode]
    rw [step_eq (hstep.trans hprovide) hsee nofun]
    exact Or.inl (h.provided hr hencode _)

/-- A write of `export_data`. -/
theorem Inv.wroteSome (h : s.Inv) {header payload : List UInt8}
    (hw : s.link.exporting = .writing header payload) (count : Nat) :
    (s.step E (.wrote count)).Keeps := by
  cases count with
  | zero =>
    refine h.finishes (some (.io none)) nofun (by simp only [Exporter.step, h.opened, hw]) ?_
    cases header <;> simp only [see, h.opened, hw] <;> exact h.onLast_self (by simp)
  | succ count =>
    cases header with
    | nil =>
      rw [step_eq (E := E) (a := .wrote (count + 1))
        (by simp only [Exporter.step, h.opened, hw]; rfl)
        (by simp only [see, h.opened, hw]; rfl) nofun]
      exact Or.inl (h.wrote hw (by rw [List.nil_append, List.take_append_drop]; rfl))
    | cons b rest =>
      rw [step_eq (E := E) (a := .wrote (count + 1))
        (by simp only [Exporter.step, h.opened, hw]; rfl)
        (by simp only [see, h.opened, hw]; rfl) nofun]
      exact Or.inl (h.wrote hw (by rw [← List.append_assoc, List.take_append_drop]))

/-- A read of `receive_credits`. -/
theorem Inv.readSome (h : s.Inv) {frame : List UInt8} (hc : s.link.crediting = .reading frame)
    (bytes : List UInt8) : (s.step E (.read bytes)).Keeps := by
  have hlt := h.reading frame hc
  cases bytes with
  | nil =>
    refine h.finishes (some (.io none)) nofun (by simp only [Exporter.step, h.opened, hc]) ?_
    simp only [see, h.opened, hc]
    refine h.onLast_self fun last _ => ?_
    have hne : ¬ frame = creditOf last.sequence := by
      rintro rfl
      rw [length_creditOf] at hlt
      exact hlt.ne rfl
    rw [List.take_nil, List.append_nil, decide_eq_false hne, Bool.or_false]
  | cons b rest =>
    have hread : (frame ++ (b :: rest).take (creditBytes - frame.length)).length ≤ creditBytes := by
      rw [List.length_append, List.length_take]
      omega
    have hsee : s.see E (.read (b :: rest)) = s.onLast fun last =>
        { last with
          credited := last.credited || decide (frame ++ (b :: rest).take
            (creditBytes - frame.length) = creditOf last.sequence) } := by
      simp only [see, h.opened, hc]
    by_cases hfull : (frame ++ (b :: rest).take (creditBytes - frame.length)).length = creditBytes
    · have hstep : s.link.step E (.read (b :: rest)) =
          s.link.credit (frame ++ (b :: rest).take (creditBytes - frame.length)) := by
        simp only [Exporter.step, h.opened, hc]
        exact if_pos hfull
      rw [step_eq hstep hsee nofun]
      exact (h.credited hfull).1
    · have hstep : s.link.step E (.read (b :: rest)) = ({ s.link with
          crediting := .reading (frame ++ (b :: rest).take (creditBytes - frame.length)) }, []) := by
        simp only [Exporter.step, h.opened, hc]
        exact if_neg hfull
      refine h.quiet nofun hstep (hsee.trans (h.onLast_self fun last _ => ?_)) rfl h.opened ?_
        (Or.inl rfl)
      · have hne : ¬ frame ++ (b :: rest).take (creditBytes - frame.length) =
            creditOf last.sequence := fun heq => hfull (by rw [heq, length_creditOf])
        rw [decide_eq_false hne, Bool.or_false]
      · intro frame' hframe'
        cases hframe'
        exact Nat.lt_of_le_of_ne hread hfull

/-- What either loop does from one await to the next. -/
theorem Inv.step (h : s.Inv) (action : Action α) : (s.step E action).Keeps := by
  have hopened := h.opened
  have hwait : ∀ action : Action α, action ≠ .popped → s.link.step E action = (s.link.wait, []) →
      s.see E action = s.frames → s.link.exporting ≠ .receiving →
      (∀ header payload, s.link.exporting ≠ .writing header payload) → (s.step E action).Keeps :=
    fun action hpop hstep hsee hr hw => h.quiet hpop hstep hsee rfl hopened h.reading
      (Or.inr ⟨hr, hw, rfl⟩)
  cases action with
  | popped => exact Or.inl ⟨h.opened, h.going, h.reading, h.receiving, h.frames, h.log⟩
  | revoked =>
    exact h.finishes (some .revoked) nofun (by simp only [Exporter.step, hopened])
      (by simp only [see, hopened])
  | dropped =>
    exact h.finishes none nofun (by simp only [Exporter.step, hopened])
      (by simp only [see, hopened])
  | notified =>
    cases he : s.link.exporting with
    | waiting =>
      exact hwait .notified nofun (by simp only [Exporter.step, hopened, he])
        (by simp only [see, hopened]) (by simp [he]) (by simp [he])
    | _ =>
      exact h.stays nofun (by simp only [Exporter.step, hopened, he])
        (by simp only [see, hopened])
  | exportResumed =>
    cases he : s.link.exporting with
    | yielding =>
      exact hwait .exportResumed nofun (by simp only [Exporter.step, hopened, he])
        (by simp only [see, hopened]) (by simp [he]) (by simp [he])
    | _ =>
      exact h.stays nofun (by simp only [Exporter.step, hopened, he])
        (by simp only [see, hopened])
  | received sequence payload =>
    cases he : s.link.exporting with
    | receiving => exact h.received he sequence payload
    | _ =>
      exact h.stays nofun (by simp only [Exporter.step, hopened, he])
        (by simp only [see, hopened, he])
  | lost first last =>
    cases he : s.link.exporting with
    | receiving =>
      exact h.finishes (some (.gap first last)) nofun (by simp only [Exporter.step, hopened, he])
        (by simp only [see, hopened])
    | _ =>
      exact h.stays nofun (by simp only [Exporter.step, hopened, he])
        (by simp only [see, hopened])
  | receiveFailed error =>
    cases he : s.link.exporting with
    | receiving =>
      exact h.finishes (some (.receive error)) nofun (by simp only [Exporter.step, hopened, he])
        (by simp only [see, hopened])
    | _ =>
      exact h.stays nofun (by simp only [Exporter.step, hopened, he])
        (by simp only [see, hopened])
  | wrote count =>
    cases he : s.link.exporting with
    | writing header payload => exact h.wroteSome he count
    | _ =>
      exact h.stays nofun (by simp only [Exporter.step, hopened, he])
        (by simp only [see, hopened, he])
  | writeFailed code =>
    cases he : s.link.exporting with
    | writing header payload =>
      exact h.finishes (some (.io code)) nofun (by simp only [Exporter.step, hopened, he])
        (by simp only [see, hopened])
    | _ =>
      exact h.stays nofun (by simp only [Exporter.step, hopened, he])
        (by simp only [see, hopened])
  | read bytes =>
    cases hc : s.link.crediting with
    | reading frame => exact h.readSome hc bytes
    | yielding =>
      exact h.stays nofun (by simp only [Exporter.step, hopened, hc])
        (by simp only [see, hopened, hc])
  | readFailed code =>
    cases hc : s.link.crediting with
    | reading frame =>
      exact h.finishes (some (.io code)) nofun (by simp only [Exporter.step, hopened, hc])
        (by simp only [see, hopened])
    | yielding =>
      exact h.stays nofun (by simp only [Exporter.step, hopened, hc])
        (by simp only [see, hopened])
  | creditResumed =>
    cases hc : s.link.crediting with
    | reading frame =>
      exact h.stays nofun (by simp only [Exporter.step, hopened, hc])
        (by simp only [see, hopened])
    | yielding =>
      have hstep : s.link.step E .creditResumed =
          ({ s.link with crediting := .reading [] }, []) := by
        simp only [Exporter.step, hopened, hc]
      refine h.quiet nofun hstep (by simp only [see, hopened]) rfl hopened ?_
        (Or.inl rfl)
      intro frame hframe
      cases hframe
      decide

/-- A link that has ended changes nothing but what its host drains. -/
theorem Settles.step (h : s.Settles) (hended : s.link.outcome ≠ none) (action : Action α) :
    (s.step E action).Keeps := by
  obtain ⟨outcome, houtcome⟩ := Option.ne_none_iff_exists'.mp hended
  by_cases hpop : action = .popped
  · subst hpop
    exact Or.inr ⟨hended, h.earlier, h.written, h.log⟩
  · have hstep : s.link.step E action = (s.link, []) := by
      simp only [Exporter.step, houtcome]
    have hsee : s.see E action = s.frames := by
      simp only [see, houtcome]
    rw [step_eq hstep hsee hpop]
    simp only [Note.writtenAll, List.append_nil]
    exact Or.inr ⟨hended, h.earlier, h.written, h.log⟩

theorem Keeps.step (h : s.Keeps) (action : Action α) : (s.step E action).Keeps := by
  rcases h with hinv | ⟨hended, hsettles⟩
  · exact hinv.step action
  · exact hsettles.step hended action

end

theorem start_inv (E : WireCodec α) (connection : Connection) (maxPayload : Nat) :
    (start E connection maxPayload).Inv where
  opened := rfl
  going := rfl
  reading := by
    intro frame hframe
    cases hframe
    decide
  receiving _ := rfl
  frames := Or.inl ⟨rfl, rfl⟩
  log := rfl

theorem keeps_run (E : WireCodec α) (connection : Connection) (maxPayload : Nat)
    (actions : List (Action α)) : (run E (start E connection maxPayload) actions).Keeps :=
  List.foldlRecOn actions _ (Or.inl (start_inv E connection maxPayload))
    fun _ h action _ => h.step action

/-! ## The window -/

/-- The credit that the link reads to its end is the one of the last frame, which is not
credited yet. -/
def Expects (s : Exported) (frame : List UInt8) : Prop :=
  ∃ last, s.frames.getLast? = some last ∧ last.credited = false ∧ frame = creditOf last.sequence

/-- What holds of the frames, the records and the next credit of a link. -/
structure Windowed (E : WireCodec α) (s : Exported) : Prop where
  earlier : ∀ f ∈ s.frames.dropLast, f.credited = true ∧ f.written = f.bytes
  written : ∀ f ∈ s.frames, f.written <+: f.bytes
  completed : (s.log.filter fun r => r.outcome = .completed).map (·.sequence) =
    (s.frames.filter fun f => f.credited && decide (f.written = f.bytes)).map (some ·.sequence)
  order : ∃ rest, s.log = Transport.history (s.frames.map Started.sequence)
      (s.frames.all fun f => f.credited && decide (f.written = f.bytes)) ++ rest ∧
    (s.link.outcome = none → rest = []) ∧ (s.link.outcome ≠ none → rest.length = 1) ∧
    ∀ r ∈ rest, r.outcome ≠ .admitted ∧ r.outcome ≠ .completed
  credits : s.link.outcome = none → ∀ frame bytes, s.link.crediting = .reading frame →
    frame.length + bytes.length = creditBytes →
      (s.Expects (frame ++ bytes) → (s.step E (.read bytes)).link.outcome = none) ∧
      (¬ s.Expects (frame ++ bytes) →
        (s.step E (.read bytes)).link.outcome = some (some .protocol))

variable {E : WireCodec α}

theorem Settles.completed (h : s.Settles) :
    (s.log.filter fun r => r.outcome = .completed).map (·.sequence) =
      (s.frames.filter Started.complete).map (some ·.sequence) := by
  obtain ⟨rest, hlog, -, -, hrest⟩ := h.log
  have hnone : rest.filter (fun r => r.outcome = .completed) = [] := by
    rw [List.filter_eq_nil_iff]
    intro r hr
    simpa using (hrest r hr).2
  rw [hlog, List.filter_append, hnone, List.append_nil, completed_history]
  cases hframes : s.frames.getLast? with
  | none =>
    rw [List.getLast?_eq_none_iff.mp hframes]
    rfl
  | some last =>
    obtain ⟨front, hfront⟩ := List.getLast?_eq_some_iff.mp hframes
    have hall := h.earlier
    rw [hfront, List.dropLast_concat] at hall
    rw [hfront, all_complete hall, List.filter_append, List.filter_eq_self.mpr hall]
    cases hlast : last.complete with
    | true => simp [hlast]
    | false => simp [hlast]

theorem Keeps.windowed (h : s.Keeps) : s.Windowed E := by
  have hsettles : s.Settles := h.elim Inv.settles And.right
  refine ⟨fun f hf => ?_, hsettles.written, hsettles.completed, hsettles.log, ?_⟩
  · have hcomplete := hsettles.earlier f hf
    simpa only [Started.complete, Bool.and_eq_true, decide_eq_true_eq] using hcomplete
  · intro hopen frame bytes hc hlen
    rcases h with hinv | ⟨hended, -⟩
    · have hlt := hinv.reading frame hc
      have htake : bytes.take (creditBytes - frame.length) = bytes :=
        List.take_of_length_le (by omega)
      have hfull : (frame ++ bytes).length = creditBytes := by
        rw [List.length_append]
        exact hlen
      have houtcome := (hinv.credited hfull).2
      have hstep : s.link.step E (.read bytes) = s.link.credit (frame ++ bytes) := by
        cases bytes with
        | nil =>
          rw [List.length_nil] at hlen
          omega
        | cons b rest =>
          simp only [Exporter.step, hopen, hc, htake]
          exact if_pos hfull
      have hlink : (s.step E (.read bytes)).link.outcome =
          (s.link.credit (frame ++ bytes)).1.outcome := by
        rw [step_eq hstep rfl nofun]
        rfl
      rw [hlink]
      dsimp only at houtcome
      rw [houtcome]
      exact ⟨fun hexpects => if_pos hexpects, fun hnot => if_neg hnot⟩
    · exact absurd hopen hended

/-- **The export window.** However the two loops of a link take turns, and whatever its
peer sends, a frame is started when the one before it was credited and completely written,
exactly the frames that were both are recorded as completed, and a credit that is not the
one of the last frame ends the link with a protocol error. -/
theorem run_windowed (E : WireCodec α) (connection : Connection) (maxPayload : Nat)
    (actions : List (Action α)) : (run E (start E connection maxPayload) actions).Windowed E :=
  (keeps_run E connection maxPayload actions).windowed

end Exported

end Hiway.Unix
