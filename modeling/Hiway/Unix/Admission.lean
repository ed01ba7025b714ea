import Hiway.Unix.Import

/-!
# The discipline of an importing link

Whatever its peer sends, a link admits only frames that its contract accepts, in the order
its delivery allows, and owes at most one credit: the one of the last frame it admitted.
What each await says of the bytes read and of the credit owed is the invariant.

* `acceptHeader_eq_ok`: what an accepted header says of itself.
* `Inv.step`: what the link does from one await to the next.
* `Settles.step`: a link that has ended changes nothing but what its host drains.
* `run_admits`: whatever its peer sends, a link hands on values of accepted frames in order,
  owes at most one credit, and ends in one record.
-/

namespace Hiway.Unix

open Target Transport

variable {α G : Type}

/-! ## Headers -/

/-- What an accepted header says of itself. -/
theorem acceptHeader_eq_ok [Target] {c : Contract} {header : List UInt8} {m length : Nat}
    {previous : Option UInt64} {sequence : UInt64} {revision : SchemaRevision}
    (hlen : header.length = headerBytes) :
    acceptHeader c header m previous = .ok (sequence, revision, length) ↔
      headerMatches c header = true ∧ headerLength header ≤ m ∧
        (∀ last ∈ previous, c.delivery.follows last (headerSequence header) = true) ∧
        headerSequence header = sequence ∧ headerRevision header = revision ∧
        headerLength header = length := by
  cases hm : headerMatches c header with
  | false =>
    rw [acceptHeader_foreign hlen hm]
    constructor
    · intro h
      cases h
    · rintro ⟨h, -⟩
      cases h
  | true =>
    by_cases hfit : headerLength header ≤ m
    · rw [acceptHeader_fits hlen hm hfit]
      have hany :
          (previous.any fun last => !c.delivery.follows last (headerSequence header)) = true ↔
          ¬∀ last ∈ previous, c.delivery.follows last (headerSequence header) = true := by
        cases previous <;> simp
      by_cases hfollows : ∀ last ∈ previous, c.delivery.follows last (headerSequence header) = true
      · rw [if_neg fun h => hany.mp h hfollows, Except.ok.injEq, Prod.mk.injEq, Prod.mk.injEq]
        exact ⟨fun ⟨h1, h2, h3⟩ => ⟨rfl, hfit, hfollows, h1, h2, h3⟩,
          fun ⟨_, _, _, h1, h2, h3⟩ => ⟨h1, h2, h3⟩⟩
      · rw [if_pos (hany.mpr hfollows)]
        constructor
        · intro h
          cases h
        · rintro ⟨-, -, h, -⟩
          exact absurd h hfollows
    · rw [acceptHeader_oversized hlen hm (Nat.lt_of_not_le hfit)]
      constructor
      · intro h
        cases h
      · rintro ⟨-, h, -⟩
        exact absurd h hfit

/-- What is still to be written of the last credit. -/
def Importing.owed : Importing α → List UInt8
  | .crediting _ credit => credit
  | _ => []

theorem Importer.decoded_maxPayload (decode : Decode α G) (i : Importer α) (grant : G)
    (sequence : UInt64) (revision : SchemaRevision) (payload : List UInt8) :
    (i.decoded decode grant sequence revision payload).1.maxPayload = i.maxPayload := by
  unfold Importer.decoded
  split <;> rfl

theorem Importer.payload_maxPayload (decode : Decode α G) (i : Importer α) (grant : G)
    (sequence : UInt64) (revision : SchemaRevision) (length : Nat) (read : List UInt8) :
    (i.payload decode grant sequence revision length read).1.maxPayload = i.maxPayload := by
  unfold Importer.payload
  split
  · exact decoded_maxPayload decode i grant sequence revision read
  · rfl

namespace Imported

variable {s : Imported α}

theorem gather_nil (grant : G) : s.gather (.read [] grant) = (s.admitted, s.arriving) := by
  rw [gather, List.take_nil, List.append_nil]

theorem gather_idle (bytes : List UInt8) (grant : G) (hroom : s.room = 0) :
    s.gather (.read bytes grant) = (s.admitted, s.arriving) := by
  rw [gather, hroom, List.take_zero, List.append_nil]

/-! ## The invariant -/

/-- The header that `import_data` goes by. -/
structure Heads [Target] (c : Contract) (link : Importer α) (observed : Option UInt64)
    (header : List UInt8) (sequence : UInt64) (revision : SchemaRevision) (length : Nat) :
    Prop where
  framed : header.length = headerBytes
  accepted : acceptHeader c header link.maxPayload link.previous = .ok (sequence, revision, length)
  observed : observed = some sequence

/-- What was read of the next frame at each await. -/
def Awaits [Target] (c : Contract) (decode : Decode α G) (s : Imported α) : Importing α → Prop
  | .header read => s.arriving = read ∧ read.length < headerBytes
  | .payload sequence revision length read => ∃ header, s.arriving = header ++ read ∧
      Heads c s.link s.trace.sequence header sequence revision length ∧ read.length < length
  | .sending sequence value => ∃ header payload revision, s.arriving = header ++ payload ∧
      Heads c s.link s.trace.sequence header sequence revision payload.length ∧
      ∃ grant, decode payload revision grant = .ok value
  | .crediting sequence credit => s.arriving = [] ∧ credit ≠ [] ∧ credit.length ≤ creditBytes ∧
      s.admitted.getLast?.map Accepted.sequence = some sequence
  | .yielding => s.arriving = []

/-- A link that goes on, but for what it awaits. -/
structure Going [Target] (c : Contract) (decode : Decode α G) (s : Imported α) : Prop where
  opened : s.link.outcome = none
  going : s.trace.terminal = false
  sound : ∀ a ∈ s.admitted, a.Sound c decode s.link.maxPayload
  follows : s.admitted.IsChain fun a b => c.delivery.follows a.sequence b.sequence = true
  previous : s.link.previous = s.admitted.getLast?.map Accepted.sequence
  credits : s.sent ++ s.link.importing.owed = s.credits
  owed : s.link.importing.owed.length ≤ creditBytes
  log : s.log =
    Transport.history (s.admitted.map Accepted.sequence) (decide (s.sent = s.credits))

/-- A link between two of its awaits. -/
structure Inv [Target] (c : Contract) (decode : Decode α G) (s : Imported α) : Prop extends
    s.Going c decode where
  awaits : s.Awaits c decode s.link.importing

/-- The frames, the credits and the records of a link that goes on or has ended. -/
structure Settles [Target] (c : Contract) (decode : Decode α G) (s : Imported α) : Prop where
  sound : ∀ a ∈ s.admitted, a.Sound c decode s.link.maxPayload
  follows : s.admitted.IsChain fun a b => c.delivery.follows a.sequence b.sequence = true
  credits : ∃ owed, s.sent ++ owed = s.credits ∧ owed.length ≤ creditBytes
  log : ∃ rest, s.log =
      Transport.history (s.admitted.map Accepted.sequence) (decide (s.sent = s.credits)) ++ rest ∧
    (s.link.outcome = none → rest = []) ∧ (s.link.outcome ≠ none → rest.length = 1) ∧
    ∀ r ∈ rest, r.outcome ≠ .admitted ∧ r.outcome ≠ .completed

variable [Target] {c : Contract} {decode : Decode α G}

theorem Going.settles (h : s.Going c decode) : s.Settles c decode :=
  ⟨h.sound, h.follows, ⟨_, h.credits, h.owed⟩, [], by rw [List.append_nil]; exact h.log,
    fun _ => rfl, fun hended => absurd h.opened hended, (by simp)⟩

/-- What becomes of a link in one step. -/
def Keeps (c : Contract) (decode : Decode α G) (s : Imported α) : Prop :=
  s.Inv c decode ∨ s.link.outcome ≠ none ∧ s.Settles c decode

/-- The calls that a step makes, and what they record. -/
def noting (s : Imported α) (next : Importer α × List Note) : Imported α :=
  { s with
    link := next.1
    trace := Note.applyAll next.2 s.trace
    log := s.log ++ Note.writtenAll next.2 s.trace }

/-- The link ends. -/
theorem Going.finish (h : s.Going c decode) (outcome : Option IpcError) :
    (s.noting (s.link.finish outcome)).Keeps c decode := by
  obtain ⟨r, hr, hne⟩ := Exporter.closing_written outcome h.going
  refine Or.inr ⟨fun hnone => (by cases hnone), h.sound, h.follows, ⟨_, h.credits, h.owed⟩,
    [r], ?_, fun hnone => (by cases hnone), fun _ => rfl, ?_⟩
  · show s.log ++ Note.writtenAll (Exporter.closing outcome) s.trace = _
    rw [hr, h.log]
    rfl
  · intro r' hr'
    rw [List.mem_singleton.mp hr']
    exact hne

/-! ## One step -/

/-- The link awaits the next thing, and has made no call. -/
theorem Going.awaiting (h : s.Going c decode) {importing : Importing α}
    (howed : importing.owed = s.link.importing.owed)
    (hawaits : s.Awaits c decode importing) :
    (s.noting ({ s.link with importing := importing }, [])).Keeps c decode := by
  refine Or.inl
    { opened := h.opened
      going := h.going
      sound := h.sound
      follows := h.follows
      previous := h.previous
      credits := ?_
      owed := ?_
      log := ?_
      awaits := ?_ }
  · show s.sent ++ importing.owed = s.credits
    rw [howed]
    exact h.credits
  · show importing.owed.length ≤ creditBytes
    rw [howed]
    exact h.owed
  · show s.log ++ [] = _
    rw [List.append_nil]
    exact h.log
  · cases importing with
    | payload =>
      obtain ⟨header, harriving, hheads, hlt⟩ := hawaits
      exact ⟨header, harriving, ⟨hheads.framed, hheads.accepted, hheads.observed⟩, hlt⟩
    | sending =>
      obtain ⟨header, payload, revision, harriving, hheads, hdecode⟩ := hawaits
      exact ⟨header, payload, revision, harriving,
        ⟨hheads.framed, hheads.accepted, hheads.observed⟩, hdecode⟩
    | _ => exact hawaits

/-- More of a payload was read, perhaps all of it. -/
theorem Going.payload (h : s.Going c decode) (hidle : s.link.importing.owed = []) (grant : G)
    {header read : List UInt8} {sequence : UInt64} {revision : SchemaRevision} {length : Nat}
    (harriving : s.arriving = header ++ read)
    (hheads : Heads c s.link s.trace.sequence header sequence revision length)
    (hread : read.length ≤ length) :
    (s.noting (s.link.payload decode grant sequence revision length read)).Keeps c decode := by
  unfold Importer.payload
  split
  · rename_i hall
    subst hall
    unfold Importer.decoded
    cases hdecode : decode read revision grant with
    | error error => exact h.finish _
    | ok value =>
      exact h.awaiting hidle.symm ⟨header, read, revision, harriving, hheads, grant, hdecode⟩
  · rename_i hmore
    exact h.awaiting hidle.symm
      ⟨header, harriving, hheads, Nat.lt_of_le_of_ne hread hmore⟩

/-- The header was read to its end. -/
theorem Going.accept (h : s.Going c decode) (hidle : s.link.importing.owed = []) (grant : G)
    (hlen : s.arriving.length = headerBytes) :
    (s.noting (s.link.accept c decode grant s.arriving)).Keeps c decode := by
  have hobserved : ({ s with
      trace := s.trace.observe (headerSequence s.arriving) } : Imported α).Going c decode :=
    { h with }
  unfold Importer.accept
  cases haccept : acceptHeader c s.arriving s.link.maxPayload s.link.previous with
  | error error => exact hobserved.finish _
  | ok accepted =>
    obtain ⟨sequence, revision, length⟩ := accepted
    obtain ⟨-, -, -, rfl, -, -⟩ := (acceptHeader_eq_ok hlen).mp haccept
    exact hobserved.payload hidle grant (List.append_nil _).symm ⟨hlen, haccept, rfl⟩
      (Nat.zero_le _)

/-- A step of the link, with its history. -/
theorem step_eq {a : Arrival G} {next : Importer α × List Note} {admitted : List (Accepted α)}
    {arriving written : List UInt8} (hstep : s.link.step c decode a = next)
    (hgather : s.gather a = (admitted, arriving)) (hemit : s.emit a = written)
    (hpop : a ≠ .popped) :
    s.step c decode a = noting
      { s with admitted := admitted, arriving := arriving, sent := s.sent ++ written } next := by
  cases a with
  | popped => exact absurd rfl hpop
  | _ => simp only [Imported.step, hstep, hgather, hemit, noting]

/-- Nothing is read, accepted or written. -/
theorem step_quiet {a : Arrival G} {next : Importer α × List Note}
    (hstep : s.link.step c decode a = next) (hgather : s.gather a = (s.admitted, s.arriving))
    (hemit : s.emit a = []) (hpop : a ≠ .popped) : s.step c decode a = s.noting next := by
  rw [step_eq hstep hgather hemit hpop, List.append_nil]

/-- An await that is not under way changes nothing. -/
theorem Inv.stays (h : s.Inv c decode) {a : Arrival G} (hpop : a ≠ .popped)
    (hstep : s.link.step c decode a = (s.link, []))
    (hgather : s.gather a = (s.admitted, s.arriving)) (hemit : s.emit a = []) :
    (s.step c decode a).Keeps c decode := by
  rw [step_quiet hstep hgather hemit hpop]
  exact h.awaiting rfl h.awaits

/-- The link ends without another call. -/
theorem Inv.finishes (h : s.Inv c decode) {a : Arrival G} (outcome : Option IpcError)
    (hpop : a ≠ .popped) (hstep : s.link.step c decode a = s.link.finish outcome)
    (hgather : s.gather a = (s.admitted, s.arriving)) (hemit : s.emit a = []) :
    (s.step c decode a).Keeps c decode := by
  rw [step_quiet hstep hgather hemit hpop]
  exact h.finish outcome

/-- A read of a header. -/
theorem Inv.readHeader (h : s.Inv c decode) {read : List UInt8}
    (hi : s.link.importing = .header read) (b : UInt8) (rest : List UInt8) (grant : G) :
    (s.step c decode (.read (b :: rest) grant)).Keeps c decode := by
  have hawaits := h.awaits
  rw [hi] at hawaits
  obtain ⟨harriving, hlt⟩ := hawaits
  have hroom : s.room = headerBytes - read.length := by
    simp only [room, h.opened, hi]
  have hread : (read ++ (b :: rest).take (headerBytes - read.length)).length ≤ headerBytes := by
    rw [List.length_append, List.length_take]
    omega
  have hgather : s.gather (.read (b :: rest) grant) =
      (s.admitted, read ++ (b :: rest).take (headerBytes - read.length)) := by
    rw [gather, hroom, harriving]
  have hidle : s.link.importing.owed = [] := by
    rw [hi]
    rfl
  have hgoing : ({ s with
      arriving := read ++ (b :: rest).take (headerBytes - read.length),
      sent := s.sent ++ [] } : Imported α).Going c decode := by
    rw [List.append_nil]
    exact { h.toGoing with }
  by_cases hfull : (read ++ (b :: rest).take (headerBytes - read.length)).length = headerBytes
  · have hstep : s.link.step c decode (.read (b :: rest) grant) =
        s.link.accept c decode grant (read ++ (b :: rest).take (headerBytes - read.length)) := by
      simp only [Importer.step, h.opened, hi]
      exact if_pos hfull
    rw [step_eq hstep hgather rfl (by simp)]
    exact hgoing.accept hidle grant hfull
  · have hstep : s.link.step c decode (.read (b :: rest) grant) = ({ s.link with
        importing := .header (read ++ (b :: rest).take (headerBytes - read.length)) }, []) := by
      simp only [Importer.step, h.opened, hi]
      exact if_neg hfull
    rw [step_eq hstep hgather rfl (by simp)]
    exact hgoing.awaiting hidle.symm ⟨rfl, Nat.lt_of_le_of_ne hread hfull⟩

/-- A read of a payload. -/
theorem Inv.readPayload (h : s.Inv c decode) {sequence : UInt64} {revision : SchemaRevision}
    {length : Nat} {read : List UInt8}
    (hi : s.link.importing = .payload sequence revision length read) (b : UInt8)
    (rest : List UInt8) (grant : G) :
    (s.step c decode (.read (b :: rest) grant)).Keeps c decode := by
  have hawaits := h.awaits
  rw [hi] at hawaits
  obtain ⟨header, harriving, hheads, hlt⟩ := hawaits
  have hroom : s.room = length - read.length := by
    simp only [room, h.opened, hi]
  have hread : (read ++ (b :: rest).take (length - read.length)).length ≤ length := by
    rw [List.length_append, List.length_take]
    omega
  have hgather : s.gather (.read (b :: rest) grant) =
      (s.admitted, header ++ (read ++ (b :: rest).take (length - read.length))) := by
    rw [gather, hroom, harriving, List.append_assoc]
  have hidle : s.link.importing.owed = [] := by
    rw [hi]
    rfl
  have hgoing : ({ s with
      arriving := header ++ (read ++ (b :: rest).take (length - read.length)),
      sent := s.sent ++ [] } : Imported α).Going c decode := by
    rw [List.append_nil]
    exact { h.toGoing with }
  have hstep : s.link.step c decode (.read (b :: rest) grant) =
      s.link.payload decode grant sequence revision length
        (read ++ (b :: rest).take (length - read.length)) := by
    simp only [Importer.step, h.opened, hi]
  rw [step_eq hstep hgather rfl (by simp)]
  exact hgoing.payload hidle grant rfl hheads hread

/-- The local stream has accepted the value. -/
theorem Inv.sent (h : s.Inv c decode) {sequence : UInt64} {value : α}
    (hi : s.link.importing = .sending sequence value) :
    (s.step c decode (.sent : Arrival G)).Keeps c decode := by
  have hawaits := h.awaits
  rw [hi] at hawaits
  obtain ⟨header, payload, revision, harriving, hheads, hdecode⟩ := hawaits
  obtain ⟨hmatches, hfit, hfollows, hsequence, hrevision, hlength⟩ :=
    (acceptHeader_eq_ok hheads.framed).mp hheads.accepted
  subst hrevision
  have hgather : s.gather (.sent : Arrival G) =
      (s.admitted ++ [Accepted.mk header payload value], []) := by
    simp only [gather, h.opened, hi, harriving]
    rw [List.take_left' hheads.framed, List.drop_left' hheads.framed]
  have hpaid : s.sent = s.credits := by
    have hcredits := h.credits
    rw [hi] at hcredits
    exact (List.append_nil _).symm.trans hcredits
  have hcredits : s.credits ++ creditOf sequence =
      (s.admitted ++ [Accepted.mk header payload value]).flatMap Accepted.credit := by
    rw [List.flatMap_append, credits, List.flatMap_singleton, Accepted.credit, Accepted.sequence,
      hsequence]
  have hne : creditOf sequence ≠ [] := List.cons_ne_nil _ _
  have hstep : s.link.step c decode (.sent : Arrival G) = ({ s.link with
      importing := .crediting sequence (creditOf sequence)
      previous := some sequence }, [.admitted]) := by
    simp only [Importer.step, h.opened, hi]
  rw [step_eq hstep hgather rfl (by simp)]
  refine Or.inl
    { opened := h.opened
      going := ?_
      sound := ?_
      follows := ?_
      previous := ?_
      credits := ?_
      owed := (length_creditOf sequence).le
      log := ?_
      awaits := ⟨rfl, hne, (length_creditOf sequence).le, ?_⟩ }
  · simp [noting, Note.apply, Accountability.admitted, Accountability.record, h.going]
  · intro a ha
    rcases List.mem_append.mp ha with ha | ha
    · exact h.sound a ha
    · cases List.mem_singleton.mp ha
      exact ⟨hheads.framed, hmatches, hlength, hlength ▸ hfit, hdecode⟩
  · refine List.IsChain.append h.follows (List.IsChain.singleton _) ?_
    intro a ha b hb
    cases Option.mem_def.mp hb
    refine hfollows a.sequence ?_
    rw [h.previous, Option.mem_def.mp ha]
    rfl
  · show some sequence =
      (s.admitted ++ [Accepted.mk header payload value]).getLast?.map Accepted.sequence
    rw [List.getLast?_concat, ← hsequence]
    rfl
  · show (s.sent ++ []) ++ creditOf sequence = _
    rw [List.append_nil, hpaid]
    exact hcredits
  · show s.log ++ Note.writtenAll [.admitted] s.trace = _
    have hwritten : Note.writtenAll [.admitted] s.trace = [⟨some sequence, .admitted⟩] := by
      simp [Note.writtenAll, Note.written, h.going, hheads.observed]
    have hunpaid : ¬ (s.sent ++ [] = (s.admitted ++ [Accepted.mk header payload value]).flatMap
        Accepted.credit) := by
      rw [List.append_nil, ← hcredits, hpaid]
      exact fun heq => hne (List.append_right_eq_self.mp heq.symm)
    rw [hwritten, h.log, decide_eq_true hpaid]
    show _ = Transport.history
      ((s.admitted ++ [Accepted.mk header payload value]).map Accepted.sequence)
      (decide (s.sent ++ [] =
        (s.admitted ++ [Accepted.mk header payload value]).flatMap Accepted.credit))
    rw [decide_eq_false hunpaid, List.map_append, ← history_admitted (Or.inl rfl), ← hsequence]
    rfl
  · show (s.admitted ++ [Accepted.mk header payload value]).getLast?.map Accepted.sequence = _
    rw [List.getLast?_concat, ← hsequence]
    rfl

/-- A write of a credit. -/
theorem Inv.wrote (h : s.Inv c decode) {sequence : UInt64} {credit : List UInt8}
    (hi : s.link.importing = .crediting sequence credit) (count : Nat) :
    (s.step c decode (.wrote (count + 1) : Arrival G)).Keeps c decode := by
  have hawaits := h.awaits
  rw [hi] at hawaits
  obtain ⟨harriving, hne, hle, hlast⟩ := hawaits
  have hemit : s.emit (.wrote (count + 1) : Arrival G) = credit.take (count + 1) := by
    simp only [emit, h.opened, hi]
  have hcredits := h.credits
  rw [hi] at hcredits
  change s.sent ++ credit = s.credits at hcredits
  have hsplit : s.sent ++ credit.take (count + 1) ++ credit.drop (count + 1) = s.credits := by
    rw [List.append_assoc, List.take_append_drop, hcredits]
  have hunpaid : ∀ {rest : List UInt8} {sent : List UInt8}, sent ++ rest = s.credits → rest ≠ [] →
      sent ≠ s.credits := by
    intro rest sent heq hrest hsent
    rw [← heq] at hsent
    exact hrest (List.append_right_eq_self.mp hsent.symm)
  have hlog := h.log
  rw [decide_eq_false (hunpaid hcredits hne)] at hlog
  have hstep : s.link.step c decode (.wrote (count + 1) : Arrival G) =
      s.link.write sequence (credit.drop (count + 1)) := by
    simp only [Importer.step, h.opened, hi]
  rw [step_eq hstep rfl hemit (by simp)]
  unfold Importer.write
  split
  · rename_i hdone
    rw [hdone, List.append_nil] at hsplit
    refine Or.inl
      { opened := h.opened
        going := ?_
        sound := h.sound
        follows := h.follows
        previous := h.previous
        credits := (List.append_nil _).trans hsplit
        owed := Nat.zero_le _
        log := ?_
        awaits := harriving }
    · simp [noting, Note.apply, Accountability.completed, Accountability.record, h.going]
    · show s.log ++ Note.writtenAll [.completed sequence] s.trace =
        Transport.history (s.admitted.map Accepted.sequence)
          (decide (s.sent ++ credit.take (count + 1) = s.credits))
      have hsequence : (s.admitted.map Accepted.sequence).getLast? = some sequence := by
        rw [List.getLast?_map]
        exact hlast
      rw [decide_eq_true hsplit, written_completed h.going, hlog]
      exact (history_complete hsequence).symm
  · rename_i hmore
    refine Or.inl
      { opened := h.opened
        going := h.going
        sound := h.sound
        follows := h.follows
        previous := h.previous
        credits := hsplit
        owed := ?_
        log := ?_
        awaits := ⟨harriving, hmore, ?_, hlast⟩ }
    · exact (List.drop_sublist _ _).length_le.trans hle
    · show s.log ++ [] = Transport.history (s.admitted.map Accepted.sequence)
          (decide (s.sent ++ credit.take (count + 1) = s.credits))
      rw [List.append_nil, hlog, decide_eq_false (hunpaid hsplit hmore)]
    · exact (List.drop_sublist _ _).length_le.trans hle

/-- What the link does from one await to the next. -/
theorem Inv.step (h : s.Inv c decode) (a : Arrival G) : (s.step c decode a).Keeps c decode := by
  have hopened := h.opened
  cases a with
  | popped =>
    refine Or.inl
      ⟨⟨h.opened, h.going, h.sound, h.follows, h.previous, h.credits, h.owed, h.log⟩, ?_⟩
    have hawaits := h.awaits
    show Awaits c decode _ s.link.importing
    cases hi : s.link.importing with
    | payload sequence revision length read =>
      rw [hi] at hawaits
      obtain ⟨header, harriving, hheads, hlt⟩ := hawaits
      exact ⟨header, harriving, ⟨hheads.framed, hheads.accepted, hheads.observed⟩, hlt⟩
    | sending sequence value =>
      rw [hi] at hawaits
      obtain ⟨header, payload, revision, harriving, hheads, hdecode⟩ := hawaits
      exact ⟨header, payload, revision, harriving,
        ⟨hheads.framed, hheads.accepted, hheads.observed⟩, hdecode⟩
    | _ =>
      rw [hi] at hawaits
      exact hawaits
  | revoked =>
    exact h.finishes (some .revoked) (by simp) (by simp only [Importer.step, hopened]) rfl rfl
  | dropped => exact h.finishes none (by simp) (by simp only [Importer.step, hopened]) rfl rfl
  | control bytes =>
    cases bytes with
    | nil =>
      exact h.finishes (some (.io none)) (by simp) (by simp only [Importer.step, hopened]) rfl rfl
    | cons b rest =>
      exact h.finishes (some .protocol) (by simp) (by simp only [Importer.step, hopened]) rfl rfl
  | controlFailed code =>
    exact h.finishes (some (.io code)) (by simp) (by simp only [Importer.step, hopened]) rfl rfl
  | read bytes grant =>
    cases hi : s.link.importing with
    | header read =>
      cases bytes with
      | nil =>
        exact h.finishes (some (.io none)) (by simp) (by simp only [Importer.step, hopened, hi])
          (gather_nil grant) rfl
      | cons b rest => exact h.readHeader hi b rest grant
    | payload sequence revision length read =>
      cases bytes with
      | nil =>
        exact h.finishes (some (.io none)) (by simp) (by simp only [Importer.step, hopened, hi])
          (gather_nil grant) rfl
      | cons b rest => exact h.readPayload hi b rest grant
    | _ =>
      exact h.stays (by simp) (by cases bytes <;> simp only [Importer.step, hopened, hi])
        (gather_idle bytes grant (by simp only [room, hopened, hi])) rfl
  | readFailed code =>
    cases hi : s.link.importing with
    | header | payload =>
      exact h.finishes (some (.io code)) (by simp)
        (by simp only [Importer.step, hopened, hi]) rfl rfl
    | _ => exact h.stays (by simp) (by simp only [Importer.step, hopened, hi]) rfl rfl
  | sent =>
    cases hi : s.link.importing with
    | sending sequence value => exact h.sent hi
    | _ =>
      exact h.stays (by simp) (by simp only [Importer.step, hopened, hi])
        (by simp only [gather, hopened, hi]) rfl
  | sendFailed error =>
    cases hi : s.link.importing with
    | sending sequence value =>
      exact h.finishes (some (.send error)) (by simp)
        (by simp only [Importer.step, hopened, hi]) rfl rfl
    | _ => exact h.stays (by simp) (by simp only [Importer.step, hopened, hi]) rfl rfl
  | wrote count =>
    cases hi : s.link.importing with
    | crediting sequence credit =>
      cases count with
      | zero =>
        exact h.finishes (some (.io none)) (by simp) (by simp only [Importer.step, hopened, hi]) rfl
          (by simp only [emit, hopened, hi, List.take_zero])
      | succ count => exact h.wrote hi count
    | _ =>
      exact h.stays (by simp) (by simp only [Importer.step, hopened, hi]) rfl
        (by simp only [emit, hopened, hi])
  | writeFailed code =>
    cases hi : s.link.importing with
    | crediting sequence credit =>
      exact h.finishes (some (.io code)) (by simp)
        (by simp only [Importer.step, hopened, hi]) rfl rfl
    | _ => exact h.stays (by simp) (by simp only [Importer.step, hopened, hi]) rfl rfl
  | resumed =>
    cases hi : s.link.importing with
    | yielding =>
      have hawaits := h.awaits
      rw [hi] at hawaits
      have hstep : s.link.step c decode (.resumed : Arrival G) =
          ({ s.link with importing := .header [] }, []) := by
        simp only [Importer.step, hopened, hi]
      rw [step_quiet hstep rfl rfl (by simp)]
      exact h.awaiting (by rw [hi]; rfl) ⟨hawaits, by decide⟩
    | _ => exact h.stays (by simp) (by simp only [Importer.step, hopened, hi]) rfl rfl

/-- A link that has ended changes nothing but what its host drains. -/
theorem Settles.step (h : s.Settles c decode) (hended : s.link.outcome ≠ none) (a : Arrival G) :
    (s.step c decode a).Keeps c decode := by
  obtain ⟨outcome, houtcome⟩ := Option.ne_none_iff_exists'.mp hended
  by_cases hpop : a = .popped
  · subst hpop
    exact Or.inr ⟨hended, h.sound, h.follows, h.credits, h.log⟩
  · have hroom : s.room = 0 := by
      simp only [room, houtcome]
    have hstep : s.link.step c decode a = (s.link, []) := by
      simp only [Importer.step, houtcome]
    have hgather : s.gather a = (s.admitted, s.arriving) := by
      cases a with
      | read bytes grant => exact gather_idle bytes grant hroom
      | sent => simp only [gather, houtcome]
      | _ => rfl
    have hemit : s.emit a = [] := by
      cases a with
      | wrote count => simp only [emit, houtcome]
      | _ => rfl
    rw [step_quiet hstep hgather hemit hpop]
    refine Or.inr ⟨hended, h.sound, h.follows, h.credits, ?_⟩
    obtain ⟨rest, hlog, hrest⟩ := h.log
    exact ⟨rest, (List.append_nil _).trans hlog, hrest⟩

theorem Keeps.step (h : s.Keeps c decode) (a : Arrival G) : (s.step c decode a).Keeps c decode := by
  rcases h with hinv | ⟨hended, hsettles⟩
  · exact hinv.step a
  · exact hsettles.step hended a

theorem start_inv (decode : Decode α G) (connection : Connection) (maxPayload : Nat) :
    (start c connection maxPayload : Imported α).Inv c decode where
  opened := rfl
  going := rfl
  sound := by
    intro a ha
    cases ha
  follows := List.IsChain.nil
  previous := rfl
  credits := rfl
  owed := Nat.zero_le _
  log := rfl
  awaits := ⟨rfl, by decide⟩

theorem keeps_run (c : Contract) (decode : Decode α G) (connection : Connection) (maxPayload : Nat)
    (arrivals : List (Arrival G)) :
    (run c decode (start c connection maxPayload) arrivals).Keeps c decode :=
  List.foldlRecOn arrivals _ (Or.inl (start_inv decode connection maxPayload))
    fun _ h a _ => h.step a

/-! ## The bound of a payload -/

/-- No await changes the bound. -/
theorem link_maxPayload (i : Importer α) (a : Arrival G) :
    (i.step c decode a).1.maxPayload = i.maxPayload := by
  have haccept : ∀ (grant : G) (header : List UInt8),
      (i.accept c decode grant header).1.maxPayload = i.maxPayload := by
    intro grant header
    unfold Importer.accept
    dsimp only
    split
    · rfl
    · exact Importer.payload_maxPayload decode i grant _ _ _ _
  unfold Importer.step
  split
  · rfl
  · split
    all_goals first
      | rfl
      | exact Importer.payload_maxPayload decode i _ _ _ _ _
      | (dsimp only
         split
         · exact haccept _ _
         · rfl)
      | (unfold Importer.write
         split <;> rfl)

theorem step_maxPayload (s : Imported α) (a : Arrival G) :
    (s.step c decode a).link.maxPayload = s.link.maxPayload := by
  by_cases hpop : a = .popped
  · rw [hpop]
    rfl
  · rw [step_eq rfl rfl rfl hpop]
    exact link_maxPayload s.link a

theorem run_maxPayload (c : Contract) (decode : Decode α G) (s : Imported α)
    (arrivals : List (Arrival G)) : (run c decode s arrivals).link.maxPayload = s.link.maxPayload :=
  List.foldlRecOn (motive := fun t : Imported α => t.link.maxPayload = s.link.maxPayload)
    arrivals _ rfl fun t h a _ => (step_maxPayload t a).trans h

/-! ## The discipline -/

/-- What holds of the frames, the credits and the records of a link. -/
structure Disciplined (c : Contract) (decode : Decode α G) (maxPayload : Nat) (s : Imported α) :
    Prop where
  sound : ∀ a ∈ s.admitted, a.Sound c decode maxPayload
  follows : s.admitted.IsChain fun a b => c.delivery.follows a.sequence b.sequence = true
  sent : s.sent <+: s.admitted.flatMap Accepted.credit
  earlier : s.admitted.dropLast.flatMap Accepted.credit <+: s.sent
  completed : (s.log.filter fun r => r.outcome = .completed).map (·.sequence) =
    (if s.sent = s.admitted.flatMap Accepted.credit then s.admitted else s.admitted.dropLast).map
      (some ·.sequence)
  order : ∃ rest, s.log = Transport.history (s.admitted.map Accepted.sequence)
      (decide (s.sent = s.admitted.flatMap Accepted.credit)) ++ rest ∧
    (s.link.outcome = none → rest = []) ∧ (s.link.outcome ≠ none → rest.length = 1) ∧
    ∀ r ∈ rest, r.outcome ≠ .admitted ∧ r.outcome ≠ .completed

theorem Settles.disciplined (h : s.Settles c decode) :
    s.Disciplined c decode s.link.maxPayload := by
  obtain ⟨owed, hcredits, howed⟩ := h.credits
  refine ⟨h.sound, h.follows, ⟨owed, hcredits⟩, ?_, ?_, h.log⟩
  · cases hlast : s.admitted.getLast? with
    | none =>
      rw [List.getLast?_eq_none_iff.mp hlast]
      exact List.nil_prefix
    | some last =>
      obtain ⟨front, hfront⟩ := List.getLast?_eq_some_iff.mp hlast
      rw [hfront, List.dropLast_concat]
      have hall : s.sent ++ owed = front.flatMap Accepted.credit ++ last.credit := by
        rw [hcredits, Imported.credits, hfront, List.flatMap_append, List.flatMap_singleton]
      have hlen := congrArg List.length hall
      rw [List.length_append, List.length_append, Accepted.credit, length_creditOf] at hlen
      refine List.prefix_of_prefix_length_le (List.prefix_append _ _) ⟨owed, hall⟩ ?_
      omega
  · obtain ⟨rest, hlog, -, -, hrest⟩ := h.log
    have hnone : rest.filter (fun r => r.outcome = .completed) = [] := by
      rw [List.filter_eq_nil_iff]
      intro r hr
      simpa using (hrest r hr).2
    rw [hlog, List.filter_append, hnone, List.append_nil, completed_history]
    show _ = (if s.sent = s.credits then s.admitted else s.admitted.dropLast).map (some ·.sequence)
    by_cases hpaid : s.sent = s.credits
    · rw [if_pos hpaid, if_pos (decide_eq_true hpaid), List.map_map]
      rfl
    · rw [if_neg hpaid, if_neg (by simpa using hpaid), ← List.map_dropLast, List.map_map]
      rfl

/-- **The import window.** However its peer behaves, a link hands on the values of frames
that its contract accepts, within its bound and in an order that its delivery allows. What it
writes is the credits of these frames in their order, each of them complete before the next
frame is admitted, and exactly the frames with a complete credit are recorded as
completed. -/
theorem run_admits (c : Contract) (decode : Decode α G) (connection : Connection)
    (maxPayload : Nat) (arrivals : List (Arrival G)) :
    (run c decode (start c connection maxPayload) arrivals).Disciplined c decode maxPayload := by
  have hsettles : (run c decode (start c connection maxPayload) arrivals).Settles c decode := by
    rcases keeps_run c decode connection maxPayload arrivals with h | ⟨-, h⟩
    · exact h.settles
    · exact h
  have hbound : (run c decode (start c connection maxPayload) arrivals).link.maxPayload =
      maxPayload := run_maxPayload c decode (start c connection maxPayload) arrivals
  have hdisciplined := hsettles.disciplined
  rwa [hbound] at hdisciplined

end Imported

end Hiway.Unix
