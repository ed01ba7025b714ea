import Hiway.Unix.Delivery

/-!
# A pair of links comes to rest

While nobody revokes, drops or closes anything and the receiving stream accepts what it is
given, the only events left are bytes that move and loops that get their turn. Each of them
that changes anything lessens what is left to do, in whatever order they come, and when none
is left the exporting link asks for its next item: the last one was admitted and credited.
No two halves of the protocol wait for each other.

* `Joined.lessens`: an event that changes anything lessens what is left to do.
* `Joined.waits`: with a frame that waits for its credit there is always something to do.
* `Joined.rests`: when no turn is left, the pair rests.
* `run_turns_rest`: turns end no link, there is an end to them, and then everything is
  admitted and credited.
-/

namespace Hiway.Unix

open Target Transport

/-- An event that no host brings about: sockets move bytes, the receiving stream accepts a
value while its grant allows to decode it, and loops get their turn. -/
def Event.Routine {α G : Type} (grants : G → Prop) : Event α G → Prop
  | .exporter .notified | .exporter .exportResumed | .exporter .creditResumed => True
  | .importer .sent | .importer .resumed => True
  | .sendData _ | .sendCredit _ | .receiveCredit _ => True
  | .receiveData _ grant => grants grant
  | _ => False

/-! ## Turns of one loop -/

namespace Exported

variable {α : Type} {E : WireCodec α} {s : Exported}

theorem step_stays {a : Action α} (hstep : s.link.step E a = (s.link, []))
    (hsee : s.see E a = s.frames) (hpop : a ≠ .popped) : s.step E a = s := by
  rw [step_eq hstep hsee hpop]
  simp only [Note.applyAll_nil, Note.writtenAll, List.append_nil]

/-- A turn that changes anything. -/
structure Turns (s s' : Exported) : Prop where
  outcome : s'.link.outcome = none
  pending : s'.link.pending < s.link.pending

theorem turns_of_step {a : Action α} {link : Exporter} (hstep : s.link.step E a = (link, []))
    (hsee : s.see E a = s.frames) (hpop : a ≠ .popped) (houtcome : link.outcome = none)
    (hpending : link.pending < s.link.pending) : s.Turns (s.step E a) := by
  rw [step_eq hstep hsee hpop]
  exact ⟨houtcome, hpending⟩

theorem notified_turns (hopened : s.link.outcome = none) (he : s.link.exporting = .waiting)
    (hout : s.link.credits.outstanding = false) : s.Turns (s.step E .notified) := by
  have hstep : s.link.step E .notified = (s.link.wait, []) := by
    simp only [Exporter.step, hopened, he]
  refine turns_of_step hstep (by simp only [see, hopened]) (by simp) hopened ?_
  simp [Exporter.pending, Exporter.wait, he, hout]

theorem exportResumed_turns (hopened : s.link.outcome = none)
    (he : s.link.exporting = .yielding) : s.Turns (s.step E .exportResumed) := by
  have hstep : s.link.step E .exportResumed = (s.link.wait, []) := by
    simp only [Exporter.step, hopened, he]
  refine turns_of_step hstep (by simp only [see, hopened]) (by simp) hopened ?_
  simp only [Exporter.pending, Exporter.wait, he]
  cases s.link.credits.outstanding <;> simp

theorem creditResumed_turns (hopened : s.link.outcome = none)
    (hc : s.link.crediting = .yielding) : s.Turns (s.step E .creditResumed) := by
  have hstep : s.link.step E .creditResumed = ({ s.link with crediting := .reading [] }, []) := by
    simp only [Exporter.step, hopened, hc]
  refine turns_of_step hstep (by simp only [see, hopened]) (by simp) hopened ?_
  simp [Exporter.pending, hc]

/-- A turn of a loop that waits for something else changes nothing. -/
theorem resumes (hopened : s.link.outcome = none) {a : Action α}
    (ha : a = .notified ∨ a = .exportResumed ∨ a = .creditResumed) :
    s.step E a = s ∨ s.Turns (s.step E a) := by
  rcases ha with rfl | rfl | rfl
  · cases he : s.link.exporting with
    | waiting =>
      cases hout : s.link.credits.outstanding with
      | false => exact Or.inr (notified_turns hopened he hout)
      | true =>
        refine Or.inl (step_stays ?_ (by simp only [see, hopened]) (by simp))
        simp only [Exporter.step, hopened, he, Exporter.wait, hout, if_true]
        rw [← he, ← hopened]
    | _ =>
      exact Or.inl (step_stays (by simp only [Exporter.step, hopened, he])
        (by simp only [see, hopened]) (by simp))
  · cases he : s.link.exporting with
    | yielding => exact Or.inr (exportResumed_turns hopened he)
    | _ =>
      exact Or.inl (step_stays (by simp only [Exporter.step, hopened, he])
        (by simp only [see, hopened]) (by simp))
  · cases hc : s.link.crediting with
    | yielding => exact Or.inr (creditResumed_turns hopened hc)
    | reading frame =>
      exact Or.inl (step_stays (by simp only [Exporter.step, hopened, hc])
        (by simp only [see, hopened]) (by simp))

end Exported

namespace Imported

variable {β G : Type} {s : Imported β} [Target] {c : Contract} {decode : Decode β G}

theorem step_stays {a : Arrival G} (hstep : s.link.step c decode a = (s.link, []))
    (hgather : s.gather a = (s.admitted, s.arriving)) (hemit : s.emit a = []) (hpop : a ≠ .popped) :
    s.step c decode a = s := by
  rw [step_quiet hstep hgather hemit hpop]
  simp only [noting, Note.applyAll_nil, Note.writtenAll, List.append_nil]

theorem sent_stays (hopened : s.link.outcome = none)
    (hi : ∀ sequence value, s.link.importing ≠ .sending sequence value) :
    s.step c decode (.sent : Arrival G) = s := by
  cases hi' : s.link.importing with
  | sending sequence value => exact absurd hi' (hi sequence value)
  | _ =>
    exact step_stays (by simp only [Importer.step, hopened, hi'])
      (by simp only [gather, hopened, hi']) rfl (by simp)

theorem resumed_stays (hopened : s.link.outcome = none) (hi : s.link.importing ≠ .yielding) :
    s.step c decode (.resumed : Arrival G) = s := by
  cases hi' : s.link.importing with
  | yielding => exact absurd hi' hi
  | _ => exact step_stays (by simp only [Importer.step, hopened, hi']) rfl rfl (by simp)

theorem resumed_turns (hopened : s.link.outcome = none) (hi : s.link.importing = .yielding) :
    (s.step c decode (.resumed : Arrival G)).link.outcome = none ∧
      (s.step c decode (.resumed : Arrival G)).link.pending < s.link.pending := by
  have hstep : s.link.step c decode (.resumed : Arrival G) =
      ({ s.link with importing := .header [] }, []) := by
    simp only [Importer.step, hopened, hi]
  rw [step_quiet hstep rfl rfl (by simp)]
  refine ⟨hopened, ?_⟩
  show 0 < s.link.pending
  rw [Importer.pending, hi]
  exact Nat.one_pos

end Imported

namespace Pair

variable {α β G : Type}

/-- What is left to do for the frame under way. -/
def pending (p : Pair α β) : Nat :=
  p.exporter.link.pending + p.importer.link.pending + 40 * p.data.length + 2 * p.control.length

/-- Neither link has ended. -/
structure Going (p : Pair α β) : Prop where
  exporter : p.exporter.link.outcome = none
  importer : p.importer.link.outcome = none

/-- The exporting link asks for its next item, and has the credit of every frame it started
for the ones before. -/
structure Rests (p : Pair α β) : Prop where
  receiving : p.exporter.link.exporting = .receiving
  admitted : p.importer.admitted.length = p.provided.length
  acknowledged : p.acknowledged.length = p.provided.length

/-- Something that was left to do is done. -/
structure Lessens (p q : Pair α β) : Prop where
  going : q.Going
  provided : q.provided = p.provided
  pending : q.pending < p.pending

/-- Whatever the exporting codec writes the importing one can read. -/
def Readable (E : WireCodec α) (decode : Decode β G) (grants : G → Prop) : Prop :=
  ∀ (payload : α) (output body : List UInt8) (grant : G), grants grant →
    E.encode payload output = (.ok body.length, body) →
    ∃ value, decode body E.contract.revision grant = .ok value

section

variable {p : Pair α β}

theorem Lessens.ne {q : Pair α β} (h : p.Lessens q) : q ≠ p := by
  rintro rfl
  exact absurd h.pending (Nat.lt_irrefl _)

theorem exporter_lessens (hg : p.Going) {exporter : Exported}
    (hturns : p.exporter.Turns exporter) : p.Lessens { p with exporter := exporter } := by
  refine ⟨⟨hturns.outcome, hg.importer⟩, rfl, ?_⟩
  have hpending := hturns.pending
  simp only [Pair.pending]
  omega

theorem importer_lessens (hg : p.Going) {importer : Imported β}
    (houtcome : importer.link.outcome = none)
    (hpending : importer.link.pending < p.importer.link.pending) :
    p.Lessens { p with importer := importer } := by
  refine ⟨⟨hg.exporter, houtcome⟩, rfl, ?_⟩
  simp only [Pair.pending]
  omega

end

/-- The payload that was announced can be decoded. -/
theorem payload_open {decode : Decode β G} {i : Importer β} (hopened : i.outcome = none)
    {grant : G} {sequence : UInt64} {revision : SchemaRevision} {length : Nat} {read : List UInt8}
    (hdecode : read.length = length → ∃ value, decode read revision grant = .ok value) :
    (i.payload decode grant sequence revision length read).1.outcome = none := by
  unfold Importer.payload
  split
  · rename_i hall
    obtain ⟨value, hvalue⟩ := hdecode hall
    simp only [Importer.decoded, hvalue]
    exact hopened
  · exact hopened

section

variable [Target] {E : WireCodec α} {c : Contract} {decode : Decode β G} {m n : Nat}
  {p : Pair α β} {grants : G → Prop}

/-! ## Events that move bytes -/

theorem Joined.sendData_lessens (h : p.Joined E c decode m n) (hg : p.Going) {count : Nat}
    (hsome : p.exporter.offered.take count ≠ []) :
    p.Lessens { p with
      exporter := p.exporter.step E (.wrote (p.exporter.offered.take count).length)
      data := p.data ++ p.exporter.offered.take count } := by
  obtain ⟨hgoes, -, hpending, -⟩ := (h.exporterInv hg.exporter).sends (E := E) hsome
  refine ⟨⟨hgoes.outcome, hg.importer⟩, rfl, ?_⟩
  simp only [Pair.pending, List.length_append]
  omega

theorem Joined.sendCredit_lessens (h : p.Joined E c decode m n) (hg : p.Going) {count : Nat}
    (hsome : p.importer.offered.take count ≠ []) :
    p.Lessens { p with
      importer := p.importer.step c decode (.wrote (p.importer.offered.take count).length)
      control := p.control ++ p.importer.offered.take count } := by
  obtain ⟨-, -, -, houtcome, hpending⟩ := (h.importerInv hg.importer).pays hsome
  refine ⟨⟨hg.exporter, houtcome⟩, rfl, ?_⟩
  simp only [Pair.pending, List.length_append]
  omega

theorem Joined.receiveCredit_lessens (h : p.Joined E c decode m n) (hg : p.Going)
    {bytes more : List UInt8} (hcontrol : p.control = bytes ++ more) (hsome : bytes ≠ [])
    (hroom : bytes.length ≤ p.exporter.room) :
    p.Lessens { p with
      exporter := p.exporter.step E (.read bytes)
      control := more } := by
  obtain ⟨hle, hpending, hshort, hfull⟩ := (h.exporterInv hg.exporter).reads (E := E) hsome hroom
  have hpos := List.length_pos_of_ne_nil hsome
  refine ⟨⟨?_, hg.importer⟩, rfl, ?_⟩
  · rcases Nat.lt_or_eq_of_le hle with hlt | heq
    · exact (hshort hlt).1.outcome
    · have hread : p.exporter.link.crediting.read ++ p.control =
          p.exporter.link.crediting.read ++ bytes ++ more := by
        rw [hcontrol, List.append_assoc]
      obtain ⟨before, last, hbefore, -, hcredited, hcredit, -, -⟩ := h.expects hg.exporter hread heq
      exact (hfull before last hbefore hcredited hcredit).1.outcome
  · simp only [Pair.pending, hcontrol, List.length_append]
    omega

/-- A read keeps the importing link going: the header is one of the exporting link, its
payload fits, and it can be decoded. -/
theorem Joined.takes_open (h : p.Joined E c decode m n) (hmatch : Matches E.contract c)
    (hreadable : Readable E decode grants) (hfits : m ≤ n)
    (hopened : p.importer.link.outcome = none) {bytes more : List UInt8}
    (hdata : p.data = bytes ++ more) (hsome : bytes ≠ [])
    (hroom : bytes.length ≤ p.importer.room) {grant : G} (hgrant : grants grant) :
    (p.importer.step c decode (.read bytes grant)).link.outcome = none := by
  have hinv := h.importerInv hopened
  obtain ⟨front, rest, hs⟩ := h.splits
  have hflying : p.importer.arriving ++ p.data ≠ [] := by
    rw [hdata]
    intro hnil
    exact hsome (List.append_eq_nil_iff.mp (List.append_eq_nil_iff.mp hnil).2).1
  obtain ⟨f, x, -, hf, hbegun, hwritten, hfollows⟩ := h.flying hs hflying
  obtain ⟨b, rest, rfl⟩ := List.exists_cons_of_ne_nil hsome
  have hawaits := hinv.awaits
  show (p.importer.link.step c decode (.read (b :: rest) grant)).1.outcome = none
  cases hi : p.importer.link.importing with
  | header read =>
    rw [hi] at hawaits
    obtain ⟨harriving, -⟩ := hawaits
    simp only [Imported.room, hopened, hi] at hroom
    simp only [Importer.step, hopened, hi, List.take_of_length_le hroom]
    split
    · rename_i hlen
      have hsplit : f.written = (read ++ b :: rest) ++ more := by
        rw [hwritten, harriving, hdata, List.append_assoc]
      obtain ⟨body, hhead, hu, hfit, hframe, -⟩ := header_of_flight hf hbegun hlen hsplit
      have haccept : acceptHeader c (read ++ b :: rest) p.importer.link.maxPayload
          p.importer.link.previous = .ok (f.sequence, E.contract.revision, body.length) := by
        rw [hhead, acceptHeader_eq_ok (length_header _ _ _),
          headerLength_header _ _ hu (hfit.trans h.word), h.room, hinv.previous,
          headerSequence_header, hmatch.delivery]
        exact ⟨hmatch.header _ _, hfit.trans hfits, hfollows, rfl, headerRevision_header .., rfl⟩
      simp only [Importer.accept, haccept]
      refine payload_open hopened fun hnil => ?_
      obtain ⟨-, output, body', hencode, -, -, hbytes⟩ := hf
      rw [hframe] at hbytes
      obtain ⟨-, rfl⟩ := List.append_inj hbytes (by rw [length_header, length_header])
      obtain rfl := List.eq_nil_of_length_eq_zero hnil.symm
      exact hreadable x.2 output [] grant hgrant hencode
    · rfl
  | payload sequence revision length read =>
    rw [hi] at hawaits
    obtain ⟨header', harriving, hheads, -⟩ := hawaits
    simp only [Imported.room, hopened, hi] at hroom
    simp only [Importer.step, hopened, hi, List.take_of_length_le hroom]
    have hsplit : f.written = header' ++ (read ++ b :: rest ++ more) := by
      rw [hwritten, harriving, hdata]
      simp only [List.append_assoc]
    obtain ⟨body, hhead, hu, hfit, hframe, missing, hmore⟩ :=
      header_of_flight hf hbegun hheads.framed hsplit
    obtain ⟨-, -, -, -, hrevision, hlength⟩ := (acceptHeader_eq_ok hheads.framed).mp hheads.accepted
    rw [hhead, headerRevision_header] at hrevision
    rw [hhead, headerLength_header _ _ hu (hfit.trans h.word)] at hlength
    refine payload_open hopened fun hall => ?_
    have hbody : read ++ b :: rest = body := by
      rw [List.append_assoc] at hmore
      have hsize := congrArg List.length hmore
      rw [List.length_append] at hsize
      have hnil : more ++ missing = [] := List.eq_nil_of_length_eq_zero (by omega)
      rwa [hnil, List.append_nil] at hmore
    obtain ⟨-, output, body', hencode, -, -, hbytes⟩ := hf
    rw [hframe] at hbytes
    obtain ⟨-, rfl⟩ := List.append_inj hbytes (by rw [length_header, length_header])
    rw [hbody, ← hrevision]
    exact hreadable x.2 output body grant hgrant hencode
  | _ =>
    simp only [Imported.room, hopened, hi] at hroom
    exact absurd hroom (Nat.not_succ_le_zero _)

theorem Joined.receiveData_lessens (h : p.Joined E c decode m n) (hmatch : Matches E.contract c)
    (hreadable : Readable E decode grants) (hfits : m ≤ n) (hg : p.Going)
    {bytes more : List UInt8} (hdata : p.data = bytes ++ more) (hsome : bytes ≠ [])
    (hroom : bytes.length ≤ p.importer.room) {grant : G} (hgrant : grants grant) :
    p.Lessens { p with
      importer := p.importer.step c decode (.read bytes grant)
      data := more } := by
  obtain ⟨-, -, -, hpending, -⟩ := (h.importerInv hg.importer).takes hsome hroom grant
  have hpos := List.length_pos_of_ne_nil hsome
  refine ⟨⟨hg.exporter, h.takes_open hmatch hreadable hfits hg.importer hdata hsome hroom hgrant⟩,
    rfl, ?_⟩
  simp only [Pair.pending, hdata, List.length_append]
  omega

/-! ## Turns -/

/-- A routine event that changes the pair. -/
def Turn (E : WireCodec α) (c : Contract) (decode : Decode β G) (grants : G → Prop)
    (p q : Pair α β) : Prop :=
  q ≠ p ∧ ∃ event : Event α G, event.Routine grants ∧ q = p.step E c decode event

theorem resumed_lessens (hg : p.Going) (hi : p.importer.link.importing = .yielding) :
    p.Lessens { p with importer := p.importer.step c decode (.resumed : Arrival G) } := by
  obtain ⟨houtcome, hpending⟩ := Imported.resumed_turns hg.importer hi
  exact importer_lessens hg houtcome hpending

/-- A routine event that changes anything lessens what is left to do. -/
theorem Joined.lessens (h : p.Joined E c decode m n) (hmatch : Matches E.contract c)
    (hreadable : Readable E decode grants) (hfits : m ≤ n) (hg : p.Going) {q : Pair α β}
    (hturn : Turn E c decode grants p q) : p.Lessens q := by
  obtain ⟨hne, event, hroutine, rfl⟩ := hturn
  have hexporter : ∀ a : Action α, a = .notified ∨ a = .exportResumed ∨ a = .creditResumed →
      ({ p with exporter := p.exporter.step E a } : Pair α β) ≠ p →
      p.Lessens { p with exporter := p.exporter.step E a } := by
    intro a ha hchanged
    rcases Exported.resumes (E := E) hg.exporter ha with hsame | hturns
    · rw [hsame] at hchanged
      exact absurd rfl hchanged
    · exact exporter_lessens hg hturns
  cases event with
  | exporter action =>
    cases action with
    | notified => exact hexporter _ (Or.inl rfl) hne
    | exportResumed => exact hexporter _ (Or.inr (Or.inl rfl)) hne
    | creditResumed => exact hexporter _ (Or.inr (Or.inr rfl)) hne
    | _ => exact absurd hroutine id
  | importer arrival =>
    cases arrival with
    | sent =>
      by_cases hi : ∃ sequence value, p.importer.link.importing = .sending sequence value
      · obtain ⟨sequence, value, hi⟩ := hi
        obtain ⟨-, -, houtcome, hpending, -⟩ := (h.importerInv hg.importer).admits hi
        exact importer_lessens hg houtcome hpending
      · refine absurd ?_ hne
        have hsame : p.importer.step c decode (.sent : Arrival G) = p.importer :=
          Imported.sent_stays hg.importer
            fun sequence value hsending => hi ⟨sequence, value, hsending⟩
        simp only [Pair.step, hsame]
    | resumed =>
      by_cases hi : p.importer.link.importing = .yielding
      · exact resumed_lessens hg hi
      · refine absurd ?_ hne
        simp only [Pair.step, Imported.resumed_stays hg.importer hi]
    | _ => exact absurd hroutine id
  | sendData count =>
    simp only [Pair.step] at hne ⊢
    split
    · rename_i hnil
      rw [if_pos hnil] at hne
      exact absurd rfl hne
    · rename_i hsome
      exact h.sendData_lessens hg hsome
  | receiveData count grant =>
    simp only [Pair.step] at hne ⊢
    split
    · rename_i hnil
      rw [if_pos hnil] at hne
      exact absurd rfl hne
    · rename_i hsome
      refine h.receiveData_lessens hmatch hreadable hfits hg (take_drop_length _ _) hsome ?_
        hroutine
      exact (List.length_take_le _ _).trans (Nat.min_le_right _ _)
  | sendCredit count =>
    simp only [Pair.step] at hne ⊢
    split
    · rename_i hnil
      rw [if_pos hnil] at hne
      exact absurd rfl hne
    · rename_i hsome
      exact h.sendCredit_lessens hg hsome
  | receiveCredit count =>
    simp only [Pair.step] at hne ⊢
    split
    · rename_i hnil
      rw [if_pos hnil] at hne
      exact absurd rfl hne
    · rename_i hsome
      refine h.receiveCredit_lessens hg (take_drop_length _ _) hsome ?_
      exact (List.length_take_le _ _).trans (Nat.min_le_right _ _)

/-! ## Rest -/

/-- With a frame that waits for its credit there is always something to do. -/
theorem Joined.waits (h : p.Joined E c decode m n) (hg : p.Going) {frame : List UInt8}
    (hw : p.exporter.link.exporting = .waiting) (hout : p.exporter.link.credits.outstanding = true)
    (hc : p.exporter.link.crediting = .reading frame) (hcontrol : p.control = [])
    (hdata : p.data = []) (howed : p.importer.link.importing.owed = []) :
    (∃ sequence value, p.importer.link.importing = .sending sequence value) ∨
      p.importer.link.importing = .yielding := by
  have hinv := h.exporterInv hg.exporter
  have htarget := h.importerInv hg.importer
  have hshort := hinv.reading frame hc
  obtain ⟨front, rest, hs⟩ := h.splits
  rcases hinv.frames with ⟨-, hr⟩ | ⟨before, last, hframes, -, hlast⟩
  · cases hw.symm.trans hr
  have huncredited : last.credited = false := by
    have hcredited := hlast.outstanding
    rw [hout] at hcredited
    simpa using hcredited.symm
  have hacknowledged := h.acknowledged_eq hframes
  rw [huncredited, cond_false, List.append_nil] at hacknowledged
  -- the credits of all admitted frames were read, so the last one was not admitted
  have hcredits := h.control hg.exporter
  have hpaid := htarget.credits
  rw [howed, List.append_nil] at hpaid
  rw [hc, hcontrol, hacknowledged, hpaid, ← hs.credits] at hcredits
  have hcount := congrArg List.length hcredits
  simp only [List.length_append, Crediting.read, List.length_nil] at hcount
  rw [show (front.flatMap Started.credit).length = front.length * creditBytes from
      length_flatMap_credit _ _,
    show (before.flatMap Started.credit).length = before.length * creditBytes from
      length_flatMap_credit _ _] at hcount
  have hsame : front.length = before.length := by
    have h9 : creditBytes = 9 := rfl
    rw [h9] at hcount hshort
    omega
  obtain ⟨rfl, rfl⟩ : front = before ∧ rest = [last] :=
    List.append_inj (hs.frames.symm.trans hframes) hsame
  have hflight := hs.flight
  rw [List.flatMap_singleton, hdata, List.append_nil,
    hlast.written fun header payload hwriting => by cases hw.symm.trans hwriting] at hflight
  obtain ⟨x, -, output, body, -, hu, hfit, hbytes⟩ := h.encodes_last hframes
  rw [hbytes] at hflight
  have hawaits := htarget.awaits
  cases hi : p.importer.link.importing with
  | header read =>
    rw [hi] at hawaits
    obtain ⟨harriving, hlt⟩ := hawaits
    rw [harriving] at hflight
    have hlen := congrArg List.length hflight
    rw [List.length_append, length_header] at hlen
    omega
  | payload sequence revision length read =>
    rw [hi] at hawaits
    obtain ⟨header', harriving, hheads, hlt⟩ := hawaits
    rw [harriving] at hflight
    obtain ⟨hhead, hread⟩ := List.append_inj hflight (by rw [length_header, hheads.framed])
    obtain ⟨-, -, -, -, -, hlength⟩ := (acceptHeader_eq_ok hheads.framed).mp hheads.accepted
    rw [← hhead, headerLength_header _ _ hu (hfit.trans h.word), hread] at hlength
    exact absurd hlt (hlength ▸ Nat.lt_irrefl _)
  | sending sequence value => exact Or.inl ⟨sequence, value, rfl⟩
  | crediting sequence credit =>
    rw [hi] at hawaits howed
    exact absurd howed hawaits.2.1
  | yielding => exact Or.inr rfl

/-- No routine event lessens what is left to do. -/
def Stuck (E : WireCodec α) (c : Contract) (decode : Decode β G) (grants : G → Prop)
    (p : Pair α β) : Prop :=
  ∀ event : Event α G, event.Routine grants → ¬p.Lessens (p.step E c decode event)

theorem Joined.stuck_written (h : p.Joined E c decode m n) (hg : p.Going)
    (hstuck : p.Stuck E c decode grants) (header payload : List UInt8) :
    p.exporter.link.exporting ≠ .writing header payload := by
  intro he
  have hoffered : p.exporter.offered.take p.exporter.offered.length ≠ [] := by
    rw [List.take_length]
    rcases (h.exporterInv hg.exporter).frames with ⟨-, hr⟩ | ⟨-, last, -, -, hlast⟩
    · cases he.symm.trans hr
    · obtain ⟨-, hne⟩ := hlast.writing header payload he
      cases header with
      | nil =>
        simp only [Exported.offered, hg.exporter, he]
        exact fun hnil => hne ⟨rfl, hnil⟩
      | cons b rest =>
        simp only [Exported.offered, hg.exporter, he]
        exact List.cons_ne_nil b rest
  refine absurd ?_ (hstuck (.sendData p.exporter.offered.length) trivial)
  simp only [Pair.step]
  rw [if_neg hoffered]
  exact h.sendData_lessens hg hoffered

theorem Joined.stuck_control (h : p.Joined E c decode m n) (hg : p.Going)
    (hstuck : p.Stuck E c decode grants) {frame : List UInt8}
    (hc : p.exporter.link.crediting = .reading frame) : p.control = [] := by
  by_contra hcontrol
  have hpos := List.length_pos_of_ne_nil hcontrol
  have hshort := (h.exporterInv hg.exporter).reading frame hc
  have hroom : p.exporter.room = creditBytes - frame.length := by
    simp only [Exported.room, hg.exporter, hc]
  have htake : p.control.take (min p.control.length p.exporter.room) ≠ [] := by
    refine List.ne_nil_of_length_pos ?_
    rw [List.length_take, hroom]
    omega
  refine absurd ?_ (hstuck (.receiveCredit p.control.length) trivial)
  simp only [Pair.step]
  rw [if_neg htake]
  refine h.receiveCredit_lessens hg (take_drop_length _ _) htake ?_
  exact (List.length_take_le _ _).trans (Nat.min_le_right _ _)

theorem Joined.stuck_owed (h : p.Joined E c decode m n) (hg : p.Going)
    (hstuck : p.Stuck E c decode grants) : p.importer.link.importing.owed = [] := by
  by_contra howed
  have htake : p.importer.offered.take p.importer.offered.length ≠ [] := by
    rw [List.take_length, Imported.offered, hg.importer]
    exact howed
  refine absurd ?_ (hstuck (.sendCredit p.importer.offered.length) trivial)
  simp only [Pair.step]
  rw [if_neg htake]
  exact h.sendCredit_lessens hg htake

theorem Joined.stuck_data (h : p.Joined E c decode m n) (hmatch : Matches E.contract c)
    (hreadable : Readable E decode grants) (hsome : ∃ grant, grants grant) (hfits : m ≤ n)
    (hg : p.Going) (hstuck : p.Stuck E c decode grants) : p.data = [] ∨ p.importer.room = 0 := by
  by_contra hdata
  rw [not_or] at hdata
  obtain ⟨hdata, hroom⟩ := hdata
  have hpos := List.length_pos_of_ne_nil hdata
  obtain ⟨grant, hgrant⟩ := hsome
  have htake : p.data.take (min p.data.length p.importer.room) ≠ [] := by
    refine List.ne_nil_of_length_pos ?_
    rw [List.length_take]
    omega
  refine absurd ?_ (hstuck (.receiveData p.data.length grant) hgrant)
  simp only [Pair.step]
  rw [if_neg htake]
  refine h.receiveData_lessens hmatch hreadable hfits hg (take_drop_length _ _) htake ?_ hgrant
  exact (List.length_take_le _ _).trans (Nat.min_le_right _ _)

/-- A link that has no room for bytes is not reading. -/
theorem Joined.full (h : p.Joined E c decode m n) (hg : p.Going) (hroom : p.importer.room = 0)
    (howed : p.importer.link.importing.owed = []) :
    (∃ sequence value, p.importer.link.importing = .sending sequence value) ∨
      p.importer.link.importing = .yielding := by
  have hawaits := (h.importerInv hg.importer).awaits
  cases hi : p.importer.link.importing with
  | header read =>
    rw [hi] at hawaits
    simp only [Imported.room, hg.importer, hi] at hroom
    have hlt := hawaits.2
    omega
  | payload sequence revision length read =>
    rw [hi] at hawaits
    obtain ⟨-, -, -, hlt⟩ := hawaits
    simp only [Imported.room, hg.importer, hi] at hroom
    omega
  | sending sequence value => exact Or.inl ⟨sequence, value, rfl⟩
  | crediting sequence credit =>
    rw [hi] at hawaits howed
    exact absurd howed hawaits.2.1
  | yielding => exact Or.inr rfl

/-- A stuck pair does not wait for a credit. -/
theorem Joined.stuck_waiting (h : p.Joined E c decode m n) (hmatch : Matches E.contract c)
    (hreadable : Readable E decode grants) (hsome : ∃ grant, grants grant) (hfits : m ≤ n)
    (hg : p.Going) (hstuck : p.Stuck E c decode grants) :
    p.exporter.link.exporting ≠ .waiting := by
  intro he
  have hout : p.exporter.link.credits.outstanding = true := by
    by_contra hout
    exact hstuck (.exporter .notified) trivial
      (exporter_lessens hg (Exported.notified_turns hg.exporter he (by simpa using hout)))
  obtain ⟨frame, hc⟩ : ∃ frame, p.exporter.link.crediting = .reading frame := by
    cases hc : p.exporter.link.crediting with
    | reading frame => exact ⟨frame, rfl⟩
    | yielding =>
      exact absurd (exporter_lessens hg (Exported.creditResumed_turns hg.exporter hc))
        (hstuck (.exporter .creditResumed) trivial)
  have howed := h.stuck_owed hg hstuck
  have hturn : (∃ sequence value, p.importer.link.importing = .sending sequence value) ∨
      p.importer.link.importing = .yielding := by
    rcases h.stuck_data hmatch hreadable hsome hfits hg hstuck with hdata | hroom
    · exact h.waits hg he hout hc (h.stuck_control hg hstuck hc) hdata howed
    · exact h.full hg hroom howed
  rcases hturn with ⟨sequence, value, hi⟩ | hi
  · obtain ⟨-, -, houtcome, hpending, -⟩ := (h.importerInv hg.importer).admits hi
    exact hstuck (.importer .sent) trivial (importer_lessens hg houtcome hpending)
  · exact hstuck (.importer .resumed) trivial (resumed_lessens hg hi)

/-- When no turn is left, the pair rests. -/
theorem Joined.rests (h : p.Joined E c decode m n) (hmatch : Matches E.contract c)
    (hreadable : Readable E decode grants) (hsome : ∃ grant, grants grant) (hfits : m ≤ n)
    (hg : p.Going) (hnone : ∀ q, ¬Turn E c decode grants p q) : p.Rests := by
  have hinv := h.exporterInv hg.exporter
  have hstuck : p.Stuck E c decode grants :=
    fun event hroutine hless => hnone _ ⟨hless.ne, event, hroutine, rfl⟩
  have hreceiving : p.exporter.link.exporting = .receiving := by
    cases he : p.exporter.link.exporting with
    | receiving => rfl
    | yielding =>
      exact absurd (exporter_lessens hg (Exported.exportResumed_turns hg.exporter he))
        (hstuck (.exporter .exportResumed) trivial)
    | writing header payload => exact absurd he (h.stuck_written hg hstuck header payload)
    | waiting => exact absurd he (h.stuck_waiting hmatch hreadable hsome hfits hg hstuck)
  have hacknowledged : p.acknowledged = p.exporter.frames :=
    List.filter_eq_self.mpr (hinv.all_credited hreceiving)
  have hlength := h.encoded.length_eq
  obtain ⟨front, rest, hs⟩ := h.splits
  have hle := h.credited
  have hframes := congrArg List.length hs.frames
  rw [List.length_append, hs.length] at hframes
  rw [hacknowledged] at hle
  exact ⟨hreceiving, by omega, by rw [hacknowledged, hlength]⟩

/-- Turns keep both links going, and there is an end to them. -/
theorem Joined.turns (h : p.Joined E c decode m n) (hmatch : Matches E.contract c)
    (hreadable : Readable E decode grants) (hfits : m ≤ n) (hg : p.Going) {q : Pair α β}
    (hturns : Relation.ReflTransGen (Turn E c decode grants) p q) :
    q.Joined E c decode m n ∧ q.Going ∧ q.provided = p.provided := by
  induction hturns with
  | refl => exact ⟨h, hg, rfl⟩
  | tail _ hturn ih =>
    obtain ⟨hq, hgq, hprovided⟩ := ih
    have hless := hq.lessens hmatch hreadable hfits hgq hturn
    obtain ⟨-, event, -, rfl⟩ := hturn
    exact ⟨hq.step hmatch event, hless.going, hless.provided.trans hprovided⟩

theorem Joined.acc (h : p.Joined E c decode m n) (hmatch : Matches E.contract c)
    (hreadable : Readable E decode grants) (hfits : m ≤ n) (hg : p.Going) :
    Acc (fun q p => Turn E c decode grants p q) p := by
  induction hk : p.pending using Nat.strong_induction_on generalizing p with
  | _ k ih =>
    refine Acc.intro p fun q hturn => ?_
    have hless := h.lessens hmatch hreadable hfits hg hturn
    obtain ⟨-, event, -, rfl⟩ := hturn
    exact ih _ (hk ▸ hless.pending) (h.step hmatch event) hless.going rfl

end

/-- **Progress over sockets.** Let two links have got anywhere without ending, let the importing
one have room for every payload of the exporting one and be able to decode them. Then turns of
their loops and moves of their bytes, in any order, come to an end, neither link ends with
them, and when there is none left every item that was given was admitted and credited and the
exporting link asks for the next one. -/
theorem run_turns_rest [Target] (E : WireCodec α) {c : Contract} (hmatch : Matches E.contract c)
    {decode : Decode β G} {grants : G → Prop} (hreadable : Readable E decode grants)
    (hsome : ∃ grant, grants grant) (source target : Connection)
    {sourcePayload targetPayload : Nat} (hword : sourcePayload ≤ usizeMax)
    (hfits : sourcePayload ≤ targetPayload) (events : List (Event α G)) :
    let p := (start E c source target sourcePayload targetPayload).run E c decode events
    p.Going → Acc (fun q p => Turn E c decode grants p q) p ∧
      ∀ q, Relation.ReflTransGen (Turn E c decode grants) p q →
        q.Going ∧ q.provided = p.provided ∧ ((∀ r, ¬Turn E c decode grants q r) → q.Rests) := by
  intro p hg
  have h : p.Joined E c decode sourcePayload targetPayload :=
    joined_run hmatch source target targetPayload hword events
  refine ⟨h.acc hmatch hreadable hfits hg, fun q hturns => ?_⟩
  obtain ⟨hq, hgq, hprovided⟩ := h.turns hmatch hreadable hfits hg hturns
  exact ⟨hgq, hprovided, fun hnone => hq.rests hmatch hreadable hsome hfits hgq hnone⟩

/-- The frame is half written. -/
theorem run_turns_rest_partial :
    let _ := Target.x64
    let p := (start Duplex.byteCodec Duplex.byteCodec.contract ⟨1, 1⟩ ⟨2, 1⟩ 4 4 :
      Pair UInt8 UInt8).run Duplex.byteCodec Duplex.byteCodec.contract decodeByte
      [.exporter (.received 5 42), .sendData 7, .receiveData 3 ()]
    Acc (fun q p => Turn Duplex.byteCodec Duplex.byteCodec.contract decodeByte (fun _ => True) p q)
      p ∧
      ∀ q, Relation.ReflTransGen (Turn Duplex.byteCodec Duplex.byteCodec.contract decodeByte
          fun _ => True) p q →
        q.Going ∧ q.provided = [(5, 42)] ∧
          ((∀ r, ¬Turn Duplex.byteCodec Duplex.byteCodec.contract decodeByte (fun _ => True) q r) →
            q.Rests) := by
  intro _ p
  refine run_turns_rest Duplex.byteCodec ⟨rfl, rfl, rfl⟩ ?_ ⟨(), trivial⟩ ⟨1, 1⟩ ⟨2, 1⟩ (by decide)
    (Nat.le_refl 4) _ ⟨by decide +kernel, by decide +kernel⟩
  intro payload output body grant _ hencode
  have hlen : Except.ok 1 = Except.ok body.length := congrArg Prod.fst hencode
  obtain ⟨b, rfl⟩ := List.length_eq_one_iff.mp (Except.ok.inj hlen).symm
  exact ⟨b, rfl⟩

end Pair

end Hiway.Unix
