import Hiway.Unix.Pair

/-!
# The two ends of a pair

What each event does to the frames and the bytes of the link it happens to: most leave them
as they are, an item starts a frame, a write takes the next bytes of one, a read the next
bytes of a frame or of a credit, and an admission ends one. Which of the links goes on, and
which may end for what its peer sent, is part of it.

* `Inv.starts`, `Inv.sends`, `Inv.reads`: an item, a write and a read of the exporting link.
* `Inv.takes`, `Inv.admits`, `Inv.pays`: a read, an admission and a write of the importing
  link.
* `idles_of_ends`, `idles_of_ended`: a link that ends or has ended, but not for what its
  peer sent.
-/

namespace Hiway.Unix

open Target Transport

/-- What was read of the next credit. -/
def Crediting.read : Crediting → List UInt8
  | .reading frame => frame
  | .yielding => []

theorem encodeData_error {α : Type} {E : WireCodec α} {sequence : UInt64} {payload : α}
    {buffer : List UInt8} {error : IpcError}
    (h : encodeData E sequence payload buffer = .error error) : error ≠ .protocol := by
  rintro rfl
  unfold encodeData at h
  dsimp only at h
  split at h
  · cases h
  · split at h
    · cases h
    · split at h
      · cases h
      · split at h <;> cases h

/-! ## What is left of a frame -/

/-- What is left for the exporting link to do before it asks for the next item. A byte that
is written weighs more than all that can follow from reading it. -/
def Exporter.pending (e : Exporter) : Nat :=
  (match e.exporting with
    | .writing header payload => 41 * (header.length + payload.length) + 3
    | .yielding => 2
    | .waiting => 1
    | .receiving => 0) +
  match e.crediting with
    | .yielding => 1
    | .reading _ => 0

/-- What is left for the importing link to do before it reads the next frame. -/
def Importer.pending {β : Type} (i : Importer β) : Nat :=
  match i.importing with
  | .sending _ _ => 37
  | .crediting _ credit => 4 * credit.length
  | .yielding => 1
  | .header _ | .payload _ _ _ _ => 0

theorem Exporter.pending_write {e : Exporter} {header payload header' payload' : List UInt8}
    (he : e.exporting = .writing header payload) {count : Nat} (hpos : 0 < count)
    (hcount : header'.length + payload'.length + count = header.length + payload.length) :
    (e.write header' payload').1.pending + 40 * count < e.pending := by
  unfold Exporter.write
  split
  · rename_i hdone
    obtain ⟨rfl, rfl⟩ := hdone
    simp only [Exporter.pending, he, List.length_nil] at hcount ⊢
    omega
  · simp only [Exporter.pending, he]
    omega

theorem Exporter.pending_credit (e : Exporter) (frame : List UInt8) :
    (e.credit frame).1.pending ≤ e.pending + 1 := by
  unfold Exporter.credit
  split
  · exact Nat.le_succ _
  · simp only [Exporter.pending]
    omega

theorem Importer.pending_write {β : Type} {i : Importer β} {sequence : UInt64}
    {credit : List UInt8} (hi : i.importing = .crediting sequence credit) {count : Nat}
    (hpos : 0 < count) (hcount : count ≤ credit.length) :
    (i.write sequence (credit.drop count)).1.pending + 2 * count < i.pending := by
  have hlen := List.length_drop (l := credit) (i := count)
  unfold Importer.write
  split
  · rename_i hdone
    rw [hdone, List.length_nil] at hlen
    simp only [Importer.pending, hi]
    omega
  · simp only [Importer.pending, hi]
    omega

/-! ## The exporting link -/

namespace Exported

variable {α : Type} {E : WireCodec α} {s s' : Exported}

/-- The link starts no frame and moves no bytes. -/
structure Idles (s s' : Exported) : Prop where
  frames : s'.frames = s.frames
  buffer : s'.link.buffer = s.link.buffer
  opened : s'.link.outcome = none →
    s.link.outcome = none ∧ s'.link.crediting.read = s.link.crediting.read
  agrees : s'.link.outcome = some (some .protocol) → s.link.outcome = some (some .protocol)

/-- The loops go on. -/
theorem idles_of_open {a : Action α} {link : Exporter} {notes : List Note}
    (hstep : s.link.step E a = (link, notes)) (hpop : a ≠ .popped) (hsee : s.see E a = s.frames)
    (hopened : s.link.outcome = none) (hbuffer : link.buffer = s.link.buffer)
    (houtcome : link.outcome = none) (hread : link.crediting.read = s.link.crediting.read) :
    s.Idles (s.step E a) := by
  rw [step_eq hstep hsee hpop]
  refine ⟨rfl, hbuffer, fun _ => ⟨hopened, hread⟩, fun hp => ?_⟩
  rw [show link.outcome = some (some .protocol) from hp] at houtcome
  cases houtcome

/-- An await that is not under way. -/
theorem idles_of_stays {a : Action α} (hopened : s.link.outcome = none)
    (hstep : s.link.step E a = (s.link, [])) (hsee : s.see E a = s.frames) (hpop : a ≠ .popped) :
    s.Idles (s.step E a) :=
  idles_of_open hstep hpop hsee hopened rfl hopened rfl

/-- The link ends, but not for what its peer sent. -/
theorem idles_of_ends {a : Action α} (outcome : Option IpcError)
    (hstep : s.link.step E a = s.link.finish outcome) (hsee : s.see E a = s.frames)
    (hpop : a ≠ .popped) (hne : outcome ≠ some .protocol) : s.Idles (s.step E a) := by
  rw [step_eq hstep hsee hpop]
  refine ⟨rfl, rfl, fun hnone => (by cases hnone), fun hp => ?_⟩
  have heq : outcome = some .protocol := Option.some.inj hp
  exact absurd heq hne

/-- A link that has ended. -/
theorem idles_of_ended (hended : s.link.outcome ≠ none) (a : Action α) : s.Idles (s.step E a) := by
  obtain ⟨outcome, houtcome⟩ := Option.ne_none_iff_exists'.mp hended
  by_cases hpop : a = .popped
  · subst hpop
    exact ⟨rfl, rfl, fun h => ⟨h, rfl⟩, id⟩
  · have hstep : s.link.step E a = (s.link, []) := by
      simp only [Exporter.step, houtcome]
    have hsee : s.see E a = s.frames := by
      simp only [see, houtcome]
    rw [step_eq hstep hsee hpop]
    exact ⟨rfl, rfl, fun h => ⟨h, rfl⟩, id⟩

/-- An action that brings no item and no bytes. -/
def Quiet : Action α → Prop
  | .received _ _ => False
  | .wrote count => count = 0
  | .read bytes => bytes = []
  | _ => True

theorem Inv.idles (h : s.Inv) {a : Action α} (hquiet : Quiet a) : s.Idles (s.step E a) := by
  have hopened := h.opened
  cases a with
  | popped => exact ⟨rfl, rfl, fun h => ⟨h, rfl⟩, id⟩
  | received sequence payload => exact absurd hquiet id
  | revoked =>
    exact idles_of_ends (some .revoked) (by simp only [Exporter.step, hopened])
      (by simp only [see, hopened])
        (by simp) (by simp)
  | dropped =>
    exact idles_of_ends none (by simp only [Exporter.step, hopened])
      (by simp only [see, hopened])
        (by simp) (by simp)
  | notified =>
    cases he : s.link.exporting with
    | waiting =>
      have hstep : s.link.step E .notified = (s.link.wait, []) := by
        simp only [Exporter.step, hopened, he]
      exact idles_of_open hstep (by simp) (by simp only [see, hopened]) hopened rfl hopened rfl
    | _ =>
      exact idles_of_stays hopened (by simp only [Exporter.step, hopened, he])
        (by simp only [see, hopened]) (by simp)
  | exportResumed =>
    cases he : s.link.exporting with
    | yielding =>
      have hstep : s.link.step E .exportResumed = (s.link.wait, []) := by
        simp only [Exporter.step, hopened, he]
      exact idles_of_open hstep (by simp) (by simp only [see, hopened]) hopened rfl hopened rfl
    | _ =>
      exact idles_of_stays hopened (by simp only [Exporter.step, hopened, he])
        (by simp only [see, hopened]) (by simp)
  | lost first last =>
    cases he : s.link.exporting with
    | receiving =>
      exact idles_of_ends (some (.gap first last))
        (by simp only [Exporter.step, hopened, he]) (by simp only [see, hopened])
        (by simp) (by simp)
    | _ =>
      exact idles_of_stays hopened (by simp only [Exporter.step, hopened, he])
        (by simp only [see, hopened]) (by simp)
  | receiveFailed error =>
    cases he : s.link.exporting with
    | receiving =>
      exact idles_of_ends (some (.receive error))
        (by simp only [Exporter.step, hopened, he]) (by simp only [see, hopened])
        (by simp) (by simp)
    | _ =>
      exact idles_of_stays hopened (by simp only [Exporter.step, hopened, he])
        (by simp only [see, hopened]) (by simp)
  | wrote count =>
    have hzero : count = 0 := hquiet
    subst hzero
    cases he : s.link.exporting with
    | writing header payload =>
      have hstep : s.link.step E (.wrote 0) = s.link.finish (some (.io none)) := by
        simp only [Exporter.step, hopened, he]
      refine idles_of_ends _ hstep ?_ (by simp) (by simp)
      cases header <;> simp only [see, hopened, he] <;> exact h.onLast_self (by simp)
    | _ =>
      exact idles_of_stays hopened (by simp only [Exporter.step, hopened, he])
        (by simp only [see, hopened, he]) (by simp)
  | writeFailed code =>
    cases he : s.link.exporting with
    | writing header payload =>
      exact idles_of_ends (some (.io code))
        (by simp only [Exporter.step, hopened, he]) (by simp only [see, hopened])
        (by simp) (by simp)
    | _ =>
      exact idles_of_stays hopened (by simp only [Exporter.step, hopened, he])
        (by simp only [see, hopened]) (by simp)
  | read bytes =>
    have hnil : bytes = [] := hquiet
    subst hnil
    cases hc : s.link.crediting with
    | reading frame =>
      have hstep : s.link.step E (.read []) = s.link.finish (some (.io none)) := by
        simp only [Exporter.step, hopened, hc]
      refine idles_of_ends _ hstep ?_ (by simp) (by simp)
      simp only [see, hopened, hc]
      refine h.onLast_self fun last _ => ?_
      have hlt := h.reading frame hc
      have hne : ¬ frame ++ [].take (creditBytes - frame.length) = creditOf last.sequence := by
        rw [List.take_nil, List.append_nil]
        rintro rfl
        rw [length_creditOf] at hlt
        exact hlt.ne rfl
      rw [decide_eq_false hne, Bool.or_false]
    | yielding =>
      exact idles_of_stays hopened (by simp only [Exporter.step, hopened, hc])
        (by simp only [see, hopened, hc]) (by simp)
  | readFailed code =>
    cases hc : s.link.crediting with
    | reading frame =>
      exact idles_of_ends (some (.io code))
        (by simp only [Exporter.step, hopened, hc]) (by simp only [see, hopened])
        (by simp) (by simp)
    | yielding =>
      exact idles_of_stays hopened (by simp only [Exporter.step, hopened, hc])
        (by simp only [see, hopened]) (by simp)
  | creditResumed =>
    cases hc : s.link.crediting with
    | reading frame =>
      exact idles_of_stays hopened (by simp only [Exporter.step, hopened, hc])
        (by simp only [see, hopened]) (by simp)
    | yielding =>
      have hstep : s.link.step E .creditResumed =
          ({ s.link with crediting := .reading [] }, []) := by
        simp only [Exporter.step, hopened, hc]
      exact idles_of_open hstep (by simp) (by simp only [see, hopened]) hopened rfl hopened
        (by rw [hc]; rfl)

/-- An item that nothing awaits. -/
theorem Inv.idles_received (h : s.Inv) (hr : s.link.exporting ≠ .receiving) (sequence : UInt64)
    (payload : α) : s.Idles (s.step E (.received sequence payload)) := by
  have hopened := h.opened
  cases he : s.link.exporting with
  | receiving => exact absurd he hr
  | _ =>
    exact idles_of_stays hopened (by simp only [Exporter.step, hopened, he])
      (by simp only [see, hopened, he]) (by simp)

/-- An item is asked for when every frame has its credit. -/
theorem Inv.all_credited (h : s.Inv) (hr : s.link.exporting = .receiving) :
    ∀ f ∈ s.frames, f.credited = true := by
  rcases h.frames with ⟨hnil, -⟩ | ⟨front, last, hframes, hfront, hlast⟩
  · rw [hnil]
    simp
  · rw [hframes]
    intro f hf
    rcases List.mem_append.mp hf with hf | hf
    · have hcomplete := hfront f hf
      simp only [Started.complete, Bool.and_eq_true] at hcomplete
      exact hcomplete.1
    · cases List.mem_singleton.mp hf
      have hcredited := hlast.outstanding
      rw [h.receiving hr] at hcredited
      simpa using hcredited.symm

/-- An item that cannot be encoded ends the link. -/
theorem Inv.rejects (h : s.Inv) (hr : s.link.exporting = .receiving) {sequence : UInt64}
    {payload : α} {error : IpcError}
    (hencode : encodeData E sequence payload s.link.buffer = .error error) :
    s.Idles (s.step E (.received sequence payload)) := by
  have hstep : s.link.step E (.received sequence payload) = s.link.provide E sequence payload := by
    simp only [Exporter.step, h.opened, hr]
  have hsee : s.see E (.received sequence payload) = s.frames := by
    simp only [see, h.opened, hr, hencode]
  rw [step_eq hstep hsee (by simp)]
  have houtcome : (s.link.provide E sequence payload).1 = (s.link.finish (some error)).1 := by
    simp only [Exporter.provide, hencode]
  refine ⟨rfl, ?_, fun hnone => ?_, fun hp => ?_⟩
  · show (s.link.provide E sequence payload).1.buffer = _
    rw [houtcome]
    rfl
  · change (s.link.provide E sequence payload).1.outcome = none at hnone
    rw [houtcome] at hnone
    cases hnone
  · change (s.link.provide E sequence payload).1.outcome = _ at hp
    rw [houtcome] at hp
    have heq : error = .protocol := Option.some.inj (Option.some.inj hp)
    exact absurd heq (encodeData_error hencode)

/-- What a step of the link that goes on leaves as it is. -/
structure Goes (s s' : Exported) : Prop where
  outcome : s'.link.outcome = none
  buffer : s'.link.buffer.length = s.link.buffer.length

/-- An item starts a frame. -/
theorem Inv.starts (h : s.Inv) (hr : s.link.exporting = .receiving) {sequence : UInt64}
    {payload : α} {header body : List UInt8}
    (hencode : encodeData E sequence payload s.link.buffer = .ok (header, body)) :
    s.Goes (s.step E (.received sequence payload)) ∧
      (s.step E (.received sequence payload)).link.crediting = s.link.crediting ∧
      (s.step E (.received sequence payload)).frames =
        s.frames ++ [⟨sequence, header ++ body, [], false⟩] := by
  have hstep : s.link.step E (.received sequence payload) = ({ s.link with
      credits := s.link.credits.start sequence
      exporting := .writing header body
      buffer := body ++ s.link.buffer.drop body.length }, [.observe sequence, .admitted]) := by
    simp only [Exporter.step, h.opened, hr, Exporter.provide, hencode]
  have hsee : s.see E (.received sequence payload) =
      s.frames ++ [⟨sequence, header ++ body, [], false⟩] := by
    simp only [see, h.opened, hr, hencode]
  rw [step_eq hstep hsee (by simp)]
  obtain ⟨hfit, -, henc, -⟩ := encodeData_eq_ok.mp hencode
  have hbody := E.encode_length payload (s.link.buffer.take (E.encodedLen payload))
  rw [henc, List.length_take] at hbody
  refine ⟨⟨h.opened, ?_⟩, rfl, rfl⟩
  show (body ++ s.link.buffer.drop body.length).length = _
  rw [List.length_append, List.length_drop]
  dsimp only at hbody
  omega

/-- A write takes the next bytes of the last frame. -/
theorem Inv.sends (h : s.Inv) {count : Nat} (hsome : s.offered.take count ≠ []) :
    let s' := s.step E (.wrote (s.offered.take count).length)
    s.Goes s' ∧ s'.link.crediting = s.link.crediting ∧
      s'.link.pending + 40 * (s.offered.take count).length < s.link.pending ∧
      ∃ front last, s.frames = front ++ [last] ∧ last.written ≠ last.bytes ∧
        s'.frames = front ++ [{ last with written := last.written ++ s.offered.take count }] := by
  obtain ⟨header, payload, hw⟩ : ∃ header payload, s.link.exporting = .writing header payload := by
    cases he : s.link.exporting with
    | writing header payload => exact ⟨header, payload, rfl⟩
    | _ =>
      refine absurd ?_ hsome
      simp [offered, h.opened, he]
  obtain ⟨n, hn⟩ : ∃ n, (s.offered.take count).length = n + 1 :=
    Nat.exists_eq_succ_of_ne_zero fun hzero => hsome (List.eq_nil_of_length_eq_zero hzero)
  rcases h.frames with ⟨-, hr⟩ | ⟨front, last, hframes, -, hlast⟩
  · cases hw.symm.trans hr
  obtain ⟨hbytes, hrest⟩ := hlast.writing header payload hw
  have hunwritten : last.written ≠ last.bytes := by
    intro heq
    rw [← heq] at hbytes
    have hnil := List.append_right_eq_self.mp hbytes
    exact hrest (List.append_eq_nil_iff.mp hnil)
  have hfront : ∀ {bytes : List UInt8}, (bytes.take count).length = n + 1 →
      bytes.take (n + 1) = bytes.take count := by
    intro bytes hlen
    rw [← hlen, List.length_take]
    rcases Nat.le_total count bytes.length with hle | hle
    · rw [Nat.min_eq_left hle]
    · rw [Nat.min_eq_right hle, List.take_length, List.take_of_length_le hle]
  have hwrite : ∀ header payload : List UInt8, (s.link.write header payload).1.outcome = none ∧
      (s.link.write header payload).1.buffer = s.link.buffer ∧
      (s.link.write header payload).1.crediting = s.link.crediting := by
    intro header payload
    unfold Exporter.write
    split
    · exact ⟨h.opened, rfl, rfl⟩
    · exact ⟨h.opened, rfl, rfl⟩
  have hle : ∀ {bytes : List UInt8}, (bytes.take count).length = n + 1 → n + 1 ≤ bytes.length := by
    intro bytes hlen
    rw [← hlen]
    exact List.length_take_le' _ _
  rw [hn]
  cases header with
  | nil =>
    have hoffered : s.offered = payload := by
      simp only [offered, h.opened, hw]
    rw [hoffered] at hn ⊢
    have hstep : s.link.step E (.wrote (n + 1)) = s.link.write [] (payload.drop (n + 1)) := by
      simp only [Exporter.step, h.opened, hw]
    have hsee : s.see E (.wrote (n + 1)) =
        front ++ [{ last with written := last.written ++ payload.take count }] := by
      simp only [see, h.opened, hw]
      rw [onLast_concat hframes, hfront hn]
    dsimp only
    rw [step_eq hstep hsee (by simp)]
    obtain ⟨houtcome, hbuffer, hcrediting⟩ := hwrite [] (payload.drop (n + 1))
    refine ⟨⟨houtcome, congrArg List.length hbuffer⟩, hcrediting, ?_, front, last, hframes,
      hunwritten, rfl⟩
    have hfit := hle hn
    refine Exporter.pending_write hw n.succ_pos ?_
    rw [List.length_drop, List.length_nil]
    omega
  | cons b rest =>
    have hoffered : s.offered = b :: rest := by
      simp only [offered, h.opened, hw]
    rw [hoffered] at hn ⊢
    have hstep : s.link.step E (.wrote (n + 1)) =
        s.link.write ((b :: rest).drop (n + 1)) payload := by
      simp only [Exporter.step, h.opened, hw]
    have hsee : s.see E (.wrote (n + 1)) =
        front ++ [{ last with written := last.written ++ (b :: rest).take count }] := by
      simp only [see, h.opened, hw]
      rw [onLast_concat hframes, hfront hn]
    dsimp only
    rw [step_eq hstep hsee (by simp)]
    obtain ⟨houtcome, hbuffer, hcrediting⟩ := hwrite ((b :: rest).drop (n + 1)) payload
    refine ⟨⟨houtcome, congrArg List.length hbuffer⟩, hcrediting, ?_, front, last, hframes,
      hunwritten, rfl⟩
    have hfit := hle hn
    refine Exporter.pending_write hw n.succ_pos ?_
    rw [List.length_drop]
    omega

/-- A read takes the next bytes of a credit. -/
theorem Inv.reads (h : s.Inv) {bytes : List UInt8} (hsome : bytes ≠ [])
    (hroom : bytes.length ≤ s.room) :
    let s' := s.step E (.read bytes)
    (s.link.crediting.read ++ bytes).length ≤ creditBytes ∧
      s'.link.pending ≤ s.link.pending + 1 ∧
      ((s.link.crediting.read ++ bytes).length < creditBytes → s.Goes s' ∧
        s'.frames = s.frames ∧ s'.link.crediting.read = s.link.crediting.read ++ bytes) ∧
      ∀ front last, s.frames = front ++ [last] → last.credited = false →
        s.link.crediting.read ++ bytes = creditOf last.sequence → s.Goes s' ∧
          s'.frames = front ++ [{ last with credited := true }] ∧ s'.link.crediting.read = [] := by
  obtain ⟨frame, hc⟩ : ∃ frame, s.link.crediting = .reading frame := by
    cases hc : s.link.crediting with
    | reading frame => exact ⟨frame, rfl⟩
    | yielding =>
      simp only [room, h.opened, hc] at hroom
      exact absurd (List.eq_nil_of_length_eq_zero (Nat.le_zero.mp hroom)) hsome
  have hlt := h.reading frame hc
  simp only [room, h.opened, hc] at hroom
  obtain ⟨b, rest, rfl⟩ := List.exists_cons_of_ne_nil hsome
  have htake : (b :: rest).take (creditBytes - frame.length) = b :: rest :=
    List.take_of_length_le hroom
  have hlen : (frame ++ (b :: rest)).length ≤ creditBytes := by
    rw [List.length_append]
    omega
  have hsee : s.see E (.read (b :: rest)) = s.onLast fun last =>
      { last with
        credited := last.credited || decide (frame ++ (b :: rest) = creditOf last.sequence) } := by
    simp only [see, h.opened, hc, htake]
  rw [hc]
  refine ⟨hlen, ?_, fun hshort => ?_, fun front last hframes hopen hcredit => ?_⟩
  · show (s.link.step E (.read (b :: rest))).1.pending ≤ _
    simp only [Exporter.step, h.opened, hc, htake]
    split
    · exact Exporter.pending_credit _ _
    · simp only [Exporter.pending]
      omega
  · have hstep : s.link.step E (.read (b :: rest)) = ({ s.link with
        crediting := .reading (frame ++ (b :: rest)) }, []) := by
      simp only [Exporter.step, h.opened, hc, htake]
      exact if_neg hshort.ne
    have hsame : s.see E (.read (b :: rest)) = s.frames := by
      refine hsee.trans (h.onLast_self fun last _ => ?_)
      have hne : ¬ frame ++ (b :: rest) = creditOf last.sequence := by
        intro heq
        have hshort' : (frame ++ (b :: rest)).length < creditBytes := hshort
        rw [heq, length_creditOf] at hshort'
        exact hshort'.ne rfl
      rw [decide_eq_false hne, Bool.or_false]
    rw [step_eq hstep hsame (by simp)]
    exact ⟨⟨h.opened, rfl⟩, rfl, rfl⟩
  · have hcredit : frame ++ (b :: rest) = creditOf last.sequence := hcredit
    have hfull : (frame ++ (b :: rest)).length = creditBytes := by
      rw [hcredit, length_creditOf]
    have hstep : s.link.step E (.read (b :: rest)) = s.link.credit (frame ++ (b :: rest)) := by
      simp only [Exporter.step, h.opened, hc, htake]
      exact if_pos hfull
    have hreceive := s.link.credits.receive_eq hfull
    rcases h.frames with ⟨hnil, -⟩ | ⟨front', last', hframes', -, hlast⟩
    · rw [hnil] at hframes
      exact absurd hframes.symm (List.append_ne_nil_of_right_ne_nil _ (List.cons_ne_nil _ _))
    · obtain ⟨rfl, hsingle⟩ := List.append_inj' (hframes'.symm.trans hframes) rfl
      obtain rfl : last' = last := List.singleton_inj.mp hsingle
      have hexpects : s.link.credits.outstanding = true ∧
          frame ++ (b :: rest) = creditOf s.link.credits.sequence := by
        rw [hlast.outstanding, hlast.sequence, hopen]
        exact ⟨rfl, hcredit⟩
      rw [if_pos hexpects] at hreceive
      obtain ⟨notes, hlink⟩ : ∃ notes, s.link.credit (frame ++ (b :: rest)) = ({ s.link with
          credits := { s.link.credits with outstanding := false }
          crediting := .yielding }, notes) := by
        simp only [Exporter.credit, hreceive]
        exact ⟨_, rfl⟩
      have hcredited : s.see E (.read (b :: rest)) =
          front' ++ [{ last' with credited := true }] := by
        rw [hsee, onLast_concat hframes, hcredit, decide_eq_true rfl, Bool.or_true]
      rw [step_eq (hstep.trans hlink) hcredited (by simp)]
      exact ⟨⟨h.opened, rfl⟩, rfl, rfl⟩

end Exported

/-! ## The importing link -/

theorem IpcError.ofDecode_ne (error : DecodeError) : IpcError.ofDecode error ≠ .protocol := by
  cases error <;> simp [ofDecode]

namespace Imported

variable {β G : Type} {s s' : Imported β}

/-- The link admits nothing and moves no bytes. -/
structure Idles (s s' : Imported β) : Prop where
  admitted : s'.admitted = s.admitted
  arriving : s'.arriving = s.arriving
  sent : s'.sent = s.sent
  agrees : s'.link.outcome = some (some .protocol) → s.link.outcome = some (some .protocol)

/-- An arrival that brings no bytes and no admission. -/
def Quiet : Arrival G → Prop
  | .read bytes _ => bytes = []
  | .control bytes => bytes = []
  | .wrote count => count = 0
  | .sent => False
  | _ => True

/-- Only a header can make the rest of a payload's reception a protocol error. -/
theorem payload_agrees (decode : Decode β G) (i : Importer β) (hopened : i.outcome = none)
    (grant : G) (sequence : UInt64) (revision : SchemaRevision) (length : Nat)
    (read : List UInt8) :
    (i.payload decode grant sequence revision length read).1.outcome ≠ some (some .protocol) := by
  unfold Importer.payload
  split
  · unfold Importer.decoded
    split
    · rename_i error _
      intro hp
      exact IpcError.ofDecode_ne error (Option.some.inj (Option.some.inj hp))
    · show i.outcome ≠ _
      rw [hopened]
      simp
  · show i.outcome ≠ _
    rw [hopened]
    simp

theorem pending_payload (decode : Decode β G) (i : Importer β) (grant : G) (sequence : UInt64)
    (revision : SchemaRevision) (length : Nat) (read : List UInt8) :
    (i.payload decode grant sequence revision length read).1.pending ≤ i.pending + 37 := by
  unfold Importer.payload
  split
  · unfold Importer.decoded
    split
    · exact Nat.le_add_right _ _
    · exact Nat.le_add_left _ _
  · exact Nat.zero_le _

variable [Target] {c : Contract} {decode : Decode β G}

theorem idles_of_stays {a : Arrival G} (hstep : s.link.step c decode a = (s.link, []))
    (hgather : s.gather a = (s.admitted, s.arriving)) (hemit : s.emit a = []) (hpop : a ≠ .popped) :
    s.Idles (s.step c decode a) := by
  rw [step_quiet hstep hgather hemit hpop]
  exact ⟨rfl, rfl, rfl, id⟩

/-- The link ends, but not for what its peer sent. -/
theorem idles_of_ends {a : Arrival G} (outcome : Option IpcError)
    (hstep : s.link.step c decode a = s.link.finish outcome)
    (hgather : s.gather a = (s.admitted, s.arriving)) (hemit : s.emit a = []) (hpop : a ≠ .popped)
    (hne : outcome ≠ some .protocol) : s.Idles (s.step c decode a) := by
  rw [step_quiet hstep hgather hemit hpop]
  refine ⟨rfl, rfl, rfl, fun hp => ?_⟩
  have heq : outcome = some .protocol := Option.some.inj hp
  exact absurd heq hne

/-- A link that has ended. -/
theorem idles_of_ended (hended : s.link.outcome ≠ none) (a : Arrival G) :
    s.Idles (s.step c decode a) := by
  obtain ⟨outcome, houtcome⟩ := Option.ne_none_iff_exists'.mp hended
  by_cases hpop : a = .popped
  · subst hpop
    exact ⟨rfl, rfl, rfl, id⟩
  · refine idles_of_stays (by simp only [Importer.step, houtcome]) ?_ ?_ hpop
    · cases a with
      | read bytes grant => exact gather_idle bytes grant (by simp only [room, houtcome])
      | sent => simp only [gather, houtcome]
      | _ => rfl
    · cases a with
      | wrote count => simp only [emit, houtcome]
      | _ => rfl

theorem Inv.idles (h : s.Inv c decode) {a : Arrival G} (hquiet : Quiet a) :
    s.Idles (s.step c decode a) := by
  have hopened := h.opened
  cases a with
  | popped => exact ⟨rfl, rfl, rfl, id⟩
  | sent => exact absurd hquiet id
  | revoked =>
    exact idles_of_ends (some .revoked) (by simp only [Importer.step, hopened]) rfl rfl (by simp)
      (by simp)
  | dropped =>
    exact idles_of_ends none (by simp only [Importer.step, hopened]) rfl rfl (by simp) (by simp)
  | control bytes =>
    have hnil : bytes = [] := hquiet
    subst hnil
    exact idles_of_ends (some (.io none)) (by simp only [Importer.step, hopened]) rfl rfl (by simp)
      (by simp)
  | controlFailed code =>
    exact idles_of_ends (some (.io code)) (by simp only [Importer.step, hopened]) rfl rfl (by simp)
      (by simp)
  | read bytes grant =>
    have hnil : bytes = [] := hquiet
    subst hnil
    cases hi : s.link.importing with
    | header | payload =>
      exact idles_of_ends (some (.io none)) (by simp only [Importer.step, hopened, hi])
        (gather_nil grant) rfl (by simp) (by simp)
    | _ =>
      exact idles_of_stays (by simp only [Importer.step, hopened, hi]) (gather_nil grant) rfl
        (by simp)
  | readFailed code =>
    cases hi : s.link.importing with
    | header | payload =>
      exact idles_of_ends (some (.io code)) (by simp only [Importer.step, hopened, hi]) rfl rfl
        (by simp) (by simp)
    | _ => exact idles_of_stays (by simp only [Importer.step, hopened, hi]) rfl rfl (by simp)
  | sendFailed error =>
    cases hi : s.link.importing with
    | sending =>
      exact idles_of_ends (some (.send error)) (by simp only [Importer.step, hopened, hi]) rfl rfl
        (by simp) (by simp)
    | _ => exact idles_of_stays (by simp only [Importer.step, hopened, hi]) rfl rfl (by simp)
  | wrote count =>
    have hzero : count = 0 := hquiet
    subst hzero
    cases hi : s.link.importing with
    | crediting sequence credit =>
      exact idles_of_ends (some (.io none)) (by simp only [Importer.step, hopened, hi]) rfl
        (by simp only [emit, hopened, hi, List.take_zero]) (by simp) (by simp)
    | _ =>
      exact idles_of_stays (by simp only [Importer.step, hopened, hi]) rfl
        (by simp only [emit, hopened, hi]) (by simp)
  | writeFailed code =>
    cases hi : s.link.importing with
    | crediting =>
      exact idles_of_ends (some (.io code)) (by simp only [Importer.step, hopened, hi]) rfl rfl
        (by simp) (by simp)
    | _ => exact idles_of_stays (by simp only [Importer.step, hopened, hi]) rfl rfl (by simp)
  | resumed =>
    cases hi : s.link.importing with
    | yielding =>
      have hstep : s.link.step c decode (.resumed : Arrival G) =
          ({ s.link with importing := .header [] }, []) := by
        simp only [Importer.step, hopened, hi]
      rw [step_quiet hstep rfl rfl (by simp)]
      exact ⟨rfl, rfl, rfl, id⟩
    | _ => exact idles_of_stays (by simp only [Importer.step, hopened, hi]) rfl rfl (by simp)

/-- A read ends in a value at most. -/
theorem pending_read (i : Importer β) (hopened : i.outcome = none) (bytes : List UInt8)
    (grant : G) : (i.step c decode (.read bytes grant)).1.pending ≤ i.pending + 37 := by
  have haccept : ∀ header, (i.accept c decode grant header).1.pending ≤ i.pending + 37 := by
    intro header
    unfold Importer.accept
    dsimp only
    split
    · exact Nat.le_add_right _ _
    · exact pending_payload decode i grant _ _ _ _
  cases bytes with
  | nil =>
    cases hi : i.importing <;> simp only [Importer.step, hopened, hi] <;>
      exact Nat.le_add_right _ _
  | cons b rest =>
    cases hi : i.importing with
    | header read =>
      simp only [Importer.step, hopened, hi]
      split
      · exact haccept _
      · exact Nat.zero_le _
    | payload sequence revision length read =>
      simp only [Importer.step, hopened, hi]
      exact pending_payload decode i grant _ _ _ _
    | _ =>
      simp only [Importer.step, hopened, hi]
      exact Nat.le_add_right _ _

/-- A read takes the next bytes of a frame. -/
theorem Inv.takes (h : s.Inv c decode) {bytes : List UInt8} (hsome : bytes ≠ [])
    (hroom : bytes.length ≤ s.room) (grant : G) :
    let s' := s.step c decode (.read bytes grant)
    s'.admitted = s.admitted ∧ s'.arriving = s.arriving ++ bytes ∧ s'.sent = s.sent ∧
      s'.link.pending ≤ s.link.pending + 37 ∧
      (s'.link.outcome = some (some .protocol) → (s.arriving ++ bytes).length = headerBytes ∧
        acceptHeader c (s.arriving ++ bytes) s.link.maxPayload s.link.previous =
          .error .protocol) := by
  have hgather : s.gather (.read bytes grant) = (s.admitted, s.arriving ++ bytes) := by
    rw [gather, List.take_of_length_le hroom]
  have hawaits := h.awaits
  obtain ⟨b, rest, rfl⟩ := List.exists_cons_of_ne_nil hsome
  dsimp only
  rw [step_eq rfl hgather rfl (by simp)]
  refine ⟨rfl, rfl, List.append_nil _, pending_read s.link h.opened _ _, fun hp => ?_⟩
  change (s.link.step c decode (.read (b :: rest) grant)).1.outcome = _ at hp
  cases hi : s.link.importing with
  | header read =>
    rw [hi] at hawaits
    obtain ⟨harriving, -⟩ := hawaits
    simp only [room, h.opened, hi] at hroom
    simp only [Importer.step, h.opened, hi, List.take_of_length_le hroom] at hp
    rw [← harriving] at hp
    split at hp
    · rename_i hfull
      refine ⟨hfull, ?_⟩
      unfold Importer.accept at hp
      cases haccept : acceptHeader c (s.arriving ++ b :: rest) s.link.maxPayload
          s.link.previous with
      | error error =>
        rw [haccept] at hp
        have heq : error = .protocol := Option.some.inj (Option.some.inj hp)
        rw [heq]
      | ok accepted =>
        rw [haccept] at hp
        exact absurd hp (payload_agrees decode s.link h.opened grant _ _ _ _)
    · cases hp
  | payload sequence revision length read =>
    simp only [Importer.step, h.opened, hi] at hp
    exact absurd hp (payload_agrees decode s.link h.opened grant _ _ _ _)
  | _ =>
    simp only [room, h.opened, hi] at hroom
    exact absurd hroom (Nat.not_succ_le_zero _)

/-- The local stream has accepted the value of the frame that was read. -/
theorem Inv.admits (h : s.Inv c decode) {sequence : UInt64} {value : β}
    (hi : s.link.importing = .sending sequence value) :
    let s' := s.step c decode (.sent : Arrival G)
    s'.arriving = [] ∧ s'.sent = s.sent ∧ s'.link.outcome = none ∧
      s'.link.pending < s.link.pending ∧
      ∃ a : Accepted β, s'.admitted = s.admitted ++ [a] ∧ a.bytes = s.arriving ∧
        a.header.length = headerBytes ∧ headerLength a.header = a.payload.length := by
  have hawaits := h.awaits
  rw [hi] at hawaits
  obtain ⟨header, payload, revision, harriving, hheads, -⟩ := hawaits
  obtain ⟨-, -, -, -, -, hlength⟩ := (acceptHeader_eq_ok hheads.framed).mp hheads.accepted
  have hgather : s.gather (.sent : Arrival G) =
      (s.admitted ++ [Accepted.mk header payload value], []) := by
    simp only [gather, h.opened, hi, harriving]
    rw [List.take_left' hheads.framed, List.drop_left' hheads.framed]
  have hstep : s.link.step c decode (.sent : Arrival G) = ({ s.link with
      importing := .crediting sequence (creditOf sequence)
      previous := some sequence }, [.admitted]) := by
    simp only [Importer.step, h.opened, hi]
  dsimp only
  rw [step_eq hstep hgather rfl (by simp)]
  refine ⟨rfl, List.append_nil _, h.opened, ?_, _, rfl, harriving.symm, hheads.framed, hlength⟩
  show 4 * (creditOf sequence).length < s.link.pending
  rw [length_creditOf, Importer.pending, hi]
  exact (by decide : 4 * creditBytes < 37)

/-- An answer of the local stream that nothing awaits. -/
theorem Inv.idles_sent (h : s.Inv c decode)
    (hi : ∀ sequence value, s.link.importing ≠ .sending sequence value) :
    s.Idles (s.step c decode (.sent : Arrival G)) := by
  have hopened := h.opened
  cases hi' : s.link.importing with
  | sending sequence value => exact absurd hi' (hi sequence value)
  | _ =>
    exact idles_of_stays (by simp only [Importer.step, hopened, hi'])
      (by simp only [gather, hopened, hi']) rfl (by simp)

/-- A write takes the next bytes of a credit. -/
theorem Inv.pays (h : s.Inv c decode) {count : Nat} (hsome : s.offered.take count ≠ []) :
    let s' := s.step c decode (.wrote (s.offered.take count).length : Arrival G)
    s'.admitted = s.admitted ∧ s'.arriving = s.arriving ∧
      s'.sent = s.sent ++ s.offered.take count ∧ s'.link.outcome = none ∧
      s'.link.pending + 2 * (s.offered.take count).length < s.link.pending := by
  obtain ⟨sequence, credit, hi⟩ :
      ∃ sequence credit, s.link.importing = .crediting sequence credit := by
    cases hi : s.link.importing with
    | crediting sequence credit => exact ⟨sequence, credit, rfl⟩
    | _ =>
      refine absurd ?_ hsome
      simp [offered, h.opened, hi, Importing.owed]
  have hoffered : s.offered = credit := by
    simp only [offered, h.opened, hi, Importing.owed]
  obtain ⟨n, hn⟩ : ∃ n, (s.offered.take count).length = n + 1 :=
    Nat.exists_eq_succ_of_ne_zero fun hzero => hsome (List.eq_nil_of_length_eq_zero hzero)
  have hemit : s.emit (.wrote (n + 1) : Arrival G) = s.offered.take count := by
    simp only [emit, h.opened, hi]
    rw [← hn, hoffered, List.length_take]
    rcases Nat.le_total count credit.length with hle | hle
    · rw [Nat.min_eq_left hle]
    · rw [Nat.min_eq_right hle, List.take_length, List.take_of_length_le hle]
  have hstep : s.link.step c decode (.wrote (n + 1) : Arrival G) =
      s.link.write sequence (credit.drop (n + 1)) := by
    simp only [Importer.step, h.opened, hi]
  dsimp only
  rw [hn, step_eq hstep rfl hemit (by simp)]
  refine ⟨rfl, rfl, rfl, ?_, ?_⟩
  · show (s.link.write sequence (credit.drop (n + 1))).1.outcome = none
    unfold Importer.write
    split <;> exact h.opened
  · refine Importer.pending_write hi n.succ_pos ?_
    rw [← hn, hoffered]
    exact List.length_take_le' _ _

end Imported

end Hiway.Unix
