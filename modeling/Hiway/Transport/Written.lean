import Hiway.Transport.Notes

/-!
# What one input records

The records of an input are what it leaves in an empty ring; a ring that already holds
some gets them at its end. An input that leaves the machine open writes what its notes
say, the one that closes it writes the terminal record, and every later one nothing.

* `input_written`: what an input writes goes to the end of whatever the ring holds.
* `written_open`: an input that leaves the machine open writes what its notes say.
* `written_closing`, `written_terminal`: the one that closes it writes the terminal record,
  and nothing follows it.
-/

namespace Hiway.Transport

open Exec Target

/-- The record that ends a history. -/
def Input.outcome (i : Input) (error : Error) : Outcome :=
  if i.cancels then .cancelled else .rejected error

namespace Protocol

/-- The same machine with an empty ring. -/
def blank (p : Protocol) : Protocol := p.account (Note.restart Records.new)

/-- The records that a host could drain. -/
def retained (p : Protocol) : List FrameRecord :=
  p.accountability.elim [] fun a => a.records.retained

/-- The records of one input: what it leaves in an empty ring. -/
def written [Target] (p : Protocol) (i : Input) : Exec (List FrameRecord) := do
  let (q, _) ← p.blank.input i
  return q.retained

/-! ## The notes of a step that leaves the machine open -/

/-- The frame whose exchange a completion on `lane` settles. -/
def completes (p : Protocol) : Lane → Option UInt64
  | .data =>
    if p.stage = .sending ∧ p.offsets.data = p.length ∧ p.credited = true then some p.sequence
    else none
  | .creditSend => if p.offsets.creditSend = creditBytes then p.previous else none
  | .creditReceive =>
    if p.offsets.creditReceive = creditBytes ∧ p.stage = .credit then some p.sequence else none

def progressNotes (p : Protocol) (lane : Lane) (buffer : List UInt8) : List Note :=
  if lane = .data ∧ p.stage = .header ∧ headerBytes ≤ p.offsets.data then
    [.observe (headerSequence (buffer.take headerBytes))]
  else (p.completes lane).toList.map Note.completed

def inputNotes (p : Protocol) : Input → List Note
  | .provided sequence _ => [.observe sequence, .admitted]
  | .admitted => [.admitted]
  | .completed op (.bytes count) buffer =>
    match p.laneOf op with
    | none => []
    | some lane => (p.advance lane count).progressNotes lane buffer
  | _ => []

theorem length_progressNotes (p : Protocol) (lane : Lane) (buffer : List UInt8) :
    (p.progressNotes lane buffer).length ≤ 1 := by
  unfold progressNotes
  split
  · exact Nat.le_refl _
  · cases p.completes lane <;> simp

theorem length_inputNotes (p : Protocol) (i : Input) : (p.inputNotes i).length ≤ 2 := by
  unfold inputNotes
  split
  · exact Nat.le_refl _
  · exact Nat.le_succ _
  · split
    · exact Nat.zero_le _
    · exact Nat.le_succ_of_le (length_progressNotes _ _ _)
  · exact Nat.zero_le _

theorem map_applyAll_nil (acc : Option Accountability) : acc.map (Note.applyAll []) = acc :=
  congrFun Option.map_id acc

theorem parseHeader_accountability [Target] {p q : Protocol} {offset : Nat}
    {buffer : List UInt8} (h : p.parseHeader offset buffer = (q, .ok ())) :
    q.accountability = p.accountability.map fun a =>
      a.observe (headerSequence (buffer.take headerBytes)) := by
  unfold parseHeader at h
  split at h
  · cases h
  · dsimp only at h
    split at h
    · cases h
    · split at h
      · cases h
      · split at h
        · cases h
        · split at h
          · cases h
          · split at h
            · cases h
            · cases h
              rfl

theorem parseCredit_accountability {p q : Protocol} {buffer : List UInt8}
    (h : p.parseCredit buffer = (q, .ok ())) :
    q.accountability = if p.stage = .credit then
      p.accountability.map fun a => a.completed p.sequence else p.accountability := by
  unfold parseCredit at h
  split at h
  · cases h
  · dsimp only at h
    split at h
    · cases h
    · split at h <;> rename_i hs
      · cases h
        rw [if_pos hs]
        rfl
      · cases h
        rw [if_neg hs]

theorem progress_accountability [Target] {p q : Protocol} {lane : Lane} {buffer : List UInt8}
    (h : p.progress lane buffer = .ok (q, .ok ())) :
    q.accountability = p.accountability.map (Note.applyAll (p.progressNotes lane buffer)) := by
  cases lane with
  | data =>
    simp only [progress] at h
    split at h
    · rename_i hs
      split at h <;> rename_i hfull
      · change p.offsets.data = p.length at hfull
        cases hc : p.credited with
        | true =>
          simp only [hc] at h
          cases h
          simp [progressNotes, completes, hs, hfull, hc, account]
          rfl
        | false =>
          simp only [hc] at h
          cases h
          simp [progressNotes, completes, hs, hfull, hc, map_applyAll_nil]
      · change ¬p.offsets.data = p.length at hfull
        cases h
        simp [progressNotes, completes, hs, hfull, map_applyAll_nil]
    · rename_i hs
      split at h <;> rename_i hfull
      · change headerBytes ≤ p.offsets.data at hfull
        rw [parseHeader_accountability (Except.ok.inj h)]
        simp only [progressNotes, hs, hfull, and_self, if_true]
        rfl
      · change ¬headerBytes ≤ p.offsets.data at hfull
        cases h
        simp [progressNotes, completes, hs, hfull, map_applyAll_nil]
    · rename_i hs
      cases h
      split <;> simp [progressNotes, completes, hs, map_applyAll_nil]
    · cases h
  | creditSend =>
    simp only [progress] at h
    split at h <;> rename_i hfull
    · change p.offsets.creditSend = creditBytes at hfull
      split at h
      · rename_i hacc
        cases h
        have hacc' : p.accountability = none := hacc
        simp [hacc']
      · obtain ⟨last, hlast, h⟩ := bind_eq_ok.mp h
        cases h
        cases hp : p.previous with
        | none =>
          rw [hp] at hlast
          cases hlast
        | some s =>
          rw [hp] at hlast
          cases hlast
          simp [progressNotes, completes, hfull, hp, account]
          rfl
    · change ¬p.offsets.creditSend = creditBytes at hfull
      cases h
      simp [progressNotes, completes, hfull, map_applyAll_nil]
  | creditReceive =>
    simp only [progress] at h
    split at h
    · cases h
    · split at h <;> rename_i hfull
      · change p.offsets.creditReceive = creditBytes at hfull
        rw [parseCredit_accountability (Except.ok.inj h)]
        by_cases hs : p.stage = .credit
        · simp [progressNotes, completes, hfull, hs]
          rfl
        · simp [progressNotes, completes, hfull, hs, map_applyAll_nil]
      · change ¬p.offsets.creditReceive = creditBytes at hfull
        cases h
        simp [progressNotes, completes, hfull, map_applyAll_nil]

theorem OpenStep.accountability [Target] {p q : Protocol} {i : Input} (h : OpenStep p q i) :
    q.accountability = p.accountability.map (Note.applyAll (p.inputNotes i)) := by
  cases h with
  | accept hfree he hr hq =>
    subst hq
    exact (map_applyAll_nil _).symm
  | stale hl hq =>
    subst hq
    rename_i op result buffer
    cases result <;> simp [inputNotes, hl, map_applyAll_nil]
  | retry hl hq =>
    subst hq
    exact (map_applyAll_nil _).symm
  | bytes hl ha hpos hle hq =>
    rw [progress_accountability hq]
    simp only [inputNotes, hl]
    rfl
  | provide hs hge hle hq =>
    subst hq
    simp only [Protocol.provide, observeSequence_eq, account, inputNotes, Option.map_map]
    rfl
  | admitted hs hc hq =>
    subst hq
    simp only [admitFrame, account, inputNotes]
    rfl

/-! ## What is written -/

theorem retained_foldl {cap : Nat} {r : Records FrameRecord cap} {records : List FrameRecord}
    (h : r.len + records.length ≤ cap) :
    (records.foldl Records.push r).retained = r.retained ++ records := by
  induction records generalizing r with
  | nil => simp
  | cons record rest ih =>
    have hlt : r.len < cap := by
      simp only [List.length_cons] at h
      omega
    have hlen := (Records.push_of_lt hlt record).1
    rw [List.foldl_cons, ih (by simp only [List.length_cons] at h; omega),
      Records.retained_push hlt, List.append_assoc]
    rfl

/-- A few notes in an empty ring are all still there. -/
theorem retained_blank {q : Protocol} {a : Accountability} {notes : List Note}
    (hn : notes.length ≤ 8)
    (h : q.accountability = some (Note.applyAll notes (Note.restart Records.new a))) :
    q.retained = Note.writtenAll notes a := by
  have hlen := Note.length_writtenAll notes a
  rw [retained, h, Option.elim_some, Note.applyAll_records, Note.writtenAll_restart,
    retained_foldl]
  · exact (congrArg (· ++ _) Records.retained_new).trans (List.nil_append _)
  · change 0 + _ ≤ 8
    omega

/-- What an input writes goes to the end of whatever the ring holds, and the machine with
an empty ring ends in the same state. -/
theorem input_written [Target] {p q : Protocol} {i : Input} {r : Except Error Unit}
    {a : Accountability} (ha : p.accountability = some a) (h : p.input i = .ok (q, r)) :
    ∃ notes q', q.accountability = some (Note.applyAll notes a) ∧
      p.written i = .ok (Note.writtenAll notes a) ∧ p.blank.input i = .ok (q', r) ∧
      q'.closed = q.closed ∧ p.written i = .ok q'.retained := by
  obtain ⟨notes, hn, hg⟩ := input_noted p i q r h
  have hid : p.account id = p := by simp [account]
  have hself : (p.account id).input i = .ok (q.noted p notes id, r) := hg id
  rw [hid, h] at hself
  have hq : q = q.noted p notes id := congrArg Prod.fst (Except.ok.inj hself)
  have hblank : p.blank.input i = .ok (q.noted p notes (Note.restart Records.new), r) :=
    hg (Note.restart Records.new)
  have hacc : (q.noted p notes (Note.restart Records.new)).accountability =
      some (Note.applyAll notes (Note.restart Records.new a)) := by
    simp [noted, ha]
  have hwritten : p.written i = .ok (q.noted p notes (Note.restart Records.new)).retained := by
    simp only [written, hblank, ok_bind, pure_eq]
  refine ⟨notes, q.noted p notes (Note.restart Records.new), ?_, ?_, hblank, rfl, hwritten⟩
  · rw [hq]
    simp [noted, ha]
  · rw [hwritten, retained_blank (by omega) hacc]

/-- An input that leaves the machine open. -/
theorem written_open [Target] {p q : Protocol} {i : Input} {r : Except Error Unit}
    {a : Accountability} (ha : p.accountability = some a) (h : p.input i = .ok (q, r))
    (hq : q.closed = none) :
    q.accountability = some (Note.applyAll (p.inputNotes i) a) ∧
      p.written i = .ok (Note.writtenAll (p.inputNotes i) a) := by
  obtain ⟨-, q', -, -, hblank, hclosed, hw⟩ := input_written ha h
  have hreal := (input_open h hq).2.2.accountability
  have hshadow := (input_open hblank (hclosed.trans hq)).2.2.accountability
  rw [ha] at hreal
  refine ⟨hreal, ?_⟩
  rw [hw, retained_blank (Nat.le_trans (length_inputNotes p i) (by decide))]
  rw [hshadow, blank, account, ha]
  rfl

/-! ## What a closing input writes -/

/-- At most the sequence of a header that was refused. -/
def Unrecorded (p q : Protocol) : Prop :=
  ∃ notes : List Note, (notes = [] ∨ ∃ s, notes = [.observe s]) ∧
    q.accountability = p.accountability.map (Note.applyAll notes)

theorem Unrecorded.of_eq {p q : Protocol} (h : q.accountability = p.accountability) :
    Unrecorded p q := ⟨[], Or.inl rfl, by rw [h, map_applyAll_nil]⟩

theorem parseHeader_unrecorded [Target] (p : Protocol) (offset : Nat) (buffer : List UInt8) :
    Unrecorded p (p.parseHeader offset buffer).1 := by
  have hobs : ∀ q : Protocol,
      q.accountability = (p.observeSequence (headerSequence
        (buffer.take headerBytes))).accountability → Unrecorded p q := by
    intro q hq
    exact ⟨[.observe (headerSequence (buffer.take headerBytes))], Or.inr ⟨_, rfl⟩, hq⟩
  unfold parseHeader
  split
  · exact .of_eq rfl
  · dsimp only
    split
    · exact hobs _ rfl
    · split
      · exact hobs _ rfl
      · split
        · exact hobs _ rfl
        · split
          · exact hobs _ rfl
          · split <;> exact hobs _ rfl

theorem parseCredit_unrecorded {p q : Protocol} {buffer : List UInt8} {error : Error}
    (h : p.parseCredit buffer = (q, .error error)) : q.accountability = p.accountability := by
  unfold parseCredit at h
  split at h
  · cases h
    rfl
  · dsimp only at h
    split at h
    · cases h
      rfl
    · split at h <;> cases h

theorem progress_unrecorded [Target] {p q : Protocol} {lane : Lane} {buffer : List UInt8}
    {error : Error} (h : p.progress lane buffer = .ok (q, .error error)) : Unrecorded p q := by
  cases lane with
  | data =>
    simp only [progress] at h
    split at h
    · split at h <;> cases h
    · split at h
      · have hq : (p.parseHeader (p.offsets.get .data) buffer).1 = q :=
          congrArg Prod.fst (Except.ok.inj h)
        rw [← hq]
        exact parseHeader_unrecorded p _ buffer
      · cases h
    · cases h
    · cases h
      exact .of_eq rfl
  | creditSend =>
    simp only [progress] at h
    split at h
    · split at h
      · cases h
      · obtain ⟨_, -, h⟩ := bind_eq_ok.mp h
        cases h
    · cases h
  | creditReceive =>
    simp only [progress] at h
    split at h
    · cases h
      exact .of_eq rfl
    · split at h
      · exact .of_eq (parseCredit_unrecorded (Except.ok.inj h))
      · cases h

theorem complete_unrecorded [Target] {p q : Protocol} {lane : Lane} {e : Effect}
    {result : IoResult} {buffer : List UInt8} {r : Except Error Unit} (hc : p.closed = none)
    (h : p.complete lane e result buffer = .ok (q, r)) (hq : (q.conclude r).closed ≠ none) :
    Unrecorded p q := by
  have hmoved : ∀ offset, (p.move lane offset).progress lane buffer = .ok (q, r) →
      Unrecorded p q := by
    intro offset h
    cases r with
    | error error =>
      have hmove : Unrecorded (p.move lane offset) q := progress_unrecorded h
      exact hmove
    | ok _ => exact absurd ((progress_keeps h).closed.trans hc) hq
  cases result with
  | retry | failed code =>
    simp only [complete, hc, Option.isSome_none, Bool.false_eq_true, if_false] at h
    cases h
    exact .of_eq rfl
  | bytes count =>
    cases count with
    | zero =>
      simp only [complete, hc, Option.isSome_none, Bool.false_eq_true, if_false] at h
      cases h
      exact .of_eq rfl
    | succ n =>
      cases e with
      | receive l o length | transmit l o length =>
        simp only [complete, hc, Option.isSome_none, Bool.false_eq_true, if_false] at h
        split at h
        · cases h
          exact .of_eq rfl
        · obtain ⟨offset, -, h⟩ := bind_eq_ok.mp h
          exact hmoved offset h
      | provide | admission | cancel =>
        simp only [complete, hc, Option.isSome_none, Bool.false_eq_true, if_false] at h
        cases h

theorem transition_unrecorded [Target] {p q : Protocol} {i : Input} {r : Except Error Unit}
    (hc : p.closed = none) (h : p.transition i = .ok (q, r))
    (hq : (q.conclude r).closed ≠ none) : Unrecorded p q := by
  cases i with
  | revoked | closed error =>
    cases h
    exact .of_eq rfl
  | accepted lane op =>
    obtain ⟨e, -, h⟩ := bind_eq_ok.mp h
    cases e with
    | none =>
      cases h
      exact .of_eq rfl
    | some e =>
      dsimp only at h
      split at h
      · cases h
        exact .of_eq rfl
      · split at h <;> cases h <;> exact .of_eq rfl
  | completed op result buffer =>
    simp only [transition] at h
    split at h
    · cases h
      exact .of_eq rfl
    · rename_i lane hl
      obtain ⟨⟨id, e⟩, -, h⟩ := bind_eq_ok.mp h
      exact complete_unrecorded (p := p.release lane) hc h hq
  | provided sequence length =>
    simp only [transition, hc] at h
    split at h <;> cases h
    · exact .of_eq rfl
    · exact absurd hc hq
  | admitted =>
    simp only [transition, hc] at h
    split at h <;> cases h
    · exact .of_eq rfl
    · exact absurd hc hq

theorem input_closing [Target] {p q : Protocol} {i : Input} {r : Except Error Unit}
    {error : Error} (hc : p.closed = none) (h : p.input i = .ok (q, r))
    (hq : q.closed = some error) :
    ∃ notes : List Note, (notes = [] ∨ ∃ s, notes = [.observe s]) ∧
      q.accountability = p.accountability.map
        (Note.applyAll (notes ++ [if i.cancels then .cancel else .finish error])) := by
  obtain ⟨⟨q', r'⟩, ht, h⟩ := bind_eq_ok.mp h
  cases h
  rw [settle_closed] at hq
  obtain ⟨notes, hn, hacc⟩ := transition_unrecorded hc ht (by rw [hq]; simp)
  refine ⟨notes, hn, ?_⟩
  have hcon : (q'.conclude r).accountability = q'.accountability := by cases r <;> rfl
  rw [settle_eq_noted, hq]
  simp only [account, hcon, hacc, Option.map_map, settling]
  congr 1
  funext a
  rw [Function.comp_apply, ← Note.applyAll_append]
  cases i.cancels <;> rfl

/-- The input that closes the machine writes the terminal record and nothing else. -/
theorem written_closing [Target] {p q : Protocol} {i : Input} {r : Except Error Unit}
    {a : Accountability} {error : Error} (ha : p.accountability = some a)
    (ht : a.terminal = false) (hc : p.closed = none) (h : p.input i = .ok (q, r))
    (hq : q.closed = some error) :
    ∃ sequence b, q.accountability = some b ∧ b.terminal = true ∧
      p.written i = .ok [⟨sequence, i.outcome error⟩] := by
  obtain ⟨-, q', -, -, hblank, hclosed, hw⟩ := input_written ha h
  obtain ⟨notes, -, hacc⟩ := input_closing hc h hq
  obtain ⟨notes', hn', hacc'⟩ := input_closing (p := p.blank) hc hblank (hclosed.trans hq)
  have hb : p.blank.accountability = some (Note.restart Records.new a) := by
    simp [blank, account, ha]
  rw [ha] at hacc
  rw [hb] at hacc'
  have hlen : (notes' ++ [if i.cancels then Note.cancel else .finish error]).length ≤ 8 := by
    rcases hn' with rfl | ⟨s, rfl⟩ <;> simp
  have hrecord : ∃ sequence, Note.writtenAll
      (notes' ++ [if i.cancels then Note.cancel else .finish error]) a =
        [⟨sequence, i.outcome error⟩] := by
    rcases hn' with rfl | ⟨s, rfl⟩ <;> cases hi : i.cancels <;>
      exact ⟨_, by simp [Note.writtenAll, Note.written, Note.apply, Accountability.observe, ht,
        Input.outcome, hi]; rfl⟩
  obtain ⟨sequence, hrecord⟩ := hrecord
  refine ⟨sequence, _, hacc, ?_, ?_⟩
  · rw [Note.applyAll_append]
    cases i.cancels <;> rfl
  · rw [hw, retained_blank hlen hacc', hrecord]

/-- Nothing follows the terminal record. -/
theorem written_terminal [Target] {p q : Protocol} {i : Input} {r : Except Error Unit}
    {a : Accountability} (ha : p.accountability = some a) (ht : a.terminal = true)
    (h : p.input i = .ok (q, r)) :
    p.written i = .ok [] ∧ ∃ b, q.accountability = some b ∧ b.terminal = true := by
  have hkeep : ∀ (notes : List Note) (a : Accountability), a.terminal = true →
      Note.writtenAll notes a = [] ∧ (Note.applyAll notes a).terminal = true := by
    intro notes
    induction notes with
    | nil => exact fun a ht => ⟨rfl, ht⟩
    | cons n rest ih =>
      intro a ht
      have hn : (n.apply a).terminal = true := by
        cases n <;> simp [Note.apply, Accountability.observe, Accountability.admitted,
          Accountability.completed, Accountability.finish, Accountability.cancel,
          Accountability.record, ht]
      have hw : n.written a.sequence a.terminal = [] := by
        cases n <;> simp [Note.written, ht]
      obtain ⟨h1, h2⟩ := ih (n.apply a) hn
      exact ⟨by rw [Note.writtenAll, hw, h1]; rfl, h2⟩
  obtain ⟨notes, -, hq, hw, -⟩ := input_written ha h
  obtain ⟨h1, h2⟩ := hkeep notes a ht
  exact ⟨by rw [hw, h1], _, hq, h2⟩

end Protocol

end Hiway.Transport
