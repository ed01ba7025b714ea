import Hiway.Transport.ProtocolSteps

/-!
# Records are written and never read

The machine branches on whether a connection is tracked and on nothing in its records.
So what an input writes is the same list of notes for every state of the ring, and the
rest of the machine does not notice how a host drains it.

* `applyAll_records`: notes are pushed, and do nothing else.
* `writtenAll_restart`: what is written does not depend on the ring.
* `input_noted`: what one input writes does not depend on what has been written or drained
  before.
-/

namespace Hiway.Transport

open Exec Target

/-- One call of the machine into its accountability. -/
inductive Note where
  | observe (sequence : UInt64)
  | admitted
  | completed (sequence : UInt64)
  | finish (error : Error)
  | cancel
  deriving DecidableEq, Repr

namespace Note

def apply : Note → Accountability → Accountability
  | .observe sequence, a => a.observe sequence
  | .admitted, a => a.admitted
  | .completed sequence, a => a.completed sequence
  | .finish error, a => a.finish error
  | .cancel, a => a.cancel

def applyAll (notes : List Note) (a : Accountability) : Accountability :=
  notes.foldl (fun a n => n.apply a) a

@[simp] theorem applyAll_nil (a : Accountability) : applyAll [] a = a := rfl

@[simp] theorem applyAll_cons (n : Note) (notes : List Note) (a : Accountability) :
    applyAll (n :: notes) a = applyAll notes (n.apply a) := rfl

theorem applyAll_append (front back : List Note) (a : Accountability) :
    applyAll (front ++ back) a = applyAll back (applyAll front a) := List.foldl_append

/-! ## What notes write -/

/-- The record of one note, given the sequence and whether the history is over. -/
def written (sequence : Option UInt64) (terminal : Bool) : Note → List FrameRecord
  | .observe _ => []
  | .admitted => if terminal then [] else [⟨sequence, .admitted⟩]
  | .completed s => if terminal then [] else [⟨some s, .completed⟩]
  | .finish error => if terminal then [] else [⟨sequence, .rejected error⟩]
  | .cancel => if terminal then [] else [⟨sequence, .cancelled⟩]

/-- The records of a list of notes. -/
def writtenAll : List Note → Accountability → List FrameRecord
  | [], _ => []
  | n :: rest, a => n.written a.sequence a.terminal ++ writtenAll rest (n.apply a)

theorem length_written (sequence : Option UInt64) (terminal : Bool) (n : Note) :
    (n.written sequence terminal).length ≤ 1 := by
  cases n <;> cases terminal <;> simp [written]

theorem length_writtenAll (notes : List Note) (a : Accountability) :
    (writtenAll notes a).length ≤ notes.length := by
  induction notes generalizing a with
  | nil => exact Nat.le_refl 0
  | cons n rest ih =>
    have h1 := length_written a.sequence a.terminal n
    have h2 := ih (n.apply a)
    simp only [writtenAll, List.length_append, List.length_cons]
    omega

/-- A note pushes its record and nothing else. -/
theorem apply_records (n : Note) (a : Accountability) :
    (n.apply a).records = (n.written a.sequence a.terminal).foldl Records.push a.records := by
  cases n <;> cases ht : a.terminal <;>
    simp [apply, written, Accountability.observe, Accountability.admitted,
      Accountability.completed, Accountability.finish, Accountability.cancel,
      Accountability.record, ht]

theorem applyAll_records (notes : List Note) (a : Accountability) :
    (applyAll notes a).records = (writtenAll notes a).foldl Records.push a.records := by
  induction notes generalizing a with
  | nil => rfl
  | cons n rest ih =>
    simp only [applyAll_cons, writtenAll, List.foldl_append]
    rw [ih, apply_records]

/-- The same connection with another ring. -/
def restart (r : Records FrameRecord 8) (a : Accountability) : Accountability :=
  { a with records := r }

theorem restart_apply (n : Note) (r : Records FrameRecord 8) (a : Accountability) :
    ∃ r', n.apply (restart r a) = restart r' (n.apply a) := by
  cases n <;> cases ht : a.terminal <;>
    exact ⟨_, by simp [apply, restart, Accountability.observe, Accountability.admitted,
      Accountability.completed, Accountability.finish, Accountability.cancel,
      Accountability.record, ht]; rfl⟩

/-- What is written does not depend on the ring. -/
theorem writtenAll_restart (notes : List Note) (r : Records FrameRecord 8) (a : Accountability) :
    writtenAll notes (restart r a) = writtenAll notes a := by
  induction notes generalizing a r with
  | nil => rfl
  | cons n rest ih =>
    obtain ⟨r', hr'⟩ := restart_apply n r a
    simp only [writtenAll, hr', ih]
    rfl

end Note

/-- A closing input that ends a history by cancellation. -/
def Input.cancels : Input → Bool
  | .revoked | .closed .closed | .closed .revoked => true
  | _ => false

namespace Protocol

/-- `q` with the records that `notes` leave in a connection that started as `g` of the
one of `p`. -/
def noted (q p : Protocol) (notes : List Note) (g : Accountability → Accountability) : Protocol :=
  { q with accountability := p.accountability.map fun a => Note.applyAll notes (g a) }

theorem parseHeader_noted [Target] {p q : Protocol} {offset : Nat} {buffer : List UInt8}
    {r : Except Error Unit} (h : p.parseHeader offset buffer = (q, r)) :
    ∃ notes : List Note, notes.length ≤ 1 ∧ ∀ g,
      (p.account g).parseHeader offset buffer = (q.noted p notes g, r) := by
  unfold parseHeader at h
  split at h
  · rename_i hlen
    cases h
    exact ⟨[], Nat.zero_le _, fun g => by simp only [parseHeader, if_pos hlen]; rfl⟩
  · rename_i hlen
    refine ⟨[.observe (headerSequence (buffer.take headerBytes))], Nat.le_refl _, fun g => ?_⟩
    have hnoted : ∀ q : Protocol, q.noted p [.observe (headerSequence (buffer.take headerBytes))] g =
        { q with accountability :=
          ((p.account g).observeSequence (headerSequence (buffer.take headerBytes))).accountability } := by
      intro q
      simp [noted, account, Function.comp_def, Note.apply]
    rw [hnoted]
    unfold parseHeader
    rw [if_neg hlen]
    dsimp only at h ⊢
    split at h
    · rename_i hm
      cases h
      exact if_pos hm
    · rename_i hm
      refine (if_neg hm).trans ?_
      split at h
      · rename_i hadd
        cases h
        rfl
      · rename_i length hadd
        split at h
        · rename_i hc
          cases h
          exact if_pos hc
        · rename_i hc
          refine (if_neg hc).trans ?_
          split at h
          · rename_i ho
            cases h
            exact if_pos ho
          · rename_i ho
            refine (if_neg ho).trans ?_
            split at h
            · rename_i hf
              cases h
              exact if_pos hf
            · rename_i hf
              cases h
              refine (if_neg hf).trans ?_
              rfl
theorem noted_nil (p : Protocol) (g : Accountability → Accountability) :
    p.noted p [] g = p.account g := rfl

theorem parseCredit_noted {p q : Protocol} {buffer : List UInt8} {r : Except Error Unit}
    (h : p.parseCredit buffer = (q, r)) :
    ∃ notes : List Note, notes.length ≤ 1 ∧ ∀ g,
      (p.account g).parseCredit buffer = (q.noted p notes g, r) := by
  unfold parseCredit at h
  split at h
  · rename_i hlen
    cases h
    exact ⟨[], Nat.zero_le _, fun g => by simp only [parseCredit, if_pos hlen]; rfl⟩
  · rename_i hlen
    dsimp only at h
    split at h
    · rename_i hbad
      cases h
      refine ⟨[], Nat.zero_le _, fun g => ?_⟩
      rw [parseCredit, if_neg hlen]
      exact if_pos hbad
    · rename_i hok
      split at h
      · rename_i hs
        cases h
        refine ⟨[.completed p.sequence], Nat.le_refl _, fun g => ?_⟩
        rw [parseCredit, if_neg hlen]
        refine (if_neg hok).trans ((if_pos hs).trans ?_)
        simp [noted, account, Function.comp_def, Note.apply]
      · rename_i hs
        cases h
        refine ⟨[], Nat.zero_le _, fun g => ?_⟩
        rw [parseCredit, if_neg hlen]
        exact (if_neg hok).trans (if_neg hs)

/-- `F` writes at most `bound` notes, the same whatever the records are. -/
def Noted (F : Protocol → Exec (Protocol × Except Error Unit)) (bound : Nat) (p : Protocol) :
    Prop :=
  ∀ q r, F p = .ok (q, r) → ∃ notes : List Note, notes.length ≤ bound ∧
    ∀ g, F (p.account g) = .ok (q.noted p notes g, r)

theorem progress_noted [Target] (p : Protocol) (lane : Lane) (buffer : List UInt8) :
    Noted (fun p => p.progress lane buffer) 1 p := by
  intro q r h
  have hsame : ∀ {q : Protocol} {r : Except Error Unit}, (∀ g, (p.account g).progress lane buffer =
      .ok (q.noted p [] g, r)) → ∃ notes : List Note, notes.length ≤ 1 ∧
        ∀ g, (p.account g).progress lane buffer = .ok (q.noted p notes g, r) :=
    fun hg => ⟨[], Nat.zero_le _, hg⟩
  cases lane with
  | data =>
    simp only [progress] at h
    split at h
    · rename_i hs
      split at h <;> rename_i hfull
      · change p.offsets.data = p.length at hfull
        cases hc : p.credited with
        | true =>
          simp only [hc, if_true] at h
          cases h
          refine ⟨[.completed p.sequence], Nat.le_refl _, fun g => ?_⟩
          simp [progress, hs, hfull, hc, noted, account, Function.comp_def, Note.apply]
        | false =>
          simp only [hc, Bool.false_eq_true, if_false] at h
          cases h
          exact hsame fun g => by simp [progress, hs, hfull, hc, noted, account]
      · change ¬p.offsets.data = p.length at hfull
        cases h
        exact hsame fun g => by simp [progress, hs, hfull, noted, account]
    · rename_i hs
      split at h <;> rename_i hfull
      · change headerBytes ≤ p.offsets.data at hfull
        obtain ⟨notes, hn, hg⟩ := parseHeader_noted (Except.ok.inj h)
        refine ⟨notes, hn, fun g => ?_⟩
        have hg := hg g
        change (p.account g).parseHeader p.offsets.data buffer = _ at hg
        simp [progress, hs, hfull, hg]
      · change ¬headerBytes ≤ p.offsets.data at hfull
        cases h
        exact hsame fun g => by simp [progress, hs, hfull, noted, account]
    · rename_i hs
      cases h
      refine hsame fun g => ?_
      by_cases hfull : p.offsets.data = p.length <;>
        simp [progress, hs, hfull, noted, account]
    · rename_i hsend hhead hpay
      cases h
      refine hsame fun g => ?_
      cases hst : p.stage with
      | sending => exact (hsend hst).elim
      | header => exact (hhead hst).elim
      | payload => exact (hpay hst).elim
      | source | credit | admission => simp [progress, hst, noted, account]
  | creditSend =>
    simp only [progress] at h
    split at h <;> rename_i hfull
    · change p.offsets.creditSend = creditBytes at hfull
      split at h
      · rename_i hacc
        cases h
        exact hsame fun g => by simp [progress, hfull, hacc, noted, account]
      · rename_i a hacc
        obtain ⟨last, hlast, h⟩ := bind_eq_ok.mp h
        cases h
        refine ⟨[.completed last], Nat.le_refl _, fun g => ?_⟩
        simp [progress, hfull, hacc, hlast, noted, account, Note.apply]
    · change ¬p.offsets.creditSend = creditBytes at hfull
      cases h
      exact hsame fun g => by simp [progress, hfull, noted, account]
  | creditReceive =>
    simp only [progress] at h
    split at h <;> rename_i hd
    · cases h
      exact hsame fun g => by simp [progress, hd, noted, account]
    · split at h <;> rename_i hfull
      · change p.offsets.creditReceive = creditBytes at hfull
        obtain ⟨notes, hn, hg⟩ := parseCredit_noted (Except.ok.inj h)
        refine ⟨notes, hn, fun g => ?_⟩
        simp [progress, hd, hfull, hg]
      · change ¬p.offsets.creditReceive = creditBytes at hfull
        cases h
        exact hsame fun g => by simp [progress, hd, hfull, noted, account]

/-- Bytes of a request have moved. -/
theorem moved_noted [Target] (p : Protocol) (lane : Lane) (count requested : Nat)
    (buffer : List UInt8) :
    Noted (fun p => if count > requested then .ok (p, .error .protocol) else do
      let offset ← add (p.offsets.get lane) count
      (p.move lane offset).progress lane buffer) 1 p := by
  intro q r h
  dsimp only at h ⊢
  split at h <;> rename_i hle
  · cases h
    exact ⟨[], Nat.zero_le _, fun g => if_pos hle⟩
  · obtain ⟨offset, hadd, h⟩ := bind_eq_ok.mp h
    obtain ⟨notes, hn, hg⟩ := progress_noted (p.move lane offset) lane buffer q r h
    refine ⟨notes, hn, fun g => ?_⟩
    rw [if_neg hle, account_offsets, hadd, ok_bind]
    exact hg g

theorem complete_noted [Target] (p : Protocol) (lane : Lane) (e : Effect) (result : IoResult)
    (buffer : List UInt8) : Noted (fun p => p.complete lane e result buffer) 1 p := by
  intro q r h
  dsimp only at h ⊢
  by_cases hc : p.closed.isSome = true
  · simp only [complete, hc, if_true] at h
    cases h
    exact ⟨[], Nat.zero_le _, fun g => by simp [complete, hc, noted_nil]⟩
  · simp only [complete, hc, Bool.false_eq_true, if_false] at h
    have hsame : ∀ {r : Except Error Unit}, (∀ g, (p.account g).complete lane e result buffer =
        .ok (p.account g, r)) → ∃ notes : List Note, notes.length ≤ 1 ∧
          ∀ g, (p.account g).complete lane e result buffer = .ok (p.noted p notes g, r) :=
      fun hg => ⟨[], Nat.zero_le _, hg⟩
    cases result with
    | retry =>
      cases h
      exact hsame fun g => by simp [complete, hc]
    | failed code =>
      cases h
      exact hsame fun g => by simp [complete, hc]
    | bytes count =>
      cases count with
      | zero =>
        cases h
        exact hsame fun g => by simp [complete, hc]
      | succ n =>
        cases e with
        | receive l o length | transmit l o length =>
          obtain ⟨notes, hn, hg⟩ := moved_noted p lane (n + 1) length buffer q r h
          refine ⟨notes, hn, fun g => ?_⟩
          rw [← hg g]
          simp [complete, hc]
        | provide | admission | cancel => cases h

theorem transition_noted [Target] (p : Protocol) (i : Input) :
    Noted (fun p => p.transition i) 2 p := by
  intro q r h
  dsimp only at h ⊢
  cases i with
  | revoked | closed error =>
    cases h
    exact ⟨[], Nat.zero_le _, fun g => rfl⟩
  | accepted lane op =>
    obtain ⟨e, he, h⟩ := bind_eq_ok.mp h
    refine ⟨[], Nat.zero_le _, fun g => ?_⟩
    have heff : (p.account g).effect lane = .ok e := he
    have hlane : (p.account g).laneOf op = p.laneOf op := rfl
    simp only [transition, heff, ok_bind, hlane]
    cases e with
    | none =>
      cases h
      rfl
    | some e =>
      dsimp only at h ⊢
      split at h <;> rename_i hr
      · cases h
        exact if_pos hr
      · split at h <;> rename_i hd
        · cases h
          exact (if_neg hr).trans (if_pos hd)
        · cases h
          exact (if_neg hr).trans (if_neg hd)
  | completed op result buffer =>
    simp only [transition] at h
    split at h <;> rename_i hl
    · cases h
      refine ⟨[], Nat.zero_le _, fun g => ?_⟩
      have hlane : (p.account g).laneOf op = none := hl
      simp only [transition, hlane]
      rfl
    · rename_i lane
      obtain ⟨⟨id, e⟩, hu, h⟩ := bind_eq_ok.mp h
      obtain ⟨notes, hn, hg⟩ := complete_noted (p.release lane) lane e result buffer q r h
      refine ⟨notes, Nat.le_succ_of_le hn, fun g => ?_⟩
      have hlane : (p.account g).laneOf op = some lane := hl
      simp only [transition, hlane, account_active, hu, ok_bind]
      exact hg g
  | provided sequence length =>
    simp only [transition] at h
    split at h <;> rename_i hc
    · cases h
      exact ⟨[], Nat.zero_le _, fun g => by simp [transition, hc, noted_nil]⟩
    · split at h <;> rename_i hbad
      · cases h
        exact ⟨[], Nat.zero_le _, fun g => by simp [transition, hc, hbad, noted_nil]⟩
      · cases h
        refine ⟨[.observe sequence, .admitted], Nat.le_refl _, fun g => ?_⟩
        simp only [transition, account_closed, hc]
        refine (if_neg hbad).trans ?_
        simp [provide, account, noted, Function.comp_def, Note.apply]
  | admitted =>
    simp only [transition] at h
    split at h <;> rename_i hc
    · cases h
      exact ⟨[], Nat.zero_le _, fun g => by simp [transition, hc, noted_nil]⟩
    · split at h <;> rename_i hbad
      · cases h
        exact ⟨[], Nat.zero_le _, fun g => by simp [transition, hc, hbad, noted_nil]⟩
      · cases h
        refine ⟨[.admitted], Nat.le_succ _, fun g => ?_⟩
        simp only [transition, account_closed, hc]
        refine (if_neg hbad).trans ?_
        simp [admitFrame, account, noted, Function.comp_def, Note.apply]

/-- The note that `settle` takes. -/
def settling (closed : Option Error) (i : Input) : List Note :=
  match closed with
  | none => []
  | some error => if i.cancels then [.cancel] else [.finish error]

theorem length_settling (closed : Option Error) (i : Input) :
    (settling closed i).length ≤ 1 := by
  unfold settling
  split
  · exact Nat.zero_le _
  · split <;> exact Nat.le_refl _

theorem settle_of_closed {p : Protocol} {error : Error} (hc : p.closed = some error) (i : Input) :
    p.settle i = p.account fun a => if i.cancels then a.cancel else a.finish error := by
  unfold settle
  rw [hc]
  cases i with
  | closed reason => cases reason <;> rfl
  | revoked | accepted | completed | provided | admitted => rfl

theorem settle_eq_noted (p : Protocol) (i : Input) :
    p.settle i = p.account (Note.applyAll (settling p.closed i)) := by
  cases hc : p.closed with
  | none =>
    have hid : p.accountability.map (Note.applyAll []) = p.accountability :=
      congrFun Option.map_id p.accountability
    simp [settle_of_open hc, settling, account, hid]
  | some error =>
    rw [settle_of_closed hc]
    simp only [settling]
    split <;> rfl

theorem noted_account (q p : Protocol) (notes rest : List Note)
    (g : Accountability → Accountability) :
    (q.noted p notes g).account (Note.applyAll rest) = q.noted p (notes ++ rest) g := by
  simp [noted, account, Function.comp_def, Note.applyAll_append]

/-- What one input writes does not depend on what has been written or drained before. -/
theorem input_noted [Target] (p : Protocol) (i : Input) : Noted (fun p => p.input i) 3 p := by
  intro q r h
  obtain ⟨⟨q', r'⟩, ht, h⟩ := bind_eq_ok.mp h
  cases h
  obtain ⟨notes, hn, hg⟩ := transition_noted p i q' r ht
  refine ⟨notes ++ settling (q'.conclude r).closed i, ?_, fun g => ?_⟩
  · have := length_settling (q'.conclude r).closed i
    rw [List.length_append]
    omega
  · have hcon : (q'.noted p notes g).conclude r = (q'.conclude r).noted p notes g := by
      cases r <;> rfl
    have hclosed : ((q'.conclude r).noted p notes g).closed = (q'.conclude r).closed := rfl
    have hset : ((q'.conclude r).settle i).noted p (notes ++ settling (q'.conclude r).closed i) g =
        (q'.conclude r).noted p (notes ++ settling (q'.conclude r).closed i) g := by
      rw [settle_eq_noted]
      rfl
    dsimp only at hg ⊢
    rw [input, hg g, ok_bind, hset]
    simp only [pure_eq, hcon]
    rw [settle_eq_noted, hclosed, noted_account]

end Protocol

end Hiway.Transport
