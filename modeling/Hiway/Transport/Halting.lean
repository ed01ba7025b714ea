import Hiway.Transport.Closure
import Hiway.Transport.Format

/-!
# A side that stops

The host of a side may close its machine, and an operation may end without bytes. A closed
machine answers to nothing, but what it handed to the kernel may still move bytes until it
is handed back.

* `fail_spec`, `stop_spec`: an operation ends without bytes, or the host closes the machine.
* `Halted.effect`: a closed machine asks for nothing.
* `Halted.accept`, `Halted.complete`: what it handed out is still reported, and nothing else
  happens.
-/

namespace Hiway.Transport

open Exec Target

namespace Side

/-! ## Endings -/

/-- Reports an operation that moved nothing: end of file, or an error of the kernel. -/
def fail [Target] (s : Side) (op : OpId) (code : Option Int) : Exec Side :=
  match s.protocol.laneOf op with
  | none => .ok s
  | some lane =>
    if s.moved.get lane = 0 then do
      let result := code.elim (.bytes 0) .failed
      let (protocol, _) ← s.protocol.input (.completed op result (s.buffers.get lane))
      return { s with protocol := protocol }
    else .ok s

/-- The host revokes the connection, or closes it with an error. -/
def stop [Target] (s : Side) (error : Option Error) : Exec Side := do
  let (protocol, _) ← s.protocol.input (error.elim .revoked .closed)
  return { s with protocol := protocol }

/-- What the accepted transmission of a lane has still to move. -/
def owed (s : Side) (lane : Lane) : List UInt8 :=
  match s.protocol.active.get lane with
  | some (_, .transmit _ offset length) =>
    Bytes.slice (s.buffers.get lane) (offset + s.moved.get lane) (offset + length)
  | _ => []

/-- The machine is closed, but not for what its peer sent. -/
structure Halted [Target] (s : Side) : Prop where
  safe : s.protocol.Safe
  closed : ∃ error, s.protocol.closed = some error ∧ error ≠ .protocol

/-- The new side owes no other bytes. -/
def OwesLess (s s' : Side) : Prop := ∀ lane, s'.owed lane = s.owed lane ∨ s'.owed lane = []

variable {s s' : Side} {lane : Lane} {op : OpId}

theorem OwesLess.refl (s : Side) : s.OwesLess s := fun _ => Or.inl rfl

theorem OwesLess.prefix_of (h : s.OwesLess s') {written bytes : List UInt8}
    (hb : written ++ s.owed lane <+: bytes) : written ++ s'.owed lane <+: bytes := by
  rcases h lane with heq | heq
  · rwa [heq]
  · rw [heq, List.append_nil]
    exact (List.prefix_append _ _).trans hb

/-! ## Bytes in motion -/

theorem owed_of_free (h : s.protocol.active.get lane = none) : s.owed lane = [] := by
  unfold owed
  rw [h]

/-- What is taken of a transmission is no longer owed. -/
theorem transmit_owed (s : Side) (lane : Lane) (count : Nat) :
    (s.transmit lane count).1 ++ (s.transmit lane count).2.owed lane = s.owed lane := by
  unfold transmit owed
  cases ha : s.protocol.active.get lane with
  | none => simp [ha]
  | some a =>
    obtain ⟨id, e⟩ := a
    cases e with
    | transmit l offset length =>
      dsimp only
      rw [ha]
      simp only [PerLane.get_set_self]
      rw [← Nat.add_assoc]
      by_cases hle : s.moved.get lane ≤ length
      · rw [Bytes.slice_append_slice (Nat.le_add_right _ _) (by omega)]
      · have hz : min count (length - s.moved.get lane) = 0 := by omega
        rw [hz, Nat.add_zero, Bytes.slice_same, List.nil_append]
    | _ => simp [ha]

theorem transmit_protocol (s : Side) (lane : Lane) (count : Nat) :
    (s.transmit lane count).2.protocol = s.protocol := by
  unfold transmit
  split <;> rfl

theorem receive_protocol (s : Side) (lane : Lane) (count : Nat) (channel : List UInt8) :
    (s.receive lane count channel).2.protocol = s.protocol := by
  unfold receive
  split <;> rfl

/-- A reception does not touch another lane. -/
theorem receive_owed (s : Side) {lane other : Lane} (h : other ≠ lane) (count : Nat)
    (channel : List UInt8) : (s.receive lane count channel).2.owed other = s.owed other := by
  unfold receive
  split
  · unfold owed
    simp only [PerLane.get_set_of_ne _ _ h]
  · rfl

/-! ## Reports -/

/-- An operation that is handed back owes nothing. -/
theorem owesLess_report [Target] {q : Protocol} {r : Except Error Unit} {result : IoResult}
    {buffer : List UInt8} {moved : PerLane Nat} (hl : s.protocol.laneOf op = some lane)
    (hq : s.protocol.input (.completed op result buffer) = .ok (q, r))
    (hmoved : ∀ other, other ≠ lane → moved.get other = s.moved.get other) :
    s.OwesLess { s with protocol := q, moved := moved } := by
  intro other
  have hactive := Protocol.input_completed_active hl hq
  by_cases ho : other = lane
  · subst ho
    refine Or.inr (owed_of_free ?_)
    show q.active.get other = none
    rw [hactive, PerLane.get_set_self]
  · left
    unfold owed
    simp only [hactive, PerLane.get_set_of_ne _ _ ho, hmoved other ho]

/-- An end of file or an error of the kernel closes an open machine. -/
theorem input_failed [Target] {p : Protocol} (hl : p.laneOf op = some lane) (code : Option Int)
    (buffer : List UInt8) :
    ∃ q r error, p.input (.completed op (code.elim (.bytes 0) .failed) buffer) = .ok (q, r) ∧
      error ≠ .protocol ∧ q.closed = p.closed.or (some error) := by
  obtain ⟨e, ha⟩ := Protocol.laneOf_some hl
  have hrelease : (p.release lane).closed = p.closed := rfl
  obtain ⟨r, error, hcomplete, hne, hconclude⟩ : ∃ r error,
      (p.release lane).complete lane e (code.elim (.bytes 0) .failed) buffer =
        .ok (p.release lane, r) ∧ error ≠ .protocol ∧
        ((p.release lane).conclude r).closed = p.closed.or (some error) := by
    unfold Protocol.complete
    rw [hrelease]
    cases hc : p.closed with
    | some error => exact ⟨.ok (), .closed, rfl, by simp, hc⟩
    | none =>
      cases code with
      | none => exact ⟨.error .closed, .closed, rfl, by simp, by simp [Protocol.conclude,
          Protocol.shut, hrelease, hc]⟩
      | some code => exact ⟨.error (.io code), .io code, rfl, by simp, by simp [Protocol.conclude,
          Protocol.shut, hrelease, hc]⟩
  refine ⟨((p.release lane).conclude r).settle
    (.completed op (code.elim (.bytes 0) .failed) buffer), r, error, ?_, hne, ?_⟩
  · unfold Protocol.input Protocol.transition
    simp only [hl, ha, unwrap_some, ok_bind, hcomplete]
    rfl
  · rw [Protocol.settle_closed]
    exact hconclude

section

variable [Target]

/-- A machine that is closed, or closes now, for another reason. -/
theorem halted_of_or {q : Protocol} {error : Error} (hsafe : q.Safe) (hne : error ≠ .protocol)
    (hp : s.protocol.closed ≠ some .protocol)
    (hq : q.closed = s.protocol.closed.or (some error)) (moved : PerLane Nat) :
    Halted { s with protocol := q, moved := moved } := by
  refine ⟨hsafe, ?_⟩
  cases hc : s.protocol.closed with
  | none => exact ⟨error, by rw [hq, hc, Option.none_or], hne⟩
  | some other =>
    refine ⟨other, by rw [hq, hc, Option.some_or], ?_⟩
    rintro rfl
    exact hp hc

theorem fail_spec (hsafe : s.protocol.Safe) (hp : s.protocol.closed ≠ some .protocol) (op : OpId)
    (code : Option Int) :
    ∃ s', s.fail op code = .ok s' ∧ s'.buffers = s.buffers ∧ s.OwesLess s' ∧
      (s' = s ∨ s'.Halted) := by
  unfold fail
  cases hl : s.protocol.laneOf op with
  | none => exact ⟨s, rfl, rfl, OwesLess.refl s, Or.inl rfl⟩
  | some lane =>
    dsimp only
    split
    · obtain ⟨q, r, error, hq, hne, hclosed⟩ :=
        input_failed hl code (s.buffers.get lane)
      obtain ⟨q', r', hq', hsafe', -⟩ := Protocol.input_safe hsafe
        (.completed op (code.elim (.bytes 0) .failed) (s.buffers.get lane))
      rw [hq] at hq'
      cases hq'
      rw [hq, ok_bind]
      exact ⟨_, rfl, rfl, owesLess_report hl hq fun _ _ => rfl,
        Or.inr (halted_of_or hsafe' hne hp hclosed s.moved)⟩
    · exact ⟨s, rfl, rfl, OwesLess.refl s, Or.inl rfl⟩

theorem stop_spec (hsafe : s.protocol.Safe) (hp : s.protocol.closed ≠ some .protocol)
    {error : Option Error} (hne : error ≠ some .protocol) :
    ∃ s', s.stop error = .ok s' ∧ s'.buffers = s.buffers ∧ s.OwesLess s' ∧ s'.Halted := by
  obtain ⟨q, r, hq, hsafe', -⟩ :=
    Protocol.input_safe hsafe (error.elim .revoked .closed)
  have hclosed : q.closed = s.protocol.closed.or (some (error.getD .revoked)) ∧
      q.active = s.protocol.active := by
    cases error with
    | none | some error =>
      cases hq
      constructor
      · rw [Protocol.settle_closed]
        rfl
      · rw [Protocol.settle_active]
        rfl
  unfold stop
  rw [hq, ok_bind]
  refine ⟨_, rfl, rfl, fun lane => Or.inl ?_, halted_of_or hsafe' ?_ hp hclosed.1 s.moved⟩
  · unfold owed
    simp only [hclosed.2]
  · cases error with
    | none => simp
    | some error =>
      rintro rfl
      exact hne rfl

/-- Every report is answered. -/
theorem complete_total (hsafe : s.protocol.Safe) (op : OpId) : ∃ s', s.complete op = .ok s' := by
  unfold complete
  cases s.protocol.laneOf op with
  | none => exact ⟨s, rfl⟩
  | some lane =>
    obtain ⟨q, r, hq, -⟩ := Protocol.input_safe hsafe (.completed op
      (if s.moved.get lane = 0 then .retry else .bytes (s.moved.get lane)) (s.buffers.get lane))
    dsimp only
    rw [hq]
    exact ⟨_, rfl⟩

/-! ## A closed machine -/

theorem Halted.closed_ne (h : s.Halted) : s.protocol.closed ≠ some .protocol := by
  obtain ⟨error, hc, hne⟩ := h.closed
  rw [hc]
  intro heq
  exact hne (Option.some.inj heq)

theorem Halted.of_protocol (h : s.Halted) (heq : s'.protocol = s.protocol) : s'.Halted :=
  ⟨heq ▸ h.safe, heq ▸ h.closed⟩

/-- It asks for nothing. -/
theorem Halted.effect (h : s.Halted) (lane : Lane) :
    ∃ e, s.protocol.effect lane = .ok e ∧ ∀ request ∈ e, ∃ l id, request = .cancel l id := by
  obtain ⟨error, hc, -⟩ := h.closed
  refine ⟨_, Protocol.effect_of_closed (Option.isSome_of_eq_some hc) lane, ?_⟩
  rintro request hrequest
  obtain ⟨a, -, rfl⟩ := Option.map_eq_some_iff.mp hrequest
  exact ⟨lane, a.1, rfl⟩

theorem Halted.accept (h : s.Halted) (lane : Lane) (op : OpId) : s.accept lane op = .ok s := by
  obtain ⟨e, he, hcancel⟩ := h.effect lane
  unfold Side.accept
  rw [he, ok_bind]
  cases e with
  | none => rfl
  | some request =>
    obtain ⟨l, id, rfl⟩ := hcancel request rfl
    exact if_pos (Or.inl rfl)

theorem Halted.complete (h : s.Halted) (op : OpId) :
    ∃ s', s.complete op = .ok s' ∧ s'.buffers = s.buffers ∧ s.OwesLess s' ∧ s'.Halted := by
  unfold Side.complete
  cases hl : s.protocol.laneOf op with
  | none => exact ⟨s, rfl, rfl, OwesLess.refl s, h⟩
  | some lane =>
    obtain ⟨error, hc, hne⟩ := h.closed
    obtain ⟨q, r, hq, hsafe, -⟩ := Protocol.input_safe h.safe (.completed op
      (if s.moved.get lane = 0 then .retry else .bytes (s.moved.get lane)) (s.buffers.get lane))
    dsimp only
    rw [hq, ok_bind]
    exact ⟨_, rfl, rfl, owesLess_report hl hq fun other ho => PerLane.get_set_of_ne _ _ ho,
      hsafe, error, Protocol.input_closed hc hq, hne⟩

end

end Side

end Hiway.Transport
