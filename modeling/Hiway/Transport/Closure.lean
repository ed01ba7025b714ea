import Hiway.Transport.Audit

/-!
# Closure

A closed machine keeps its error and asks for nothing but the return of the operations
that it has handed out. An operation stays on its lane, whatever happens, until its own
completion arrives.

* `call_closed`: no call reopens a machine or changes its error.
* `call_active`: only its own completion takes an operation from its lane.
* `calls_absorbing`: both over all later calls, from every state that a machine reaches: it
  offers nothing but the cancellation of what is under way.
-/

namespace Hiway.Transport

open Exec Target

/-! ## What is recorded once -/

theorem Accountability.finish_of_terminal {a : Accountability} (h : a.terminal = true)
    (error : Error) : a.finish error = a := by
  cases a
  cases h
  rfl

theorem Accountability.cancel_of_terminal {a : Accountability} (h : a.terminal = true) :
    a.cancel = a := by
  cases a
  cases h
  rfl

namespace Protocol

/-- A closed machine has made its terminal record. -/
def Settled (p : Protocol) : Prop :=
  ∀ error a, p.closed = some error → p.accountability = some a → a.terminal = true

theorem settled_settle (p : Protocol) (i : Input) : (p.settle i).Settled := by
  intro error a hc ha
  rw [settle_closed] at hc
  unfold settle at ha
  rw [hc] at ha
  dsimp only at ha
  split at ha
  all_goals
    obtain ⟨b, -, rfl⟩ := Option.map_eq_some_iff.mp ha
    rfl

theorem account_eq_self {p : Protocol} {f : Accountability → Accountability}
    (h : ∀ a, p.accountability = some a → f a = a) : p.account f = p := by
  have hmap : p.accountability.map f = p.accountability := by
    cases ha : p.accountability with
    | none => rfl
    | some a => rw [Option.map_some, h a ha]
  unfold account
  rw [hmap]

/-- A settled machine has nothing to record. -/
theorem settle_of_settled {p : Protocol} (h : p.Settled) (i : Input) : p.settle i = p := by
  unfold settle
  cases hc : p.closed with
  | none => rfl
  | some error =>
    dsimp only
    split
    case h_4 =>
      exact account_eq_self fun a ha => Accountability.finish_of_terminal (h error a hc ha) error
    all_goals exact account_eq_self fun a ha => Accountability.cancel_of_terminal (h error a hc ha)

/-! ## Calls of the host -/

/-- The machine after a call of its host, whether an input fails or not. -/
def call [Target] (p : Protocol) : HostCall → Exec Protocol
  | .input i => p.next i
  | .observe sequence => .ok (p.observeSequence sequence)
  | .pop => .ok p.popRecord.2

def calls [Target] (p : Protocol) (calls : List HostCall) : Exec Protocol := steps call p calls

/-- What the calls keep of a machine. -/
structure Sane [Target] (p : Protocol) : Prop where
  safe : p.Safe
  distinct : p.Distinct
  settled : p.Settled

theorem popRecord_eq (p : Protocol) :
    p.popRecord.2 = p.account fun a => a.pop.2 := by
  unfold popRecord
  split
  · rename_i ha
    exact (account_eq_self fun a h => by rw [ha] at h; cases h).symm
  · rename_i a ha
    unfold account
    rw [ha, Option.map_some]

/-- Reading records and announcing frames concern the accountability only. -/
theorem Sane.account [Target] {p : Protocol} (h : p.Sane) {f : Accountability → Accountability}
    (hf : ∀ a, (f a).terminal = a.terminal) : (p.account f).Sane := by
  refine ⟨safe_account h.safe f, h.distinct, fun error a hc ha => ?_⟩
  obtain ⟨b, hb, rfl⟩ := Option.map_eq_some_iff.mp ha
  rw [hf]
  exact h.settled error b hc hb

theorem sane_input [Target] {p q : Protocol} {i : Input} {r : Except Error Unit} (h : p.Sane)
    (hi : p.input i = .ok (q, r)) : q.Sane := by
  obtain ⟨q', r', hq, hsafe, -⟩ := input_safe h.safe i
  rw [hi] at hq
  cases hq
  refine ⟨hsafe, distinct_input h.distinct hi, ?_⟩
  obtain ⟨⟨q', r'⟩, -, hq⟩ := bind_eq_ok.mp hi
  cases hq
  exact settled_settle _ i

/-- What a call does: an input, or nothing but to the accountability. -/
theorem call_cases [Target] {p q : Protocol} {c : HostCall} (h : p.call c = .ok q) :
    (∃ i r, c = .input i ∧ p.input i = .ok (q, r)) ∨
      ∃ f : Accountability → Accountability, q = p.account f ∧
        ∀ a, (f a).terminal = a.terminal := by
  cases c with
  | input i =>
    obtain ⟨⟨q', r⟩, hi, h⟩ := bind_eq_ok.mp h
    cases h
    exact Or.inl ⟨i, r, rfl, hi⟩
  | observe sequence =>
    cases h
    exact Or.inr ⟨_, rfl, fun _ => rfl⟩
  | pop =>
    cases h
    exact Or.inr ⟨_, popRecord_eq p, fun _ => rfl⟩

theorem calls_sane [Target] {p : Protocol} (h : p.Sane) (cs : List HostCall) :
    ∃ q, p.calls cs = .ok q ∧ q.Sane := by
  refine steps_invariant (fun p c hp => ?_) h cs
  cases c with
  | input i =>
    obtain ⟨q, r, hi, -⟩ := input_safe hp.safe i
    exact ⟨q, by simp only [call, next, hi, ok_bind, pure_eq], sane_input hp hi⟩
  | observe sequence => exact ⟨_, rfl, hp.account fun _ => rfl⟩
  | pop => exact ⟨_, rfl, popRecord_eq p ▸ hp.account fun _ => rfl⟩

theorem provisioned_sane [Target] {contract : Contract} {direction : Direction} {capacity : Nat}
    {p : Protocol} (hword : capacity ≤ usizeMax) (h : Provisioned contract direction capacity p) :
    p.Sane := by
  refine ⟨(provisioned_safe hword h).1, ?_, ?_⟩
  · obtain ⟨a, rfl⟩ := provisioned_eq h
    intro lane other op e e' ha
    simp at ha
  · obtain ⟨a, rfl⟩ := provisioned_eq h
    intro error a hc
    cases hc

/-! ## One call -/

/-- No call reopens a machine or changes its error. -/
theorem call_closed [Target] {p q : Protocol} {c : HostCall} {error : Error}
    (hc : p.closed = some error) (h : p.call c = .ok q) : q.closed = some error := by
  rcases call_cases h with ⟨i, r, -, hi⟩ | ⟨f, rfl, -⟩
  · exact input_closed hc hi
  · exact hc

/-- Only its own completion takes an operation from its lane. -/
theorem call_active [Target] {p q : Protocol} {c : HostCall} {lane : Lane} {op : OpId} {e : Effect}
    (ha : p.active.get lane = some (op, e))
    (hne : ∀ result buffer, c ≠ .input (.completed op result buffer)) (h : p.call c = .ok q) :
    q.active.get lane = some (op, e) := by
  rcases call_cases h with ⟨i, r, rfl, hi⟩ | ⟨f, rfl, -⟩
  · cases input_active hi with
    | same hq => rw [hq, ha]
    | accept hopen hfree hfresh he hr hok hq =>
      rename_i other op' e'
      subst hq
      have hother : lane ≠ other := by
        rintro rfl
        rw [ha] at hfree
        cases hfree
      exact (PerLane.get_set_of_ne _ _ hother).trans ha
    | release hl hq =>
      rename_i other op' result buffer
      have hop : op' ≠ op := fun heq => hne result buffer (heq ▸ rfl)
      have hother : lane ≠ other := by
        rintro rfl
        obtain ⟨e', ha'⟩ := laneOf_some hl
        rw [ha] at ha'
        exact hop (congrArg Prod.fst (Option.some.inj ha')).symm
      rw [hq, PerLane.get_set_of_ne _ _ hother, ha]
  · exact ha

/-! ## Every order of calls -/

/-- What closure and completion promise of a machine, whatever is called next. -/
structure Absorbing [Target] (p : Protocol) : Prop where
  answers : ∀ cs, ∃ q, p.calls cs = .ok q
  closed : ∀ error, p.closed = some error → ∀ cs q, p.calls cs = .ok q → q.closed = some error
  offers : p.closed.isSome → ∀ lane,
    p.effect lane = .ok ((p.active.get lane).map fun a => .cancel lane a.1)
  provided : ∀ error, p.closed = some error → ∀ sequence length,
    p.input (.provided sequence length) = .ok (p, .error error)
  admitted : ∀ error, p.closed = some error → p.input .admitted = .ok (p, .error error)
  accepted : ∀ lane op q, p.input (.accepted lane op) = .ok (q, .ok ()) →
    ∃ e, p.effect lane = .ok (some e) ∧ q.active.get lane = some (op, e)
  kept : ∀ lane op e, p.active.get lane = some (op, e) → ∀ cs q,
    (∀ c ∈ cs, ∀ result buffer, c ≠ .input (.completed op result buffer)) →
      p.calls cs = .ok q → q.active.get lane = some (op, e)
  unique : ∀ lane other op e e', p.active.get lane = some (op, e) →
    p.active.get other = some (op, e') → lane = other
  stale : ∀ op result buffer, (∀ lane e, p.active.get lane ≠ some (op, e)) →
    p.input (.completed op result buffer) = .ok (p, .ok ())

theorem effect_of_closed {p : Protocol} (hc : p.closed.isSome) (lane : Lane) :
    p.effect lane = .ok ((p.active.get lane).map fun a => .cancel lane a.1) := by
  obtain ⟨error, hc⟩ := Option.isSome_iff_exists.mp hc
  unfold effect
  cases ha : p.active.get lane with
  | none => simp [hc]
  | some a => simp [hc]

theorem shut_of_closed {p : Protocol} {error other : Error} (hc : p.closed = some error) :
    p.shut other = p := by
  unfold shut
  rw [hc, Option.some_or, ← hc]

section

variable [Target] {p : Protocol}

/-- A transition that leaves a settled machine as it was records nothing. -/
theorem Sane.input_same (h : p.Sane) {i : Input} {r : Except Error Unit}
    (ht : p.transition i = .ok (p, r)) (hr : r = .ok () ∨ p.closed.isSome) :
    p.input i = .ok (p, r) := by
  have hconclude : p.conclude r = p := by
    cases r with
    | ok _ => rfl
    | error other =>
      obtain ⟨error, hc⟩ := Option.isSome_iff_exists.mp (hr.resolve_left nofun)
      exact shut_of_closed hc
  unfold input
  rw [ht, ok_bind]
  change Except.ok ((p.conclude r).settle i, r) = .ok (p, r)
  rw [hconclude, settle_of_settled h.settled]

theorem calls_active {cs : List HostCall} {q : Protocol} {lane : Lane} {op : OpId} {e : Effect}
    (ha : p.active.get lane = some (op, e))
    (hne : ∀ c ∈ cs, ∀ result buffer, c ≠ .input (.completed op result buffer))
    (h : p.calls cs = .ok q) : q.active.get lane = some (op, e) := by
  induction cs generalizing p with
  | nil =>
    cases h
    exact ha
  | cons c rest ih =>
    obtain ⟨p', hp', h⟩ := bind_eq_ok.mp h
    exact ih (call_active ha (hne c List.mem_cons_self) hp')
      (fun c hc => hne c (List.mem_cons_of_mem _ hc)) h

theorem calls_closed {cs : List HostCall} {q : Protocol} {error : Error}
    (hc : p.closed = some error) (h : p.calls cs = .ok q) : q.closed = some error := by
  induction cs generalizing p with
  | nil =>
    cases h
    exact hc
  | cons c rest ih =>
    obtain ⟨p', hp', h⟩ := bind_eq_ok.mp h
    exact ih (call_closed hc hp') h

theorem input_accepted_effect {lane : Lane} {op : OpId} {q : Protocol}
    (h : p.input (.accepted lane op) = .ok (q, .ok ())) :
    ∃ e, p.effect lane = .ok (some e) ∧ q.active.get lane = some (op, e) := by
  obtain ⟨⟨q', r'⟩, ht, hq⟩ := bind_eq_ok.mp h
  cases hq
  obtain ⟨e, he, ht⟩ := bind_eq_ok.mp ht
  cases e with
  | none => cases ht
  | some e =>
    dsimp only at ht
    split at ht
    · cases ht
    · split at ht
      · cases ht
      · cases ht
        refine ⟨e, he, ?_⟩
        rw [settle_active, conclude_active]
        exact PerLane.get_set_self p.active lane (some (op, e))

theorem Sane.absorbing (h : p.Sane) : p.Absorbing where
  answers cs := (calls_sane h cs).imp fun _ hq => hq.1
  closed _ hc _ _ hq := calls_closed hc hq
  offers hc lane := effect_of_closed hc lane
  provided error hc _ _ :=
    h.input_same (by simp only [transition, hc]) (Or.inr (Option.isSome_of_eq_some hc))
  admitted error hc :=
    h.input_same (by simp only [transition, hc]) (Or.inr (Option.isSome_of_eq_some hc))
  accepted _ _ _ hi := input_accepted_effect hi
  kept _ _ _ ha _ _ hne hq := calls_active ha hne hq
  unique := h.distinct
  stale op result buffer hnone := by
    refine h.input_same ?_ (Or.inl rfl)
    have hl : p.laneOf op = none := by
      cases hl : p.laneOf op with
      | none => rfl
      | some lane =>
        obtain ⟨e, ha⟩ := laneOf_some hl
        exact absurd ha (hnone lane e)
    simp only [transition, hl]

end

/-- From every state that a machine reaches closure is final and no operation is lost. -/
theorem calls_absorbing [Target] (contract : Contract) (direction : Direction) (capacity : Nat)
    (hword : capacity ≤ usizeMax) (p : Protocol)
    (hp : Provisioned contract direction capacity p) (cs : List HostCall) :
    ∃ q, p.calls cs = .ok q ∧ q.Absorbing := by
  obtain ⟨q, hq, hsane⟩ := calls_sane (provisioned_sane hword hp) cs
  exact ⟨q, hq, hsane.absorbing⟩

/-- A credit read is under way when its link is closed by a failure of the data lane. -/
theorem calls_absorbing_failed :
    let _ := Target.x64
    ∃ p q : Protocol, new ⟨⟨7⟩, 1, 1, .ordered⟩ .exporting 64 = .ok p ∧
      p.calls [.input (.provided 3 40), .input (.accepted .data ⟨0, 1⟩),
        .input (.accepted .creditReceive ⟨2, 1⟩), .input (.completed ⟨0, 1⟩ (.failed 5) [])] =
          .ok q ∧ q.Absorbing := by
  intro _
  obtain ⟨p, hp⟩ : ∃ p, new ⟨⟨7⟩, 1, 1, .ordered⟩ .exporting 64 = .ok p := ⟨_, rfl⟩
  obtain ⟨q, hq⟩ := calls_absorbing ⟨⟨7⟩, 1, 1, .ordered⟩ .exporting 64 (by decide) p (Or.inl hp)
    [.input (.provided 3 40), .input (.accepted .data ⟨0, 1⟩),
      .input (.accepted .creditReceive ⟨2, 1⟩), .input (.completed ⟨0, 1⟩ (.failed 5) [])]
  exact ⟨p, q, hp, hq⟩

end Protocol

end Hiway.Transport
