import Hiway.Transport.ProtocolSafety

/-!
# What one input does

Inversion and evaluation rules for `Protocol.input`. The first group holds of any
machine: which operations an input can add or remove. The second evaluates each
kind of valid input on an open, safe machine.

* `input_open`, `input_closed`: an open machine was open before, and a closed one keeps its
  error.
* `input_completed_active`, `input_stale_active`: a completion frees the lane of its own
  operation and no other.
* `input_progress`: a completion of bytes advances the lane and answers what `progress`
  does.
-/

namespace Hiway.Transport

open Exec Target

namespace Protocol

/-! ## Operations -/

theorem progress_keeps [Target] {p q : Protocol} {lane : Lane} {buffer : List UInt8}
    {r : Except Error Unit} (h : p.progress lane buffer = .ok (q, r)) : p.Keeps q := by
  cases lane with
  | data =>
    simp only [progress] at h
    split at h
    · split at h
      · cases h
        split <;> exact ⟨rfl, rfl, rfl, rfl, rfl⟩
      · cases h
        exact Keeps.refl p
    · split at h
      · have hq : (p.parseHeader (p.offsets.get .data) buffer).1 = q :=
          congrArg Prod.fst (Except.ok.inj h)
        rw [← hq]
        exact parseHeader_keeps p _ buffer
      · cases h
        exact Keeps.refl p
    · cases h
      split <;> exact ⟨rfl, rfl, rfl, rfl, rfl⟩
    · cases h
      exact Keeps.refl p
  | creditSend =>
    simp only [progress] at h
    split at h
    · split at h
      · cases h
        exact ⟨rfl, rfl, rfl, rfl, rfl⟩
      · obtain ⟨last, -, h⟩ := bind_eq_ok.mp h
        cases h
        exact ⟨rfl, rfl, rfl, rfl, rfl⟩
    · cases h
      exact Keeps.refl p
  | creditReceive =>
    simp only [progress] at h
    split at h
    · cases h
      exact Keeps.refl p
    · split at h
      · have hq : (p.parseCredit buffer).1 = q := congrArg Prod.fst (Except.ok.inj h)
        rw [← hq]
        exact parseCredit_keeps p buffer
      · cases h
        exact Keeps.refl p

theorem complete_active [Target] {p q : Protocol} {lane : Lane} {e : Effect}
    {result : IoResult} {buffer : List UInt8} {r : Except Error Unit}
    (h : p.complete lane e result buffer = .ok (q, r)) : q.active = p.active := by
  unfold complete at h
  split at h
  · cases h
    rfl
  · split at h
    · cases h
      rfl
    · cases h
      rfl
    · cases h
      rfl
    · split at h
      · split at h
        · cases h
          rfl
        · obtain ⟨offset, -, h⟩ := bind_eq_ok.mp h
          exact (progress_keeps h).active
      · split at h
        · cases h
          rfl
        · obtain ⟨offset, -, h⟩ := bind_eq_ok.mp h
          exact (progress_keeps h).active
      · cases h

/-- What an input does to the accepted operations: nothing, or it takes in one new
request at a free lane of an open machine, or it hands one back. -/
inductive ActiveStep (p q : Protocol) (r : Except Error Unit) : Input → Prop
  | same {i : Input} (h : q.active = p.active) : ActiveStep p q r i
  | accept {lane : Lane} {op : OpId} {e : Effect} (hopen : p.closed = none)
      (hfree : p.active.get lane = none) (hfresh : p.laneOf op = none)
      (he : p.offer lane = .ok (some e)) (hr : e.isRequest = true) (hok : r = .ok ())
      (hq : q = p.accept lane op e) : ActiveStep p q r (.accepted lane op)
  | release {lane : Lane} {op : OpId} {result : IoResult} {buffer : List UInt8}
      (hl : p.laneOf op = some lane) (h : q.active = p.active.set lane none) :
      ActiveStep p q r (.completed op result buffer)

theorem effect_request {p : Protocol} {lane : Lane} {e : Effect}
    (h : p.effect lane = .ok (some e)) (hr : e.isRequest = true) :
    p.closed = none ∧ p.active.get lane = none ∧ p.offer lane = .ok (some e) := by
  unfold effect at h
  split at h
  · cases hc : p.closed with
    | none => simp [hc] at h
    | some error =>
      simp only [hc, Option.map_some, Except.ok.injEq, Option.some.injEq] at h
      subst h
      cases hr
  · rename_i ha
    cases hc : p.closed with
    | none => exact ⟨rfl, ha, by simpa [hc] using h⟩
    | some error => simp [hc] at h

/-- An admission is offered only while no credit is owed. -/
theorem effect_admission {p : Protocol} {length : Nat} {revision : SchemaRevision}
    (h : p.effect .data = .ok (some (.admission length revision))) :
    p.closed = none ∧ p.stage = .admission ∧ p.credited = false := by
  unfold effect at h
  split at h
  · cases hc : p.closed <;> simp [hc] at h
  · cases hc : p.closed with
    | some error => simp [hc] at h
    | none =>
      simp only [hc, Option.isSome_none, Bool.false_eq_true, if_false] at h
      cases hs : p.stage <;> simp only [offer, hs, bind_eq_ok] at h
      case source => cases h
      case credit => cases h
      case admission =>
        split at h
        · cases h
        · rename_i hcr
          exact ⟨rfl, rfl, by simpa using hcr⟩
      case sending | header | payload =>
        obtain ⟨_, -, h⟩ := h
        cases h

theorem transition_active [Target] {p q : Protocol} {i : Input} {r : Except Error Unit}
    (h : p.transition i = .ok (q, r)) : ActiveStep p q r i := by
  cases i with
  | revoked | closed error =>
    cases h
    exact .same rfl
  | accepted lane op =>
    obtain ⟨e, he, h⟩ := bind_eq_ok.mp h
    cases e with
    | none =>
      cases h
      exact .same rfl
    | some e =>
      dsimp only at h
      split at h
      · cases h
        exact .same rfl
      · rename_i hr
        have hr : e.isRequest = true := by simpa using hr
        split at h
        · cases h
          exact .same rfl
        · rename_i hdup
          cases h
          obtain ⟨hopen, hfree, hoffer⟩ := effect_request he hr
          exact .accept hopen hfree (by simpa using hdup) hoffer hr rfl rfl
  | completed op result buffer =>
    simp only [transition] at h
    split at h
    · cases h
      exact .same rfl
    · rename_i lane hl
      obtain ⟨⟨id, e⟩, -, h⟩ := bind_eq_ok.mp h
      exact .release hl (complete_active h)
  | provided sequence length =>
    simp only [transition] at h
    split at h
    · cases h
      exact .same rfl
    · split at h
      · cases h
        exact .same rfl
      · cases h
        exact .same rfl
  | admitted =>
    simp only [transition] at h
    split at h
    · cases h
      exact .same rfl
    · split at h
      · cases h
        exact .same rfl
      · cases h
        exact .same rfl

@[simp] theorem conclude_active (p : Protocol) (r : Except Error Unit) :
    (p.conclude r).active = p.active := by
  cases r <;> rfl

@[simp] theorem settle_active (p : Protocol) (i : Input) : (p.settle i).active = p.active := by
  rcases settle_eq p i with h | ⟨f, h⟩ <;> rw [h]
  rfl

theorem settle_of_open {p : Protocol} (h : p.closed = none) (i : Input) : p.settle i = p := by
  simp [settle, h]

theorem input_active [Target] {p q : Protocol} {i : Input} {r : Except Error Unit}
    (h : p.input i = .ok (q, r)) : ActiveStep p q r i := by
  obtain ⟨⟨q', r'⟩, ht, h⟩ := bind_eq_ok.mp h
  cases h
  cases transition_active ht with
  | same ha => exact .same (by simp [ha])
  | accept hopen hfree hfresh he hr hok hq =>
    refine .accept hopen hfree hfresh he hr hok ?_
    subst hok hq
    simp only [conclude]
    rw [settle_of_open]
    exact hopen
  | release hl ha => exact .release hl (by simp [ha])

/-- Different lanes hold different operation ids. -/
def Distinct (p : Protocol) : Prop :=
  ∀ lane other op e e', p.active.get lane = some (op, e) → p.active.get other = some (op, e') →
    lane = other

theorem laneOf_none {p : Protocol} {op : OpId} (h : p.laneOf op = none) (lane : Lane)
    (e : Effect) : p.active.get lane ≠ some (op, e) := by
  intro ha
  have hmem : lane ∈ Lane.all := by cases lane <;> simp [Lane.all]
  have := List.find?_eq_none.mp h lane hmem
  simp [ha] at this

theorem distinct_input [Target] {p q : Protocol} {i : Input} {r : Except Error Unit}
    (hd : p.Distinct) (h : p.input i = .ok (q, r)) : q.Distinct := by
  intro lane other op e e' ha ha'
  cases input_active h with
  | same hq =>
    rw [hq] at ha ha'
    exact hd lane other op e e' ha ha'
  | accept hopen hfree hfresh he hr hok hq =>
    subst hq
    rcases active_set ha with ⟨hlane, hop, -⟩ | ⟨-, hold⟩
    · rcases active_set ha' with ⟨hother, -, -⟩ | ⟨-, hold'⟩
      · rw [hlane, hother]
      · exact absurd (hop ▸ hold') (laneOf_none hfresh other e')
    · rcases active_set ha' with ⟨-, hop, -⟩ | ⟨-, hold'⟩
      · exact absurd (hop ▸ hold) (laneOf_none hfresh lane e)
      · exact hd lane other op e e' hold hold'
  | release hl hq =>
    rename_i freed _ _ _
    rw [hq] at ha ha'
    exact hd lane other op e e' (active_release p freed lane ha)
      (active_release p freed other ha')

/-! ## What leaves a machine open -/

theorem closed_of_closed [Target] {p q : Protocol} {i : Input} {r : Except Error Unit}
    {error : Error} (hc : p.closed = some error) (h : p.transition i = .ok (q, r)) :
    q.closed = some error := by
  cases i with
  | revoked | closed _ =>
    cases h
    simp [shut, hc]
  | accepted lane op =>
    obtain ⟨e, -, h⟩ := bind_eq_ok.mp h
    cases e with
    | none =>
      cases h
      exact hc
    | some e =>
      dsimp only at h
      split at h
      · cases h
        exact hc
      · split at h <;> cases h <;> exact hc
  | completed op result buffer =>
    simp only [transition] at h
    split at h
    · cases h
      exact hc
    · obtain ⟨_, -, h⟩ := bind_eq_ok.mp h
      simp only [complete, release, hc, Option.isSome_some, if_true] at h
      cases h
      rfl
  | provided sequence length =>
    simp only [transition, hc] at h
    cases h
    exact hc
  | admitted =>
    simp only [transition, hc] at h
    cases h
    exact hc

/-- An input of an open machine that leaves it open. -/
inductive OpenStep [Target] (p q : Protocol) : Input → Prop
  | accept {lane : Lane} {op : OpId} {e : Effect} (hfree : p.active.get lane = none)
      (he : p.offer lane = .ok (some e)) (hr : e.isRequest = true)
      (hq : q = p.accept lane op e) : OpenStep p q (.accepted lane op)
  | stale {op : OpId} {result : IoResult} {buffer : List UInt8} (hl : p.laneOf op = none)
      (hq : q = p) : OpenStep p q (.completed op result buffer)
  | retry {op : OpId} {buffer : List UInt8} {lane : Lane} (hl : p.laneOf op = some lane)
      (hq : q = p.release lane) : OpenStep p q (.completed op .retry buffer)
  | bytes {op : OpId} {count : Nat} {buffer : List UInt8} {lane : Lane} {e : Effect}
      (hl : p.laneOf op = some lane) (ha : p.active.get lane = some (op, e)) (hpos : 1 ≤ count)
      (hle : count ≤ e.requested)
      (hq : (p.advance lane count).progress lane buffer = .ok (q, .ok ())) :
      OpenStep p q (.completed op (.bytes count) buffer)
  | provide {sequence : UInt64} {length : Nat} (hs : p.stage = .source)
      (hge : headerBytes ≤ length) (hle : length ≤ p.capacity)
      (hq : q = p.provide sequence length) : OpenStep p q (.provided sequence length)
  | admitted (hs : p.stage = .admission) (hc : p.credited = false) (hq : q = p.admitFrame) :
      OpenStep p q .admitted

theorem complete_open [Target] {p q : Protocol} {lane : Lane} {op : OpId} {e : Effect}
    {result : IoResult} {buffer : List UInt8} (hc : p.closed = none)
    (hl : p.laneOf op = some lane) (ha : p.active.get lane = some (op, e))
    (h : (p.release lane).complete lane e result buffer = .ok (q, .ok ())) :
    OpenStep p q (.completed op result buffer) := by
  have hopen : (p.release lane).closed = none := hc
  cases result with
  | retry =>
    simp only [complete, hopen, Option.isSome_none, Bool.false_eq_true, if_false] at h
    cases h
    exact .retry hl rfl
  | failed code =>
    simp only [complete, hopen, Option.isSome_none, Bool.false_eq_true, if_false] at h
    cases h
  | bytes count =>
    cases count with
    | zero =>
      simp only [complete, hopen, Option.isSome_none, Bool.false_eq_true, if_false] at h
      cases h
    | succ n =>
      cases e with
      | receive l offset length | transmit l offset length =>
        simp only [complete, hopen, Option.isSome_none, Bool.false_eq_true, if_false] at h
        split at h
        · cases h
        · rename_i hle
          obtain ⟨offset', hadd, h⟩ := bind_eq_ok.mp h
          obtain ⟨-, rfl⟩ := add_eq_ok.mp hadd
          exact .bytes hl ha (Nat.succ_le_succ (Nat.zero_le n)) (Nat.le_of_not_gt hle) h
      | provide | admission | cancel =>
        simp only [complete, hopen, Option.isSome_none, Bool.false_eq_true, if_false] at h
        cases h

theorem transition_open [Target] {p q : Protocol} {i : Input} (hc : p.closed = none)
    (hq : q.closed = none) (h : p.transition i = .ok (q, .ok ())) : OpenStep p q i := by
  cases i with
  | revoked | closed _ =>
    cases h
    simp [shut, hc] at hq
  | accepted lane op =>
    obtain ⟨e, he, h⟩ := bind_eq_ok.mp h
    cases e with
    | none => cases h
    | some e =>
      dsimp only at h
      split at h
      · cases h
      · rename_i hr
        have hr : e.isRequest = true := by simpa using hr
        split at h
        · cases h
        · cases h
          obtain ⟨-, hfree, hoffer⟩ := effect_request he hr
          exact .accept hfree hoffer hr rfl
  | completed op result buffer =>
    simp only [transition] at h
    split at h
    · rename_i hl
      cases h
      exact .stale hl rfl
    · rename_i lane hl
      obtain ⟨e, ha⟩ := laneOf_some hl
      rw [ha, unwrap_some, ok_bind] at h
      exact complete_open hc hl ha h
  | provided sequence length =>
    simp only [transition, hc] at h
    split at h
    · cases h
    · rename_i hok
      push Not at hok
      cases h
      exact .provide hok.1 hok.2.1 hok.2.2 rfl
  | admitted =>
    simp only [transition, hc] at h
    split at h
    · cases h
    · rename_i hok
      push Not at hok
      cases h
      exact .admitted hok.1 (by simpa using hok.2) rfl

@[simp] theorem settle_closed (p : Protocol) (i : Input) : (p.settle i).closed = p.closed := by
  rcases settle_eq p i with h | ⟨f, h⟩ <;> rw [h]
  rfl

theorem conclude_closed_error (p : Protocol) (error : Error) :
    (p.conclude (.error error)).closed ≠ none := by
  cases hc : p.closed <;> simp [conclude, shut, hc]

/-- A machine that is open after an input was open before, and the input succeeded. -/
theorem input_open [Target] {p q : Protocol} {i : Input} {r : Except Error Unit}
    (h : p.input i = .ok (q, r)) (hq : q.closed = none) :
    p.closed = none ∧ r = .ok () ∧ OpenStep p q i := by
  obtain ⟨⟨q', r'⟩, ht, h⟩ := bind_eq_ok.mp h
  cases h
  rw [settle_closed] at hq
  have hc : p.closed = none := by
    cases hp : p.closed with
    | none => rfl
    | some error =>
      have hq' := closed_of_closed hp ht
      cases r <;> simp [conclude, shut, hq'] at hq
  cases r with
  | error error => exact absurd hq (conclude_closed_error q' error)
  | ok _ =>
    refine ⟨hc, rfl, ?_⟩
    simp only [conclude] at hq ⊢
    rw [settle_of_open hq]
    exact transition_open hc hq ht

/-- A closed machine keeps its error. -/
theorem input_closed [Target] {p q : Protocol} {i : Input} {r : Except Error Unit}
    {error : Error} (hc : p.closed = some error) (h : p.input i = .ok (q, r)) :
    q.closed = some error := by
  obtain ⟨⟨q', r'⟩, ht, h⟩ := bind_eq_ok.mp h
  cases h
  have hq' := closed_of_closed hc ht
  rw [settle_closed]
  cases r <;> simp [conclude, shut, hq']

/-- An accepted operation leaves the machine open. -/
theorem input_accepted_open [Target] {p q : Protocol} {lane : Lane} {op : OpId}
    (h : p.input (.accepted lane op) = .ok (q, .ok ())) : q.closed = none := by
  obtain ⟨⟨q', r'⟩, ht, h⟩ := bind_eq_ok.mp h
  cases h
  rw [settle_closed]
  obtain ⟨e, he, ht⟩ := bind_eq_ok.mp ht
  cases e with
  | none => cases ht
  | some e =>
    dsimp only at ht
    split at ht
    · cases ht
    · rename_i hr
      split at ht
      · cases ht
      · cases ht
        exact (effect_request he (by simpa using hr)).1

/-- A frame is admitted by a machine that stays open. -/
theorem input_admitted_open [Target] {p q : Protocol} (h : p.input .admitted = .ok (q, .ok ())) :
    q.closed = none := by
  obtain ⟨⟨q', r'⟩, ht, h⟩ := bind_eq_ok.mp h
  cases h
  rw [settle_closed]
  simp only [transition] at ht
  split at ht
  · cases ht
  · rename_i hc
    split at ht
    · cases ht
    · cases ht
      exact hc

/-- A completion frees the lane of its operation and no other. -/
theorem input_completed_active [Target] {p q : Protocol} {op : OpId} {result : IoResult}
    {buffer : List UInt8} {r : Except Error Unit} {lane : Lane} (hl : p.laneOf op = some lane)
    (h : p.input (.completed op result buffer) = .ok (q, r)) :
    q.active = p.active.set lane none := by
  obtain ⟨⟨q', r'⟩, ht, h⟩ := bind_eq_ok.mp h
  cases h
  rw [settle_active, conclude_active]
  simp only [transition, hl] at ht
  obtain ⟨_, -, ht⟩ := bind_eq_ok.mp ht
  exact complete_active ht

/-- A completion of an unknown operation does nothing to the lanes. -/
theorem input_stale_active [Target] {p q : Protocol} {op : OpId} {result : IoResult}
    {buffer : List UInt8} {r : Except Error Unit} (hl : p.laneOf op = none)
    (h : p.input (.completed op result buffer) = .ok (q, r)) : q.active = p.active := by
  cases input_active h with
  | same hq => exact hq
  | release hl' =>
    rw [hl] at hl'
    cases hl'

/-- What an accepted header fixes of the frame, read from the received bytes. -/
theorem parseHeader_parsed [Target] {p q : Protocol} {offset : Nat} {buffer : List UInt8}
    (h : p.parseHeader offset buffer = (q, .ok ())) :
    headerBytes ≤ buffer.length ∧ headerMatches p.contract (buffer.take headerBytes) = true ∧
      q.sequence = headerSequence (buffer.take headerBytes) ∧
      q.length = headerBytes + headerLength (buffer.take headerBytes) ∧
      ∀ last ∈ p.previous, p.contract.delivery.follows last q.sequence = true := by
  unfold parseHeader at h
  split at h
  · cases h
  · rename_i hlen
    dsimp only at h
    split at h
    · cases h
    · rename_i hm
      split at h
      · cases h
      · rename_i length hadd
        obtain ⟨-, hval⟩ := checkedAdd_eq_some.mp hadd
        split at h
        · cases h
        · split at h
          · cases h
          · split at h
            · cases h
            · rename_i hany
              cases h
              refine ⟨Nat.le_of_not_lt hlen, by simpa using hm, rfl, hval, ?_⟩
              intro last hlast
              cases hp : p.previous with
              | none =>
                rw [hp] at hlast
                cases hlast
              | some last' =>
                rw [hp] at hlast
                cases hlast
                simpa [hp] using hany

/-- The data lane leaves the owed credit alone. -/
theorem progress_data_credit [Target] {p q : Protocol} {buffer : List UInt8}
    (h : p.progress .data buffer = .ok (q, .ok ())) :
    q.previous = p.previous ∧ q.credited = p.credited ∧ q.offsets = p.offsets := by
  simp only [progress] at h
  split at h
  · split at h
    · cases h
      split <;> exact ⟨rfl, rfl, rfl⟩
    · cases h
      exact ⟨rfl, rfl, rfl⟩
  · split at h
    · obtain ⟨ho, hc, hp, -⟩ := parseHeader_ok (Except.ok.inj h)
      exact ⟨hp, hc, ho⟩
    · cases h
      exact ⟨rfl, rfl, rfl⟩
  · cases h
    split <;> exact ⟨rfl, rfl, rfl⟩
  · cases h

/-- The credit lane leaves the frame under way alone. -/
theorem progress_creditSend_frame [Target] {p q : Protocol} {buffer : List UInt8}
    (h : p.progress .creditSend buffer = .ok (q, .ok ())) :
    q.previous = p.previous ∧ q.stage = p.stage ∧ q.offsets = p.offsets ∧ q.length = p.length ∧
      q.sequence = p.sequence := by
  simp only [progress] at h
  split at h
  · split at h
    · cases h
      exact ⟨rfl, rfl, rfl, rfl, rfl⟩
    · obtain ⟨_, -, h⟩ := bind_eq_ok.mp h
      cases h
      exact ⟨rfl, rfl, rfl, rfl, rfl⟩
  · cases h
    exact ⟨rfl, rfl, rfl, rfl, rfl⟩

/-! ## A provisioned machine -/

/-- What `new` and `with_connection` return, up to the records. -/
theorem provisioned_eq [Target] {contract : Contract} {direction : Direction} {capacity : Nat}
    {p : Protocol} (h : Provisioned contract direction capacity p) :
    ∃ a, p =
      { contract := contract
        direction := direction
        capacity := capacity
        stage := match direction with
          | .importing => .header
          | .exporting => .source
        active := PerLane.fill none
        offsets := PerLane.fill 0
        length := headerBytes
        sequence := 0
        previous := none
        revision := contract.revision
        credited := false
        closed := none
        accountability := a } := by
  have hnew : ∀ {q}, new contract direction capacity = .ok q → ∃ a, q =
      { contract := contract
        direction := direction
        capacity := capacity
        stage := match direction with
          | .importing => .header
          | .exporting => .source
        active := PerLane.fill none
        offsets := PerLane.fill 0
        length := headerBytes
        sequence := 0
        previous := none
        revision := contract.revision
        credited := false
        closed := none
        accountability := a } := by
    intro q hq
    unfold new at hq
    split at hq
    · cases hq
    · cases hq
      exact ⟨none, rfl⟩
  rcases h with h | ⟨connection, h⟩
  · exact hnew h
  · obtain ⟨q, hq, rfl⟩ := withConnection_eq h
    obtain ⟨a, rfl⟩ := hnew hq
    exact ⟨_, rfl⟩

/-! ## Valid inputs of an open machine -/

theorem input_accepted [Target] {p : Protocol} {lane : Lane} {op : OpId} {e : Effect}
    (hc : p.closed = none) (ha : p.active.get lane = none) (he : p.offer lane = .ok (some e))
    (hr : e.isRequest = true) (hf : p.laneOf op = none) :
    p.input (.accepted lane op) = .ok (p.accept lane op e, .ok ()) := by
  have heff : p.effect lane = .ok (some e) := by simp [effect, ha, hc, he]
  simp only [input, transition, heff, ok_bind, hr, hf, Option.isSome_none, Bool.true_eq_false,
    Bool.false_eq_true, if_false, pure_eq]
  simp only [conclude]
  rw [settle_of_open]
  exact hc

theorem input_retry [Target] {p : Protocol} {lane : Lane} {op : OpId} (hc : p.closed = none)
    (hl : p.laneOf op = some lane) (buffer : List UInt8) :
    p.input (.completed op .retry buffer) = .ok (p.release lane, .ok ()) := by
  obtain ⟨e, ha⟩ := laneOf_some hl
  have hopen : (p.release lane).closed = none := hc
  simp only [input, transition, hl, ha, unwrap_some, ok_bind, complete, hopen,
    Option.isSome_none, Bool.false_eq_true, if_false, pure_eq]
  simp only [conclude]
  rw [settle_of_open hopen]

/-- A completion of `count` bytes advances the lane and answers what `progress` does. -/
theorem input_progress [Target] {p : Protocol} (h : p.Safe) {lane : Lane} {op : OpId} {e : Effect}
    {count : Nat} (hc : p.closed = none) (hl : p.laneOf op = some lane)
    (ha : p.active.get lane = some (op, e)) (h1 : 1 ≤ count) (hn : count ≤ e.requested)
    {buffer : List UInt8} {q : Protocol} {r : Except Error Unit}
    (hq : (p.advance lane count).progress lane buffer = .ok (q, r)) :
    p.input (.completed op (.bytes count) buffer) =
      .ok ((q.conclude r).settle (.completed op (.bytes count) buffer), r) := by
  have hf := h.framed hc
  have hreq := h.request lane op e ha
  have hadd : p.offsets.get lane + count ≤ usizeMax := by
    have := requested_le h.capacity_ge hf ha hreq
    have := h.capacity_le
    omega
  have hopen : (p.release lane).closed = none := hc
  have hoff : (p.release lane).offsets = p.offsets := rfl
  have hcomplete : (p.release lane).complete lane e (.bytes count) buffer = .ok (q, r) := by
    obtain ⟨n, rfl⟩ : ∃ n, count = n + 1 := ⟨count - 1, by omega⟩
    have hnot : ¬ n + 1 > e.requested := by omega
    cases e with
    | receive l o length | transmit l o length =>
      simp only [Effect.requested] at hnot
      simp only [complete, hopen, Option.isSome_none, Bool.false_eq_true, if_false, if_neg hnot]
      rw [hoff, add_of_le hadd, ok_bind]
      exact hq
    | provide | admission | cancel => cases hreq
  simp only [input, transition, hl, ha, unwrap_some, ok_bind, hcomplete, pure_eq]

theorem input_bytes [Target] {p : Protocol} (h : p.Safe) {lane : Lane} {op : OpId} {e : Effect}
    {count : Nat} (hc : p.closed = none) (hl : p.laneOf op = some lane)
    (ha : p.active.get lane = some (op, e)) (h1 : 1 ≤ count) (hn : count ≤ e.requested)
    {buffer : List UInt8} {q : Protocol}
    (hq : (p.advance lane count).progress lane buffer = .ok (q, .ok ())) :
    p.input (.completed op (.bytes count) buffer) = .ok (q, .ok ()) := by
  have hqopen : q.closed = none := by
    rw [(progress_keeps hq).closed]
    exact hc
  rw [input_progress h hc hl ha h1 hn hq]
  simp only [conclude]
  rw [settle_of_open hqopen]

theorem input_provided [Target] {p : Protocol} {sequence : UInt64} {length : Nat}
    (hc : p.closed = none) (hs : p.stage = .source) (hge : headerBytes ≤ length)
    (hle : length ≤ p.capacity) :
    p.input (.provided sequence length) = .ok (p.provide sequence length, .ok ()) := by
  have hok : ¬(p.stage ≠ .source ∨ length < headerBytes ∨ length > p.capacity) := by
    push Not
    exact ⟨hs, hge, hle⟩
  simp only [input, transition, hc, if_neg hok, ok_bind, pure_eq]
  simp only [conclude]
  rw [settle_of_open]
  exact hc

theorem input_admitted [Target] {p : Protocol} (hc : p.closed = none)
    (hs : p.stage = .admission) (hcr : p.credited = false) :
    p.input .admitted = .ok (p.admitFrame, .ok ()) := by
  have hok : ¬(p.stage ≠ .admission ∨ p.credited = true) := by simp [hs, hcr]
  simp only [input, transition, hc, if_neg hok, ok_bind, pure_eq]
  simp only [conclude]
  rw [settle_of_open]
  exact hc

end Protocol

end Hiway.Transport
