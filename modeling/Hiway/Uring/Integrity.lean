import Hiway.Uring.Moves

/-!
# Requests in flight

The phases of the operations, the machines' accepted operations, the requests that the
ring holds and the count of pending completions are four records of one fact. They agree
after every move.

* `Inv.machine`, `Inv.operate`, `Inv.setOperation`: what a slot keeps when its machine, an
  operation or both move.
* `Move.inv`, `Reaches.inv`: the invariant of the slots outlives every move.
-/

namespace Hiway.Transport.Operation

/-- What is left of an operation between two calls of the driver. -/
structure Settled (o : Operation) : Prop where
  available : o.phase = .available → o.cancellationState = .none
  prepared : o.phase = .prepared → o.cancellationState = .none
  completed : o.phase = .completed → o.cancellationState = .submitted

/-- The operation of a closed link after a refresh. -/
def close (o : Operation) : Operation := o.cancel.reclaim.2

variable {o : Operation} {id : OpId}

theorem settled_new (slot : UInt32) : (new slot).Settled := ⟨fun _ => rfl, nofun, nofun⟩

/-- A refresh withdraws a preparation and requests a cancellation. -/
theorem close_eq (h : o.Settled) :
    o.close =
      match o.phase, o.cancellationState with
      | .prepared, _ => { o with phase := .available }
      | .submitted, .none => { o with cancellationState := .requested }
      | _, _ => o := by
  have hprepared := h.prepared
  have hcompleted := h.completed
  cases o with
  | mk id phase state => cases phase <;> cases state <;> simp_all [close, cancel, reclaim]

theorem Settled.close (h : o.Settled) : o.close.Settled := by
  rw [close_eq h]
  have havailable := h.available
  have hcompleted := h.completed
  have hprepared := h.prepared
  cases o with
  | mk id phase state =>
    cases phase <;> cases state <;> constructor <;> simp_all

@[simp] theorem close_id (o : Operation) : o.close.id = o.id := by
  cases o with
  | mk id phase state => cases phase <;> cases state <;> simp [Operation.close, cancel, reclaim]

theorem close_phase (h : o.Settled) : o.close.phase = .submitted ↔ o.phase = .submitted := by
  rw [close_eq h]
  cases o with
  | mk id phase state => cases phase <;> cases state <;> simp

theorem close_state (h : o.Settled) :
    o.close.cancellationState = .submitted ↔ o.cancellationState = .submitted := by
  rw [close_eq h]
  cases o with
  | mk id phase state => cases phase <;> cases state <;> simp

/-- What is free stays free. -/
theorem close_available (h : o.phase = .available) : o.close = o := by
  simp [Operation.close, cancel, reclaim, h]

/-- The original request completes: the operation is free, or waits for its cancellation. -/
theorem finish_eq (h : o.phase = .submitted) :
    (o.completed o.id).2.reclaim.2 =
      if o.cancellationState = .submitted then { o with phase := .completed }
      else { o with phase := .available, cancellationState := .none } := by
  cases o with
  | mk id phase state => cases state <;> simp_all [Operation.completed, reclaim]

theorem settled_finish (h : o.phase = .submitted) : (o.completed o.id).2.reclaim.2.Settled := by
  rw [finish_eq h]
  split
  · rename_i hstate
    exact ⟨nofun, nofun, fun _ => hstate⟩
  · exact ⟨fun _ => rfl, nofun, nofun⟩

/-- The cancellation completes. -/
theorem finishCancel_eq (h : o.Settled) (hstate : o.cancellationState = .submitted) :
    (o.cancelCompleted o.id).2.reclaim.2 =
      if o.phase = .completed then { o with phase := .available, cancellationState := .none }
      else { o with cancellationState := .completed } := by
  have havailable := h.available
  have hprepared := h.prepared
  cases o with
  | mk id phase state => cases phase <;> simp_all [cancelCompleted, reclaim]

theorem settled_finishCancel (h : o.Settled) (hstate : o.cancellationState = .submitted) :
    (o.cancelCompleted o.id).2.reclaim.2.Settled := by
  have havailable := h.available
  have hprepared := h.prepared
  rw [finishCancel_eq h hstate]
  split
  · exact ⟨fun _ => rfl, nofun, nofun⟩
  · rename_i hphase
    refine ⟨fun hp => ?_, fun hp => ?_, fun hp => absurd hp hphase⟩
    · exact absurd (hstate.symm.trans (havailable hp)) (by decide)
    · exact absurd (hstate.symm.trans (hprepared hp)) (by decide)

/-- Only a submitted operation has a cancellation to submit. -/
theorem submitted_of_cancellation (h : o.Settled) (hc : o.cancellation = some id) :
    id = o.id ∧ o.phase = .submitted ∧ o.cancellationState = .requested := by
  have havailable := h.available
  have hprepared := h.prepared
  have hcompleted := h.completed
  cases o with
  | mk oid phase state => cases phase <;> cases state <;> simp_all [cancellation]

end Hiway.Transport.Operation

namespace Hiway.Uring

open Exec Target Transport

/-! ## Slots -/

/-- The number of a lane's operation. -/
def number (index : Nat) (lane : Lane) : UInt32 := UInt32.ofNat (index * 3 + laneNumber lane)

/-- What holds of a slot, given whether its reservation is there. -/
structure Slot.Inv [Target] (index : Nat) (reserved : Bool) (s : Slot) : Prop where
  number : ∀ lane, (s.operations.get lane).id.slot = number index lane
  settled : ∀ lane, (s.operations.get lane).Settled
  vacant : s.protocol = none → s.idle = true ∧ s.alive = false
  safe : ∀ p, s.protocol = some p → p.Safe
  tracked : ∀ p, s.protocol = some p →
    ∃ a, p.accountability = some a ∧ a.connection = ⟨index, s.generation⟩
  active : ∀ p, s.protocol = some p → ∀ lane, (p.active.get lane).map Prod.fst =
    if (s.operations.get lane).phase = .submitted then some (s.operations.get lane).id else none
  held : s.isOpen = true ∨ s.idle = false → s.sockets.isSome = true ∧ reserved = true

namespace Slot

variable {index : Nat} {reserved : Bool} {s t : Slot} {p q : Protocol}

theorem isOpen_iff (hp : s.protocol = some p) : s.isOpen = true ↔ p.closed = none := by
  simp [isOpen, hp]

theorem isClosed_iff (hp : s.protocol = some p) : s.isClosed = true ↔ p.closed.isSome = true := by
  simp [isClosed, hp]

theorem exists_of_isClosed (h : s.isClosed = true) :
    ∃ p, s.protocol = some p ∧ p.closed.isSome = true := by
  cases hp : s.protocol with
  | none => simp [isClosed, hp] at h
  | some p => exact ⟨p, rfl, (isClosed_iff hp).mp h⟩

theorem idle_iff : s.idle = true ↔ ∀ lane, (s.operations.get lane).phase = .available := by
  unfold idle
  rw [List.all_eq_true]
  constructor
  · intro h lane
    exact of_decide_eq_true (h lane (by cases lane <;> simp [Lane.all]))
  · exact fun h lane _ => decide_eq_true (h lane)

theorem setOperation_setOperation (s : Slot) (lane : Lane) (o o' : Operation) :
    (s.setOperation lane o).setOperation lane o' = s.setOperation lane o' := by
  cases lane <;> rfl

@[simp] theorem setOperation_get (s : Slot) (lane : Lane) (o : Operation) :
    (s.setOperation lane o).operations.get lane = o :=
  PerLane.get_set_self ..

theorem cancelOperations_get (s : Slot) (lane : Lane) :
    s.cancelOperations.operations.get lane = (s.operations.get lane).close := by
  cases lane <;> rfl

variable [Target]

theorem new_inv (index : Nat) : (new index).Inv index false where
  number lane := by cases lane <;> rfl
  settled lane := by cases lane <;> exact Operation.settled_new _
  vacant _ := ⟨rfl, rfl⟩
  safe _ hp := by cases hp
  tracked _ hp := by cases hp
  active _ hp := by cases hp
  held h := by rcases h with h | h <;> cases h

theorem Inv.alike (h : s.Inv index reserved) (ha : s.Alike t) : t.Inv index reserved := by
  obtain ⟨hgeneration, hprotocol, hsockets, hoperations, halive⟩ := ha
  have hidle : t.idle = s.idle := by unfold idle; rw [hoperations]
  have hopen : t.isOpen = s.isOpen := by unfold isOpen; rw [hprotocol]
  refine ⟨?_, ?_, ?_, ?_, ?_, ?_, ?_⟩
  · rw [hoperations]
    exact h.number
  · rw [hoperations]
    exact h.settled
  · rw [hprotocol, hidle, halive]
    exact h.vacant
  · rw [hprotocol]
    exact h.safe
  · rw [hprotocol, hgeneration]
    exact h.tracked
  · rw [hprotocol, hoperations]
    exact h.active
  · rw [hopen, hidle, hsockets]
    exact h.held

/-- The machine and the operations move together. -/
theorem Inv.machine (h : s.Inv index reserved) (hp : s.protocol = some p)
    {operations : PerLane Operation} (hsafe : q.Safe)
    (htracked : ∀ a, p.accountability = some a →
      ∃ b, q.accountability = some b ∧ b.connection = a.connection)
    (hclosed : q.closed = none → p.closed = none)
    (hnumber : ∀ lane, (operations.get lane).id.slot = (s.operations.get lane).id.slot)
    (hsettled : ∀ lane, (operations.get lane).Settled)
    (hactive : ∀ lane, (q.active.get lane).map Prod.fst =
      if (operations.get lane).phase = .submitted then some (operations.get lane).id else none)
    (hheld : (∀ lane, (s.operations.get lane).phase = .available) → p.closed.isSome = true →
      ∀ lane, (operations.get lane).phase = .available) :
    ({ s with protocol := some q, operations := operations } : Slot).Inv index reserved := by
  refine ⟨fun lane => (hnumber lane).trans (h.number lane), hsettled, nofun, ?_, ?_, ?_, ?_⟩
  · rintro _ ⟨⟩
    exact hsafe
  · rintro _ ⟨⟩
    obtain ⟨a, ha, hconnection⟩ := h.tracked p hp
    obtain ⟨b, hb, hsame⟩ := htracked a ha
    exact ⟨b, hb, hsame.trans hconnection⟩
  · rintro _ ⟨⟩
    exact hactive
  · intro hnow
    apply h.held
    rw [isOpen_iff hp]
    by_contra hnot
    rw [not_or, Bool.not_eq_false, idle_iff] at hnot
    obtain ⟨hshut, hfree⟩ := hnot
    rcases hnow with hnow | hnow
    · exact hshut (hclosed ((isOpen_iff rfl).mp hnow))
    · have hfree := hheld hfree (by simpa [Option.isSome_iff_ne_none] using hshut)
      rw [← Bool.not_eq_true, idle_iff] at hnow
      exact hnow hfree

/-- The machine moves together with the operation of one lane. -/
theorem Inv.operate (h : s.Inv index reserved) (hp : s.protocol = some p) {lane : Lane}
    {o : Operation} (hsafe : q.Safe)
    (htracked : ∀ a, p.accountability = some a →
      ∃ b, q.accountability = some b ∧ b.connection = a.connection)
    (hclosed : q.closed = none → p.closed = none)
    (hslot : o.id.slot = (s.operations.get lane).id.slot) (hsettled : o.Settled)
    (hlane : (q.active.get lane).map Prod.fst = if o.phase = .submitted then some o.id else none)
    (hother : ∀ other, other ≠ lane → q.active.get other = p.active.get other)
    (hheld : p.closed.isSome = true → (s.operations.get lane).phase = .available →
      o.phase = .available) :
    ({ s.setOperation lane o with protocol := some q } : Slot).Inv index reserved := by
  have hget : ∀ other, other ≠ lane →
      (s.setOperation lane o).operations.get other = s.operations.get other :=
    fun other => PerLane.get_set_of_ne s.operations o
  have hself : (s.setOperation lane o).operations.get lane = o := PerLane.get_set_self ..
  refine h.machine hp hsafe htracked hclosed (fun other => ?_) (fun other => ?_) (fun other => ?_)
    fun hfree hshut other => ?_
  all_goals by_cases heq : other = lane
  · rw [heq, hself, hslot]
  · rw [hget other heq]
  · rw [heq, hself]
    exact hsettled
  · rw [hget other heq]
    exact h.settled other
  · rw [heq, hself]
    exact hlane
  · rw [hget other heq, hother other heq]
    exact h.active p hp other
  · rw [heq, hself]
    exact hheld hshut (hfree lane)
  · rw [hget other heq]
    exact hfree other

/-- An operation moves and its machine does not notice. -/
theorem Inv.setOperation (h : s.Inv index reserved) (hp : s.protocol = some p) {lane : Lane}
    {o : Operation} (hslot : o.id.slot = (s.operations.get lane).id.slot) (hsettled : o.Settled)
    (hphase : o.phase = .submitted ↔ (s.operations.get lane).phase = .submitted)
    (hid : o.phase = .submitted → o.id = (s.operations.get lane).id)
    (hheld : p.closed.isSome = true → (s.operations.get lane).phase = .available →
      o.phase = .available) : (s.setOperation lane o).Inv index reserved := by
  have hlane : (p.active.get lane).map Prod.fst =
      if o.phase = .submitted then some o.id else none := by
    rw [h.active p hp lane]
    by_cases hs : o.phase = .submitted
    · rw [if_pos hs, if_pos (hphase.mp hs), hid hs]
    · rw [if_neg hs, if_neg fun hs' => hs (hphase.mpr hs')]
  have hinv := h.operate hp (h.safe p hp) (fun a ha => ⟨a, ha, rfl⟩) id hslot hsettled hlane
    (fun _ _ => rfl) hheld
  exact hinv.alike ⟨rfl, hp, rfl, rfl, rfl⟩

theorem Inv.refresh (h : s.Inv index reserved) : s.refresh.Inv index reserved := by
  unfold Slot.refresh
  split
  · rename_i hclosed
    cases hp : s.protocol with
    | none => simp [isClosed, hp] at hclosed
    | some p =>
      have hmachine := h.machine hp (h.safe p hp)
        (fun a ha => ⟨a, ha, rfl⟩) id
        (fun lane => by rw [cancelOperations_get, Operation.close_id])
        (fun lane => by
          rw [cancelOperations_get]
          exact (h.settled lane).close)
        (fun lane => by
          rw [cancelOperations_get, Operation.close_id, h.active p hp lane]
          simp only [Operation.close_phase (h.settled lane)])
        (fun hfree _ lane => by
          rw [cancelOperations_get, Operation.close_available (hfree lane)]
          exact hfree lane)
      rw [← hp] at hmachine
      exact hmachine.alike ⟨rfl, rfl, rfl, rfl, rfl⟩
  · exact h

end Slot

theorem stamp_apply (n : Note) (a : Accountability) :
    (n.apply a).connection = a.connection ∧ (n.apply a).contract = a.contract ∧
      (n.apply a).direction = a.direction := by
  cases n <;> cases ht : a.terminal <;>
    simp [Note.apply, Accountability.observe, Accountability.admitted, Accountability.completed,
      Accountability.finish, Accountability.cancel, Accountability.record, ht]

theorem stamp_applyAll (notes : List Note) (a : Accountability) :
    stamp (Note.applyAll notes a) = stamp a ∧
      (Note.applyAll notes a).connection = a.connection := by
  induction notes generalizing a with
  | nil => exact ⟨rfl, rfl⟩
  | cons n rest ih =>
    obtain ⟨hconnection, hcontract, hdirection⟩ := stamp_apply n a
    obtain ⟨hstamp, hsame⟩ := ih (n.apply a)
    refine ⟨?_, hsame.trans hconnection⟩
    rw [Note.applyAll_cons, hstamp]
    unfold stamp
    rw [hconnection, hcontract, hdirection]

/-- An input is recorded under the connection that the machine had before. -/
theorem input_tracked [Target] {p q : Protocol} {i : Input} {r : Except Error Unit}
    {a : Accountability} (ha : p.accountability = some a) (h : p.input i = .ok (q, r)) :
    ∃ b, q.accountability = some b ∧ stamp b = stamp a ∧ b.connection = a.connection := by
  obtain ⟨notes, -, hq, -⟩ := Protocol.input_written ha h
  exact ⟨_, hq, stamp_applyAll notes a⟩

theorem open_of_open [Target] {p q : Protocol} {i : Input} {r : Except Error Unit}
    (h : p.input i = .ok (q, r)) (hq : q.closed = none) : p.closed = none := by
  cases hp : p.closed with
  | none => rfl
  | some error =>
    rw [Protocol.input_closed hp h] at hq
    cases hq

theorem closed_of_shut (p : Protocol) (error : Error) (i : Input) :
    ((p.shut error).settle i).closed.isSome = true := by
  rw [Protocol.settle_closed]
  cases hc : p.closed <;> simp [Protocol.shut, hc]

section

variable [Target] {p q : Protocol} {r : Except Error Unit} {error : Error}

theorem closed_of_error {i : Input} (h : p.input i = .ok (q, .error error)) :
    q.closed.isSome = true := by
  obtain ⟨⟨q', r'⟩, -, hq⟩ := bind_eq_ok.mp h
  cases hq
  rw [Protocol.settle_closed]
  exact Option.isSome_iff_ne_none.mpr (Protocol.conclude_closed_error q' error)

theorem closed_of_revoked (h : p.input .revoked = .ok (q, r)) : q.closed.isSome = true := by
  obtain ⟨⟨q', r'⟩, ht, hq⟩ := bind_eq_ok.mp h
  cases ht
  cases hq
  exact closed_of_shut p .revoked .revoked

theorem closed_of_closing (h : p.input (.closed error) = .ok (q, r)) : q.closed.isSome = true := by
  obtain ⟨⟨q', r'⟩, ht, hq⟩ := bind_eq_ok.mp h
  cases ht
  cases hq
  exact closed_of_shut p error (.closed error)

end

/-! ## The shared state -/

namespace Shared

variable {G : Type} {links : Nat} {s s' : Shared G links} {index other : Fin links} {f : Slot → Slot}

@[simp] theorem update_self : (s.update index f).slots index = f (s.slots index) :=
  Function.update_self ..

@[simp] theorem queue_slots [NeZero links] : (s.queue index).slots = s.slots := rfl

theorem update_of_ne (h : other ≠ index) : (s.update index f).slots other = s.slots other :=
  Function.update_of_ne h ..

theorem update_update {g : Slot → Slot} :
    (s.update index f).update index g = s.update index (g ∘ f) := by
  unfold update
  simp only [Function.update_self, Function.update_idem, Function.comp_apply]

structure Inv [Target] [NeZero links] (s : Shared G links) : Prop where
  slot : ∀ index, (s.slots index).Inv index.val (s.reservations index).isSome
  ready : s.ready.Inv
  borrowed : ∀ index, s.borrows index ≠ 0 → (s.slots index).alive = true

@[simp] theorem answered_self [Target] {p q : Protocol} {i : Input} :
    (s.answered index p i q).slots index = { s.slots index with protocol := some q } :=
  update_self (s := s) (f := fun slot => { slot with protocol := some q })

theorem answered_of_ne [Target] {p q : Protocol} {i : Input} (h : other ≠ index) :
    (s.answered index p i q).slots other = s.slots other :=
  update_of_ne (s := s) (f := fun slot => { slot with protocol := some q }) h

variable [Target]

theorem input_eq {p q : Protocol} {i : Input} {result : Except Error Unit} :
    s.input index p i = .ok (q, result, s') ↔
      p.input i = .ok (q, result) ∧ s' = s.answered index p i q := by
  unfold input
  rw [bind_eq_ok]
  constructor
  · rintro ⟨⟨q', r'⟩, hp, h⟩
    cases h
    exact ⟨hp, rfl⟩
  · rintro ⟨hp, rfl⟩
    exact ⟨_, hp, rfl⟩

theorem input_of {p q : Protocol} {i : Input} {result : Except Error Unit}
    (h : p.input i = .ok (q, result)) :
    s.input index p i = .ok (q, result, s.answered index p i q) :=
  input_eq.mpr ⟨h, rfl⟩

variable [NeZero links]

theorem Inv.update (h : s.Inv)
    (hf : (f (s.slots index)).Inv index.val (s.reservations index).isSome)
    (halive : s.borrows index ≠ 0 → (f (s.slots index)).alive = true) : (s.update index f).Inv := by
  refine ⟨fun other => ?_, h.ready, fun other hb => ?_⟩
  · by_cases heq : other = index
    · subst heq
      rw [update_self]
      exact hf
    · rw [update_of_ne heq]
      exact h.slot other
  · by_cases heq : other = index
    · subst heq
      rw [update_self]
      exact halive hb
    · rw [update_of_ne heq]
      exact h.borrowed other hb

/-- A local input leaves the accepted operations alone. -/
theorem active_of_isLocal {p q : Protocol} {i : Input} {r : Except Error Unit}
    (hi : isLocal i = true) (h : p.input i = .ok (q, r)) : q.active = p.active := by
  cases Protocol.input_active h with
  | same hq => exact hq
  | accept => cases hi
  | release => cases hi

theorem Inv.input {p q : Protocol} {i : Input} {r : Except Error Unit} (h : s.Inv)
    (hp : (s.slots index).protocol = some p) (hi : isLocal i = true)
    (hinput : p.input i = .ok (q, r)) :
    ({ s.slots index with protocol := some q } : Slot).Inv index.val
      (s.reservations index).isSome := by
  have hslot := h.slot index
  obtain ⟨q', r', hq', hsafe, -⟩ := Protocol.input_safe (hslot.safe p hp) i
  rw [hinput] at hq'
  cases hq'
  refine hslot.machine hp hsafe (fun a ha => ?_) (open_of_open hinput) (fun _ => rfl)
    hslot.settled (fun lane => ?_) (fun hfree _ => hfree)
  · obtain ⟨b, hb, -, hconnection⟩ := input_tracked ha hinput
    exact ⟨b, hb, hconnection⟩
  · rw [active_of_isLocal hi hinput]
    exact hslot.active p hp lane

/-- A slot that loses what it holds has to be closed and idle. -/
theorem Inv.drained {slot : Slot} {n : Nat} {reserved : Bool} (h : slot.Inv n reserved)
    (hidle : slot.idle = true) (hclosed : slot.isClosed = true) :
    ({ slot with sockets := none } : Slot).Inv n false := by
  refine ⟨h.number, h.settled, h.vacant, h.safe, h.tracked, h.active, fun hheld => ?_⟩
  rcases hheld with hopen | hbusy
  · cases hp : slot.protocol with
    | none => simp [Slot.isClosed, hp] at hclosed
    | some p =>
      rw [Slot.isClosed_iff hp] at hclosed
      have hopen : p.closed = none := (Slot.isOpen_iff (s := { slot with sockets := none }) hp).mp hopen
      rw [hopen] at hclosed
      cases hclosed
  · exact absurd (hidle.symm.trans hbusy) (by decide)

theorem Move.inv (h : s.Inv) (hmove : s.Move s') : s'.Inv := by
  cases hmove with
  | flags index f hf =>
    refine h.update ((h.slot index).alike hf) fun hb => ?_
    rw [hf.alive]
    exact h.borrowed index hb
  | input hp hi hinput =>
    obtain ⟨hanswer, rfl⟩ := input_eq.mp hinput
    have hupdate := h.update (f := fun slot => { slot with protocol := some _ })
      (h.input hp hi hanswer) (h.borrowed _)
    exact ⟨hupdate.slot, hupdate.ready, hupdate.borrowed⟩
  | observe sequence hp heffect =>
    rename_i index p
    have hslot := h.slot index
    refine h.update (f := fun slot => { slot with protocol := some _ }) (hslot.machine hp
      (Protocol.safe_account (hslot.safe p hp) _) (fun a ha => ?_) id (fun _ => rfl) hslot.settled
      (hslot.active p hp) fun hfree _ => hfree) (h.borrowed index)
    exact ⟨a.observe sequence, by simp [Protocol.observeSequence, Protocol.account, ha], rfl⟩
  | refresh index =>
    refine h.update (h.slot index).refresh fun hb => ?_
    have halive := h.borrowed index hb
    unfold Slot.refresh
    split <;> exact halive
  | queue index => exact ⟨h.slot, h.ready.push index, h.borrowed⟩
  | release index hb hc =>
    refine h.update ?_ fun hb' => absurd hb hb'
    have hslot := h.slot index
    exact ⟨hslot.number, hslot.settled, fun hp => ⟨(hslot.vacant hp).1, rfl⟩, hslot.safe,
      hslot.tracked, hslot.active, hslot.held⟩
  | borrow index count hcount =>
    refine ⟨h.slot, h.ready, fun other hb => ?_⟩
    by_cases heq : other = index
    · subst heq
      dsimp only at hb
      rw [Function.update_self] at hb
      exact hcount hb
    · dsimp only at hb
      rw [Function.update_of_ne heq] at hb
      exact h.borrowed other hb
  | stop => exact ⟨h.slot, h.ready, h.borrowed⟩
  | reclaim index hidle hclosed hb =>
    refine ⟨fun other => ?_, h.ready, fun other hb' => ?_⟩
    · by_cases heq : other = index
      · subst heq
        dsimp only
        rw [update_self, Function.update_self]
        exact Inv.drained (h.slot _) hidle hclosed
      · dsimp only
        rw [update_of_ne heq, Function.update_of_ne heq]
        exact h.slot other
    · by_cases heq : other = index
      · exact absurd (heq ▸ hb) hb'
      · dsimp only
        rw [update_of_ne heq]
        exact h.borrowed other hb'
  | retire index p hp hc hidle halive =>
    have hslot : ({ s.slots index with protocol := none } : Slot).Inv index.val
        (s.reservations index).isSome := by
      have hslot := h.slot index
      refine ⟨hslot.number, hslot.settled, fun _ => ⟨hidle, halive⟩, ?_, ?_, ?_, ?_⟩
      · rintro _ ⟨⟩
      · rintro _ ⟨⟩
      · rintro _ ⟨⟩
      · rintro (hopen | hbusy)
        · cases hopen
        · exact hslot.held (Or.inr hbusy)
    have hupdate := h.update (f := fun slot => { slot with protocol := none }) hslot
      (h.borrowed index)
    exact ⟨hupdate.slot, hupdate.ready, hupdate.borrowed⟩

theorem Reaches.inv (h : s.Inv) (hreaches : s.Reaches s') : s'.Inv := by
  induction hreaches with
  | refl => exact h
  | tail _ hmove ih => exact hmove.inv ih

end Shared

end Hiway.Uring
