import Hiway.Uring.Deeds

/-!
# Turns

What one turn of a link in a pass does to the ring, to the queue of ready links and to
the slots.

* `cancel_returns`, `submit_returns`: a cancellation, and a submission with its admission.
* `attempt_returns`: what the attempt of a link queues, and why it may not.
* `conclude_returns`: the link goes back to the queue if it has more to submit.
-/

namespace Hiway.Uring

open Exec Target Transport

theorem PerLane.set_get {α : Type} (v : PerLane α) (lane : Lane) : v.set lane (v.get lane) = v := by
  cases lane <;> rfl

namespace Shared

variable [Target] {G : Type} {links : Nat} [NeZero links] {s t : Shared G links}
  {index : Fin links}

/-- Moves of the shared state only add to the queue of ready links. -/
theorem Move.extends (hs : s.Inv) (h : s.Move t) : s.ready.contents <+: t.ready.contents := by
  cases h with
  | queue index =>
    change s.ready.contents <+: (s.ready.push index).contents
    rw [Ready.contents_push hs.ready]
    split
    · exact List.prefix_rfl
    · exact List.prefix_append _ _
  | input hp hi hinput =>
    obtain ⟨-, rfl⟩ := input_eq.mp hinput
    exact List.prefix_rfl
  | flags | observe | refresh | release | borrow | stop | reclaim | retire => exact List.prefix_rfl

theorem Reaches.extends (hs : s.Inv) (h : s.Reaches t) : s.ready.contents <+: t.ready.contents := by
  induction h with
  | refl => exact List.prefix_rfl
  | tail hreaches hmove ih => exact ih.trans (hmove.extends (Reaches.inv hs hreaches))

end Shared

/-- Closing an operation leaves nothing to close. -/
theorem close_close {o : Operation} (h : o.Settled) : o.close.close = o.close := by
  rw [Operation.close_eq h.close, Operation.close_eq h]
  cases o with
  | mk id phase state => cases phase <;> cases state <;> rfl

namespace Slot

variable {s : Slot}

theorem Barred.refresh (h : s.Barred) : s.refresh.Barred := by
  unfold Slot.refresh
  split <;> exact h

/-- A refresh leaves nothing for another one. -/
theorem refresh_refresh [Target] {n : Nat} {reserved : Bool} (h : s.Inv n reserved) :
    s.refresh.refresh = s.refresh := by
  have hdata := close_close (h.settled .data)
  have hsend := close_close (h.settled .creditSend)
  have hreceive := close_close (h.settled .creditReceive)
  have hoperations : s.cancelOperations.cancelOperations = s.cancelOperations := by
    unfold cancelOperations
    unfold Operation.close at hdata hsend hreceive
    simp only [PerLane.get_data, PerLane.get_creditSend, PerLane.get_creditReceive]
      at hdata hsend hreceive
    simp only [hdata, hsend, hreceive]
  by_cases hclosed : s.isClosed = true
  · have hfirst : s.refresh = { s.cancelOperations with
        work := { s.work with reclaim := s.work.reclaim ||
          (s.cancelOperations.idle && (s.sockets.isSome || !s.alive)) } } := if_pos hclosed
    have hsecond : s.refresh.refresh = { s.refresh.cancelOperations with
        work := { s.refresh.work with reclaim := s.refresh.work.reclaim ||
          (s.refresh.cancelOperations.idle && (s.sockets.isSome || !s.alive)) } } := by
      rw [hfirst]
      exact if_pos hclosed
    have hcancel : s.refresh.cancelOperations = s.refresh := by
      rw [hfirst]
      unfold cancelOperations at hoperations ⊢
      simp only [Slot.mk.injEq] at hoperations ⊢
      tauto
    have hidle : s.refresh.idle = s.cancelOperations.idle := by
      rw [hfirst]
      rfl
    rw [hsecond, hcancel, hidle]
    rw [hfirst]
    dsimp only
    rw [Bool.or_assoc, Bool.or_self]
  · unfold Slot.refresh
    rw [if_neg hclosed, if_neg hclosed]

end Slot

/-- The entry for what a machine requests. -/
theorem Driver.request_spec (lane : Lane) (sockets : Nat × Nat) {effect : Effect} (bytes ioprio : Nat)
    (h : effect.isRequest = true) : ∃ opcode hint,
      Driver.request lane sockets effect bytes ioprio = some (opcode, hint) ∧ opcode.length ≤ bytes ∧
        ∀ userData, (⟨opcode, userData⟩ : Entry).isRequest = true := by
  cases effect with
  | receive _ offset length => exact ⟨_, _, rfl, Nat.min_le_right _ _, fun _ => rfl⟩
  | transmit _ offset length => exact ⟨_, _, rfl, Nat.min_le_right _ _, fun _ => rfl⟩
  | provide | admission | cancel => cases h

namespace Driver

/-! ## Denials -/

section

variable {G : Type} {links : Nat} {d : Driver G links} {index : Fin links}

/-- A send or receive may not be queued now: the bytes of the pass are spent, or but one
entry is left in the submission queue. -/
def Denied (d : Driver G links) (count : Nat) : Prop :=
  count = 0 ∨ d.ring.queue.length ≥ d.ring.capacity - 1

instance (d : Driver G links) (count : Nat) : Decidable (d.Denied count) :=
  inferInstanceAs (Decidable (_ ∨ _))

/-- The link has a lane to submit, and neither the ring nor the bytes left allow it. -/
def Stuck (d : Driver G links) (index : Fin links) (count : Nat) : Prop :=
  ∃ lane, d.chosen index = .ok (some lane) ∧
    if ((d.slot index).operations.get lane).cancellation.isSome then
      d.ring.queue.length ≥ d.ring.capacity
    else d.Denied count

theorem Stuck.denied {count : Nat} (h : d.Stuck index count) : d.Denied count := by
  obtain ⟨lane, -, hlane⟩ := h
  split at hlane
  · exact Or.inr ((Nat.sub_le _ _).trans hlane)
  · exact hlane

end

variable [Target] {G : Type} {links bytes : Nat} [NeZero links] {d d' : Driver G links}
  {index : Fin links} {lane : Lane}

/-- One request more does not overflow the count of pending completions. -/
theorem Inv.add_pending (hf : Fits links bytes) (h' : d'.Inv)
    (hpending : d'.pendingCompletions = d.pendingCompletions + 1) :
    add d.pendingCompletions 1 = .ok (d.pendingCompletions + 1) := by
  apply add_of_le
  rw [← hpending, h'.pending]
  exact h'.ledger.card_le.trans hf.completions_word

/-- A cancellation is queued if there is room. -/
theorem cancel_returns (hf : Fits links bytes) (h : d.Inv) {id : OpId}
    (hid : ((d.slot index).operations.get lane).cancellation = some id) :
    (d.ring.queue.length ≥ d.ring.capacity ∧ d.cancel index lane = .ok (.blocked, d)) ∨
    ∃ o d', d.ring.queue.length < d.ring.capacity ∧
      d.cancel index lane = .ok (.submitted 0, d') ∧ d.Reaches d' ∧
      d'.ring = d.ring.enqueue ⟨.asyncCancel (token id), cancelToken id⟩ ∧
      d'.shared = d.shared.update index (·.setOperation lane o) := by
  unfold cancel
  dsimp only
  rw [hid]
  dsimp only
  by_cases hroom : d.ring.queue.length < d.ring.capacity
  · have hpush := Ring.push_of_lt hroom ⟨.asyncCancel (token id), cancelToken id⟩
    have hmove := Move.cancel (d := d) hid hpush
    rw [hpush]
    dsimp only
    rw [Inv.add_pending hf (hmove.inv hf h) rfl]
    exact Or.inr ⟨_, _, hroom, rfl, .single hmove, rfl, rfl⟩
  · rw [Ring.push_of_le (not_lt.mp hroom)]
    exact Or.inl ⟨not_lt.mp hroom, rfl⟩

/-- What `submit_entered` may do to a driver with room in the submission queue. -/
structure Entered (d : Driver G links) (index : Fin links) (bytes : Nat) (attempt : Attempt)
    (d' : Driver G links) : Prop where
  reaches : d.Reaches d'
  ready : d'.shared.ready = d.shared.ready
  others : ∀ i, i ≠ index → d'.slot i = d.slot i
  outcome : attempt = .idle ∧ d'.ring = d.ring ∨
    ∃ entry, attempt = .submitted entry.opcode.length ∧ entry.isRequest = true ∧
      entry.opcode.length ≤ bytes ∧
        d'.ring = d.ring.enqueue entry

theorem Entered.idle (d : Driver G links) (index : Fin links) (bytes : Nat) :
    d.Entered index bytes .idle d :=
  ⟨.refl, rfl, fun _ _ => rfl, Or.inl ⟨rfl, rfl⟩⟩

/-- The last steps of `submit_entered`: a prepared operation is accepted. -/
theorem accept_reaches (hf : Fits links bytes) (h : d.Inv) {p : Protocol} (index : Fin links)
    (lane : Lane) (opcode : Opcode) (hint : Bool) (hp : (d.slot index).protocol = some p)
    (hphase : (d.operation index lane).phase = .prepared)
    (heffect : ∃ e, p.effect lane = .ok (some e) ∧ e.isRequest = true)
    (hroom : d.ring.queue.length < d.ring.capacity) :
    add d.pendingCompletions 1 = .ok (d.pendingCompletions + 1) ∧
    ∃ q r s, (d.shared.update index fun slot =>
        { slot.setOperation lane ((d.operation index lane).accepted (d.operation index lane).id).2 with
          receiveHints := slot.receiveHints.set lane hint }).input index p
            (.accepted lane (d.operation index lane).id) = .ok (q, r, s) ∧
      d.Reaches { d with
        ring := d.ring.enqueue ⟨opcode, token (d.operation index lane).id⟩
        shared := s
        pendingCompletions := d.pendingCompletions + 1 } ∧
      s.ready = d.shared.ready ∧ ∀ i, i ≠ index → s.slots i = d.shared.slots i := by
  have hflags : d.Reaches (d.update index fun slot =>
      { slot with receiveHints := slot.receiveHints.set lane hint }) :=
    .single (.shared (.flags index _ ⟨rfl, rfl, rfl, rfl, rfl⟩))
  obtain ⟨q, r, hanswer, -⟩ := Protocol.input_safe ((h.shared.slot index).safe p hp)
    (.accepted lane (d.operation index lane).id)
  have hslot : (d.update index fun slot =>
      { slot with receiveHints := slot.receiveHints.set lane hint }).slot index = _ := update_slot _
  have hoperation : ((d.update index fun slot =>
      { slot with receiveHints := slot.receiveHints.set lane hint }).slot index).operations.get lane =
        d.operation index lane := by
    rw [hslot]
    rfl
  have hmove := Move.accept (p := p) (by rw [hslot]; exact hp) (congrArg Operation.id hoperation)
    ((congrArg Operation.phase hoperation).trans hphase) heffect
    (Ring.push_of_lt hroom ⟨opcode, token (d.operation index lane).id⟩) (Shared.input_of hanswer)
  rw [hoperation] at hmove
  have hreaches := hflags.tail hmove
  refine ⟨Inv.add_pending hf (Reaches.inv hf h hreaches) rfl, q, r, _, Shared.input_of hanswer, ?_,
    rfl, fun i hi => ?_⟩
  · have hupdate : ((d.update index fun slot =>
        { slot with receiveHints := slot.receiveHints.set lane hint }).shared.update index
          (·.setOperation lane ((d.operation index lane).accepted (d.operation index lane).id).2)) =
        d.shared.update index fun slot =>
          { slot.setOperation lane ((d.operation index lane).accepted (d.operation index lane).id).2
            with receiveHints := slot.receiveHints.set lane hint } :=
      (Shared.update_update (s := d.shared)
        (f := fun slot => { slot with receiveHints := slot.receiveHints.set lane hint })).trans rfl
    rw [hupdate] at hreaches
    exact hreaches
  · unfold Shared.answered
    dsimp only
    rw [Shared.update_of_ne hi, Shared.update_of_ne hi]

/-- An operation that is free is prepared when its lane is entered. -/
theorem prepared_reaches (hopen : (d.slot index).isOpen = true)
    (hfree : (d.slot index).free lane = true) : ∃ o,
      (if ((d.slot index).operations.get lane).phase = .prepared then
        (some ((d.slot index).operations.get lane).id, (d.slot index).operations.get lane)
      else ((d.slot index).operations.get lane).prepare) = (some o.id, o) ∧
        o.phase = .prepared ∧ d.Reaches (d.update index (·.setOperation lane o)) := by
  by_cases hphase : ((d.slot index).operations.get lane).phase = .prepared
  · rw [if_pos hphase]
    refine ⟨_, rfl, hphase, ?_⟩
    have hsame : (d.shared.slots index).setOperation lane
        ((d.shared.slots index).operations.get lane) = d.shared.slots index := by
      unfold Slot.setOperation
      rw [PerLane.set_get]
    have hupdate : d.update index (·.setOperation lane ((d.slot index).operations.get lane)) = d := by
      unfold update Shared.update slot
      dsimp only
      rw [hsame, Function.update_eq_self]
    rw [hupdate]
  · rw [if_neg hphase]
    have havailable : ((d.slot index).operations.get lane).phase = .available := by
      have hfree := of_decide_eq_true hfree
      exact hfree.resolve_right hphase
    have hprepare : ((d.slot index).operations.get lane).prepare =
        (some { ((d.slot index).operations.get lane).id with
          generation := ((d.slot index).operations.get lane).id.generation + 1 },
        { (d.slot index).operations.get lane with
          id := { ((d.slot index).operations.get lane).id with
            generation := ((d.slot index).operations.get lane).id.generation + 1 }
          phase := .prepared }) := by
      unfold Operation.prepare
      rw [if_neg (not_not.mpr havailable)]
    rw [hprepare]
    exact ⟨_, rfl, rfl, .single (.prepare hopen hprepare)⟩

theorem submitEntered_returns (hf : Fits links bytes) (h : d.Inv) (index : Fin links) (lane : Lane)
    (count : Nat)
    (hroom : d.ring.queue.length < d.ring.capacity - 1) :
    ∃ attempt d', d.submitEntered index lane count = .ok (attempt, d') ∧
      d.Entered index count attempt d' := by
  have hidle := Entered.idle d index count
  unfold submitEntered
  dsimp only
  cases hp : (d.slot index).protocol with
  | none => exact ⟨_, _, rfl, hidle⟩
  | some p =>
    obtain ⟨e, he, -⟩ := Protocol.effect_spec ((h.shared.slot index).safe p hp) lane
    dsimp only
    rw [he, ok_bind]
    cases e with
    | none => exact ⟨_, _, rfl, hidle⟩
    | some effect =>
      dsimp only
      by_cases hbad : effect.isRequest = false ∨ (d.slot index).free lane = false
      · rw [if_pos hbad]
        exact ⟨_, _, rfl, hidle⟩
      · rw [if_neg hbad, if_neg (not_le.mpr hroom)]
        rw [not_or, Bool.not_eq_false, Bool.not_eq_false] at hbad
        obtain ⟨hreq, hfree⟩ := hbad
        obtain ⟨hopen, -⟩ := Protocol.effect_request he hreq
        have hheld := (h.shared.slot index).held (Or.inl ((Slot.isOpen_iff hp).mpr hopen))
        obtain ⟨sockets, hsockets⟩ : ∃ sockets, (d.slot index).sockets = some sockets :=
          Option.isSome_iff_exists.mp hheld.1
        -- Prepared before or prepared now, the operation waits to be accepted.
        obtain ⟨o, hprepared, hphase, hreaches⟩ :=
          prepared_reaches ((Slot.isOpen_iff hp).mpr hopen) hfree
        rw [hprepared]
        dsimp only
        obtain ⟨opcode, hint, hrequest, hlength, hkind⟩ := request_spec lane sockets count
          (d.update index (·.setOperation lane o)).receiveIoprio hreq
        rw [hsockets, unwrap_some, ok_bind, hrequest]
        dsimp only
        have hslot : (d.update index (·.setOperation lane o)).slot index = _ := update_slot _
        have hoperation : (d.update index (·.setOperation lane o)).operation index lane = o := by
          unfold operation
          rw [hslot, Slot.setOperation_get]
        obtain ⟨hadd, q, r, s, hinput, haccept, hready, hothers⟩ := accept_reaches hf
          (hreaches.inv hf h) index lane opcode hint (by rw [hslot]; exact hp)
          (by rw [hoperation]; exact hphase) ⟨effect, he, hreq⟩
          (lt_of_lt_of_le hroom (Nat.sub_le _ _))
        rw [hoperation] at hinput haccept
        have hpush : (d.update index (·.setOperation lane o)).ring.push ⟨opcode, token o.id⟩ = _ :=
          Ring.push_of_lt (lt_of_lt_of_le hroom (Nat.sub_le _ _)) _
        rw [hpush]
        dsimp only
        rw [hadd, ok_bind, hinput, ok_bind]
        refine ⟨_, _, rfl, ⟨hreaches.trans haccept, hready, fun i hi => ?_, Or.inr ⟨_, rfl, hkind _,
          hlength, rfl⟩⟩⟩
        exact (hothers i hi).trans (update_slot_of_ne hi _)

/-- What an attempt has done to a ring. -/
inductive Outcome (ring : Ring) (count : Nat) : Attempt → Ring → Prop
  | idle : Outcome ring count .idle ring
  | blocked : Outcome ring count .blocked ring
  | queued (entry : Entry) (hlength : entry.opcode.length ≤ count)
      (hroom : entry.isRequest = true → ring.queue.length + 1 < ring.capacity) :
      Outcome ring count (.submitted entry.opcode.length) (ring.enqueue entry)

/-- What moves of the driver for link `index` leave to the other links. -/
structure Leads (index : Fin links) (d d' : Driver G links) : Prop where
  reaches : d.Reaches d'
  contents : d.shared.ready.contents <+: d'.shared.ready.contents
  attends : ∀ i, i ≠ index → Shared.Attends i d.shared d'.shared

theorem Leads.refl (index : Fin links) (d : Driver G links) : Leads index d d :=
  ⟨.refl, List.prefix_rfl, fun i _ => .refl i _⟩

theorem Leads.trans {d'' : Driver G links} (h : Leads index d d') (h' : Leads index d' d'') :
    Leads index d d'' where
  reaches := h.reaches.trans h'.reaches
  contents := h.contents.trans h'.contents
  attends i hi := (h.attends i hi).trans (h'.attends i hi)

/-- Only the slot of the link changes, and the queue stays. -/
theorem Leads.of_slots (hreaches : d.Reaches d') (hready : d'.shared.ready = d.shared.ready)
    (hothers : ∀ i, i ≠ index → d'.slot i = d.slot i) : Leads index d d' where
  reaches := hreaches
  contents := by rw [hready]
  attends i hi := .other (fun hp => by rw [hready]; exact hp) (hothers i hi)

theorem Entered.leads {attempt : Attempt} {count : Nat} (h : d.Entered index count attempt d') :
    Leads index d d' :=
  .of_slots h.reaches h.ready h.others

/-- What one attempt for a link may do. -/
structure Attempted (d : Driver G links) (index : Fin links) (count : Nat)
    (s : Submission G links) : Prop where
  leads : Leads index d s.driver
  outcome : Outcome d.ring count s.attempt s.driver.ring
  /-- No callback runs once sends and receives are denied. -/
  denied : d.Denied count → s.driver.shared.ready = d.shared.ready ∧
    ∀ i, i ≠ index → s.driver.slot i = d.slot i
  barred : (d.slot index).Barred → s.answer = none ∧ (s.driver.slot index).Barred
  contended : s.answer = some (.error .contended) → (s.driver.slot index).Barred

theorem Attempted.refl (d : Driver G links) (index : Fin links) (count : Nat)
    {attempt : Attempt} (hattempt : attempt = .idle ∨ attempt = .blocked)
    (replies : List (Reply links)) : d.Attempted index count ⟨attempt, none, replies, d⟩ where
  leads := .refl index d
  outcome := by
    rcases hattempt with rfl | rfl
    · exact .idle
    · exact .blocked
  denied _ := ⟨rfl, fun _ _ => rfl⟩
  barred hb := ⟨rfl, hb⟩
  contended h := by cases h

theorem offersRequest_iff (h : d.Inv) :
    (d.slot index).offersRequest lane = .ok true ↔ ∃ p, (d.slot index).protocol = some p ∧
      (d.slot index).free lane = true ∧ ∃ e, p.effect lane = .ok (some e) ∧ e.isRequest = true := by
  unfold Slot.offersRequest
  cases hp : (d.slot index).protocol with
  | none =>
    constructor
    · intro hoffers
      cases hoffers
    · rintro ⟨p, hp', -⟩
      cases hp'
  | some p =>
    obtain ⟨b, hb, hspec⟩ := Slot.requests_returns ((h.shared.slot index).safe p hp) (d.slot index) lane
    dsimp only
    rw [hb]
    constructor
    · intro htrue
      cases htrue
      exact ⟨p, rfl, hspec.mp rfl⟩
    · rintro ⟨p', hp', hwants⟩
      cases hp'
      rw [hspec.mpr hwants]

/-- What futures do in a callback. -/
theorem acts_leads (h : d.Inv) (index : Fin links) (as : List (Act links)) :
    ∃ s, d.shared.acts as = .ok s ∧ Leads index d (d.withShared s) := by
  obtain ⟨s, hs, hreaches⟩ := Shared.acts_returns h.shared as
  exact ⟨s, hs, Reaches.shared hreaches, hreaches.extends h.shared,
    fun i _ => .deeds (Shared.acts_deeds hs)⟩

theorem defer_leads (d : Driver G links) (mode : Admission) (index : Fin links) :
    Leads index d (d.defer mode index) ∧ (d.defer mode index).ring = d.ring := by
  unfold defer
  split
  · exact ⟨.of_slots (.single (.shared (.flags index (fun slot =>
      { slot with work := { slot.work with notifyAuthority := true } })
        ⟨rfl, rfl, rfl, rfl, rfl⟩))) rfl fun _ hi => update_slot_of_ne hi _, rfl⟩
  · exact ⟨.refl index d, rfl⟩

/-- A refused link is contended or closed. -/
theorem refuse_leads (h : d.Inv) (index : Fin links) (error : TopicError) :
    ∃ s, refuse d.shared index error = .ok s ∧ Leads index d (d.withShared s) ∧
      (error = .contended → (s.slots index).Barred) := by
  obtain ⟨s, hs, hreaches⟩ := Shared.refuse_returns h.shared index error
  refine ⟨s, hs, ⟨Reaches.shared hreaches, hreaches.extends h.shared, fun i hi => ?_⟩, fun hc => ?_⟩
  · unfold refuse at hs
    split at hs
    · cases hs
      exact .other id (update_slot_of_ne hi _)
    · split at hs
      · cases hs
        exact .refl i _
      · obtain ⟨⟨q, r, u⟩, hinput, hs⟩ := bind_eq_ok.mp hs
        obtain ⟨-, rfl⟩ := Shared.input_eq.mp hinput
        cases hs
        refine .other id ?_
        exact (Shared.update_of_ne (f := (·.wakeIf true)) hi).trans (Shared.answered_of_ne hi)
  · unfold refuse at hs
    rw [if_pos hc] at hs
    cases hs
    rw [Shared.update_self]
    exact Or.inl rfl

theorem submit_returns (hf : Fits links bytes) (h : d.Inv) (mode : Admission) (count : Nat)
    (replies : List (Reply links)) (hoffers : (d.slot index).offersRequest lane = .ok true)
    (hcontended : (d.slot index).contended = false) :
    ∃ s, d.submit mode index lane count replies = .ok s ∧ d.Attempted index count s ∧
      (d.Denied count → s = ⟨.blocked, none, replies, d⟩) ∧
      (s.attempt = .blocked → d.Denied count) := by
  obtain ⟨p, hp, hfree, e, he, hreq⟩ := (offersRequest_iff h).mp hoffers
  have hopen := (Slot.isOpen_iff hp).mpr (Protocol.effect_request he hreq).1
  have hheld := (h.shared.slot index).held (Or.inl hopen)
  unfold submit
  rw [hoffers, ok_bind, if_neg (fun hfalse => by cases hfalse)]
  by_cases hdenied : count = 0 ∨ d.ring.queue.length ≥ d.ring.capacity - 1
  · rw [if_pos hdenied]
    exact ⟨_, rfl, Attempted.refl d index count (Or.inr rfl) replies, fun _ => rfl, fun _ => hdenied⟩
  · have hroom := not_le.mp (not_or.mp hdenied).2
    rw [if_neg hdenied, if_neg (by
      rw [Option.isNone_iff_eq_none, ← Option.not_isSome_iff_eq_none]
      exact not_not.mpr hheld.2)]
    obtain ⟨hdefer, hring⟩ := defer_leads d mode index
    have hinv := hdefer.reaches.inv hf h
    obtain ⟨s₁, hs₁, hleads₁⟩ := acts_leads hinv index (Reply.next replies).1.before
    have hinv₁ := hleads₁.reaches.inv hf hinv
    have hleads := hdefer.trans hleads₁
    have hbarred : ¬(d.slot index).Barred := by
      rintro (hc | ho)
      · rw [hcontended] at hc
        cases hc
      · rw [hopen] at ho
        cases ho
    dsimp only
    rw [hs₁, ok_bind]
    cases hanswer : (Reply.next replies).1.entered with
    | ok _ =>
      obtain ⟨attempt, d₂, hsubmit, hentered⟩ := submitEntered_returns hf hinv₁ index lane
        count (by
          change (d.defer mode index).ring.queue.length < (d.defer mode index).ring.capacity - 1
          rw [hring]
          exact hroom)
      have hleads₂ := hleads.trans hentered.leads
      obtain ⟨s₃, hs₃, hleads₃⟩ :=
        acts_leads (hleads₂.reaches.inv hf h) index (Reply.next replies).1.after
      unfold withShared at hsubmit
      dsimp only
      rw [hsubmit, ok_bind]
      dsimp only
      rw [hs₃, ok_bind]
      refine ⟨_, rfl, ⟨hleads₂.trans hleads₃, ?_, fun hd => absurd hd hdenied,
        fun hb => absurd hb hbarred, fun hc => ?_⟩, fun hd => absurd hd hdenied, fun hb => ?_⟩
      · rcases hentered.outcome with ⟨rfl, hsame⟩ | ⟨entry, rfl, -, hlength, hqueued⟩
        · change Outcome d.ring count .idle d₂.ring
          rw [hsame]
          change Outcome d.ring count .idle (d.defer mode index).ring
          rw [hring]
          exact .idle
        · change Outcome d.ring count _ d₂.ring
          rw [hqueued]
          change Outcome d.ring count _ ((d.defer mode index).ring.enqueue entry)
          rw [hring]
          exact .queued entry hlength fun _ => by omega
      · cases hc
      · rcases hentered.outcome with ⟨rfl, -⟩ | ⟨entry, rfl, -⟩
        · cases hb
        · cases hb
    | error error =>
      obtain ⟨s₂, hs₂, hleads₂, hbarred₂⟩ := refuse_leads hinv₁ index error
      dsimp only
      unfold withShared at hs₂
      dsimp only at hs₂
      rw [hs₂, ok_bind]
      refine ⟨_, rfl, ⟨hleads.trans hleads₂, ?_, fun hd => absurd hd hdenied,
        fun hb => absurd hb hbarred, fun hc => ?_⟩, fun hd => absurd hd hdenied, fun hb => ?_⟩
      · change Outcome d.ring count .idle (d.defer mode index).ring
        rw [hring]
        exact .idle
      · cases hc
        exact hbarred₂ rfl
      · cases hb

/-! ## Attempts -/

theorem chosen_returns (h : d.Inv) (index : Fin links) :
    ∃ lane, d.chosen index = .ok lane ∧
      (∀ l, lane = some l → (d.slot index).contended = false ∧
        ∃ p, (d.slot index).protocol = some p ∧ (d.slot index).Wants p l) ∧
      (lane = none → (d.slot index).contended = true ∨ ¬(d.slot index).Wanting) := by
  unfold chosen
  cases hcontended : (d.slot index).contended with
  | true => exact ⟨none, rfl, fun l hl => (by cases hl), fun _ => Or.inl rfl⟩
  | false =>
    obtain ⟨lane, hlane, hsome, hnone⟩ := Slot.pendingLane_returns (h.shared.slot index)
    rw [if_neg (fun hfalse => by cases hfalse)]
    refine ⟨lane, hlane, fun l hl => ⟨rfl, hsome l hl⟩, fun hn => Or.inr ?_⟩
    rintro ⟨p, hp, l, hwants⟩
    exact hnone hn p hp l hwants

theorem attempt_returns (hf : Fits links bytes) (h : d.Inv) (mode : Admission) (index : Fin links)
    (count : Nat) (replies : List (Reply links)) :
    ∃ lane s, d.attempt mode index count replies = .ok (lane, s) ∧ d.Attempted index count s ∧
      (lane = none → s.attempt = .idle) ∧ (s.attempt = .blocked → d.Stuck index count) ∧
      (d.Stuck index count → s = ⟨.blocked, none, replies, d⟩) := by
  obtain ⟨lane, hlane, hsome, hnone⟩ := chosen_returns h index
  unfold attempt
  rw [hlane, ok_bind]
  cases lane with
  | none =>
    refine ⟨none, _, rfl, .refl d index count (Or.inl rfl) replies, fun _ => rfl,
      fun hb => (by cases hb), ?_⟩
    rintro ⟨lane, hchosen, -⟩
    rw [hlane] at hchosen
    cases hchosen
  | some lane =>
    obtain ⟨hcontended, p, hp, hwants⟩ := hsome lane rfl
    dsimp only
    cases hcancel : ((d.slot index).operations.get lane).cancellation with
    | some id =>
      rw [if_pos (show (some id).isSome = true from rfl)]
      rcases cancel_returns hf h hcancel with
        ⟨hfull, hcall⟩ | ⟨o, d', hroom, hcall, hreaches, hring, hshared⟩
      · rw [hcall, ok_bind]
        refine ⟨some lane, _, rfl, .refl d index count (Or.inr rfl) replies, fun hn => (by cases hn),
          fun _ => ⟨lane, hlane, ?_⟩, fun _ => rfl⟩
        rw [hcancel]
        exact hfull
      · rw [hcall, ok_bind]
        have hothers : ∀ i, i ≠ index → d'.slot i = d.slot i := fun i hi => by
          unfold slot
          rw [hshared]
          exact Shared.update_of_ne hi
        have hready : d'.shared.ready = d.shared.ready := by
          rw [hshared]
          rfl
        refine ⟨some lane, _, rfl, ⟨.of_slots hreaches hready hothers, ?_, fun _ => ⟨hready, hothers⟩,
          fun hb => ⟨rfl, ?_⟩, fun hc => by cases hc⟩, fun hn => (by cases hn), fun hb => (by cases hb), ?_⟩
        · dsimp only
          rw [hring]
          exact .queued ⟨.asyncCancel (token id), cancelToken id⟩ (Nat.zero_le _)
            fun hreq => by cases hreq
        · have hslot : d'.slot index = (d.slot index).setOperation lane o := by
            unfold slot
            rw [hshared]
            exact Shared.update_self
          dsimp only
          rw [hslot]
          exact hb
        · rintro ⟨lane', hchosen, hfull⟩
          rw [hlane] at hchosen
          cases hchosen
          rw [hcancel, if_pos (show (some id).isSome = true from rfl)] at hfull
          exact absurd hroom (not_lt.mpr hfull)
    | none =>
      rw [if_neg (fun hfalse => by cases hfalse)]
      have hrequest := hwants.resolve_left (by rw [hcancel]; exact fun hfalse => by cases hfalse)
      obtain ⟨s, hs, hattempted, hdenied, hblocked⟩ := submit_returns hf h mode count replies
        ((offersRequest_iff h).mpr ⟨p, hp, hrequest⟩) hcontended
      rw [hs, ok_bind]
      refine ⟨some lane, s, rfl, hattempted, fun hn => (by cases hn), fun hb => ⟨lane, hlane, ?_⟩,
        fun hstuck => hdenied hstuck.denied⟩
      rw [hcancel]
      exact hblocked hb

/-! ## The end of a turn -/

theorem Leads.queue (h : d.Inv) (index : Fin links) :
    Leads index d (d.withShared (d.shared.queue index)) where
  reaches := .single (.shared (.queue index))
  contents := Shared.Move.extends h.shared (.queue index)
  attends _ _ := .other (fun hp => Shared.Attends.present_push hp) rfl

/-- A change of flags in the slot of the link. -/
theorem Leads.flags (f : Slot → Slot) (hf : (d.slot index).Alike (f (d.slot index))) :
    Leads index d (d.update index f) :=
  .of_slots (.single (.shared (.flags index f hf))) rfl fun _ hi => update_slot_of_ne hi f

theorem Leads.refresh (d : Driver G links) (index : Fin links) :
    Leads index d (d.withShared (d.shared.refresh index)) :=
  .of_slots (.single (.shared (.refresh index))) rfl fun _ hi => update_slot_of_ne hi Slot.refresh

/-- What the end of a turn does to the driver. -/
structure Concluded (d : Driver G links) (index : Fin links) (d' : Driver G links) : Prop where
  leads : Leads index d d'
  ring : d'.ring = d.ring
  others : ∀ i, i ≠ index → d'.slot i = d.slot i
  barred : (d.slot index).Barred → (d'.slot index).Barred
  wanting : (d'.slot index).Wanting → d'.shared.ready.present index = true

theorem conclude_none (hf : Fits links bytes) (h : d.Inv) (index : Fin links) :
    ∃ d', d.conclude index none = .ok d' ∧ d.Concluded index d' ∧
      d'.slot index = (d.slot index).refresh ∧
      (d'.shared.ready = d.shared.ready ∨ d'.shared.ready = d.shared.ready.push index) := by
  have hleads := Leads.refresh d index
  have hinv := hleads.reaches.inv hf h
  have hslot : (d.withShared (d.shared.refresh index)).slot index = (d.slot index).refresh :=
    Shared.update_self
  have hothers : ∀ i, i ≠ index → (d.withShared (d.shared.refresh index)).slot i = d.slot i :=
    fun i hi => update_slot_of_ne hi Slot.refresh
  have hbarred : (d.slot index).Barred →
      ((d.withShared (d.shared.refresh index)).slot index).Barred := fun hb => by
    rw [hslot]
    exact hb.refresh
  obtain ⟨lane, hlane, -, hnone⟩ := Slot.pendingLane_returns (hinv.shared.slot index)
  have hlane : ((d.withShared (d.shared.refresh index)).slot index).pendingLane = .ok lane := hlane
  unfold conclude
  unfold withShared at hlane
  dsimp only
  rw [hlane, ok_bind]
  cases lane with
  | none =>
    refine ⟨_, rfl, ⟨hleads, rfl, hothers, hbarred, ?_⟩, hslot, Or.inl rfl⟩
    rintro ⟨p, hp, lane, hwants⟩
    exact absurd hwants (hnone rfl p hp lane)
  | some lane =>
    exact ⟨_, rfl, ⟨hleads.trans (.queue hinv index), rfl, hothers, hbarred,
      fun _ => Shared.Attends.present_push_self _ _⟩, hslot, Or.inr rfl⟩

theorem conclude_returns (hf : Fits links bytes) (h : d.Inv) (index : Fin links)
    (submitted : Option Lane) :
    ∃ d', d.conclude index submitted = .ok d' ∧ d.Concluded index d' ∧
      (submitted = none → d'.slot index = (d.slot index).refresh) ∧
      (d'.shared.ready = d.shared.ready ∨ d'.shared.ready = d.shared.ready.push index) := by
  cases submitted with
  | none =>
    obtain ⟨d', hd', hconcluded, hslot, hready⟩ := conclude_none hf h index
    exact ⟨d', hd', hconcluded, fun _ => hslot, hready⟩
  | some lane =>
    have hleads : Leads index d (d.update index fun slot =>
        { slot with nextLane := (laneNumber lane + 1) % 3 }) :=
      Leads.flags (fun slot => { slot with nextLane := (laneNumber lane + 1) % 3 })
        ⟨rfl, rfl, rfl, rfl, rfl⟩
    obtain ⟨d', hd', hconcluded, -, hready⟩ :=
      conclude_none hf (hleads.reaches.inv hf h) index
    refine ⟨d', hd', ⟨hleads.trans hconcluded.leads, hconcluded.ring, fun i hi => ?_, fun hb => ?_,
      hconcluded.wanting⟩, fun hn => (by cases hn), hready⟩
    · exact (hconcluded.others i hi).trans (update_slot_of_ne hi _)
    · apply hconcluded.barred
      rw [update_slot]
      exact hb

/-! ## A turn -/

end Driver

end Hiway.Uring
