import Hiway.Uring.Runs

/-!
# A driver that is closing

Once every machine is closed and every operation of it has been asked to cancel, nothing new
is submitted but the cancellations. Requests that can still complete, and cancellations that
can still be queued, only get fewer.

* `Closing.move`, `Closing.reaches`: what any move does to a closing driver.
* `cancelAll_shut`, `closing_of_shut`: after `cancel_all` every slot is shut, and the driver
  is closing.
* `Reaches.owned`, `Reaches.whole`: what slots own comes together and goes together.
-/

namespace Hiway.Transport.Operation

/-- A request in flight whose cancellation has not been queued. -/
def uncancelled (o : Operation) : Nat :=
  if o.phase = .submitted ∧ o.cancellationState ≠ .submitted ∧ o.cancellationState ≠ .completed
  then 1 else 0

/-- What is in flight has been asked to cancel, and nothing is going to be. -/
structure Calm (o : Operation) : Prop where
  unprepared : o.phase ≠ .prepared
  asked : o.phase = .submitted → o.cancellationState ≠ .none

variable {o : Operation} {id : OpId}

theorem uncancelled_le_one (o : Operation) : o.uncancelled ≤ 1 := by
  unfold uncancelled
  split <;> omega

theorem calm_close (h : o.Settled) : o.close.Calm := by
  rw [close_eq h]
  have havailable := h.available
  have hcompleted := h.completed
  cases o with
  | mk id phase state => cases phase <;> cases state <;> constructor <;> simp_all

theorem uncancelled_close (h : o.Settled) : o.close.uncancelled = o.uncancelled := by
  rw [close_eq h]
  cases o with
  | mk id phase state => cases phase <;> cases state <;> simp [uncancelled]

/-- The cancellation is queued. -/
theorem calm_cancelAccepted (hc : o.cancellation = some id) (h : o.Settled) :
    (o.cancelAccepted id).2.Calm ∧ (o.cancelAccepted id).2.uncancelled < o.uncancelled := by
  obtain ⟨rfl, hphase, hstate⟩ := submitted_of_cancellation h hc
  have haccepted : (o.cancelAccepted o.id).2 = { o with cancellationState := .submitted } := by
    unfold cancelAccepted
    rw [hc, if_neg (not_not.mpr rfl)]
  rw [haccepted]
  refine ⟨⟨?_, fun _ => nofun⟩, ?_⟩
  · rw [hphase]
    exact nofun
  · simp [uncancelled, hphase, hstate]

/-- The request completes. -/
theorem calm_finish (hphase : o.phase = .submitted) :
    (o.completed o.id).2.reclaim.2.Calm ∧ (o.completed o.id).2.reclaim.2.uncancelled = 0 := by
  rw [finish_eq hphase]
  split
  · exact ⟨⟨nofun, nofun⟩, rfl⟩
  · exact ⟨⟨nofun, nofun⟩, rfl⟩

/-- The cancellation completes. -/
theorem calm_finishCancel (h : o.Settled) (hc : o.Calm) (hstate : o.cancellationState = .submitted) :
    (o.cancelCompleted o.id).2.reclaim.2.Calm ∧
      (o.cancelCompleted o.id).2.reclaim.2.uncancelled = 0 := by
  rw [finishCancel_eq h hstate]
  split
  · exact ⟨⟨nofun, nofun⟩, rfl⟩
  · exact ⟨⟨hc.unprepared, fun _ => nofun⟩, by simp [uncancelled]⟩

end Hiway.Transport.Operation

namespace Hiway.Uring

open Exec Target Transport

namespace Driver

variable {G : Type} {links : Nat}

/-- How many cancellations can still be queued. -/
def uncancelled (d : Driver G links) : Nat :=
  ∑ index, ((d.operation index .data).uncancelled + (d.operation index .creditSend).uncancelled +
    (d.operation index .creditReceive).uncancelled)

/-- Every machine is closed, and its operations are calm. -/
structure Closing (d : Driver G links) : Prop where
  closed : ∀ index, (d.slot index).isOpen = false
  calm : ∀ index lane, (d.operation index lane).Calm

/-- No request comes into flight without being cancelled. -/
structure Recedes (d d' : Driver G links) : Prop where
  operation : ∀ index lane,
    (d'.operation index lane).uncancelled ≤ (d.operation index lane).uncancelled
  total : d'.ring.outstanding.card + d'.uncancelled ≤ d.ring.outstanding.card + d.uncancelled

variable {d d' d'' : Driver G links}

theorem Recedes.refl (d : Driver G links) : d.Recedes d := ⟨fun _ _ => le_rfl, le_rfl⟩

theorem Recedes.trans (h : d.Recedes d') (h' : d'.Recedes d'') : d.Recedes d'' :=
  ⟨fun index lane => (h'.operation index lane).trans (h.operation index lane),
    h'.total.trans h.total⟩

theorem uncancelled_le (h : ∀ index lane,
    (d'.operation index lane).uncancelled ≤ (d.operation index lane).uncancelled) :
    d'.uncancelled ≤ d.uncancelled :=
  Finset.sum_le_sum fun index _ => Nat.add_le_add
    (Nat.add_le_add (h index .data) (h index .creditSend)) (h index .creditReceive)

theorem uncancelled_lt (h : ∀ index lane,
    (d'.operation index lane).uncancelled ≤ (d.operation index lane).uncancelled)
    {index : Fin links} {lane : Lane}
    (hlt : (d'.operation index lane).uncancelled < (d.operation index lane).uncancelled) :
    d'.uncancelled < d.uncancelled := by
  refine Finset.sum_lt_sum (fun i _ => Nat.add_le_add
    (Nat.add_le_add (h i .data) (h i .creditSend)) (h i .creditReceive))
    ⟨index, Finset.mem_univ index, ?_⟩
  have hdata := h index .data
  have hsend := h index .creditSend
  have hreceive := h index .creditReceive
  cases lane <;> omega

/-- Nothing but flags of slots, and the requests do not get more. -/
theorem Recedes.of_operations (h : d'.operation = d.operation)
    (hcard : d'.ring.outstanding.card ≤ d.ring.outstanding.card) : d.Recedes d' := by
  have hle : ∀ index lane,
      (d'.operation index lane).uncancelled ≤ (d.operation index lane).uncancelled := by
    intro index lane
    rw [h]
  exact ⟨hle, Nat.add_le_add hcard (uncancelled_le hle)⟩

/-- One operation of a closed slot changes. -/
theorem Closing.operate (h : d.Closing) {index : Fin links} {lane : Lane} {f : Slot → Slot}
    {o : Operation} (hslots : d'.shared.slots = (d.update index f).shared.slots)
    (hoperations : (f (d.slot index)).operations = (d.slot index).operations.set lane o)
    (hclosed : (f (d.slot index)).isOpen = false) (hcalm : o.Calm)
    (ho : o.uncancelled ≤ (d.operation index lane).uncancelled)
    (hcard : d'.ring.outstanding.card ≤ d.ring.outstanding.card ∨
      o.uncancelled < (d.operation index lane).uncancelled ∧
        d'.ring.outstanding.card ≤ d.ring.outstanding.card + 1) : d'.Closing ∧ d.Recedes d' := by
  obtain ⟨hself, hothers⟩ := operation_update (d := d) index hoperations
  have hoperation : d'.operation = (d.update index f).operation := by
    unfold operation slot
    rw [hslots]
  rw [← hoperation] at hself hothers
  have hle : ∀ i l, (d'.operation i l).uncancelled ≤ (d.operation i l).uncancelled := by
    intro i l
    by_cases heq : i = index ∧ l = lane
    · obtain ⟨rfl, rfl⟩ := heq
      rw [hself]
      exact ho
    · rw [hothers i l heq]
  refine ⟨⟨fun i => ?_, fun i l => ?_⟩, hle, ?_⟩
  · unfold slot
    rw [hslots]
    change ((d.shared.update index f).slots i).isOpen = false
    by_cases heq : i = index
    · subst heq
      rw [Shared.update_self]
      exact hclosed
    · rw [Shared.update_of_ne heq]
      exact h.closed i
  · by_cases heq : i = index ∧ l = lane
    · obtain ⟨rfl, rfl⟩ := heq
      rw [hself]
      exact hcalm
    · rw [hothers i l heq]
      exact h.calm i l
  · rcases hcard with hcard | ⟨hlt, hcard⟩
    · exact Nat.add_le_add hcard (uncancelled_le hle)
    · rw [← hself] at hlt
      have hless := uncancelled_lt hle hlt
      omega

end Driver

/-! ## Moves of a closing driver -/

namespace Shared

variable [Target] {G : Type} {links : Nat} {s t : Shared G links}

/-- A machine answers after a change of its slot. -/
theorem answered_update {p q : Protocol} {i : Input} (index : Fin links) {f : Slot → Slot} :
    ((s.update index f).answered index p i q).slots =
      (s.update index fun slot => { f slot with protocol := some q }).slots := by
  have hupdate : ((s.update index f).update index fun slot => { slot with protocol := some q }) =
      s.update index fun slot => { f slot with protocol := some q } := update_update
  have hslots := congrArg Shared.slots hupdate
  exact hslots

variable [NeZero links]

/-- A machine that is closed, or gone, stays so. -/
theorem Move.closed (h : s.Move t) {index : Fin links} (hclosed : (s.slots index).isOpen = false) :
    (t.slots index).isOpen = false := by
  have hupdate : ∀ (other : Fin links) (f : Slot → Slot),
      ((s.slots other).isOpen = false → (f (s.slots other)).isOpen = false) →
        ((s.update other f).slots index).isOpen = false := by
    intro other f hf
    by_cases heq : index = other
    · subst heq
      rw [update_self]
      exact hf hclosed
    · rw [update_of_ne heq]
      exact hclosed
  have hsame : ∀ (other : Fin links) (f : Slot → Slot),
      (f (s.slots other)).protocol = (s.slots other).protocol →
        ((s.update other f).slots index).isOpen = false := by
    intro other f hf
    refine hupdate other f fun h => ?_
    unfold Slot.isOpen at h ⊢
    rw [hf]
    exact h
  cases h with
  | flags other f hf => exact hsame other f hf.protocol
  | input hp hi hinput =>
    obtain ⟨hanswer, rfl⟩ := input_eq.mp hinput
    refine hupdate _ (fun slot => { slot with protocol := some _ }) fun h => ?_
    rw [← Bool.not_eq_true, Slot.isOpen_iff hp] at h
    rw [← Bool.not_eq_true, Slot.isOpen_iff rfl]
    exact fun hq => h (open_of_open hanswer hq)
  | observe sequence hp heffect =>
    refine hupdate _ (fun slot => { slot with protocol := some _ }) fun h => ?_
    rw [← Bool.not_eq_true, Slot.isOpen_iff hp] at h
    rw [← Bool.not_eq_true, Slot.isOpen_iff rfl]
    exact h
  | refresh other =>
    refine hsame other Slot.refresh ?_
    unfold Slot.refresh
    split <;> rfl
  | queue | borrow | stop => exact hclosed
  | release other => exact hsame other (fun slot => { slot with alive := false }) rfl
  | reclaim other => exact hsame other (fun slot => { slot with sockets := none }) rfl
  | retire other => exact hupdate other (fun slot => { slot with protocol := none }) fun _ => rfl

/-- Only a refresh changes an operation, and it cancels it. -/
theorem Move.operation (h : s.Move t) (index : Fin links) (lane : Lane) :
    (t.slots index).operations.get lane = (s.slots index).operations.get lane ∨
      (t.slots index).operations.get lane = ((s.slots index).operations.get lane).close := by
  have hupdate : ∀ (other : Fin links) (f : Slot → Slot),
      (f (s.slots other)).operations = (s.slots other).operations →
        ((s.update other f).slots index).operations.get lane =
          (s.slots index).operations.get lane := by
    intro other f hf
    by_cases heq : index = other
    · subst heq
      rw [update_self, hf]
    · rw [update_of_ne heq]
  cases h with
  | flags other f hf => exact Or.inl (hupdate other f hf.operations)
  | input hp hi hinput =>
    obtain ⟨hanswer, rfl⟩ := input_eq.mp hinput
    exact Or.inl (hupdate _ (fun slot => { slot with protocol := some _ }) rfl)
  | observe sequence hp heffect =>
    exact Or.inl (hupdate _ (fun slot => { slot with protocol := some _ }) rfl)
  | refresh other =>
    by_cases heq : index = other
    · subst heq
      rw [Shared.refresh, update_self]
      unfold Slot.refresh
      split
      · exact Or.inr (Slot.cancelOperations_get _ lane)
      · exact Or.inl rfl
    · rw [Shared.refresh, update_of_ne heq]
      exact Or.inl rfl
  | queue | borrow | stop => exact Or.inl rfl
  | release other => exact Or.inl (hupdate other (fun slot => { slot with alive := false }) rfl)
  | reclaim other => exact Or.inl (hupdate other (fun slot => { slot with sockets := none }) rfl)
  | retire other => exact Or.inl (hupdate other (fun slot => { slot with protocol := none }) rfl)

end Shared

namespace Driver

variable [Target] {G : Type} {links bytes : Nat} [NeZero links] {d d' : Driver G links}

/-- One more move of a closing driver. -/
theorem Closing.move (hinv : d.Inv) (h : d.Closing) (hmove : d.Move d') :
    d'.Closing ∧ d.Recedes d' := by
  have hopen : ∀ {index : Fin links} {p : Protocol}, (d.slot index).protocol = some p →
      p.closed ≠ none := by
    intro index p hp hnone
    have hclosed := h.closed index
    rw [← Bool.not_eq_true, Slot.isOpen_iff hp] at hclosed
    exact hclosed hnone
  cases hmove with
  | @shared s hs =>
    have hsettled : ∀ index lane, (d.operation index lane).Settled := hinv.settled
    have hoperation : ∀ index lane, (d.withShared s).operation index lane = d.operation index lane ∨
        (d.withShared s).operation index lane = (d.operation index lane).close :=
      fun index lane => hs.operation index lane
    have hle : ∀ index lane, ((d.withShared s).operation index lane).uncancelled ≤
        (d.operation index lane).uncancelled := by
      intro index lane
      rcases hoperation index lane with heq | heq
      · rw [heq]
      · rw [heq, Operation.uncancelled_close (hsettled index lane)]
    refine ⟨⟨fun index => hs.closed (h.closed index), fun index lane => ?_⟩,
      ⟨hle, Nat.add_le_add_left (uncancelled_le hle) _⟩⟩
    rcases hoperation index lane with heq | heq
    · rw [heq]
      exact h.calm index lane
    · rw [heq]
      exact Operation.calm_close (hsettled index lane)
  | ring r hr => exact ⟨⟨h.closed, h.calm⟩, .of_operations rfl (le_of_eq (by
      change r.outstanding.card = _
      rw [hr]))⟩
  | ready | hint => exact ⟨⟨h.closed, h.calm⟩, .of_operations rfl le_rfl⟩
  | prepare hp =>
    rw [h.closed] at hp
    cases hp
  | accept hp hid hphase heffect hpush hinput =>
    obtain ⟨e, he, hreq⟩ := heffect
    exact absurd (Protocol.effect_request he hreq).1 (hopen hp)
  | @cancel index lane opcode r id hid hpush =>
    obtain ⟨hcalm, hlt⟩ := Operation.calm_cancelAccepted hid (hinv.settled index lane)
    refine h.operate rfl rfl (h.closed index) hcalm hlt.le (Or.inr ⟨hlt, ?_⟩)
    change r.outstanding.card ≤ _
    rw [Ring.outstanding_push hpush, Multiset.card_cons]
  | @complete index lane p q r cqe io result s id hp hid hphase hnext hu hinput =>
    obtain ⟨hanswer, rfl⟩ := Shared.input_eq.mp hinput
    subst hid
    obtain ⟨hcalm, hzero⟩ := Operation.calm_finish hphase
    refine h.operate (Shared.answered_update index) rfl ?_ hcalm (hzero.le.trans (Nat.zero_le _))
      (Or.inl ?_)
    · rw [← Bool.not_eq_true, Slot.isOpen_iff rfl]
      exact fun hq => hopen hp (open_of_open hanswer hq)
    · change r.outstanding.card ≤ _
      rw [Ring.outstanding_next hnext, Multiset.card_cons]
      exact Nat.le_succ _
  | @cancelled index lane r cqe id hid hstate hnext hu =>
    subst hid
    obtain ⟨hcalm, hzero⟩ := Operation.calm_finishCancel (hinv.settled index lane)
      (h.calm index lane) hstate
    refine h.operate rfl rfl (h.closed index) hcalm
      (hzero.le.trans (Nat.zero_le _)) (Or.inl ?_)
    change r.outstanding.card ≤ _
    rw [Ring.outstanding_next hnext, Multiset.card_cons]
    exact Nat.le_succ _

theorem Closing.reaches (hf : Fits links bytes) (hinv : d.Inv) (h : d.Closing)
    (hreaches : d.Reaches d') : d'.Closing ∧ d.Recedes d' := by
  induction hreaches with
  | refl => exact ⟨h, .refl d⟩
  | tail hreaches hmove ih =>
    obtain ⟨hclosing, hrecedes⟩ := ih
    obtain ⟨hclosing', hrecedes'⟩ := hclosing.move (Reaches.inv hf hinv hreaches) hmove
    exact ⟨hclosing', hrecedes.trans hrecedes'⟩

end Driver

/-! ## Closing every link -/

namespace Shared

/-- A slot that has been closed and refreshed. -/
structure Shut (slot : Slot) : Prop where
  closed : slot.isOpen = false
  calm : ∀ lane, (slot.operations.get lane).Calm

theorem shut_of_refresh {slot : Slot} (hclosed : slot.isClosed = true)
    (hsettled : ∀ lane, (slot.operations.get lane).Settled) : Shut slot.refresh := by
  obtain ⟨p, hp, hc⟩ := Slot.exists_of_isClosed hclosed
  have hrefresh : slot.refresh.protocol = some p ∧
      slot.refresh.operations = slot.cancelOperations.operations := by
    unfold Slot.refresh
    rw [if_pos hclosed]
    exact ⟨hp, rfl⟩
  refine ⟨?_, fun lane => ?_⟩
  · rw [← Bool.not_eq_true, Slot.isOpen_iff hrefresh.1]
    exact Option.isSome_iff_ne_none.mp hc
  · rw [hrefresh.2, Slot.cancelOperations_get]
    exact Operation.calm_close (hsettled lane)

variable [Target] {G : Type} {links : Nat} [NeZero links] {s t : Shared G links}

/-- Admission does not start again. -/
theorem Move.stopped (h : s.Move t) (hstopped : s.admitting = false) : t.admitting = false := by
  cases h with
  | input hp hi hinput =>
    obtain ⟨-, rfl⟩ := input_eq.mp hinput
    exact hstopped
  | stop => rfl
  | flags | observe | refresh | queue | release | borrow | reclaim | retire => exact hstopped

theorem Reaches.stopped (h : s.Reaches t) (hstopped : s.admitting = false) :
    t.admitting = false := by
  induction h with
  | refl => exact hstopped
  | tail _ hmove ih => exact hmove.stopped ih

/-- `cancel_all` shuts one slot and leaves the others alone. -/
theorem cancelSlot_shut (hs : s.Inv) {index : Fin links} (h : s.cancelSlot index = .ok t) :
    Shut (t.slots index) ∧ ∀ other, other ≠ index → t.slots other = s.slots other := by
  unfold cancelSlot at h
  obtain ⟨u, hshut, h⟩ := bind_eq_ok.mp h
  cases h
  have hrefresh : (u.refresh index).slots index = (u.slots index).refresh := by
    rw [refresh, update_self]
  have hother : ∀ other, other ≠ index → (u.refresh index).slots other = u.slots other := by
    intro other hne
    rw [refresh, update_of_ne hne]
  unfold shut at hshut
  split at hshut
  · rename_i hp
    cases hshut
    refine ⟨?_, hother⟩
    have hvacant := Slot.idle_iff.mp ((hs.slot index).vacant hp).1
    have hsame : (s.slots index).refresh = s.slots index := by
      unfold Slot.refresh Slot.isClosed
      rw [hp]
      rfl
    rw [hrefresh, hsame]
    refine ⟨?_, fun lane => ⟨?_, ?_⟩⟩
    · unfold Slot.isOpen
      rw [hp]
      rfl
    · rw [hvacant lane]
      exact nofun
    · rw [hvacant lane]
      exact nofun
  · rename_i p hp
    obtain ⟨⟨q, r, v⟩, hinput, hshut⟩ := bind_eq_ok.mp hshut
    obtain ⟨hanswer, rfl⟩ := input_eq.mp hinput
    have hslots : u.slots = (((s.update index (·.wakeIf p.closed.isNone)).answered index p
        (.closed .closed) q).update index fun slot => { slot with contended := false }).slots := by
      cases hshut
      split <;> rfl
    have hself : u.slots index = { (s.slots index).wakeIf p.closed.isNone with
        protocol := some q, contended := false } := by
      rw [hslots, update_self, answered_update, update_self]
    have hclosed : (u.slots index).isClosed = true := by
      rw [hself]
      exact (Slot.isClosed_iff rfl).mpr (closed_of_closing hanswer)
    refine ⟨?_, fun other hne => (hother other hne).trans ?_⟩
    · rw [hrefresh]
      refine shut_of_refresh hclosed fun lane => ?_
      rw [hself]
      exact (hs.slot index).settled lane
    · rw [hslots, update_of_ne hne, answered_update, update_of_ne hne]

/-- After `cancel_all` every slot is shut. -/
theorem cancelAll_shut (hs : s.Inv) :
    ∃ t, s.cancelAll = .ok t ∧ s.Reaches t ∧ t.admitting = false ∧
      ∀ index, Shut (t.slots index) := by
  have hsteps : ∀ (indices : List (Fin links)) (done : List (Fin links)) (u : Shared G links),
      u.Inv → (∀ index ∈ done, Shut (u.slots index)) →
        ∃ t, steps cancelSlot u indices = .ok t ∧ u.Reaches t ∧
          ∀ index, index ∈ done ∨ index ∈ indices → Shut (t.slots index) := by
    intro indices
    induction indices with
    | nil =>
      intro done u _ hdone
      exact ⟨u, rfl, .refl, fun index hindex => hdone index (hindex.resolve_right List.not_mem_nil)⟩
    | cons first rest ih =>
      intro done u hu hdone
      obtain ⟨v, hv, hreaches⟩ := cancelSlot_returns hu first
      obtain ⟨hshut, hothers⟩ := cancelSlot_shut hu hv
      obtain ⟨t, ht, hreaches', hall⟩ := ih (first :: done) v (hreaches.inv hu) fun index hindex => by
        by_cases heq : index = first
        · rw [heq]
          exact hshut
        · rw [hothers index heq]
          exact hdone index ((List.mem_cons.mp hindex).resolve_left heq)
      refine ⟨t, by rw [steps, hv, ok_bind, ht], hreaches.trans hreaches', fun index hindex => ?_⟩
      refine hall index ?_
      rcases hindex with hindex | hindex
      · exact Or.inl (List.mem_cons_of_mem _ hindex)
      · rcases List.mem_cons.mp hindex with rfl | hindex
        · exact Or.inl List.mem_cons_self
        · exact Or.inr hindex
  obtain ⟨t, ht, hreaches, hall⟩ := hsteps (List.finRange links) [] s.stopAdmission
    (Move.inv hs .stop) fun _ hindex => absurd hindex List.not_mem_nil
  refine ⟨t, ht, (Relation.ReflTransGen.single .stop).trans hreaches, ?_, fun index => hall index
    (Or.inr (List.mem_finRange index))⟩
  exact hreaches.stopped rfl

end Shared

namespace Driver

/-- A driver whose links have all been cancelled is closing. -/
theorem closing_of_shut {G : Type} {links : Nat} {d : Driver G links} {s : Shared G links}
    (h : ∀ index, Shared.Shut (s.slots index)) :
    (d.withShared s).Closing :=
  ⟨fun index => (h index).closed, fun index lane => (h index).calm lane⟩

end Driver

/-! ## What a slot owns -/

namespace Shared

/-- The sockets and the reservation of a link are there together, and not without its machine. -/
structure Owned {G : Type} {links : Nat} (s : Shared G links) : Prop where
  paired : ∀ index, (s.slots index).sockets.isSome = (s.reservations index).isSome
  vacant : ∀ index, (s.slots index).protocol = none → (s.slots index).sockets = none

variable {G : Type} {links : Nat} {s t : Shared G links}

/-- A change of one slot that moves nothing it owns. -/
theorem Owned.update (h : s.Owned) (index : Fin links) {f : Slot → Slot}
    (hsockets : (f (s.slots index)).sockets = (s.slots index).sockets)
    (hprotocol : (f (s.slots index)).protocol = none → (s.slots index).protocol = none) :
    (s.update index f).Owned := by
  refine ⟨fun other => ?_, fun other => ?_⟩
  all_goals by_cases heq : other = index
  · subst heq
    rw [update_self, hsockets]
    exact h.paired other
  · rw [update_of_ne heq]
    exact h.paired other
  · subst heq
    rw [update_self, hsockets]
    exact fun hnone => h.vacant other (hprotocol hnone)
  · rw [update_of_ne heq]
    exact h.vacant other

theorem Owned.congr (h : s.Owned) (hslots : t.slots = s.slots)
    (hreservations : t.reservations = s.reservations) : t.Owned := by
  refine ⟨?_, ?_⟩
  · rw [hslots, hreservations]
    exact h.paired
  · rw [hslots]
    exact h.vacant

theorem Owned.answered [Target] (h : s.Owned) {index : Fin links} {p q : Protocol} {i : Input} :
    (s.answered index p i q).Owned :=
  (h.update index (f := fun slot => { slot with protocol := some q }) rfl
    fun hnone => absurd hnone (Option.some_ne_none q)).congr rfl rfl

theorem Owned.popLive (h : s.Owned) (indices : List (Fin links)) : (s.popLive indices).2.Owned := by
  induction indices generalizing s with
  | nil => exact h
  | cons index rest ih =>
    unfold Shared.popLive
    split
    · exact ih h
    · rename_i p hp
      have hupdate := h.update index (f := fun slot => { slot with protocol := some p.popRecord.2 })
        rfl fun hnone => absurd hnone (Option.some_ne_none _)
      dsimp only
      split
      · exact hupdate
      · exact ih hupdate

theorem Owned.popRecord (h : s.Owned) : s.popRecord.2.Owned := by
  have harchived : ({ s with archived := s.archived.pop.2 } : Shared G links).Owned :=
    h.congr rfl rfl
  unfold Shared.popRecord
  dsimp only
  split
  · exact harchived
  · exact harchived.popLive _

theorem popLive_detached (s : Shared G links) (indices : List (Fin links)) :
    (s.popLive indices).2.detached = s.detached := by
  induction indices generalizing s with
  | nil => rfl
  | cons index rest ih =>
    unfold popLive
    split
    · exact ih s
    · dsimp only
      split
      · rfl
      · exact ih _

theorem popRecord_detached (s : Shared G links) : s.popRecord.2.detached = s.detached := by
  unfold popRecord
  dsimp only
  split
  · rfl
  · exact popLive_detached _ _

variable [NeZero links]

theorem Owned.attached (h : s.Owned) (index : Fin links) (a : Attachment G) (p : Protocol) :
    (s.attached index a p).Owned := by
  refine ⟨fun other => ?_, fun other => ?_⟩
  all_goals by_cases heq : other = index
  · subst heq
    unfold Shared.attached
    dsimp only
    rw [update_self, Function.update_self]
    rfl
  · unfold Shared.attached
    dsimp only
    rw [update_of_ne heq, Function.update_of_ne heq]
    exact h.paired other
  · subst heq
    rw [attached_self]
    exact fun hnone => absurd hnone (Option.some_ne_none p)
  · rw [attached_of_ne heq]
    exact h.vacant other

variable [Target]

theorem Move.owned (h : s.Move t) (howned : s.Owned) : t.Owned := by
  cases h with
  | flags index f hf =>
    refine howned.update index hf.sockets fun hnone => ?_
    rw [← hf.protocol]
    exact hnone
  | input hp hi hinput =>
    obtain ⟨-, rfl⟩ := input_eq.mp hinput
    exact howned.answered
  | @observe index p sequence =>
    exact howned.update index (f := fun slot =>
      { slot with protocol := some (p.observeSequence sequence) }) rfl
      fun hnone => absurd hnone (Option.some_ne_none _)
  | refresh index =>
    refine howned.update index ?_ ?_
    all_goals
      unfold Slot.refresh
      split
    · rfl
    · rfl
    · exact id
    · exact id
  | queue | borrow | stop => exact howned.congr rfl rfl
  | release index => exact howned.update index (f := fun slot => { slot with alive := false }) rfl id
  | reclaim index =>
    refine ⟨fun other => ?_, fun other => ?_⟩
    all_goals
      dsimp only
      by_cases heq : other = index
    · subst heq
      rw [update_self, Function.update_self]
      rfl
    · rw [update_of_ne heq, Function.update_of_ne heq]
      exact howned.paired other
    · subst heq
      rw [update_self]
      exact fun _ => rfl
    · rw [update_of_ne heq]
      exact howned.vacant other
  | retire index p hp hc hidle halive hsockets =>
    refine ⟨fun other => ?_, fun other => ?_⟩
    all_goals
      dsimp only
      by_cases heq : other = index
    · subst heq
      rw [update_self]
      exact howned.paired other
    · rw [update_of_ne heq]
      exact howned.paired other
    · subst heq
      rw [update_self]
      exact fun _ => hsockets
    · rw [update_of_ne heq]
      exact howned.vacant other

theorem Reaches.owned (h : s.Reaches t) (howned : s.Owned) : t.Owned := by
  induction h with
  | refl => exact howned
  | tail _ hmove ih => exact hmove.owned ih

/-- Nothing but the end of a drop detaches the links. -/
theorem Move.detached (h : s.Move t) : t.detached = s.detached := by
  cases h with
  | input hp hi hinput =>
    obtain ⟨-, rfl⟩ := input_eq.mp hinput
    rfl
  | flags | observe | refresh | queue | borrow | stop | release | reclaim | retire => rfl

theorem Reaches.detached (h : s.Reaches t) : t.detached = s.detached := by
  induction h with
  | refl => rfl
  | tail _ hmove ih => exact hmove.detached.trans ih

end Shared

namespace Driver

variable [Target] {G : Type} {links : Nat} [NeZero links] {d d' : Driver G links}

/-- The driver is there, and its slots own what they should. -/
structure Whole (d : Driver G links) : Prop where
  owned : d.shared.Owned
  detached : d.shared.detached = false

theorem Move.whole (h : d.Move d') (hwhole : d.Whole) : d'.Whole := by
  obtain ⟨howned, hdetached⟩ := hwhole
  have hset : ∀ index lane o, (d.update index (·.setOperation lane o)).shared.Owned :=
    fun index lane o => howned.update index (f := (·.setOperation lane o)) rfl id
  cases h with
  | shared hs => exact ⟨hs.owned howned, hs.detached.trans hdetached⟩
  | ring | ready | hint => exact ⟨howned.congr rfl rfl, hdetached⟩
  | prepare | cancel | cancelled => exact ⟨hset _ _ _, hdetached⟩
  | accept hp hid hphase heffect hpush hinput =>
    obtain ⟨-, rfl⟩ := Shared.input_eq.mp hinput
    exact ⟨(hset _ _ _).answered, hdetached⟩
  | complete hp hid hphase hnext hu hinput =>
    obtain ⟨-, rfl⟩ := Shared.input_eq.mp hinput
    exact ⟨(hset _ _ _).answered, hdetached⟩

theorem Reaches.whole (h : d.Reaches d') (hwhole : d.Whole) : d'.Whole := by
  induction h with
  | refl => exact hwhole
  | tail _ hmove ih => exact hmove.whole ih

end Driver

end Hiway.Uring
