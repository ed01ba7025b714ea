import Hiway.Fabric.Isolation
import Hiway.Grant.Steady

/-!
# What an operation announces

Every operation either announces itself, at once or through the deferred flag, or it
changes nothing that could help a future that waits: the queue, the cursors and the end
of the stream stay, and no registered node gets room in its allowance.

* `Alert`: something has been announced since, or will be by the next maintenance.
* `maintain`: maintenance serves what was deferred.
* `tryRecv`, `append`: a reception that moves the cursor, and an entry that is new, are
  announced.
* `step`: an operation other than a revocation announces itself or helps nobody, and keeps
  every lease in its class.
-/

namespace Hiway.Fabric

open Exec Target

variable {α : Type}

/-- An entry that the stream still owns. -/
def State.Holds (s : State α) (e : Entry α) : Prop := e ∈ s.entries ∨ s.retired = some e

namespace World

/-- A wait that was enabled after `mark` notifications is notified, or will be by the next
maintenance. -/
def Alert (w : World α) (mark : Nat) : Prop := mark < w.stream.changed ∨ w.stream.deferred = true

/-- Nothing has changed that a waiting future depends on, except for the worse. -/
structure Quiet [Target] (w w' : World α) : Prop where
  entries : w'.stream.state.entries = w.stream.state.entries
  retired : w'.stream.state.retired = w.stream.state.retired
  subscribers : w'.stream.state.subscribers = w.stream.state.subscribers
  tail : w'.stream.state.tail = w.stream.state.tail
  closed : w'.stream.state.closed = w.stream.state.closed
  exhausted : ∀ i, w.grants.Registered i w.stream.event →
    w.grants.Exhausted i w.stream.event → w'.grants.Exhausted i w.stream.event

/-- What any operation of a stream does. -/
structure Moves [Target] (w w' : World α) : Prop extends SameStream w w' where
  steady : w.grants.Steady w'.grants
  holds : ∀ e, w'.stream.state.Holds e →
    w.stream.state.Holds e ∨ Charged w'.grants w.stream.event e.lease
  room : w.stream.delivery = .latest → w.stream.state.needsRoom = false →
    w'.stream.state.needsRoom = false
  changed : w.stream.changed ≤ w'.stream.changed
  deferred : w.stream.deferred = true → w'.Alert w.stream.changed
  quiet : w'.Alert w.stream.changed ∨ w.Quiet w'

variable [Target] {w w' w'' : World α}

theorem Quiet.refl (w : World α) : w.Quiet w := ⟨rfl, rfl, rfl, rfl, rfl, fun _ _ h => h⟩

namespace Moves

/-- An alert outlives every operation. -/
theorem alert (h : w.Moves w') {mark : Nat} (ha : w.Alert mark) (hmark : mark ≤ w.stream.changed) :
    w'.Alert mark := by
  rcases ha with hlt | hd
  · exact Or.inl (hlt.trans_le h.changed)
  · rcases h.deferred hd with hlt | hd'
    · exact Or.inl (hmark.trans_lt hlt)
    · exact Or.inr hd'

theorem refl (w : World α) : w.Moves w :=
  { SameStream.refl w with
    steady := Grants.Steady.refl _
    holds := fun _ h => Or.inl h
    room := fun _ h => h
    changed := le_refl _
    deferred := Or.inr
    quiet := Or.inr (Quiet.refl w) }

theorem trans (h : w.Moves w') (h' : w'.Moves w'') : w.Moves w'' where
  toSameStream := h.toSameStream.trans h'.toSameStream
  steady := h.steady.trans h'.steady
  holds := by
    intro e he
    rcases h'.holds e he with he | he
    · rcases h.holds e he with he | he
      · exact Or.inl he
      · exact Or.inr (he.of_authority h'.authority)
    · rw [h.event] at he
      exact Or.inr he
  room := fun hd hr => h'.room (h.delivery.trans hd) (h.room hd hr)
  changed := h.changed.trans h'.changed
  deferred := fun hd => h'.alert (h.deferred hd) h.changed
  quiet := by
    rcases h.quiet with ha | hq
    · exact Or.inl (h'.alert ha h.changed)
    · rcases h'.quiet with hlt | hq'
      · refine Or.inl ?_
        rcases hlt with hlt | hd
        · exact Or.inl (h.changed.trans_lt hlt)
        · exact Or.inr hd
      · refine Or.inr
          { entries := hq'.entries.trans hq.entries
            retired := hq'.retired.trans hq.retired
            subscribers := hq'.subscribers.trans hq.subscribers
            tail := hq'.tail.trans hq.tail
            closed := hq'.closed.trans hq.closed
            exhausted := ?_ }
        intro i hreg hex
        have hreg' := h.steady.registered i _ hreg
        have hex' := hq.exhausted i hreg hex
        rw [← h.event] at hreg' hex' ⊢
        exact hq'.exhausted i hreg' hex'

/-- Only the grants changed, and the notifications by what `n` says. -/
theorem of_grants {g : Grants} {n : Nat} (hsteady : w.grants.Steady g)
    (hregisters : ∀ i, w.grants.Registers i w.stream.event → g.Registers i w.stream.event)
    (hquiet : n = 0 → ∀ i, w.grants.Registered i w.stream.event →
      w.grants.Exhausted i w.stream.event → g.Exhausted i w.stream.event) :
    w.Moves ⟨g, { w.stream with changed := w.stream.changed + n }⟩ where
  event := rfl
  config := rfl
  delivery := rfl
  authority := hsteady.authority
  registers := hregisters
  steady := hsteady
  holds := fun _ h => Or.inl h
  room := fun _ h => h
  changed := Nat.le_add_right _ _
  deferred := Or.inr
  quiet := by
    rcases Nat.eq_zero_or_pos n with rfl | hn
    · exact Or.inr ⟨rfl, rfl, rfl, rfl, rfl, hquiet rfl⟩
    · exact Or.inl (Or.inl (Nat.lt_add_of_pos_right hn))

/-- A guard that marks the state dirty announces it. -/
theorem unlock_dirty (s : State α) (n : Bool)
    (hholds : ∀ e, s.Holds e → w.stream.state.Holds e ∨ Charged w.grants w.stream.event e.lease)
    (hroom : w.stream.delivery = .latest → w.stream.state.needsRoom = false →
      s.needsRoom = false) : w.Moves (w.unlock s true n) := by
  have halert : (w.unlock s true n).Alert w.stream.changed := by
    cases n with
    | false => exact Or.inr (by simp [World.unlock])
    | true => exact Or.inl (by simp [World.unlock])
  exact
    { SameStream.unlock w s true n with
      steady := Grants.Steady.refl _
      holds := by rw [unlock_state]; exact hholds
      room := by rw [unlock_state]; exact hroom
      changed := by cases n <;> simp [World.unlock]
      deferred := fun _ => halert
      quiet := Or.inl halert }

/-- A guard that is dropped without a change, but perhaps with a request for room. -/
theorem unlock_clean (room : Bool) (n : Bool)
    (hroom : w.stream.delivery = .latest → w.stream.state.needsRoom = false → room = false) :
    w.Moves (w.unlock { w.stream.state with needsRoom := room } false n) :=
  { SameStream.unlock w _ false n with
    steady := Grants.Steady.refl _
    holds := by
      rw [unlock_state]
      exact fun _ h => Or.inl h
    room := by rw [unlock_state]; exact hroom
    changed := by
      cases n with
      | false => exact le_refl _
      | true =>
        simp only [World.unlock]
        rw [if_neg (by decide)]
        dsimp only
        split
        · exact Nat.le_succ _
        · exact le_refl _
    deferred := by
      intro hd
      cases n with
      | false => exact Or.inr (by simp [World.unlock, hd])
      | true => exact Or.inl (by simp [World.unlock, hd])
    quiet := Or.inr
      { entries := by rw [unlock_state]
        retired := by rw [unlock_state]
        subscribers := by rw [unlock_state]
        tail := by rw [unlock_state]
        closed := by rw [unlock_state]
        exhausted := fun _ _ h => h } }

theorem unlock (w : World α) (n : Bool) : w.Moves (w.unlock w.stream.state false n) :=
  unlock_clean w.stream.state.needsRoom n fun _ h => h

theorem release (w : World α) (lease : Lease) : w.Moves (w.release lease) := by
  have hmoves := of_grants (w := w) (n := if w.grants.releaseNotifies lease w.stream.event then 1
    else 0) (Grants.Steady.release w.grants lease) (fun _ h => h.release lease) (by
      intro hzero i hreg hex
      have hsilent : w.grants.releaseNotifies lease w.stream.event = false := by
        rw [← Bool.not_eq_true]
        intro h
        rw [if_pos h] at hzero
        cases hzero
      have hsteady := Grants.Steady.release w.grants lease
      refine hex.mono (hsteady.authority.isRevoked_eq i) (hsteady.authority i) ?_
      intro index hn
      rw [Grants.usageOf_release_of_silent hreg hn hsilent])
  unfold World.release
  split
  · rename_i h
    rw [if_pos h] at hmoves
    exact hmoves
  · rename_i h
    rw [if_neg h] at hmoves
    exact hmoves

theorem releaseAll (entries : List (Entry α)) (w : World α) : w.Moves (w.releaseAll entries) := by
  induction entries generalizing w with
  | nil => exact refl w
  | cons e rest ih => exact (release w e.lease).trans (ih _)

theorem tryCharge (w : World α) (node : NodeId) (usage : StreamLimits) :
    w.Moves (w.tryCharge node usage).2 := by
  have hsteady := Grants.Steady.tryChargeStream w.grants node w.stream.event usage
  refine of_grants (w := w) (n := 0) hsteady
    (fun _ h => h.tryChargeStream node w.stream.event usage) ?_
  intro _ i _ hex
  exact hex.mono (hsteady.authority.isRevoked_eq i) (hsteady.authority i)
    fun index _ => Grants.usageOf_le_tryChargeStream _ _ _ _ _ _ _

theorem bindStream (w : World α) (node : NodeId) (rights : Rights) :
    w.Moves (w.bindStream node rights).2 := by
  unfold World.bindStream
  split
  · exact refl w
  · have hsteady := Grants.Steady.registerStream w.grants node w.stream.event
    refine of_grants (w := w) (n := 0) hsteady (fun _ h => h.registerStream node) ?_
    intro _ i _ hex
    exact hex.mono (hsteady.authority.isRevoked_eq i) (hsteady.authority i)
      fun index _ => (Grants.usageOf_registerStream _ _ _ _ _ _).ge

/-! ## Maintenance -/

/-- The front leaves, and its lease is released. -/
theorem pop {e : Entry α} {rest : List (Entry α)} (he : w.stream.state.entries = e :: rest)
    (room : Bool) (n : Bool)
    (hroom : w.stream.delivery = .latest → w.stream.state.needsRoom = false → room = false) :
    w.Moves ((w.unlock { w.stream.state with needsRoom := room, entries := rest } true n).release
      e.lease) := by
  refine (unlock_dirty _ n ?_ hroom).trans (release _ _)
  rintro x (hx | hx)
  · exact Or.inl (Or.inl (by rw [he]; exact List.mem_cons_of_mem e hx))
  · exact Or.inl (Or.inr hx)

theorem retireLoop (fuel : Nat) (w : World α) : w.Moves (w.retireLoop fuel) := by
  induction fuel generalizing w with
  | zero => exact refl w
  | succ fuel ih =>
    unfold World.retireLoop
    split
    · exact unlock w true
    · rename_i e rest he
      split
      · exact (pop he w.stream.state.needsRoom true fun _ h => h).trans (ih _)
      · exact unlock w true

theorem retireConsumed (w : World α) : w.Moves w.retireConsumed := by
  unfold World.retireConsumed
  split
  · exact refl w
  · exact retireLoop _ w

theorem freeRetired (w : World α) : w.Moves w.freeRetired := by
  have hdirty : w.Moves (w.unlock { w.stream.state with retired := none } true true) := by
    refine unlock_dirty _ true ?_ fun _ h => h
    rintro x (hx | hx)
    · exact Or.inl (Or.inl hx)
    · cases hx
  unfold World.freeRetired
  split
  · dsimp only
    cases hr : w.stream.state.retired with
    | none =>
      have hsame : { w.stream.state with retired := none } = w.stream.state := by rw [← hr]
      rw [hsame]
      exact unlock w true
    | some e => exact hdirty.trans (release _ _)
  · exact refl w

theorem makeRoom (w : World α) : w.Moves w.makeRoom := by
  unfold World.makeRoom
  dsimp only
  split
  · rename_i e rest he
    split
    · exact pop he false true fun _ _ => rfl
    · exact unlock_clean false true fun _ _ => rfl
  · exact unlock_clean false true fun _ _ => rfl

/-- Maintenance serves what was deferred. -/
theorem maintain (w : World α) : w.Moves w.maintain := by
  have h := ((freeRetired w).trans (retireConsumed _)).trans (makeRoom _)
  unfold World.maintain
  dsimp only
  split
  · refine h.trans ?_
    exact
      { SameStream.mk rfl rfl rfl (SameAuthority.refl _) fun _ h => h with
        steady := Grants.Steady.refl _
        holds := fun _ h => Or.inl h
        room := fun _ h => h
        changed := Nat.le_succ _
        deferred := fun _ => Or.inl (Nat.lt_succ_self _)
        quiet := Or.inl (Or.inl (Nat.lt_succ_self _)) }
  · exact h

/-! ## Publication -/

theorem reserveLoop (node : NodeId) (value : α) (fuel : Nat) (w : World α) :
    w.Moves (w.reserveLoop node value fuel).2 := by
  induction fuel generalizing w with
  | zero => exact refl w
  | succ fuel ih =>
    rcases w.reserveLoop_cases node value fuel with
      ⟨error, w', he, -, -, -, -, -, rfl | rfl⟩ | ⟨-, -, -, ⟨lease, w', hcharge, he⟩ |
        ⟨error, own, front, rest, -, -, -, -, hfront, he⟩⟩
    · rw [he]
      exact refl _
    · rw [he]
      exact unlock w true
    · rw [he]
      have ht := (unlock w true).trans (tryCharge _ node retainedItem)
      rw [hcharge] at ht
      exact ht
    · rw [he]
      refine (unlock w true).trans (Moves.trans ?_ (ih _))
      have hpop := pop (w := w.unlock w.stream.state false true) (e := front)
        (by rw [unlock_state]; exact hfront) w.stream.state.needsRoom true
        (by rw [unlock_state]; exact fun _ h => h)
      rw [unlock_state] at hpop
      exact hpop

theorem reserve (node : NodeId) (value : α) (w : World α) :
    w.Moves (w.reserve node value).2 := by
  unfold World.reserve
  split
  · exact refl w
  · exact refl w
  · exact refl w
  · dsimp only
    split
    · exact (maintain w).trans (reserveLoop node value _ _)
    · exact reserveLoop node value _ w

/-- An entry of a stream that publishes was there before, or has the new lease. -/
theorem append {s : State α} {lease : Lease} (hlease : Charged w.grants w.stream.event lease)
    (hholds : ∀ e, s.Holds e → w.stream.state.Holds e)
    (hroom : s.needsRoom = w.stream.state.needsRoom) (value : α) (n : Bool) :
    w.Moves (w.unlock (World.append s value lease) true n) := by
  refine unlock_dirty _ n ?_ fun _ h => hroom.trans h
  rintro e (he | he)
  · rcases List.mem_append.mp he with he | he
    · exact Or.inl (hholds e (Or.inl he))
    · rw [List.mem_singleton.mp he]
      exact Or.inr hlease
  · exact Or.inl (hholds e (Or.inr he))

theorem commit (hcap : 0 < w.stream.config.capacity) {lease : Lease}
    (hlease : Charged w.grants w.stream.event lease) (node : NodeId) (value : α)
    (deferred : Bool) : w.Moves (w.commit node value lease deferred).2 := by
  rcases commit_cases hcap node value lease deferred with
    ⟨error, w', he, hw⟩ | ⟨-, -, -, ⟨-, he⟩ | ⟨front, rest, hfront, -, -,
      ⟨-, he⟩ | ⟨-, -, -, he⟩⟩⟩
  · rw [he]
    rcases hw with rfl | ⟨room, n, hroom, rfl⟩
    · exact refl _
    · exact unlock_clean room n fun hd hr => (hroom hd).trans hr
  · rw [he]
    exact append hlease (fun _ h => h) rfl value _
  · rw [he]
    refine (append (s := { w.stream.state with entries := rest }) hlease ?_ rfl value true).trans
      (release _ _)
    rintro e (hx | hx)
    · exact Or.inl (by rw [hfront]; exact List.mem_cons_of_mem front hx)
    · exact Or.inr hx
  · rw [he]
    refine append (s := { w.stream.state with retired := some front, entries := rest }) hlease ?_
      rfl value false
    rintro e (hx | hx)
    · exact Or.inl (by rw [hfront]; exact List.mem_cons_of_mem front hx)
    · cases hx
      exact Or.inl (by rw [hfront]; exact List.mem_cons_self)

/-- A successful reservation is charged for an item of the event. -/
theorem charged_of_reserve {node : NodeId} {value v : α} {lease : Lease}
    (h : w.reserve node value = (.ok (v, lease), w')) :
    v = value ∧ lease.node = node ∧ Charged w'.grants w'.stream.event lease := by
  have hevent := (reserve node value w).event
  rw [h] at hevent
  obtain ⟨hv, w₁, hcharge⟩ := reserve_ok h
  refine ⟨hv, (tryCharge_ok hcharge).1, ?_⟩
  have hsame := SameStream.tryCharge w₁ node retainedItem
  rw [hcharge] at hsame
  obtain ⟨-, husage, index, hindex, hn⟩ := tryCharge_ok hcharge
  have hcharged : Charged w₁.grants w₁.stream.event lease := by
    refine ⟨husage, index, hindex, ?_⟩
    rw [(tryCharge_ok hcharge).1]
    exact hn
  rw [hsame.event]
  exact hcharged.of_authority hsame.authority

theorem sendNow (hcap : 0 < w.stream.config.capacity) (node : NodeId) (value : α) :
    w.Moves (w.sendNow node value).2 := by
  have hreserve := reserve node value w
  rcases w.sendNow_cases node value with
    ⟨error, w', he, hr | ⟨lease, w₁, error₂, w₂, hr, hcommit, rfl⟩⟩ |
      ⟨lease, w₁, w', hr, hcommit, he⟩
  · rw [hr] at hreserve
    rw [he]
    exact hreserve
  · obtain ⟨-, -, hcharged⟩ := charged_of_reserve hr
    rw [hr] at hreserve
    have hc := commit (hreserve.config ▸ hcap) hcharged node value false
    rw [hcommit] at hc
    rw [he]
    exact (hreserve.trans hc).trans (release _ _)
  · obtain ⟨-, -, hcharged⟩ := charged_of_reserve hr
    rw [hr] at hreserve
    have hc := commit (hreserve.config ▸ hcap) hcharged node value false
    rw [hcommit] at hc
    rw [he]
    exact hreserve.trans hc

/-! ## Subscriptions and reception -/

theorem subscribers (s : List (Option Cursor)) (next : Nat) (n : Bool) :
    w.Moves (w.unlock { w.stream.state with subscribers := s, nextCursor := next } true n) :=
  unlock_dirty _ n (fun _ h => Or.inl h) fun _ h => h

theorem subscribe (node : NodeId) (role : SubscriptionRole) :
    w.Moves (w.subscribe node role).2 := by
  have hbind := bindStream w node (roleRights role)
  have hcharge := tryCharge (w.bindStream node (roleRights role)).2 node
    { StreamLimits.zero with subscriptions := 1 }
  rcases w.subscribe_cases node role with
    ⟨error, w', he, hw⟩ | ⟨w₁, lease, index, -, hc, -, -, -, -, he⟩
  · rw [he]
    rcases hw with rfl | rfl | ⟨lease, w₁, hc, rfl | rfl⟩
    · exact refl _
    · exact hbind
    · rw [hc] at hcharge
      exact (hbind.trans hcharge).trans (release _ _)
    · rw [hc] at hcharge
      exact ((hbind.trans hcharge).trans (unlock _ true)).trans (release _ _)
  · rw [he]
    rw [hc] at hcharge
    exact (hbind.trans hcharge).trans (subscribers _ _ true)

/-- A reception that moves the cursor defers its announcement. -/
theorem tryRecv {node : NodeId} {key : CursorKey}
    {result : Except ReceiveError (Option (StreamItem α))}
    (h : w.tryRecv node key = .ok (result, w')) : w.Moves w' := by
  rcases tryRecv_moves h with rfl | rfl | ⟨s, rfl⟩
  · exact refl _
  · exact unlock w false
  · exact subscribers s w.stream.state.nextCursor false

theorem recvNow {node : NodeId} {key : CursorKey}
    {result : Except ReceiveError (Option (StreamItem α))}
    (h : w.recvNow node key = .ok (result, w')) : w.Moves w' := by
  obtain ⟨⟨item, w₁⟩, htry, hmaintain⟩ := bind_eq_ok.mp h
  cases hmaintain
  exact (tryRecv htry).trans (maintain w₁)

theorem dropReceiver (key : CursorKey) (lease : Lease) : w.Moves (w.dropReceiver key lease) :=
  ((subscribers _ w.stream.state.nextCursor true).trans (retireConsumed _)).trans (release _ _)

/-! ## Administration -/

theorem sender (node : NodeId) : w.Moves (w.sender node).2 := by
  have hb := bindStream w node .publish
  unfold World.sender
  split
  · rename_i heq
    rw [heq] at hb
    exact hb
  · rename_i heq
    rw [heq] at hb
    dsimp only
    split <;> exact hb

theorem closeStream (node : NodeId) : w.Moves (w.closeStream node).2 := by
  have hb := bindStream w node .publish
  unfold World.closeStream
  split
  · rename_i heq
    rw [heq] at hb
    exact hb
  · rename_i w₁ heq
    rw [heq] at hb
    have hclosed : w₁.Moves (w₁.unlock { w₁.stream.state with
        closed := true, entries := [], subscribers := [], retired := none } true true) := by
      refine unlock_dirty _ true ?_ fun _ h => h
      rintro e (he | he) <;> cases he
    exact (Moves.trans hb hclosed).trans (releaseAll _ _)

end Moves

end World

/-! ## Sessions -/

/-- A lease of `usage` from the pool of the event at its node. -/
def Leased (usage : StreamLimits) (g : Grants) (event : EventId) (lease : Lease) : Prop :=
  lease.usage = usage.asLimits ∧ ∃ index, lease.event = some index ∧
    (g.get lease.node).map (fun n => n.eventIndex event) = some (.ok index)

/-- The charge of one subscription. -/
abbrev oneSubscription : StreamLimits := { StreamLimits.zero with subscriptions := 1 }

/-- The charge of one waiter. -/
abbrev oneWaiter : StreamLimits := { StreamLimits.zero with waiters := 1 }

theorem Leased.of_authority {usage : StreamLimits} {g g' : Grants} {event : EventId}
    {lease : Lease} (h : Leased usage g event lease) (hg : SameAuthority g g') :
    Leased usage g' event lease := by
  obtain ⟨husage, index, hindex, hn⟩ := h
  exact ⟨husage, index, hindex, (hg.eventIndex_eq _ _).trans hn⟩

theorem Leased.of_tryCharge [Target] {w w' : World α} {node : NodeId} {usage : StreamLimits}
    {lease : Lease} (h : w.tryCharge node usage = (.ok lease, w')) :
    lease.node = node ∧ Leased usage w'.grants w'.stream.event lease := by
  have hsame := World.SameStream.tryCharge w node usage
  rw [h] at hsame
  obtain ⟨rfl, husage, hindex⟩ := World.tryCharge_ok h
  rw [hsame.event]
  exact ⟨rfl, Leased.of_authority ⟨husage, hindex⟩ hsame.authority⟩

namespace Session

/-- Every lease is of the kind that its holder needs. -/
structure Classified (s : Session α) : Prop where
  holds : ∀ e, s.world.stream.state.Holds e →
    Charged s.world.grants s.world.stream.event e.lease
  prepared : ∀ (p : Nat) (prepared : Prepared α), Slots.entry s.preparations p = some prepared →
    prepared.lease.node = prepared.node ∧
      Charged s.world.grants s.world.stream.event prepared.lease
  receivers : ∀ (r : Nat) (sub : Subscription α), s.subscriptions[r]? = some sub →
    sub.dropped = false → sub.lease.node = sub.node ∧
      Leased oneSubscription s.world.grants s.world.stream.event sub.lease

namespace Classified

variable {s s' : Session α}

/-- A preparation is gone. -/
theorem without (h : s.Classified) (p : Nat) (published : List α) :
    Classified { s with preparations := s.preparations.set p none, published := published } where
  holds := h.holds
  prepared := by
    intro q prepared hq
    rcases Handles.getElem?_set_cases (Slots.entry_eq_some.mp hq) with ⟨-, hq⟩ | ⟨-, hq⟩
    · cases hq
    · exact h.prepared q prepared (Slots.entry_eq_some.mpr hq)
  receivers := h.receivers

/-- A subscription has been told something, or is dropped. -/
theorem replace (h : s.Classified) {r : Nat} {sub sub' : Subscription α}
    (hr : s.subscriptions[r]? = some sub)
    (hkeep : sub'.dropped = false → sub.dropped = false ∧ sub'.node = sub.node ∧
      sub'.lease = sub.lease) :
    Classified { s with subscriptions := s.subscriptions.set r sub' } where
  holds := h.holds
  prepared := h.prepared
  receivers := by
    intro r' other hr' hd
    rcases Handles.getElem?_set_cases hr' with ⟨-, rfl⟩ | ⟨-, hr'⟩
    · obtain ⟨hd, hnode, hlease⟩ := hkeep hd
      rw [hnode, hlease]
      exact h.receivers r sub hr hd
    · exact h.receivers r' other hr' hd

variable [Target]

/-- Only the world changed. -/
theorem of_world (h : s.Classified) {w : World α} (hm : s.world.Moves w) :
    Classified { s with world := w } where
  holds := by
    intro e he
    dsimp only at he ⊢
    rw [hm.event]
    rcases hm.holds e he with he | he
    · exact (h.holds e he).of_authority hm.authority
    · exact he
  prepared := by
    intro p prepared hp
    obtain ⟨hnode, hcharged⟩ := h.prepared p prepared hp
    dsimp only
    rw [hm.event]
    exact ⟨hnode, hcharged.of_authority hm.authority⟩
  receivers := by
    intro r sub hr hd
    obtain ⟨hnode, hsubscribed⟩ := h.receivers r sub hr hd
    dsimp only
    rw [hm.event]
    exact ⟨hnode, hsubscribed.of_authority hm.authority⟩

/-- What a receiver is told changes none of its leases. -/
theorem told (h : s.Classified) {r : Nat} {sub : Subscription α}
    (hr : s.subscriptions[r]? = some sub)
    (result : Except ReceiveError (Option (StreamItem α)) × World α)
    (hm : s.world.Moves result.2) :
    (s.told r sub result).Classified ∧ (s.told r sub result).world = result.2 := by
  have hw := h.of_world hm
  unfold Session.told
  split
  · exact ⟨hw.replace hr fun hd => ⟨hd, rfl, rfl⟩, rfl⟩
  · exact ⟨hw, rfl⟩

theorem sendNow (h : s.Classified) (hcap : 0 < s.world.stream.config.capacity) (node : NodeId)
    (value : α) : (s.sendNow node value).Classified ∧
      (s.sendNow node value).world = (s.world.sendNow node value).2 := by
  have hm := World.Moves.sendNow hcap node value
  unfold Session.sendNow
  split
  · rename_i heq
    rw [heq] at hm ⊢
    exact ⟨h.of_world hm, rfl⟩
  · rename_i heq
    rw [heq] at hm ⊢
    have hw := h.of_world hm
    exact ⟨⟨hw.holds, hw.prepared, hw.receivers⟩, rfl⟩

theorem prepare (h : s.Classified) (node : NodeId) (value : α) :
    (s.prepare node value).Classified ∧ s.world.Moves (s.prepare node value).world := by
  have hm := World.Moves.reserve node value s.world
  unfold Session.prepare
  split
  · rename_i heq
    rw [heq] at hm
    exact ⟨h.of_world hm, hm⟩
  · rename_i v lease w heq
    rw [heq] at hm
    obtain ⟨-, hnode, hcharged⟩ := World.Moves.charged_of_reserve heq
    have hw := h.of_world hm
    refine ⟨⟨hw.holds, ?_, hw.receivers⟩, hm⟩
    intro p prepared hp
    rcases Handles.getElem?_snoc (Slots.entry_eq_some.mp hp) with ⟨hp, -⟩ | ⟨-, hp⟩
    · exact hw.prepared p prepared (Slots.entry_eq_some.mpr hp)
    · cases hp
      exact ⟨hnode, hcharged⟩

theorem trySend (h : s.Classified) (hcap : 0 < s.world.stream.config.capacity) (p : Nat) :
    (s.trySend p).Classified ∧ s.world.Moves (s.trySend p).world := by
  unfold Session.trySend
  split
  · exact ⟨h, World.Moves.refl _⟩
  · rename_i prepared hp
    have hm := World.Moves.commit hcap (h.prepared p prepared hp).2 prepared.node prepared.value
      true
    split
    · rename_i heq
      rw [heq] at hm
      exact ⟨h.of_world hm, hm⟩
    · rename_i heq
      rw [heq] at hm
      exact ⟨(h.of_world hm).without p _, hm⟩

theorem cancel (h : s.Classified) (p : Nat) :
    (s.cancel p).Classified ∧ s.world.Moves (s.cancel p).world := by
  unfold Session.cancel
  split
  · exact ⟨h, World.Moves.refl _⟩
  · rename_i prepared hp
    have hm := World.Moves.release s.world prepared.lease
    exact ⟨(h.of_world hm).without p s.published, hm⟩

theorem subscribe (h : s.Classified) (node : NodeId) (role : SubscriptionRole) :
    (s.subscribe node role).Classified ∧ s.world.Moves (s.subscribe node role).world := by
  have hm := World.Moves.subscribe (w := s.world) node role
  unfold Session.subscribe
  rcases s.world.subscribe_cases node role with
    ⟨error, w', he, -⟩ | ⟨w₁, lease, index, -, hcharge, -, -, -, -, he⟩
  · rw [he] at hm ⊢
    exact ⟨h.of_world hm, hm⟩
  · rw [he] at hm ⊢
    have hw := h.of_world hm
    refine ⟨⟨hw.holds, hw.prepared, ?_⟩, hm⟩
    intro r sub hr hd
    rcases Handles.getElem?_snoc hr with ⟨hr, -⟩ | ⟨-, rfl⟩
    · exact hw.receivers r sub hr hd
    · obtain ⟨hnode, hleased⟩ := Leased.of_tryCharge hcharge
      dsimp only
      rw [World.claimed, World.unlock_event, World.unlock_grants]
      exact ⟨hnode, hleased⟩

theorem tryRecv (h : s.Classified) {r : Nat} (he : s.tryRecv r = .ok s') :
    s'.Classified ∧ s.world.Moves s'.world := by
  unfold Session.tryRecv at he
  split at he
  · cases he
    exact ⟨h, World.Moves.refl _⟩
  · rename_i sub hr
    split at he
    · cases he
      exact ⟨h, World.Moves.refl _⟩
    · obtain ⟨result, hrecv, he⟩ := bind_eq_ok.mp he
      cases he
      have hm := World.Moves.tryRecv hrecv
      obtain ⟨hc, hworld⟩ := h.told hr result hm
      exact ⟨hc, by rw [hworld]; exact hm⟩

theorem recvNow (h : s.Classified) {r : Nat} (he : s.recvNow r = .ok s') :
    s'.Classified ∧ s.world.Moves s'.world := by
  unfold Session.recvNow at he
  split at he
  · cases he
    exact ⟨h, World.Moves.refl _⟩
  · rename_i sub hr
    split at he
    · cases he
      exact ⟨h, World.Moves.refl _⟩
    · obtain ⟨result, hrecv, he⟩ := bind_eq_ok.mp he
      cases he
      have hm := World.Moves.recvNow hrecv
      obtain ⟨hc, hworld⟩ := h.told hr result hm
      exact ⟨hc, by rw [hworld]; exact hm⟩

theorem drop (h : s.Classified) (r : Nat) :
    (s.drop r).Classified ∧ s.world.Moves (s.drop r).world := by
  unfold Session.drop
  split
  · exact ⟨h, World.Moves.refl _⟩
  · rename_i sub hr
    split
    · exact ⟨h, World.Moves.refl _⟩
    · have hm := World.Moves.dropReceiver (w := s.world) sub.key sub.lease
      exact ⟨(h.of_world hm).replace hr (by simp), hm⟩

/-- An operation other than a revocation moves the stream and keeps every lease in its
class. -/
theorem step (h : s.Classified) (hcap : 0 < s.world.stream.config.capacity) {op : Op α}
    (hop : ∀ node, op ≠ .revoke node) (he : s.step op = .ok s') :
    s'.Classified ∧ s.world.Moves s'.world := by
  cases op with
  | sender node =>
    cases he
    exact ⟨h.of_world (World.Moves.sender node), World.Moves.sender node⟩
  | sendNow node value =>
    cases he
    obtain ⟨hc, hworld⟩ := h.sendNow hcap node value
    exact ⟨hc, by rw [hworld]; exact World.Moves.sendNow hcap node value⟩
  | prepare node value =>
    cases he
    exact h.prepare node value
  | trySend p =>
    cases he
    exact h.trySend hcap p
  | cancel p =>
    cases he
    exact h.cancel p
  | subscribe node role =>
    cases he
    exact h.subscribe node role
  | tryRecv r => exact h.tryRecv he
  | recvNow r => exact h.recvNow he
  | drop r =>
    cases he
    exact h.drop r
  | maintain =>
    cases he
    exact ⟨h.of_world (World.Moves.maintain _), World.Moves.maintain _⟩
  | revoke node => exact absurd rfl (hop node)
  | closeStream =>
    cases he
    exact ⟨h.of_world (World.Moves.closeStream root), World.Moves.closeStream root⟩

end Classified

end Session

end Hiway.Fabric
