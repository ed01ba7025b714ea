import Hiway.Fabric.Steps
import Hiway.Grant.Authority
import Hiway.Lib.Handles

/-!
# Retention

Entries leave a stream at its front, and the operations that only make room for others
leave nothing else changed: the stream is trimmed. What a trimmed stream drops was not
needed by a live required cursor.

* `Trims`: what only makes room: the stream is the same but for a front that no live
  required cursor needs.
* `Trims.reserveLoop`, `Trims.reserve`: a reservation trims the stream.
* `trims`, `append`, `replace`: a stream that retains the end of its history goes on to do
  so.
-/

namespace Hiway.Fabric

open Exec Target

variable {α : Type}

/-! ## What the guards show -/

namespace State

theorem requiredNeeds_iff {s : State α} {g : Grants} {n : Nat} :
    s.requiredNeeds g n = true ↔ ∃ i c, Slots.entry s.subscribers i = some c ∧
      c.role = .required ∧ c.next ≤ n ∧ g.isRevoked c.grant = false := by
  unfold requiredNeeds
  rw [Slots.any_iff]
  simp

theorem consumed_iff {s : State α} {g : Grants} {n : Nat} :
    s.consumed g n = true ↔ ∀ i c, Slots.entry s.subscribers i = some c →
      n < c.next ∨ g.isRevoked c.grant = true := by
  unfold consumed
  rw [Slots.all_iff]
  simp

theorem requiredNeeds_mono {s : State α} {g : Grants} {m n : Nat} (h : m ≤ n)
    (hm : s.requiredNeeds g m = true) : s.requiredNeeds g n = true := by
  rw [requiredNeeds_iff] at hm ⊢
  obtain ⟨i, c, hc, hrole, hle, hg⟩ := hm
  exact ⟨i, c, hc, hrole, hle.trans h, hg⟩

/-- What every live cursor has passed, no required cursor needs. -/
theorem not_needed_of_consumed {s : State α} {g : Grants} {n : Nat}
    (h : s.consumed g n = true) : s.requiredNeeds g n = false := by
  rw [← Bool.not_eq_true, requiredNeeds_iff]
  rintro ⟨i, c, hc, -, hle, hg⟩
  rw [consumed_iff] at h
  rcases h i c hc with hlt | hr
  · omega
  · rw [hg] at hr
    cases hr

theorem requiredNeeds_congr {s s' : State α} {g g' : Grants}
    (hs : s'.subscribers = s.subscribers) (hg : SameAuthority g g') (n : Nat) :
    s'.requiredNeeds g' n = s.requiredNeeds g n := by
  unfold requiredNeeds
  simp only [hs, hg.isRevoked_eq]

end State

namespace World

/-! ## Trimming -/

/-- The same stream, under the same authority. -/
structure SameStream (w w' : World α) : Prop where
  event : w'.stream.event = w.stream.event
  config : w'.stream.config = w.stream.config
  delivery : w'.stream.delivery = w.stream.delivery
  authority : SameAuthority w.grants w'.grants
  registers : ∀ i, w.grants.Registers i w.stream.event → w'.grants.Registers i w.stream.event

theorem SameStream.refl (w : World α) : SameStream w w :=
  ⟨rfl, rfl, rfl, SameAuthority.refl _, fun _ h => h⟩

theorem SameStream.trans {w₁ w₂ w₃ : World α} (h : SameStream w₁ w₂) (h' : SameStream w₂ w₃) :
    SameStream w₁ w₃ :=
  ⟨h'.event.trans h.event, h'.config.trans h.config, h'.delivery.trans h.delivery,
    h.authority.trans h'.authority,
    fun i hi => by
      have := h'.registers i
      rw [h.event] at this
      exact this (h.registers i hi)⟩

theorem SameStream.unlock (w : World α) (s : State α) (d n : Bool) :
    SameStream w (w.unlock s d n) :=
  ⟨unlock_event w s d n, unlock_config w s d n, unlock_delivery w s d n, SameAuthority.refl _,
    fun _ h => h⟩

theorem SameStream.of_unlock {w w' : World α} (h : SameStream w w') (s : State α) (d n : Bool) :
    SameStream (w.unlock s d n) w' where
  event := h.event.trans (unlock_event w s d n).symm
  config := h.config.trans (unlock_config w s d n).symm
  delivery := h.delivery.trans (unlock_delivery w s d n).symm
  authority := h.authority
  registers := by
    rw [unlock_event]
    exact h.registers

theorem SameStream.release (w : World α) (lease : Lease) : SameStream w (w.release lease) :=
  ⟨release_event w lease, release_config w lease, release_delivery w lease,
    SameAuthority.release _ _, fun _ h => h.release lease⟩

theorem SameStream.tryCharge [Target] (w : World α) (node : NodeId) (usage : StreamLimits) :
    SameStream w (w.tryCharge node usage).2 :=
  ⟨rfl, rfl, rfl, SameAuthority.tryChargeStream _ _ _ _,
    fun _ h => h.tryChargeStream node w.stream.event usage⟩

theorem SameStream.bindStream (w : World α) (node : NodeId) (rights : Rights) :
    SameStream w (w.bindStream node rights).2 := by
  unfold World.bindStream
  split
  · exact refl w
  · exact ⟨rfl, rfl, rfl, SameAuthority.registerStream _ _ _,
      fun _ h => h.registerStream node⟩

theorem SameStream.reserveLoop [Target] (node : NodeId) (value : α) (fuel : Nat) (w : World α) :
    SameStream w (w.reserveLoop node value fuel).2 := by
  induction fuel generalizing w with
  | zero => exact refl w
  | succ fuel ih =>
    rcases w.reserveLoop_cases node value fuel with
      ⟨error, w', he, hg, -, hevent, hconfig, hdelivery, -⟩ | ⟨-, -, -, ⟨lease, w', hcharge, he⟩ |
        ⟨error, own, front, rest, -, -, -, -, -, he⟩⟩
    · rw [he]
      exact ⟨hevent, hconfig, hdelivery, hg ▸ SameAuthority.refl _, fun _ h => hg ▸ h⟩
    · rw [he]
      have ht := (unlock w w.stream.state false true).trans (tryCharge _ node retainedItem)
      rw [hcharge] at ht
      exact ht
    · rw [he]
      exact (((unlock w _ _ _).trans (unlock _ _ _ _)).trans (release _ _)).trans (ih _)

theorem blocked_congr {w w' : World α} (hsame : SameStream w w')
    (hstate : w'.stream.state = w.stream.state) : w'.Blocked ↔ w.Blocked := by
  unfold Blocked
  rw [hstate, hsame.config]
  simp only [State.requiredNeeds_congr rfl hsame.authority]

/-- Nothing but entries at the front is gone, and no live required cursor needed them. -/
structure Trims (w w' : World α) : Prop extends SameStream w w' where
  subscribers : w'.stream.state.subscribers = w.stream.state.subscribers
  tail : w'.stream.state.tail = w.stream.state.tail
  nextCursor : w'.stream.state.nextCursor = w.stream.state.nextCursor
  closed : w'.stream.state.closed = w.stream.state.closed
  entries : ∃ n, w'.stream.state.entries = w.stream.state.entries.drop n ∧
    ∀ e ∈ w.stream.state.entries.take n, w.stream.state.requiredNeeds w.grants e.sequence = false

namespace Trims

variable {w w' w'' : World α}

/-- Without a change to the state nothing is trimmed. -/
theorem of_state (h : SameStream w w') (hs : w'.stream.state = w.stream.state) : Trims w w' :=
  { h with
    subscribers := by rw [hs]
    tail := by rw [hs]
    nextCursor := by rw [hs]
    closed := by rw [hs]
    entries := ⟨0, by simp [hs]⟩ }

theorem refl (w : World α) : Trims w w := of_state (SameStream.refl w) rfl

theorem needs_eq (h : Trims w w') (n : Nat) :
    w'.stream.state.requiredNeeds w'.grants n = w.stream.state.requiredNeeds w.grants n :=
  State.requiredNeeds_congr h.subscribers h.authority n

theorem trans (h : Trims w w') (h' : Trims w' w'') : Trims w w'' where
  toSameStream := h.toSameStream.trans h'.toSameStream
  subscribers := h'.subscribers.trans h.subscribers
  tail := h'.tail.trans h.tail
  nextCursor := h'.nextCursor.trans h.nextCursor
  closed := h'.closed.trans h.closed
  entries := by
    obtain ⟨n, hn, hneed⟩ := h.entries
    obtain ⟨m, hm, hneed'⟩ := h'.entries
    refine ⟨n + m, by rw [hm, hn, List.drop_drop], ?_⟩
    intro e he
    rw [List.take_add] at he
    rcases List.mem_append.mp he with he | he
    · exact hneed e he
    · rw [← h.needs_eq]
      exact hneed' e (by rw [hn]; exact he)

theorem release (w : World α) (lease : Lease) : Trims w (w.release lease) :=
  of_state (SameStream.release w lease) (release_state w lease)

theorem releaseAll (entries : List (Entry α)) (w : World α) : Trims w (w.releaseAll entries) := by
  induction entries generalizing w with
  | nil => exact refl w
  | cons e rest ih => exact (release w e.lease).trans (ih _)

theorem bindStream (w : World α) (node : NodeId) (rights : Rights) :
    Trims w (w.bindStream node rights).2 :=
  of_state (SameStream.bindStream w node rights)
    (congrArg Stream.state (bindStream_stream w node rights))

theorem tryCharge [Target] (w : World α) (node : NodeId) (usage : StreamLimits) :
    Trims w (w.tryCharge node usage).2 :=
  of_state (SameStream.tryCharge w node usage) rfl

/-- The state is left as it was, up to the flags of strict publication. -/
theorem unlock (w : World α) (room : Bool) (retired : Option (Entry α)) (d n : Bool) :
    Trims w (w.unlock { w.stream.state with needsRoom := room, retired := retired } d n) :=
  { SameStream.unlock w _ d n with
    subscribers := by rw [unlock_state]
    tail := by rw [unlock_state]
    nextCursor := by rw [unlock_state]
    closed := by rw [unlock_state]
    entries := ⟨0, by simp⟩ }

/-- The front entry is popped and its lease released. -/
theorem pop {e : Entry α} {rest : List (Entry α)} (he : w.stream.state.entries = e :: rest)
    (hneed : w.stream.state.requiredNeeds w.grants e.sequence = false) (room : Bool) (d n : Bool) :
    Trims w ((w.unlock { w.stream.state with needsRoom := room, entries := rest } d n).release
      e.lease) := by
  refine trans ?_
    (release _ _)
  exact
    { SameStream.unlock w _ d n with
      subscribers := by rw [unlock_state]
      tail := by rw [unlock_state]
      nextCursor := by rw [unlock_state]
      closed := by rw [unlock_state]
      entries := ⟨1, by simp [he], by simpa [he] using hneed⟩ }

theorem retireLoop (fuel : Nat) (w : World α) : Trims w (w.retireLoop fuel) := by
  induction fuel generalizing w with
  | zero => exact refl w
  | succ fuel ih =>
    unfold World.retireLoop
    split
    · exact unlock w _ _ _ _
    · rename_i e rest he
      split
      · rename_i hconsumed
        exact (pop he (State.not_needed_of_consumed hconsumed) w.stream.state.needsRoom _ _).trans
          (ih _)
      · exact unlock w _ _ _ _

theorem retireConsumed (w : World α) : Trims w w.retireConsumed := by
  unfold World.retireConsumed
  split
  · exact refl w
  · exact retireLoop _ w

theorem freeRetired (w : World α) : Trims w w.freeRetired := by
  unfold World.freeRetired
  split
  · dsimp only
    split
    · exact unlock w _ _ _ _
    · exact (unlock w _ _ _ _).trans (release _ _)
  · exact refl w

theorem makeRoom (w : World α) : Trims w w.makeRoom := by
  unfold World.makeRoom
  dsimp only
  split
  · rename_i e rest he
    split
    · rename_i hroom
      exact pop he hroom.2.2 _ _ _
    · exact unlock w _ _ _ _
  · exact unlock w _ _ _ _

theorem maintain (w : World α) : Trims w w.maintain := by
  have h := ((freeRetired w).trans (retireConsumed _)).trans (makeRoom _)
  unfold World.maintain
  dsimp only
  split
  · exact h.trans (of_state (SameStream.mk rfl rfl rfl (SameAuthority.refl _) fun _ h => h) rfl)
  · exact h

end Trims

/-! ## What maintenance retires -/

theorem retireLoop_state (fuel : Nat) (w : World α) :
    ∃ n, (w.retireLoop fuel).stream.state =
        { w.stream.state with entries := w.stream.state.entries.drop n } ∧
      ∀ e ∈ w.stream.state.entries.take n, w.stream.state.consumed w.grants e.sequence = true := by
  induction fuel generalizing w with
  | zero => exact ⟨0, by simp [World.retireLoop]⟩
  | succ fuel ih =>
    unfold World.retireLoop
    split
    · exact ⟨0, by simp⟩
    · rename_i e rest he
      split
      · rename_i hconsumed
        obtain ⟨n, hn, hall⟩ := ih ((w.unlock { w.stream.state with entries := rest } true
          true).release e.lease)
        refine ⟨n + 1, ?_, ?_⟩
        · rw [hn, he]
          simp
        · intro x hx
          rw [he, List.take_succ_cons] at hx
          rcases List.mem_cons.mp hx with rfl | hx
          · exact hconsumed
          · have := hall x (by simpa using hx)
            unfold State.consumed at this ⊢
            simpa [(SameAuthority.release w.grants e.lease).isRevoked_eq] using this
      · exact ⟨0, by simp⟩

theorem retireConsumed_state (w : World α) :
    ∃ n, w.retireConsumed.stream.state =
        { w.stream.state with entries := w.stream.state.entries.drop n } ∧
      (∀ e ∈ w.stream.state.entries.take n,
        w.stream.state.consumed w.grants e.sequence = true) ∧
      (w.stream.delivery = .latest → n = 0) := by
  unfold World.retireConsumed
  by_cases hl : w.stream.delivery = .latest
  · rw [if_pos hl]
    exact ⟨0, by simp, by simp, fun _ => rfl⟩
  · rw [if_neg hl]
    obtain ⟨n, hn, hall⟩ := retireLoop_state w.stream.config.capacity w
    exact ⟨n, hn, hall, fun h => absurd h hl⟩

/-- Without a request for room and without a retired snapshot, maintenance drops what
every live cursor has passed, and on a latest-state stream nothing. -/
theorem maintain_state {w : World α} (hroom : w.stream.state.needsRoom = false)
    (hretired : w.stream.state.retired = none) :
    ∃ n, w.maintain.stream.state =
        { w.stream.state with entries := w.stream.state.entries.drop n } ∧
      (∀ e ∈ w.stream.state.entries.take n,
        w.stream.state.consumed w.grants e.sequence = true) ∧
      (w.stream.delivery = .latest → n = 0) := by
  have hfree : w.freeRetired.stream.state = w.stream.state := by
    unfold freeRetired
    split
    · rw [hretired]
      simp [← hretired]
    · rfl
  have hauthority := (Trims.freeRetired w).authority
  have hdelivery := (Trims.freeRetired w).delivery
  have hmake : ∀ v : World α, v.stream.state.needsRoom = false →
      v.makeRoom.stream.state = v.stream.state := by
    intro v hv
    unfold makeRoom
    dsimp only
    split
    · rw [if_neg (by simp [hv]), unlock_state]
      simp [← hv]
    · rw [unlock_state]
      simp [← hv]
  have hlast : w.maintain.stream.state =
      (w.freeRetired.retireConsumed.makeRoom).stream.state := by
    unfold World.maintain
    dsimp only
    split <;> rfl
  rw [hlast]
  obtain ⟨n, hn, hall, hlatest⟩ := retireConsumed_state w.freeRetired
  rw [hfree] at hn hall
  refine ⟨n, ?_, ?_, fun h => hlatest (hdelivery.trans h)⟩
  · rw [hmake _ (by rw [hn]; exact hroom), hn]
  · intro e he
    have := hall e he
    unfold State.consumed at this ⊢
    simpa [hauthority.isRevoked_eq] using this

/-! ## Sorted queues -/

/-- Entries stand in the order of their sequences. -/
def Sorted (entries : List (Entry α)) : Prop :=
  entries.Pairwise fun a b => a.sequence < b.sequence

/-- The front of a sorted queue is not younger than any entry. -/
theorem Sorted.head_le {e e' : Entry α} {rest : List (Entry α)} (h : Sorted (e :: rest))
    (he : e' ∈ e :: rest) : e.sequence ≤ e'.sequence := by
  rcases List.mem_cons.mp he with rfl | he
  · exact le_refl _
  · exact (List.rel_of_pairwise_cons h he).le

/-- A publisher looks for an entry of its own that nobody needs any more, and drops
the front, which is not younger. -/
theorem Trims.reserveLoop [Target] (node : NodeId) (value : α) (fuel : Nat) {w : World α}
    (hs : Sorted w.stream.state.entries) : Trims w (w.reserveLoop node value fuel).2 := by
  induction fuel generalizing w with
  | zero => exact Trims.refl w
  | succ fuel ih =>
    have hseen : Trims w (w.unlock w.stream.state false true) := Trims.unlock w _ _ _ _
    have hsame := SameStream.reserveLoop node value (fuel + 1) w
    rcases w.reserveLoop_cases node value fuel with
      ⟨error, w', he, -, hstate, -⟩ | ⟨-, -, -, ⟨lease, w', hcharge, he⟩ |
        ⟨error, own, front, rest, -, -, hown, hneed, hfront, he⟩⟩
    · rw [he] at hsame ⊢
      exact Trims.of_state hsame hstate
    · rw [he]
      have ht := hseen.trans (Trims.tryCharge _ node retainedItem)
      rw [hcharge] at ht
      exact ht
    · rw [he]
      rw [hfront] at hs hown
      have hfree : w.stream.state.requiredNeeds w.grants front.sequence = false := by
        rw [← Bool.not_eq_true] at hneed ⊢
        exact fun hn => hneed
          (State.requiredNeeds_mono (hs.head_le (List.mem_of_find?_eq_some hown)) hn)
      have hpop := hseen.trans (Trims.pop (w := w.unlock w.stream.state false true) (e := front)
        (by rw [unlock_state]; exact hfront) (by rw [hseen.needs_eq]; exact hfree)
        w.stream.state.needsRoom true true)
      rw [unlock_state] at hpop
      have hpop : Trims w (w.evicted front rest) := hpop
      refine hpop.trans (ih ?_)
      rw [evicted, release_state, unlock_state]
      exact hs.of_cons

theorem SameStream.reserve [Target] (node : NodeId) (value : α) (w : World α) :
    SameStream w (w.reserve node value).2 := by
  unfold World.reserve
  split
  · exact refl w
  · exact refl w
  · exact refl w
  · dsimp only
    split
    · exact (Trims.maintain w).toSameStream.trans (SameStream.reserveLoop node value _ _)
    · exact SameStream.reserveLoop node value _ _

theorem SameStream.commit [Target] {w : World α} (hcap : 0 < w.stream.config.capacity)
    (node : NodeId) (value : α) (lease : Lease) (deferred : Bool) :
    SameStream w (w.commit node value lease deferred).2 := by
  rcases commit_cases hcap node value lease deferred with
    ⟨error, w', he, hw⟩ | ⟨-, -, -, ⟨-, he⟩ | ⟨front, rest, -, -, -, ⟨-, he⟩ | ⟨-, -, -, he⟩⟩⟩
  · rw [he]
    rcases hw with rfl | ⟨room, n, -, rfl⟩
    · exact refl _
    · exact unlock _ _ _ _
  · rw [he]
    exact unlock _ _ _ _
  · rw [he]
    exact (unlock _ _ _ _).trans (release _ _)
  · rw [he]
    exact unlock _ _ _ _

theorem SameStream.sendNow [Target] {w : World α} (hcap : 0 < w.stream.config.capacity)
    (node : NodeId) (value : α) : SameStream w (w.sendNow node value).2 := by
  have hr := SameStream.reserve node value w
  rcases w.sendNow_cases node value with
    ⟨error, w', he, hreserve | ⟨lease, w₁, error₂, w₂, hreserve, hcommit, rfl⟩⟩ |
      ⟨lease, w₁, w', hreserve, hcommit, he⟩
  · rw [hreserve] at hr
    rw [he]
    exact hr
  · rw [hreserve] at hr
    have hc := commit (hr.config ▸ hcap) node value lease false
    rw [hcommit] at hc
    rw [he]
    exact (hr.trans hc).trans (release _ _)
  · rw [hreserve] at hr
    have hc := commit (hr.config ▸ hcap) node value lease false
    rw [hcommit] at hc
    rw [he]
    exact hr.trans hc

theorem SameStream.subscribe [Target] (w : World α) (node : NodeId) (role : SubscriptionRole) :
    SameStream w (w.subscribe node role).2 := by
  have hbind := SameStream.bindStream w node (roleRights role)
  have ht := hbind.trans (tryCharge _ node { StreamLimits.zero with subscriptions := 1 })
  rcases w.subscribe_cases node role with
    ⟨error, w', he, hw⟩ | ⟨w₁, lease, index, -, hcharge, -, -, -, -, he⟩
  · rw [he]
    rcases hw with rfl | rfl | ⟨lease, w₁, hcharge, rfl | rfl⟩
    · exact refl _
    · exact hbind
    · rw [hcharge] at ht
      exact ht.trans (release _ _)
    · rw [hcharge] at ht
      exact (ht.trans (unlock _ _ _ _)).trans (release _ _)
  · rw [hcharge] at ht
    rw [he]
    exact ht.trans (unlock _ _ _ _)

theorem SameStream.tryRecv [Target] {w w' : World α} {node : NodeId} {key : CursorKey}
    {result : Except ReceiveError (Option (StreamItem α))}
    (h : w.tryRecv node key = .ok (result, w')) : SameStream w w' := by
  rcases tryRecv_world h with rfl | ⟨subscribers, d, rfl⟩
  · exact refl _
  · exact unlock _ _ _ _

theorem SameStream.dropReceiver (w : World α) (key : CursorKey) (lease : Lease) :
    SameStream w (w.dropReceiver key lease) :=
  ((unlock w _ _ _).trans (Trims.retireConsumed _).toSameStream).trans (release _ _)

theorem SameStream.sender (w : World α) (node : NodeId) : SameStream w (w.sender node).2 := by
  have hb := SameStream.bindStream w node .publish
  unfold World.sender
  split
  · rename_i heq
    rw [heq] at hb
    exact hb
  · rename_i heq
    rw [heq] at hb
    dsimp only
    split <;> exact hb

theorem SameStream.closeStream (w : World α) (node : NodeId) :
    SameStream w (w.closeStream node).2 := by
  have hb := SameStream.bindStream w node .publish
  unfold World.closeStream
  split
  · rename_i heq
    rw [heq] at hb
    exact hb
  · rename_i heq
    rw [heq] at hb
    exact (hb.trans (unlock _ _ _ _)).trans (Trims.releaseAll _ _).toSameStream

theorem Trims.reserve [Target] (node : NodeId) (value : α) {w : World α}
    (hs : Sorted w.stream.state.entries) : Trims w (w.reserve node value).2 := by
  unfold World.reserve
  split
  · exact Trims.refl w
  · exact Trims.refl w
  · exact Trims.refl w
  · dsimp only
    split
    · have hm := Trims.maintain w
      refine hm.trans (Trims.reserveLoop node value _ ?_)
      obtain ⟨n, hn, -⟩ := hm.entries
      rw [hn]
      exact hs.sublist (List.drop_sublist n _)
    · exact Trims.reserveLoop node value _ hs

/-! ## The end of the history -/

/-- A stream that accepted `published` retains the last of it, at most its capacity, and
at least what a live required cursor has not read. -/
structure Retains (published : List α) (w : World α) : Prop where
  tail : w.stream.state.tail = published.length
  bounded : published.length ≤ u64Max
  capacity : w.stream.state.entries.length ≤ w.stream.config.capacity
  length : w.stream.state.entries.length ≤ published.length
  entry : ∀ (k : Nat) (e : Entry α), w.stream.state.entries[k]? = some e →
    e.sequence + w.stream.state.entries.length = published.length + k ∧
      published[e.sequence]? = some e.value
  next : ∀ (i : Nat) (c : Cursor), Slots.entry w.stream.state.subscribers i = some c →
    c.next ≤ published.length
  kept : ∀ (i : Nat) (c : Cursor), Slots.entry w.stream.state.subscribers i = some c →
    c.role = .required → w.grants.isRevoked c.grant = false →
      published.length ≤ c.next + w.stream.state.entries.length
  closed : w.stream.state.closed = true →
    w.stream.state.entries = [] ∧ w.stream.state.subscribers = []

namespace Retains

variable {published : List α} {w w' : World α}

/-- A new stream retains nothing of nothing. -/
theorem empty (g : Grants) (event : EventId) (delivery : Delivery) (config : StreamConfig) :
    Retains ([] : List α) ⟨g, Stream.empty event delivery config⟩ := by
  have hnone : ∀ (i : Nat) (c : Cursor),
      Slots.entry (List.replicate config.subscribers none) i ≠ some c := by
    intro i c hc
    rw [Slots.entry_replicate] at hc
    cases hc
  exact
    { tail := rfl
      bounded := Nat.zero_le _
      capacity := Nat.zero_le _
      length := le_refl _
      entry := by simp [Stream.empty]
      next := fun i c hc => absurd hc (hnone i c)
      kept := fun i c hc => absurd hc (hnone i c)
      closed := by simp [Stream.empty] }

/-- The sequence of the entry at a position. -/
theorem sequence (h : Retains published w) {k : Nat} {e : Entry α}
    (he : w.stream.state.entries[k]? = some e) :
    e.sequence + w.stream.state.entries.length = published.length + k := (h.entry k e he).1

theorem sorted (h : Retains published w) : Sorted w.stream.state.entries := by
  unfold Sorted
  rw [List.pairwise_iff_getElem]
  intro i j hi hj hlt
  have h₁ := h.sequence (List.getElem?_eq_getElem hi)
  have h₂ := h.sequence (List.getElem?_eq_getElem hj)
  omega

theorem head_sequence (h : Retains published w) {e : Entry α} {rest : List (Entry α)}
    (he : w.stream.state.entries = e :: rest) :
    e.sequence + w.stream.state.entries.length = published.length :=
  h.sequence (k := 0) (by rw [he]; rfl)

/-- Trimming keeps the end of the history and whatever a required cursor has not read. -/
theorem trims (h : Retains published w) (ht : Trims w w') : Retains published w' := by
  obtain ⟨n, hn, hneed⟩ := ht.entries
  have hlen : w'.stream.state.entries.length = w.stream.state.entries.length - n := by
    rw [hn, List.length_drop]
  refine
    { tail := ht.tail.trans h.tail
      bounded := h.bounded
      capacity := ?_
      length := ?_
      entry := ?_
      next := ?_
      kept := ?_
      closed := ?_ }
  · rw [ht.config, hlen]
    exact (Nat.sub_le _ _).trans h.capacity
  · rw [hlen]
    exact (Nat.sub_le _ _).trans h.length
  · intro k e he
    rw [hn, List.getElem?_drop] at he
    obtain ⟨hseq, hvalue⟩ := h.entry (n + k) e he
    have hlt := (List.getElem?_eq_some_iff.mp he).1
    refine ⟨?_, hvalue⟩
    omega
  · intro i c hc
    rw [ht.subscribers] at hc
    exact h.next i c hc
  · intro i c hc hrole hg
    rw [ht.subscribers] at hc
    rw [ht.authority.isRevoked_eq] at hg
    have hkept := h.kept i c hc hrole hg
    -- the last entry that is gone was not needed by this cursor
    by_cases hzero : min n w.stream.state.entries.length = 0
    · omega
    · have hpos : min n w.stream.state.entries.length - 1 < w.stream.state.entries.length := by
        omega
      have hget := List.getElem?_eq_getElem hpos
      have hmem : w.stream.state.entries[min n w.stream.state.entries.length - 1] ∈
          w.stream.state.entries.take n := by
        rw [List.mem_take_iff_getElem]
        exact ⟨_, by omega, rfl⟩
      have hnot := hneed _ hmem
      rw [← Bool.not_eq_true, State.requiredNeeds_iff] at hnot
      push Not at hnot
      have hlt : w.stream.state.entries[min n w.stream.state.entries.length - 1].sequence <
          c.next := by
        by_contra hle
        exact hnot i c hc hrole (Nat.not_lt.mp hle) hg
      have hseq := h.sequence hget
      omega
  · intro hc
    rw [ht.closed] at hc
    obtain ⟨he, hs⟩ := h.closed hc
    exact ⟨by rw [hn, he, List.drop_nil], ht.subscribers.trans hs⟩

/-- Only the state and the authority matter. -/
theorem of_state (h : Retains published w) (hsame : SameStream w w')
    (hs : w'.stream.state = w.stream.state) : Retains published w' :=
  h.trims (Trims.of_state hsame hs)

/-- Cursors may be added, removed and moved, if a required one is not moved behind the
entries. -/
theorem table (h : Retains published w) (hsame : SameStream w w')
    (hentries : w'.stream.state.entries = w.stream.state.entries)
    (htail : w'.stream.state.tail = w.stream.state.tail)
    (hopen : w'.stream.state.closed = false)
    (hcursor : ∀ (i : Nat) (c : Cursor), Slots.entry w'.stream.state.subscribers i = some c →
      Slots.entry w.stream.state.subscribers i = some c ∨ c.next ≤ published.length ∧
        (c.role = .required → w.grants.isRevoked c.grant = false →
          published.length ≤ c.next + w.stream.state.entries.length)) :
    Retains published w' where
  tail := htail.trans h.tail
  bounded := h.bounded
  capacity := by
    rw [hentries, hsame.config]
    exact h.capacity
  length := by
    rw [hentries]
    exact h.length
  entry := by
    rw [hentries]
    exact h.entry
  next := by
    intro i c hc
    rcases hcursor i c hc with hc | ⟨hle, -⟩
    · exact h.next i c hc
    · exact hle
  kept := by
    intro i c hc hrole hg
    rw [hsame.authority.isRevoked_eq] at hg
    rw [hentries]
    rcases hcursor i c hc with hc | ⟨-, hkept⟩
    · exact h.kept i c hc hrole hg
    · exact hkept hrole hg
  closed := by
    rw [hopen]
    intro hc
    cases hc

/-- A closed stream retains nothing and has no cursors. -/
theorem close (h : Retains published w) (d n : Bool) :
    Retains published (w.unlock { w.stream.state with
      closed := true, entries := [], subscribers := [], retired := none } d n) where
  tail := by simpa using h.tail
  bounded := h.bounded
  capacity := by simp
  length := by simp
  entry := by simp
  next := by simp [Slots.entry]
  kept := by simp [Slots.entry]
  closed := by simp

/-- A revocation takes requirements away. -/
theorem revoke (h : Retains published w) (node : NodeId) : Retains published (w.revoke node) where
  tail := h.tail
  bounded := h.bounded
  capacity := h.capacity
  length := h.length
  entry := h.entry
  next := h.next
  kept := by
    intro i c hc hrole hg
    refine h.kept i c hc hrole ?_
    rw [← Bool.not_eq_true] at hg ⊢
    exact fun hr => hg (Grants.isRevoked_revoke node hr)
  closed := h.closed

/-- A value is appended where there is room. -/
theorem append (h : Retains published w) (hmax : published.length + 1 ≤ u64Max)
    (hroom : w.stream.state.entries.length < w.stream.config.capacity)
    (hopen : w.stream.state.closed = false) (value : α) (lease : Lease) (d n : Bool) :
    Retains (published ++ [value])
      (w.unlock (World.append w.stream.state value lease) d n) := by
  refine
    { tail := ?_
      bounded := by simpa using hmax
      capacity := ?_
      length := ?_
      entry := ?_
      next := ?_
      kept := ?_
      closed := ?_ }
  · simp [World.append, h.tail]
  · simpa [World.append] using hroom
  · simpa [World.append] using h.length
  · intro k e he
    simp only [unlock_state, World.append, List.length_append, List.length_singleton] at he ⊢
    rcases Handles.getElem?_snoc he with ⟨hk, -⟩ | ⟨rfl, rfl⟩
    · obtain ⟨hseq, hvalue⟩ := h.entry k e hk
      have hlt := (List.getElem?_eq_some_iff.mp hvalue).1
      refine ⟨by omega, ?_⟩
      rw [List.getElem?_append_left hlt]
      exact hvalue
    · simp only [h.tail]
      exact ⟨by omega, by simp⟩
  · intro i c hc
    simp only [unlock_state, World.append] at hc
    simpa using (h.next i c hc).trans (Nat.le_succ _)
  · intro i c hc hrole hg
    simp only [unlock_state, unlock_grants, World.append] at hc hg ⊢
    have := h.kept i c hc hrole hg
    simp only [List.length_append, List.length_singleton]
    omega
  · intro hc
    simp only [unlock_state, World.append] at hc
    rw [hopen] at hc
    cases hc

/-- The front makes room for the value. -/
theorem replace (h : Retains published w) (hmax : published.length + 1 ≤ u64Max)
    (hopen : w.stream.state.closed = false) {e : Entry α} {rest : List (Entry α)}
    (he : w.stream.state.entries = e :: rest)
    (hneed : w.stream.state.requiredNeeds w.grants e.sequence = false) (retired : Option (Entry α))
    (value : α) (lease : Lease) (d n : Bool) :
    Retains (published ++ [value])
      (w.unlock (World.append { w.stream.state with entries := rest, retired := retired }
        value lease) d n) := by
  -- first the pop, as a trim, and then the append
  have hpop : Trims w
      (w.unlock { w.stream.state with entries := rest, retired := retired } true true) :=
    { SameStream.unlock w _ _ _ with
      subscribers := by rw [unlock_state]
      tail := by rw [unlock_state]
      nextCursor := by rw [unlock_state]
      closed := by rw [unlock_state]
      entries := ⟨1, by simp [he], by simpa [he] using hneed⟩ }
  have hlt : rest.length < w.stream.config.capacity := by
    have := h.capacity
    rw [he, List.length_cons] at this
    omega
  have happend := (h.trims hpop).append hmax (by simpa using hlt) (by simpa using hopen)
    value lease d n
  rw [unlock_state] at happend
  exact
    { tail := by simpa using happend.tail
      bounded := happend.bounded
      capacity := by simpa using happend.capacity
      length := by simpa using happend.length
      entry := by simpa using happend.entry
      next := by simpa using happend.next
      kept := by simpa using happend.kept
      closed := by simpa using happend.closed }

end Retains

end World

end Hiway.Fabric
