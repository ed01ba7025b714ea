import Hiway.Fabric.Isolation
import Hiway.Fabric.Senders

/-!
# What a publication answers

A publication on an ordered stream is refused exactly when the queue is full of what is
still needed, or the publisher has spent its allowance and may not reclaim an entry of
its own. A refusal changes nothing, and an acceptance removes only what no live required
cursor needs.

* `spent_iff`: a spent allowance is one to which nothing can be charged.
* `reclaims`: a node with an entry that nobody needs reclaims until it reaches its own,
  whose lease pays for the new item.
* `outcome`: what a publication answers.
* `run_sendNow_outcome`: the answer in every state that a fabric reaches, with what a
  refusal and an acceptance leave.
* `Ready.sendNow_withoutObservers`: observers are no reason for a refusal.
-/

namespace Hiway.Fabric

open Exec Target

variable {α : Type}

namespace World

/-- The event pool of the node has no free item. -/
def Spent (w : World α) (node : NodeId) : Prop :=
  ∃ index pool, (w.grants.get node).map (fun n => n.eventIndex w.stream.event) =
      some (.ok index) ∧
    w.grants.pool node (some index) = some pool ∧
    pool.limits.retainedItems ≤ pool.usage.retainedItems

/-- Why a publication of the node cannot be accepted now: the queue is full and its front
is needed, or the node has spent its allowance and has no entry to give up for it. -/
def Refuses (w : World α) (node : NodeId) : Prop :=
  w.Blocked ∨ w.Spent node ∧
    ∀ own, w.oldest node = some own →
      w.stream.state.requiredNeeds w.grants own.sequence = true

/-- A value was appended, and what is gone is a part of the front that nobody needs. -/
structure Appended (w w' : World α) (value : α) : Prop where
  entries : ∃ removed kept lease, w.stream.state.entries = removed ++ kept ∧
    (∀ e ∈ removed, w.stream.state.requiredNeeds w.grants e.sequence = false) ∧
    w'.stream.state.entries = kept ++ [⟨w.stream.state.tail, value, lease⟩]
  tail : w'.stream.state.tail = w.stream.state.tail + 1
  subscribers : w'.stream.state.subscribers = w.stream.state.subscribers

/-- The answer to a publication, and what became of the world. -/
structure Outcome (w : World α) (node : NodeId) (value : α)
    (answer : Except (TrySendError α) Unit × World α) : Prop where
  full : (∃ v, answer.1 = .error (.full v)) ↔ w.Refuses node
  refused : w.Refuses node → answer.1 = .error (.full value) ∧
    answer.2.grants = w.grants ∧ answer.2.stream.state = w.stream.state
  accepted : ¬ w.Refuses node → answer.1 = .ok () ∧ w.Appended answer.2 value

/-! ## The charge -/

section

variable [Target] {w : World α} {node : NodeId}

/-- A spent allowance is one to which nothing can be charged. -/
theorem spent_iff (hbounded : w.grants.Bounded) (hrevoked : w.grants.isRevoked node = false) :
    w.Spent node ↔ w.Exhausted node := by
  refine Iff.trans ?_ Grants.exhausted_iff.symm
  constructor
  · rintro ⟨index, pool, hindex, hpool, hfull⟩
    exact ⟨hrevoked, index, pool, hindex, hpool, fun hroom => by omega⟩
  · rintro ⟨-, index, pool, hindex, hpool, hfull⟩
    obtain ⟨-, hlimit⟩ := hbounded node _ pool hpool .retainedItems
    have hlimit : pool.limits.retainedItems ≤ isizeMax := hlimit
    have hmax := isizeMax_lt_usizeMax
    exact ⟨index, pool, hindex, hpool, by omega⟩

/-- A node that lists the event is charged, or its allowance is exhausted. -/
theorem charge_or_exhausted (hrevoked : w.grants.isRevoked node = false) {index : Nat}
    (hindex : (w.grants.get node).map (fun n => n.eventIndex w.stream.event) =
      some (.ok index)) :
    (∃ lease w', (w.unlock w.stream.state false true).tryCharge node retainedItem =
      (.ok lease, w')) ∨ w.Exhausted node := by
  obtain ⟨pool, hpool⟩ := Grants.pool_of_eventIndex hindex
  rcases Grants.tryChargeStream_or hrevoked hindex hpool with
    ⟨g, hok⟩ | herror
  · refine Or.inl ⟨⟨node, retainedItem.asLimits, some index⟩,
      ⟨g, (w.unlock w.stream.state false true).stream⟩, ?_⟩
    unfold World.tryCharge
    rw [unlock_grants, unlock_event, hok]
  · refine Or.inr ?_
    unfold Exhausted
    rw [herror]

/-- An exhausted node without an entry to give up is refused. -/
theorem reserveLoop_spent (value : α) (fuel : Nat) (hrevoked : w.grants.isRevoked node = false)
    (hopen : w.stream.state.closed = false) (htail : w.stream.state.tail ≠ u64Max)
    (hfree : ¬ w.Blocked) (hex : w.Exhausted node)
    (hown : ∀ own, w.oldest node = some own →
      w.stream.state.requiredNeeds w.grants own.sequence = true)
    (hdelivery : w.stream.delivery = .ordered) :
    w.reserveLoop node value (fuel + 1) =
      (.error (.full value), w.unlock w.stream.state false true) := by
  have hopen' : ¬ w.stream.state.closed = true := by simp [hopen]
  have hfind : (w.stream.state.entries.find? fun entry => entry.lease.belongsTo node).all
      (fun entry => w.stream.state.requiredNeeds w.grants entry.sequence) = true := by
    rw [Option.all_eq_true]
    exact hown
  rw [reserveLoop, hrevoked, if_neg (by decide)]
  refine (if_neg hopen').trans ((if_neg htail).trans ((if_neg hfree).trans ?_))
  rw [tryCharge_of_exhausted hex]
  dsimp only
  rw [unlock_delivery, unlock_state, hdelivery, if_neg (by decide), if_neg hopen', unlock_grants,
    if_pos hfind, unlock_unlock]

end

/-! ## A publication that may go ahead -/

/-- A sequential state in which a live node publishes on an open ordered stream. -/
structure Ready [Target] (base : NodeId → Option Nat → Resource → Nat) (outside : List Lease)
    (w : World α) (node : NodeId) : Prop where
  balanced : w.Balanced base outside
  sorted : Sorted w.stream.state.entries
  bounded : w.stream.state.entries.length ≤ w.stream.config.capacity
  capacity : 0 < w.stream.config.capacity
  ordered : w.stream.delivery = .ordered
  opened : w.stream.state.closed = false
  room : w.stream.state.tail < u64Max
  entered : w.grants.enter node w.stream.event .publish = .ok ()
  index : ∃ index, (w.grants.get node).map (fun n => n.eventIndex w.stream.event) =
    some (.ok index)

namespace Ready

variable [Target] {base : NodeId → Option Nat → Resource → Nat} {outside : List Lease}
  {w : World α} {node : NodeId}

theorem not_revoked (h : w.Ready base outside node) : w.grants.isRevoked node = false :=
  Grants.not_revoked_of_enter h.entered

/-- The front goes, and its lease is given back. -/
theorem evicted (h : w.Ready base outside node) {front : Entry α} {rest : List (Entry α)}
    (hfront : w.stream.state.entries = front :: rest) :
    (w.evicted front rest).Ready base outside node ∧
      rest.length < w.stream.config.capacity := by
  have hsame : w.SameStream (w.evicted front rest) :=
    ((SameStream.unlock w _ _ _).trans (SameStream.unlock _ _ _ _)).trans (SameStream.release _ _)
  have hpop := (h.balanced.unlock w.stream.state rfl rfl false true).pop (e := front)
    (by rw [unlock_state]; exact hfront) w.stream.state.needsRoom true true
  rw [unlock_state] at hpop
  have hlen := h.bounded
  rw [hfront, List.length_cons] at hlen
  have hsorted := h.sorted
  rw [hfront] at hsorted
  obtain ⟨index, hindex⟩ := h.index
  refine ⟨{
    balanced := hpop.release
    sorted := by rw [evicted_state]; exact hsorted.of_cons
    bounded := by rw [evicted_state, hsame.config]; dsimp only; omega
    capacity := by rw [hsame.config]; exact h.capacity
    ordered := hsame.delivery.trans h.ordered
    opened := by rw [evicted_state]; exact h.opened
    room := by rw [evicted_state]; exact h.room
    entered := by
      rw [hsame.event, hsame.authority.enter_eq]
      exact h.entered
    index := by
      rw [hsame.event, hsame.authority.eventIndex_eq]
      exact ⟨index, hindex⟩ }, hlen⟩

/-- A node with an entry that nobody needs reclaims until it reaches its own, whose lease
pays for the new item. -/
theorem reclaims (value : α) (fuel : Nat) {w : World α} (h : w.Ready base outside node)
    (hfree : ¬ w.Blocked) (hfuel : w.stream.state.entries.length ≤ fuel)
    (hex : w.Exhausted node) {own : Entry α} (hown : w.oldest node = some own)
    (hneed : w.stream.state.requiredNeeds w.grants own.sequence = false) :
    ∃ lease w', w.reserveLoop node value (fuel + 1) = (.ok (value, lease), w') ∧
      ¬ w'.Blocked := by
  induction fuel generalizing w with
  | zero =>
    have hnil := List.length_eq_zero_iff.mp (Nat.le_zero.mp hfuel)
    rw [oldest, hnil] at hown
    cases hown
  | succ fuel ih =>
    cases hfront : w.stream.state.entries with
    | nil =>
      rw [oldest, hfront] at hown
      cases hown
    | cons front rest =>
      obtain ⟨hready, hlen⟩ := h.evicted hfront
      have hbelow : (w.evicted front rest).stream.state.entries.length ≠
          (w.evicted front rest).stream.config.capacity := by
        rw [evicted_state]
        simpa [World.evicted] using hlen.ne
      have hfree' : ¬ (w.evicted front rest).Blocked := fun hb => hbelow hb.1
      rw [reserveLoop_evicts value (fuel + 1) h.not_revoked h.opened h.room.ne hfree
        (tryCharge_of_exhausted hex false true) h.ordered hown hneed hfront]
      by_cases hnode : front.lease.node = node
      · obtain ⟨lease, hlease⟩ :=
          charge_after_release h.balanced (by rw [hfront]; exact List.mem_cons_self)
          (by rw [hnode]; exact h.not_revoked)
        rw [hnode] at hlease
        obtain ⟨w', hpaid⟩ : ∃ w', ((w.evicted front rest).unlock
            (w.evicted front rest).stream.state false true).tryCharge node retainedItem =
              (.ok lease, w') := by
          refine ⟨_, Prod.ext ?_ rfl⟩
          simpa [World.tryCharge, World.evicted] using hlease
        refine ⟨lease, w', reserveLoop_charged value fuel hready.not_revoked hready.opened
          hready.room.ne hfree' hpaid, fun hb => hbelow ?_⟩
        have hstream := tryCharge_stream ((w.evicted front rest).unlock
          (w.evicted front rest).stream.state false true) node retainedItem
        rw [hpaid] at hstream
        have hfull := hb.1
        dsimp only at hstream
        rw [hstream, unlock_state, unlock_config] at hfull
        exact hfull
      · have hgrants : (w.evicted front rest).grants = w.grants.release front.lease := rfl
        have hauthority := SameAuthority.release w.grants front.lease
        refine ih hready hfree' ?_ ?_ ?_ ?_
        · rw [hfront, List.length_cons] at hfuel
          rw [evicted_state]
          dsimp only
          omega
        · -- another node's lease frees nothing of this node's pool
          unfold Exhausted
          rw [hgrants, show (w.evicted front rest).stream.event = w.stream.event by
            simp [World.evicted]]
          refine Grants.Exhausted.mono hex (hauthority.isRevoked_eq node) (hauthority node)
            fun index _ => ?_
          rw [Grants.usageOf_release _ _ fun heq => absurd heq hnode]
        · rw [oldest, hfront, List.find?_cons_of_neg
            (by simpa [Lease.belongsTo] using hnode)] at hown
          rw [oldest, evicted_state]
          exact hown
        · rw [evicted_state, hgrants]
          refine (State.requiredNeeds_congr rfl hauthority _).trans hneed

/-- What was reserved is committed. -/
theorem accepts (h : w.Ready base outside node) {value : α} {lease : Lease} {w₁ : World α}
    (hreserve : w.reserve node value = (.ok (value, lease), w₁)) (hfree : ¬ w₁.Blocked) :
    ∃ w', w.sendNow node value = (.ok (), w') ∧ w.Appended w' value := by
  have ht := Trims.reserve node value h.sorted
  rw [hreserve] at ht
  dsimp only at ht
  obtain ⟨n, hn, hneed⟩ := ht.entries
  have henter : w₁.grants.enter node w₁.stream.event .publish = .ok () := by
    rw [ht.event, ht.authority.enter_eq]
    exact h.entered
  have hopen : w₁.stream.state.closed = false := ht.closed.trans h.opened
  have htail : w₁.stream.state.tail + 1 ≤ u64Max := by
    rw [ht.tail]
    exact h.room
  by_cases hfull : w₁.stream.state.entries.length = w₁.stream.config.capacity
  · cases hfront : w₁.stream.state.entries with
    | nil =>
      have hcap := h.capacity
      rw [hfront, List.length_nil, ht.config] at hfull
      omega
    | cons front rest =>
      have hspare : w.stream.state.requiredNeeds w.grants front.sequence = false := by
        rw [← Bool.not_eq_true, ← ht.needs_eq]
        intro hn
        exact hfree ⟨hfull, by rw [hfront]; exact hn⟩
      refine ⟨_, sendNow_ok hreserve (commit_replace value lease henter hopen htail hfront hfull
        hfree), ⟨w.stream.state.entries.take n ++ [front], rest, lease, ?_, ?_, ?_⟩, ?_, ?_⟩
      · rw [List.append_assoc, List.singleton_append, ← hfront, hn, List.take_append_drop]
      · intro e he
        rcases List.mem_append.mp he with he | he
        · exact hneed e he
        · rw [List.mem_singleton.mp he]
          exact hspare
      · rw [release_state, unlock_state]
        simp only [append, ht.tail]
      · rw [release_state, unlock_state]
        exact congrArg (· + 1) ht.tail
      · rw [release_state, unlock_state]
        exact ht.subscribers
  · refine ⟨_, sendNow_ok hreserve (commit_append value lease false henter hopen htail hfull),
      ⟨w.stream.state.entries.take n, w.stream.state.entries.drop n, lease,
        (List.take_append_drop n _).symm, hneed, ?_⟩, ?_, ?_⟩
    · rw [unlock_state]
      simp only [append, ht.tail, hn]
    · rw [unlock_state]
      exact congrArg (· + 1) ht.tail
    · rw [unlock_state]
      exact ht.subscribers

/-- What a publication answers. -/
theorem outcome (h : w.Ready base outside node) (value : α) :
    w.Outcome node value (w.sendNow node value) := by
  have hreserve : w.reserve node value =
      w.reserveLoop node value (w.stream.config.capacity + 1) := by
    unfold reserve
    rw [h.entered, h.ordered]
    rfl
  have hrefused : ∀ w', w.Refuses node → w'.grants = w.grants →
      w'.stream.state = w.stream.state →
      w.reserve node value = (.error (.full value), w') →
      w.Outcome node value (w.sendNow node value) := by
    intro w' hr hgrants hstate he
    rw [sendNow_error he]
    exact ⟨⟨fun _ => hr, fun _ => ⟨value, rfl⟩⟩, fun _ => ⟨rfl, hgrants, hstate⟩,
      fun hn => absurd hr hn⟩
  have haccepted : ∀ lease w₁, ¬ w.Refuses node → ¬ w₁.Blocked →
      w.reserve node value = (.ok (value, lease), w₁) →
      w.Outcome node value (w.sendNow node value) := by
    intro lease w₁ hr hfree he
    obtain ⟨w', hsend, happended⟩ := h.accepts he hfree
    rw [hsend]
    refine ⟨⟨?_, fun hn => absurd hn hr⟩, fun hn => absurd hn hr, fun _ => ⟨rfl, happended⟩⟩
    rintro ⟨v, hv⟩
    cases hv
  obtain ⟨index, hindex⟩ := h.index
  have hspent := spent_iff h.balanced.bounded h.not_revoked
  by_cases hfree : w.Blocked
  · exact hrefused (w.unlock w.stream.state false true) (Or.inl hfree) rfl (unlock_state _ _ _ _)
      (hreserve.trans (reserveLoop_blocked value _ h.not_revoked h.opened h.room.ne hfree))
  · rcases charge_or_exhausted h.not_revoked hindex with ⟨lease, w₁, hcharge⟩ | hex
    · refine haccepted lease w₁ ?_ ?_
        (hreserve.trans (reserveLoop_charged value _ h.not_revoked h.opened h.room.ne hfree hcharge))
      · rintro (hb | ⟨hs, -⟩)
        · exact hfree hb
        · rw [tryCharge_of_exhausted (hspent.mp hs)] at hcharge
          cases hcharge
      · have hsame := (SameStream.unlock w w.stream.state false true).trans
          (SameStream.tryCharge _ node retainedItem)
        have hstream := tryCharge_stream (w.unlock w.stream.state false true) node retainedItem
        rw [hcharge] at hsame hstream
        dsimp only at hsame hstream
        exact fun hb => hfree ((blocked_congr hsame (by rw [hstream, unlock_state])).mp hb)
    · by_cases hown : ∀ own, w.oldest node = some own →
          w.stream.state.requiredNeeds w.grants own.sequence = true
      · exact hrefused (w.unlock w.stream.state false true) (Or.inr ⟨hspent.mpr hex, hown⟩) rfl
          (unlock_state _ _ _ _)
          (hreserve.trans (reserveLoop_spent value _ h.not_revoked h.opened h.room.ne hfree hex
            hown h.ordered))
      · push Not at hown
        obtain ⟨own, hown, hneed⟩ := hown
        obtain ⟨lease, w₁, he, hfree₁⟩ := h.reclaims value _ hfree h.bounded hex hown
          (by simpa using hneed)
        refine haccepted lease w₁ ?_ hfree₁ (hreserve.trans he)
        rintro (hb | ⟨-, hall⟩)
        · exact hfree hb
        · exact hneed (hall own hown)

end Ready

/-! ## Observers -/

/-- The stream without the cursors of its observers. -/
def withoutObservers (w : World α) : World α :=
  { w with stream := { w.stream with state := { w.stream.state with
    subscribers := w.stream.state.subscribers.map fun o =>
      o.filter fun cursor => cursor.role = .required } } }

theorem requiredNeeds_withoutObservers (w : World α) (n : Nat) :
    w.withoutObservers.stream.state.requiredNeeds w.grants n =
      w.stream.state.requiredNeeds w.grants n := by
  unfold State.requiredNeeds withoutObservers
  rw [List.any_map]
  congr 1
  funext o
  cases o with
  | none => rfl
  | some cursor => by_cases hrole : cursor.role = .required <;> simp [Option.filter, hrole]

theorem refuses_withoutObservers (w : World α) (node : NodeId) :
    w.withoutObservers.Refuses node ↔ w.Refuses node := by
  have hneeds := w.requiredNeeds_withoutObservers
  unfold Refuses Blocked Spent oldest
  simp only [show w.withoutObservers.grants = w.grants from rfl, hneeds]
  exact Iff.rfl

/-- Observers are no reason for a refusal. -/
theorem Ready.sendNow_withoutObservers [Target] {base : NodeId → Option Nat → Resource → Nat}
    {outside : List Lease} {w : World α} {node : NodeId} (h : w.Ready base outside node)
    (value : α) : (w.withoutObservers.sendNow node value).1 = (w.sendNow node value).1 := by
  have h' : w.withoutObservers.Ready base outside node :=
    { h with
      balanced := h.balanced.of_same (fun _ _ => rfl) (SameAuthority.refl _) rfl rfl rfl }
  have hout := h.outcome value
  have hout' := h'.outcome value
  by_cases hr : w.Refuses node
  · rw [(hout.refused hr).1, (hout'.refused ((refuses_withoutObservers w node).mpr hr)).1]
  · rw [(hout.accepted hr).1,
      (hout'.accepted fun hn => hr ((refuses_withoutObservers w node).mp hn)).1]

end World

/-! ## In a fabric -/

namespace DynamicFabric

/-- **The outcome of a publication.** In every state that a fabric reaches, a live sender
of an open ordered stream is refused exactly when it has to be. -/
theorem run_sendNow_outcome [Target] {limits : Limits} {s₀ : DynamicFabric α}
    (h₀ : withLimits limits = .ok s₀) (ops : List (FabricOp α)) :
    ∃ s, s₀.run ops = .ok s ∧ ∀ (k : Nat) (ch : Channel α), s.channels[k]? = some ch →
      ch.stream.delivery = .ordered → ch.stream.state.closed = false →
      ch.stream.state.tail < u64Max → ∀ node ∈ ch.senders,
        s.grants.check node ch.stream.event .publish = .ok () → ∀ value : α,
          let w : World α := ⟨s.grants, ch.stream⟩
          w.Outcome node value (w.sendNow node value) ∧
            (w.withoutObservers.sendNow node value).1 = (w.sendNow node value).1 := by
  obtain ⟨s, hs, hhistoric, hserved⟩ := Served.run h₀ ops
  refine ⟨s, hs, fun k ch hk hordered hopen htail node hnode hcheck value => ?_⟩
  have hb := hhistoric.inv.balanced hk
  have hret := (hhistoric.streams k ch hk).retains
  have hready : (⟨s.grants, ch.stream⟩ : World α).Ready _ _ node :=
    { balanced := hb.world
      sorted := hret.sorted
      bounded := hret.capacity
      capacity := hb.sound.capacity
      ordered := hordered
      opened := hopen
      room := htail
      entered := hhistoric.idle.enter hcheck
      index := (hserved k ch hk node hnode).2 }
  exact ⟨hready.outcome value, hready.sendNow_withoutObservers value⟩

def filledPermission : Permission := ⟨⟨1⟩, ⟨7⟩, ⟨1, 1, 1⟩⟩

/-- A value that a required receiver has not read, in a stream of one item. -/
def filledStream : List (FabricOp Nat) :=
  [.createStream ⟨1⟩ .ordered ⟨1, 1, 1⟩,
    .delegate 0 ⟨[filledPermission], [filledPermission],
      { Limits.zero with streams := 1, retainedItems := 1, subscriptions := 1, waiters := 1 },
      .refl _, List.pairwise_singleton _ _⟩,
    .stream 0 (.sender 1), .stream 0 (.subscribe 1 .required), .stream 0 (.sendNow 1 7)]

theorem run_sendNow_outcome_filled :
    let _ := Target.x64
    ∃ s₀ s : DynamicFabric Nat, withLimits Limits.default = .ok s₀ ∧
      s₀.run filledStream = .ok s ∧ ∃ ch, s.channels[0]? = some ch ∧
        World.Blocked ⟨s.grants, ch.stream⟩ ∧
        World.Outcome ⟨s.grants, ch.stream⟩ 1 8 (World.sendNow ⟨s.grants, ch.stream⟩ 1 8) := by
  intro _
  have h₀ : (withLimits Limits.default : Except TopicError (DynamicFabric Nat)) =
      .ok ⟨(Lineage.root Limits.default).grants, []⟩ := by
    have hvalid : Limits.default.validate = .ok () := if_neg (by decide)
    simp only [withLimits, hvalid]
    rfl
  obtain ⟨s, hs, hall⟩ := run_sendNow_outcome h₀ filledStream
  obtain ⟨s', hs', htest⟩ : ∃ s : DynamicFabric Nat,
      DynamicFabric.run ⟨(Lineage.root Limits.default).grants, []⟩ filledStream = .ok s ∧
        (s.channels[0]?.any fun ch : Channel Nat =>
          decide (ch.stream.delivery = .ordered ∧ ch.stream.state.closed = false ∧
            ch.stream.state.tail < u64Max ∧ 1 ∈ ch.senders ∧
            s.grants.check 1 ch.stream.event .publish = .ok () ∧
            World.Blocked ⟨s.grants, ch.stream⟩)) = true :=
    Exec.of_any (by decide +kernel)
  cases hs.symm.trans hs'
  obtain ⟨ch, hk, htest⟩ := (Option.any_eq_true _ _).mp htest
  obtain ⟨hordered, hopen, htail, hsender, hcheck, hblocked⟩ := of_decide_eq_true htest
  exact ⟨_, s, h₀, hs, ch, hk, hblocked, (hall 0 ch hk hordered hopen htail 1 hsender hcheck 8).1⟩

end DynamicFabric

end Hiway.Fabric
