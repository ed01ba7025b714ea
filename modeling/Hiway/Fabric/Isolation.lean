import Hiway.Fabric.Accounting
import Hiway.Fabric.Refinement

/-!
# Whose values a publisher removes

A publisher whose own allowance is exhausted may reclaim entries while the stream still
has room. It checks its own oldest entry, but it removes the front of the queue, which
another publisher may have been charged for. This module says exactly when only its own
entries go.

* `Reclaims.evicts`: an exhausted node that gets as far as reclamation evicts the front.
* `onlyOwn_reserve_iff`: a reservation removes only entries of its own node exactly if that
  is what the front is.
* `run_onlyOwn_iff`: the same in every session, for publications and preparations.
* `exhausted_removes_other`: a session in which the front was another publisher's.
-/

namespace Hiway.Fabric

open Exec Target

variable {α : Type}

namespace World

/-- The event allowance of a node has no room for one more retained item. -/
def Exhausted [Target] (w : World α) (node : NodeId) : Prop :=
  (w.grants.tryChargeStream node w.stream.event retainedItem).1 = .error .capacity

instance [Target] (w : World α) (node : NodeId) : Decidable (w.Exhausted node) :=
  inferInstanceAs (Decidable (_ = _))

/-- The oldest entry that a node was charged for. -/
def oldest (w : World α) (node : NodeId) : Option (Entry α) :=
  w.stream.state.entries.find? fun entry => entry.lease.belongsTo node

/-- An exhausted node gets as far as reclamation, and has an entry that no live required
cursor needs. -/
structure Reclaims [Target] (w : World α) (node : NodeId) : Prop where
  entered : w.grants.enter node w.stream.event .publish = .ok ()
  opened : w.stream.state.closed = false
  room : w.stream.state.tail ≠ u64Max
  own : ∃ own, w.oldest node = some own ∧
    w.stream.state.requiredNeeds w.grants own.sequence = false

/-- The front of the queue is an entry of the node. -/
def OwnsFront (w : World α) (node : NodeId) : Prop :=
  w.stream.state.entries.head?.any (fun entry => entry.lease.belongsTo node) = true

/-- Every entry that is gone was one of the node. -/
def OnlyOwn (w w' : World α) (node : NodeId) : Prop :=
  ∀ e ∈ w.stream.state.entries, e ∉ w'.stream.state.entries → e.lease.belongsTo node = true

instance [DecidableEq α] (w w' : World α) (node : NodeId) : Decidable (OnlyOwn w w' node) :=
  inferInstanceAs (Decidable (∀ e ∈ _, _))

theorem tryCharge_of_exhausted [Target] {w : World α} {node : NodeId} (h : w.Exhausted node)
    (d n : Bool) : (w.unlock w.stream.state d n).tryCharge node retainedItem =
      (.error .capacity, w.unlock w.stream.state d n) := by
  cases hc : (w.unlock w.stream.state d n).tryCharge node retainedItem with
  | mk result w' =>
    have hresult : result = .error .capacity := by
      have hfst := congrArg Prod.fst hc
      simp only [tryCharge, unlock_grants, unlock_event] at hfst
      exact hfst.symm.trans h
    subst hresult
    rw [tryCharge_error hc]

/-- An exhausted node that gets as far as reclamation evicts the front. -/
theorem Reclaims.evicts [Target] {w : World α} {node : NodeId} (hr : w.Reclaims node) (value : α)
    (fuel : Nat) (hex : w.Exhausted node) (hdelivery : w.stream.delivery = .ordered)
    (hbelow : w.stream.state.entries.length < w.stream.config.capacity)
    {front : Entry α} {rest : List (Entry α)} (hfront : w.stream.state.entries = front :: rest) :
    w.reserveLoop node value (fuel + 1) = (w.evicted front rest).reserveLoop node value fuel := by
  obtain ⟨own, hown, hneed⟩ := hr.own
  exact reserveLoop_evicts value fuel (Grants.not_revoked_of_enter hr.entered) hr.opened hr.room
    (fun h => hbelow.ne h.1) (tryCharge_of_exhausted hex false true) hdelivery hown hneed hfront

/-- Without reclamation an exhausted node leaves the queue alone. -/
theorem reserve_keeps [Target] {w : World α} {node : NodeId} (value : α)
    (hex : w.Exhausted node) (hdelivery : w.stream.delivery = .ordered)
    (hr : ¬ w.Reclaims node) :
    (w.reserve node value).2.stream.state.entries = w.stream.state.entries := by
  unfold reserve
  split
  · rfl
  · rfl
  · rfl
  · rename_i hentered
    rw [hdelivery, if_neg (by decide)]
    dsimp only
    rcases w.reserveLoop_cases node value w.stream.config.capacity with
      ⟨error, w', he, -, hstate, -⟩ | ⟨hrevoked, hopen, hmax, ⟨lease, w', hcharge, -⟩ |
        ⟨error, own, front, rest, -, -, hown, hneed, -, -⟩⟩
    · rw [he, hstate]
    · rw [tryCharge_of_exhausted hex] at hcharge
      cases hcharge
    · exact absurd ⟨hentered, hopen, hmax, own, hown, hneed⟩ hr

/-! ## After an eviction -/

/-- The lease of the front pays for the next item of its own node. -/
theorem charge_after_release [Target] {base : NodeId → Option Nat → Resource → Nat}
    {w : World α} {outside : List Lease} (h : w.Balanced base outside) {front : Entry α}
    (hmem : front ∈ w.stream.state.entries)
    (hr : w.grants.isRevoked front.lease.node = false) :
    ∃ lease, ((w.grants.release front.lease).tryChargeStream front.lease.node w.stream.event
      retainedItem).1 = .ok lease := by
  obtain ⟨husage, index, hindex, hn⟩ := h.charged front hmem
  have hsame := SameAuthority.release w.grants front.lease
  obtain ⟨p, hp⟩ := Grants.pool_of_eventIndex hn
  have hle : 1 ≤ p.usage.retainedItems := by
    have hu := h.books.usage _ _ p hp .retainedItems
    have hlease : front.lease ∈ w.stream.state.leases ++ outside :=
      List.mem_append_left _ (List.mem_append_left _ (List.mem_map_of_mem hmem))
    have hheld := Grants.le_held hlease .retainedItems
    rw [husage, hindex] at hheld
    change 1 ≤ _ at hheld
    change p.usage.retainedItems = _ at hu
    omega
  obtain ⟨hfit, hlimit⟩ := h.bounded _ _ p hp .retainedItems
  have hfit : p.usage.retainedItems ≤ p.limits.retainedItems := hfit
  have hlimit : p.limits.retainedItems ≤ isizeMax := hlimit
  have hmax := isizeMax_lt_usizeMax
  -- the pool after the release has room for exactly what was given back
  have hpool : (w.grants.release front.lease).pool front.lease.node (some index) =
      some { p with usage := Limits.ofValues fun r => p.usage.get r - front.lease.usage.get r } := by
    rw [Grants.pool_release, if_pos ⟨rfl, hindex⟩, hp]
    rfl
  refine ⟨_, Grants.tryChargeStream_eq_ok _ ((hsame.isRevoked_eq _).trans hr)
    ((hsame.eventIndex_eq front.lease.node w.stream.event).trans hn) hpool ?_⟩
  intro r
  rw [husage, Limits.get_ofValues]
  cases r with
  | retainedItems =>
    refine Or.inr ⟨?_, ?_⟩
    · change p.usage.retainedItems - 1 + 1 ≤ _
      omega
    · change p.usage.retainedItems - 1 + 1 ≤ p.limits.retainedItems
      omega
  | _ => exact Or.inl rfl

@[simp] theorem evicted_state (w : World α) (front : Entry α) (rest : List (Entry α)) :
    (w.evicted front rest).stream.state = { w.stream.state with entries := rest } := by
  simp [evicted]

/-- After evicting one of its own entries a node evicts nothing more. -/
theorem reserveLoop_after [Target] {base : NodeId → Option Nat → Resource → Nat} {w : World α}
    {outside : List Lease} (h : w.Balanced base outside) {front : Entry α}
    {rest : List (Entry α)} (hfront : w.stream.state.entries = front :: rest)
    (hr : w.grants.isRevoked front.lease.node = false) (value : α) (fuel : Nat) :
    ((w.evicted front rest).reserveLoop front.lease.node value fuel).2.stream.state.entries =
      rest := by
  cases fuel with
  | zero =>
    simp only [reserveLoop]
    rw [evicted_state]
  | succ fuel =>
    rcases (w.evicted front rest).reserveLoop_cases front.lease.node value fuel with
      ⟨error, w', he, -, hstate, -⟩ | ⟨-, -, -, ⟨lease, w', hcharge, he⟩ |
        ⟨error, own, front', rest', -, hcharge, -, -, -, -⟩⟩
    · rw [he, hstate, evicted_state]
    · have hstream := tryCharge_stream ((w.evicted front rest).unlock
        (w.evicted front rest).stream.state false true) front.lease.node retainedItem
      rw [hcharge] at hstream
      rw [he]
      dsimp only at hstream ⊢
      rw [hstream, unlock_state, evicted_state]
    · obtain ⟨lease, hok⟩ := charge_after_release h
        (by rw [hfront]; exact List.mem_cons_self) hr
      have hfst := congrArg Prod.fst hcharge
      simp only [tryCharge, evicted, unlock_grants, unlock_event, release_grants,
        release_event] at hfst
      rw [hok] at hfst
      cases hfst

/-! ## Exactly when only own entries go -/

/-- Reclamation is not reached, or it finds an own entry at the front. -/
def Spares [Target] (w : World α) (node : NodeId) : Prop :=
  ¬ w.Reclaims node ∨ w.OwnsFront node

theorem onlyOwn_reserve_iff [Target] {base : NodeId → Option Nat → Resource → Nat} {w : World α}
    {outside : List Lease} (h : w.Balanced base outside) (hs : Sorted w.stream.state.entries)
    {node : NodeId} (value : α) (hex : w.Exhausted node)
    (hdelivery : w.stream.delivery = .ordered)
    (hbelow : w.stream.state.entries.length < w.stream.config.capacity) :
    OnlyOwn w (w.reserve node value).2 node ↔ w.Spares node := by
  by_cases hr : w.Reclaims node
  · obtain ⟨own, hown, -⟩ := hr.own
    have hrevoked := Grants.not_revoked_of_enter hr.entered
    have hreserve : w.reserve node value =
        w.reserveLoop node value (w.stream.config.capacity + 1) := by
      unfold reserve
      rw [hr.entered, hdelivery]
      rfl
    cases hfront : w.stream.state.entries with
    | nil =>
      rw [oldest, hfront] at hown
      cases hown
    | cons front rest =>
      rw [hreserve, hr.evicts value _ hex hdelivery hbelow hfront]
      have howner : w.OwnsFront node ↔ front.lease.node = node := by
        simp [OwnsFront, hfront, Lease.belongsTo]
      constructor
      · intro honly
        refine Or.inr (howner.mpr ?_)
        -- the front itself is gone
        have hgone : front ∉ ((w.evicted front rest).reserveLoop node value
            w.stream.config.capacity).2.stream.state.entries := by
          rw [hfront] at hs
          have ht := Trims.reserveLoop node value w.stream.config.capacity
            (w := w.evicted front rest) (by rw [evicted_state]; exact hs.of_cons)
          obtain ⟨n, hn, -⟩ := ht.entries
          rw [hn, evicted_state]
          intro hmem
          have hlt := List.rel_of_pairwise_cons hs (List.mem_of_mem_drop hmem)
          exact absurd hlt (lt_irrefl _)
        have hown' := honly front (by rw [hfront]; exact List.mem_cons_self) hgone
        simpa [Lease.belongsTo] using hown'
      · rintro (hnot | hfirst)
        · exact absurd hr hnot
        · obtain rfl := howner.mp hfirst
          intro e he hgone
          rw [reserveLoop_after h hfront hrevoked] at hgone
          rw [hfront] at he
          rcases List.mem_cons.mp he with rfl | he
          · simp [Lease.belongsTo]
          · exact absurd he hgone
  · refine iff_of_true ?_ (Or.inl hr)
    intro e he hgone
    rw [reserve_keeps value hex hdelivery hr] at hgone
    exact absurd he hgone

/-- Below the capacity of the stream a publication removes what its reservation removes. -/
theorem mem_sendNow_iff [Target] {published : List α} {w : World α} (h : w.Retains published)
    {node : NodeId} (value : α)
    (hbelow : w.stream.state.entries.length < w.stream.config.capacity) {e : Entry α}
    (he : e ∈ w.stream.state.entries) :
    e ∈ (w.sendNow node value).2.stream.state.entries ↔
      e ∈ (w.reserve node value).2.stream.state.entries := by
  have ht := Trims.reserve node value h.sorted
  rcases w.sendNow_cases node value with
    ⟨error, w', hsend, hreserve | ⟨lease, w₁, error₂, w₂, hreserve, hcommit, rfl⟩⟩ |
      ⟨lease, w₁, w', hreserve, hcommit, hsend⟩
  · rw [hsend, hreserve]
  all_goals
    rw [hreserve] at ht ⊢
    have hlen : w₁.stream.state.entries.length < w₁.stream.config.capacity := by
      obtain ⟨n, hn, -⟩ := ht.entries
      have hconfig := ht.config
      dsimp only at hn hconfig
      rw [hn, hconfig, List.length_drop]
      omega
    rw [hsend]
    rcases commit_cases (Nat.zero_lt_of_lt hlen) node value lease false with
      ⟨error₃, w₃, hc, hw⟩ | ⟨-, -, -, ⟨-, hc⟩ | ⟨front, rest, hfront, hfull, -⟩⟩
  · rw [hcommit] at hc
    cases hc
    rw [release_state]
    rcases hw with rfl | ⟨room, n, -, rfl⟩
    · exact Iff.rfl
    · rw [unlock_state]
  · rw [hcommit] at hc
    cases hc
  · rw [hfront] at hlen
    omega
  · rw [hcommit] at hc
    cases hc
  · rw [hcommit] at hc
    cases hc
    rw [unlock_state]
    -- the new entry is not one of the old ones
    have hne : e ≠ ⟨w₁.stream.state.tail, value, lease⟩ := by
      rintro rfl
      obtain ⟨k, hk⟩ := List.getElem?_of_mem he
      have hseq := h.sequence hk
      have hlt := (List.getElem?_eq_some_iff.mp hk).1
      have htail := ht.tail.trans h.tail
      dsimp only at hseq htail
      omega
    simp [append, hne]
  · rw [hfront] at hlen
    omega

end World

namespace Session

/-- **Isolation.** In every session, a publication or preparation by a node whose own
allowance is exhausted, below the capacity of the stream, removes only entries of that
node exactly when it does not reclaim or finds one of them at the front. -/
theorem run_onlyOwn_iff [Target] {event : EventId} {config : StreamConfig} {stream : Stream α}
    (hcreate : Stream.create event .ordered config = .ok stream) {grants : Grants}
    (hgrants : grants.Bounded) (ops : List (Op α)) :
    ∃ s, run ⟨grants, stream⟩ ops = .ok s ∧ ∀ (node : NodeId) (value : α),
      s.world.Exhausted node → s.world.stream.state.entries.length < config.capacity →
        (World.OnlyOwn s.world (s.world.sendNow node value).2 node ↔ s.world.Spares node) ∧
        (World.OnlyOwn s.world (s.world.reserve node value).2 node ↔ s.world.Spares node) := by
  obtain ⟨s, hs, hinv⟩ := inv_run hcreate grants ops
  refine ⟨s, hs, ?_⟩
  intro node value hex hbelow
  obtain ⟨hcap, -, -, rfl⟩ := create_spec hcreate
  have hbalanced := run_balanced hgrants rfl rfl hcap hs
  rw [← hinv.config] at hbelow
  have hreserve := World.onlyOwn_reserve_iff hbalanced.world hinv.retains.sorted value hex
    hinv.ordered hbelow
  refine ⟨Iff.trans ?_ hreserve, hreserve⟩
  refine forall₂_congr fun e he => ?_
  rw [World.mem_sendNow_iff hinv.retains value hbelow he]

/-- Two publishers and an observer share a stream with room for three values. The first
publisher may retain one value. Its own stands behind one of the other publisher, which
its second publication removes too. -/
theorem exhausted_removes_other :
    let _ := Target.x64
    ∃ stream : Stream Nat, Stream.create ⟨1⟩ .ordered ⟨3, 1, 0⟩ = .ok stream ∧
      ∃ s, run ⟨granted ⟨1⟩ [⟨1, 0, 0⟩, ⟨2, 0, 0⟩, ⟨0, 1, 0⟩], stream⟩
          [.subscribe 3 .observer, .sendNow 2 10, .sendNow 1 20] = .ok s ∧
        s.world.Exhausted 1 ∧ s.world.stream.state.entries.length < 3 ∧
        ¬ World.OnlyOwn s.world (s.world.sendNow 1 30).2 1 ∧
        ¬ World.OnlyOwn s.world (s.world.reserve 1 30).2 1 ∧
        ∃ s', steps step s [.sendNow 1 30, .recvNow 0] = .ok s' ∧
          s'.subscriptions.map Subscription.items = [[.gap 0 2]] := by
  intro _
  refine ⟨_, rfl, ?_⟩
  have hrun : (run ⟨granted ⟨1⟩ [⟨1, 0, 0⟩, ⟨2, 0, 0⟩, ⟨0, 1, 0⟩],
      (Stream.empty ⟨1⟩ .ordered ⟨3, 1, 0⟩ : Stream Nat)⟩
      [.subscribe 3 .observer, .sendNow 2 10, .sendNow 1 20]).toOption.any (fun s =>
        decide (s.world.Exhausted 1 ∧ s.world.stream.state.entries.length < 3 ∧
          ¬ World.OnlyOwn s.world (s.world.sendNow 1 30).2 1 ∧
          ¬ World.OnlyOwn s.world (s.world.reserve 1 30).2 1 ∧
          (steps step s [.sendNow 1 30, .recvNow 0]).toOption.any (fun s' =>
            s'.subscriptions.map Subscription.items = [[.gap 0 2]]) = true)) = true := by
    decide +kernel
  obtain ⟨s, hs, hp⟩ := of_any hrun
  obtain ⟨hex, hbelow, hsend, hreserve, hlater⟩ := of_decide_eq_true hp
  obtain ⟨s', hs', hitems⟩ := of_any hlater
  exact ⟨s, hs, hex, hbelow, hsend, hreserve, s', hs', of_decide_eq_true hitems⟩

/-- The pools of such a tree start within their limits. -/
theorem granted_bounded [Target] (event : EventId) {children : List StreamLimits}
    (hdefault : ∀ r, Limits.default.get r ≤ isizeMax)
    (hchildren : ∀ l ∈ children, ∀ r, l.asLimits.get r ≤ isizeMax)
    (hroot : ∀ r, (children.map fun l =>
      { l.asLimits with streams := 1, grants := 1 }.get r).sum ≤ Limits.default.get r) :
    (granted event children).Bounded := by
  intro i event' p hp r
  unfold granted Grants.pool Grants.get Slots.entry at hp
  cases i with
  | zero =>
    cases event' with
    | none =>
      cases hp
      exact ⟨by simpa using hroot r, hdefault r⟩
    | some index => cases hp
  | succ k =>
    simp only [List.getElem?_cons_succ, List.getElem?_map] at hp
    cases hk : children[k]? with
    | none =>
      rw [hk] at hp
      cases hp
    | some l =>
      rw [hk] at hp
      cases event' with
      | none =>
        cases hp
        refine ⟨by simp [Pool.new], ?_⟩
        refine le_trans ?_ (hdefault r)
        cases r <;> simp [Pool.new, Limits.get, Limits.zero, Limits.default]
      | some index =>
        cases index with
        | zero =>
          cases hp
          exact ⟨by simp [Pool.new], hchildren l (List.mem_of_getElem? hk) r⟩
        | succ index => cases hp

/-- The same tree, where the first publisher's own value is at the front. -/
theorem run_onlyOwn_iff_two :
    let _ := Target.x64
    ∃ stream : Stream Nat, Stream.create ⟨1⟩ .ordered ⟨3, 1, 0⟩ = .ok stream ∧
      ∃ s, run ⟨granted ⟨1⟩ [⟨1, 0, 0⟩, ⟨2, 0, 0⟩, ⟨0, 1, 0⟩], stream⟩
          [.subscribe 3 .observer, .sendNow 1 20, .sendNow 2 10] = .ok s ∧
        ∀ (node : NodeId) (value : Nat), s.world.Exhausted node →
          s.world.stream.state.entries.length < 3 →
            (World.OnlyOwn s.world (s.world.sendNow node value).2 node ↔ s.world.Spares node) ∧
            (World.OnlyOwn s.world (s.world.reserve node value).2 node ↔ s.world.Spares node) := by
  intro _
  refine ⟨_, rfl, ?_⟩
  refine @run_onlyOwn_iff Nat _ ⟨1⟩ ⟨3, 1, 0⟩ _ rfl _ (granted_bounded _ ?_ ?_ ?_) _
  · intro r
    cases r <;> decide
  · intro l hl r
    fin_cases hl <;> cases r <;> decide
  · intro r
    cases r <;> decide

end Session

end Hiway.Fabric
