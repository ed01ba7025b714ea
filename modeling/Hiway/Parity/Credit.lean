import Hiway.Fabric.Isolation
import Hiway.Parity.Script

/-!
# With sufficient allowances

What the operations of a dynamic stream answer when the grants of its clients are in
order: the publisher may retain as many items as the stream, and each reader may hold one
subscription more than there are slots. Then no charge ever decides an answer.

* `charge`: the publisher's pool has room unless the stream is ordered and at its capacity.
* `sendNow_refused`, `sendNow_accepted`: a publication is refused or appended as the queue
  alone decides.
* `subscribe_eq`: the check, the registration, the charge and the entry succeed, and the
  table alone decides.
* `received`, `dropped`: receptions and receivers that are dropped leave the grants in
  order.
-/

namespace Hiway.Parity

open Exec Target
open Hiway.Fabric (World Entry Charged)

variable {α : Type}

/-- The leases that the live receivers hold. -/
def outside (rs : List DynamicReceiver) : List Lease :=
  rs.filterMap fun r => if r.dropped then none else some r.lease

theorem outside_snoc (rs : List DynamicReceiver) {r : DynamicReceiver} (hr : r.dropped = false) :
    outside (rs ++ [r]) = outside rs ++ [r.lease] := by
  simp [outside, hr]

/-- One subscription, as it is charged. -/
abbrev oneSubscription : StreamLimits := { StreamLimits.zero with subscriptions := 1 }

/-- What a stream needs of the grants before the script starts. `roles` are the roles in
which the script subscribes. -/
structure Sufficient [Target] (c : Clients) (roles : SubscriptionRole → Prop) (event : EventId)
    (delivery : Delivery) (config : Fabric.StreamConfig) (g : Grants) : Prop where
  bounded : g.Bounded
  publish : g.enter c.publisher event .publish = .ok ()
  retained : ∃ index p, (g.get c.publisher).map (fun n => n.eventIndex event) = some (.ok index) ∧
    g.pool c.publisher (some index) = some p ∧
    p.usage.retainedItems + (if delivery = .latest then 2 else config.capacity) ≤
      p.limits.retainedItems
  subscribe : ∀ role, roles role →
    g.enter (c.reader role) event (World.roleRights role) = .ok () ∧
    g.enter (c.reader role) event .observe = .ok () ∧ g.Registers (c.reader role) event ∧
    ∃ index p, (g.get (c.reader role)).map (fun n => n.eventIndex event) = some (.ok index) ∧
      g.pool (c.reader role) (some index) = some p ∧
      p.usage.subscriptions + config.subscribers + 1 ≤ p.limits.subscriptions
  close : g.check Fabric.Session.root event .publish = .ok () ∧
    g.Registers Fabric.Session.root event
  ordered : delivery = .latest → ¬ roles .required

/-- The grants are still as they were in `g`, up to the entries of the publisher and the
subscriptions of the live receivers. -/
structure Funded [Target] (c : Clients) (roles : SubscriptionRole → Prop) (g : Grants)
    (w : World α) (rs : List DynamicReceiver) : Prop where
  sufficient : Sufficient c roles w.stream.event w.stream.delivery w.stream.config g
  authority : SameAuthority g w.grants
  registers : ∀ i, g.Registers i w.stream.event → w.grants.Registers i w.stream.event
  balanced : w.Balanced g.usageOf (outside rs)
  retired : w.stream.state.retired = none
  own : ∀ e ∈ w.stream.state.entries, e.lease.node = c.publisher
  lease : ∀ r ∈ rs, r.lease.usage = oneSubscription.asLimits
  reader : ∀ r ∈ rs, ∃ role, roles role ∧ r.node = c.reader role
  count : (outside rs).length ≤ w.stream.config.subscribers

/-- Why a publication is refused, when allowances are no reason. -/
def refusal (w : World α) (value : α) : Option (TrySendError α) :=
  if w.stream.state.closed then some (.closed value)
  else if w.stream.state.tail = u64Max then some (.sequenceExhausted value)
  else if w.Blocked then some (.full value)
  else none

/-- The entries after room was made for one more. -/
def roomFor (w : World α) : List (Entry α) :=
  if w.stream.state.entries.length = w.stream.config.capacity then w.stream.state.entries.tail
  else w.stream.state.entries

theorem refusal_eq_none {w : World α} {value : α} (h : refusal w value = none) :
    w.stream.state.closed = false ∧ w.stream.state.tail ≠ u64Max ∧ ¬ w.Blocked := by
  unfold refusal at h
  split at h
  · cases h
  · rename_i hopen
    split at h
    · cases h
    · rename_i htail
      split at h
      · cases h
      · rename_i hfree
        exact ⟨by simpa using hopen, htail, hfree⟩

namespace Funded

variable [Target] {c : Clients} {roles : SubscriptionRole → Prop} {g : Grants} {w w' : World α}
  {rs : List DynamicReceiver}

/-- The stream and the receivers are the same. -/
theorem of_same (h : Funded c roles g w rs) (hsame : w.SameStream w')
    (hbalanced : w'.Balanced g.usageOf (outside rs)) (hretired : w'.stream.state.retired = none)
    (hown : ∀ e ∈ w'.stream.state.entries, e.lease.node = c.publisher) :
    Funded c roles g w' rs where
  sufficient := by
    rw [hsame.event, hsame.delivery, hsame.config]
    exact h.sufficient
  authority := h.authority.trans hsame.authority
  registers := by
    intro i hi
    rw [hsame.event] at hi ⊢
    exact hsame.registers i (h.registers i hi)
  balanced := hbalanced
  retired := hretired
  own := hown
  lease := h.lease
  reader := h.reader
  count := by
    rw [hsame.config]
    exact h.count

theorem publish (h : Funded c roles g w rs) :
    w.grants.enter c.publisher w.stream.event .publish = .ok () := by
  rw [h.authority.enter_eq]
  exact h.sufficient.publish

/-- The limits of a pool stay what they were. -/
theorem limits_eq (h : Funded c roles g w rs) {i : NodeId} {event : Option Nat} {p p' : Pool}
    (hp : g.pool i event = some p) (hp' : w.grants.pool i event = some p') :
    p'.limits = p.limits := by
  have hl := h.authority.limits_eq i event
  have hmap : ∀ g' : Grants, (g'.get i).bind (fun n => (n.getPool event).map Pool.limits) =
      (g'.pool i event).map Pool.limits := by
    intro g'
    unfold Grants.pool
    cases g'.get i <;> rfl
  rw [hmap, hmap, hp, hp', Option.map_some, Option.map_some, Option.some.injEq] at hl
  exact hl

/-- The pool of an event of a node, then and now. -/
theorem pool_now (h : Funded c roles g w rs) {i : NodeId} {index : Nat} {p : Pool}
    (hn : (g.get i).map (fun n => n.eventIndex w.stream.event) = some (.ok index))
    (hp : g.pool i (some index) = some p) :
    ∃ p', (w.grants.get i).map (fun n => n.eventIndex w.stream.event) = some (.ok index) ∧
      w.grants.pool i (some index) = some p' ∧ p'.limits = p.limits ∧
      ∀ r, p'.usage.get r = p.usage.get r +
        Grants.held (w.stream.state.leases ++ outside rs) i (some index) r := by
  have hn' := (h.authority.eventIndex_eq i w.stream.event).trans hn
  obtain ⟨p', hp'⟩ := Grants.pool_of_eventIndex hn'
  refine ⟨p', hn', hp', h.limits_eq hp hp', fun r => ?_⟩
  rw [h.balanced.books.usage i (some index) p' hp' r]
  simp [Grants.usageOf, hp]

/-- What entries and receivers hold of retained items and of subscriptions. -/
theorem held_le (h : Funded c roles g w rs) (i : NodeId) (event : Option Nat) :
    Grants.held (w.stream.state.leases ++ outside rs) i event .retainedItems ≤
        w.stream.state.entries.length ∧
      Grants.held (w.stream.state.leases ++ outside rs) i event .subscriptions ≤
        (outside rs).length := by
  have hqueue : ∀ l ∈ w.stream.state.leases,
      l.usage = World.retainedItem.asLimits := by
    intro l hl
    simp only [Fabric.State.leases, h.retired, Option.toList_none, List.map_nil,
      List.append_nil] at hl
    obtain ⟨e, he, rfl⟩ := List.mem_map.mp hl
    exact (h.balanced.charged e he).1
  have houtside : ∀ l ∈ outside rs, l.usage = oneSubscription.asLimits := by
    intro l hl
    obtain ⟨r, hr, hl⟩ := List.mem_filterMap.mp hl
    split at hl
    · cases hl
    · cases hl
      exact h.lease r hr
  have hlen : w.stream.state.leases.length = w.stream.state.entries.length := by
    simp [Fabric.State.leases, h.retired]
  rw [Grants.held_append, Grants.held_append]
  constructor
  · have h₁ := Grants.held_le (k := 1) (r := .retainedItems) (fun l hl => by
      rw [hqueue l hl]
      exact le_refl 1) i event
    have h₂ := Grants.held_le (k := 0) (r := .retainedItems) (fun l hl => by
      rw [houtside l hl]
      exact le_refl 0) i event
    rw [hlen] at h₁
    omega
  · have h₁ := Grants.held_le (k := 0) (r := .subscriptions) (fun l hl => by
      rw [hqueue l hl]
      exact le_refl 0) i event
    have h₂ := Grants.held_le (k := 1) (r := .subscriptions) (fun l hl => by
      rw [houtside l hl]
      exact le_refl 1) i event
    omega

/-! ## Publication -/

/-- A reservation starts its loop with the stream as it is. -/
theorem reserve_start (h : Funded c roles g w rs) (hroom : w.stream.state.needsRoom = false)
    (value : α) : ∃ w₀ : World α,
      w.reserve c.publisher value =
        w₀.reserveLoop c.publisher value (w.stream.config.capacity + 1) ∧
      w₀.stream.state = w.stream.state ∧ w.SameStream w₀ ∧
      w₀.Balanced g.usageOf (outside rs) := by
  unfold World.reserve
  rw [h.publish]
  dsimp only
  by_cases hl : w.stream.delivery = .latest
  · refine ⟨w.maintain, ?_, ?_, (World.Trims.maintain w).toSameStream, h.balanced.maintain⟩
    · rw [if_pos hl, (World.Trims.maintain w).config]
    · obtain ⟨n, hn, -, hzero⟩ := World.maintain_state hroom h.retired
      rw [hn, hzero hl, List.drop_zero]
  · exact ⟨w, by rw [if_neg hl], rfl, World.SameStream.refl w, h.balanced⟩

/-- The publisher's pool has room unless the stream is ordered and at its capacity. -/
theorem charge (h : Funded c roles g w rs) {published : List α} (hret : w.Retains published)
    (hlatest : w.stream.delivery = .latest → w.stream.config.capacity = 1) :
    (∃ lease g', w.grants.tryChargeStream c.publisher w.stream.event World.retainedItem =
        (.ok lease, g') ∧ lease.node = c.publisher) ∨
    (w.grants.tryChargeStream c.publisher w.stream.event World.retainedItem =
        (.error .capacity, w.grants) ∧
      w.stream.delivery = .ordered ∧
      w.stream.state.entries.length = w.stream.config.capacity) := by
  obtain ⟨index, p, hn, hp, hroom⟩ := h.sufficient.retained
  obtain ⟨p', hn', hp', hlimits, husage⟩ := h.pool_now hn hp
  have hrevoked := Grants.not_revoked_of_enter h.publish
  rcases Grants.tryChargeStream_or hrevoked hn' hp' with
    ⟨g', hok⟩ | herror
  · exact Or.inl ⟨_, _, hok, rfl⟩
  · refine Or.inr ⟨herror, ?_⟩
    -- otherwise the charge would have succeeded
    have hcapacity := hret.capacity
    have hheld := (h.held_le c.publisher (some index)).1
    have hu : p'.usage.retainedItems = p.usage.retainedItems + Grants.held _ _ _ _ :=
      husage .retainedItems
    obtain ⟨-, hmax⟩ := h.balanced.bounded _ _ p' hp' .retainedItems
    have hmax : p'.limits.retainedItems ≤ isizeMax := hmax
    have hword := isizeMax_lt_usizeMax
    have hfull : ¬ p'.usage.retainedItems + 1 ≤ p'.limits.retainedItems := by
      intro hfit
      have hok := Grants.tryChargeStream_eq_ok World.retainedItem hrevoked hn' hp' (by
        intro r
        cases r with
        | retainedItems =>
          refine Or.inr ⟨?_, hfit⟩
          change p'.usage.retainedItems + 1 ≤ _
          omega
        | _ => exact Or.inl rfl)
      rw [herror] at hok
      cases hok
    rw [hlimits] at hfull
    cases hd : w.stream.delivery with
    | latest =>
      rw [hd, if_pos rfl] at hroom
      have := hlatest hd
      omega
    | ordered =>
      rw [hd, if_neg (by decide)] at hroom
      exact ⟨rfl, by omega⟩

theorem sendNow_refused (h : Funded c roles g w rs) (hroom : w.stream.state.needsRoom = false)
    {value : α} {error : TrySendError α} (he : refusal w value = some error) :
    ∃ w', w.sendNow c.publisher value = (.error error, w') ∧
      w'.stream.state = w.stream.state ∧ w.SameStream w' ∧ Funded c roles g w' rs := by
  obtain ⟨w₀, hreserve, hstate, hsame, hbalanced⟩ := h.reserve_start hroom value
  have hrevoked : w₀.grants.isRevoked c.publisher = false :=
    (hsame.authority.isRevoked_eq _).trans (Grants.not_revoked_of_enter h.publish)
  have hseen := hsame.trans (World.SameStream.unlock w₀ w₀.stream.state false true)
  have hloop : w₀.reserveLoop c.publisher value (w.stream.config.capacity + 1) =
      (.error error, w₀.unlock w₀.stream.state false true) := by
    unfold refusal at he
    split at he
    · rename_i hclosed
      cases he
      exact World.reserveLoop_closed value _ hrevoked (by rw [hstate]; exact hclosed)
    · rename_i hopen
      have hopen : w₀.stream.state.closed = false := by
        rw [hstate]
        simpa using hopen
      split at he
      · rename_i htail
        cases he
        exact World.reserveLoop_exhausted value _ hrevoked hopen (by rw [hstate]; exact htail)
      · rename_i htail
        split at he
        · rename_i hblocked
          cases he
          exact World.reserveLoop_blocked value _ hrevoked hopen (by rw [hstate]; exact htail)
            ((World.blocked_congr hsame hstate).mpr hblocked)
        · cases he
  refine ⟨_, World.sendNow_error (hreserve.trans hloop), ?_, hseen, ?_⟩
  · rw [World.unlock_state, hstate]
  · refine h.of_same hseen (hbalanced.unlock _ rfl rfl _ _) ?_ ?_
    · rw [World.unlock_state, hstate]
      exact h.retired
    · rw [World.unlock_state, hstate]
      exact h.own

/-- What is appended to a world that is the stream with other entries. -/
theorem commit_entries (h : Funded c roles g w rs) {w₁ : World α}
    (hsame : w.SameStream w₁) {entries : List (Entry α)}
    (hstate : w₁.stream.state = { w.stream.state with entries := entries })
    (hopen : w.stream.state.closed = false) (hbound : w.stream.state.tail + 1 ≤ u64Max)
    (hcap : 0 < w.stream.config.capacity) (hfree : ¬ w₁.Blocked) (value : α) (lease : Lease) :
    ∃ w', w₁.commit c.publisher value lease false = (.ok (), w') ∧
      w'.stream.state = World.append { w.stream.state with
        entries := if entries.length = w.stream.config.capacity then entries.tail else entries }
        value lease := by
  have henter : w₁.grants.enter c.publisher w₁.stream.event .publish = .ok () := by
    rw [hsame.authority.enter_eq, hsame.event]
    exact h.publish
  have hopen₁ : w₁.stream.state.closed = false := by rw [hstate]; exact hopen
  have hbound₁ : w₁.stream.state.tail + 1 ≤ u64Max := by rw [hstate]; exact hbound
  have hentries : w₁.stream.state.entries = entries := by rw [hstate]
  by_cases hfull : entries.length = w.stream.config.capacity
  · cases entries with
    | nil =>
      rw [List.length_nil] at hfull
      omega
    | cons front rest =>
      have hc := World.commit_replace value lease henter hopen₁ hbound₁ hentries
        (by rw [hentries, hsame.config]; exact hfull) hfree
      refine ⟨_, hc, ?_⟩
      rw [World.release_state, World.unlock_state, hstate, if_pos hfull]
      rfl
  · have hc := World.commit_append value lease false henter hopen₁ hbound₁
      (by rw [hentries, hsame.config]; exact hfull)
    refine ⟨_, hc, ?_⟩
    rw [World.unlock_state, hstate, if_neg hfull]

/-- A publication that is not refused is appended. At the capacity of the stream the
front is gone, whether the reservation evicted it or the publication replaced it. -/
theorem sendNow_accepted (h : Funded c roles g w rs) {published : List α}
    (hret : w.Retains published) (hcap : 0 < w.stream.config.capacity)
    (hlatest : w.stream.delivery = .latest → w.stream.config.capacity = 1)
    (hroom : w.stream.state.needsRoom = false) {value : α} (he : refusal w value = none) :
    ∃ lease w', w.sendNow c.publisher value = (.ok (), w') ∧ lease.node = c.publisher ∧
      w'.stream.state =
        World.append { w.stream.state with entries := roomFor w } value lease := by
  obtain ⟨hopen, htail, hfree⟩ := refusal_eq_none he
  obtain ⟨w₀, hreserve, hstate, hsame, hbalanced⟩ := h.reserve_start hroom value
  have h₀ : Funded c roles g w₀ rs := h.of_same hsame hbalanced (by rw [hstate]; exact h.retired)
    (by rw [hstate]; exact h.own)
  have hbound : w.stream.state.tail + 1 ≤ u64Max := by
    have h₁ := hret.tail
    have h₂ := hret.bounded
    omega
  have hrevoked := Grants.not_revoked_of_enter h₀.publish
  have hopen₀ : w₀.stream.state.closed = false := by rw [hstate]; exact hopen
  have htail₀ : w₀.stream.state.tail ≠ u64Max := by rw [hstate]; exact htail
  have hfree₀ : ¬ w₀.Blocked := fun hb => hfree ((World.blocked_congr hsame hstate).mp hb)
  have hlatest₀ : w₀.stream.delivery = .latest → w₀.stream.config.capacity = 1 := by
    rw [hsame.delivery, hsame.config]
    exact hlatest
  rcases h₀.charge (hret.of_state hsame hstate) hlatest₀ with
    ⟨lease, g', hcharge, hnode⟩ | ⟨hcharge, hordered, hfull⟩
  · -- the charge succeeds at once, and the publication replaces the front if it has to
    have hok : (w₀.unlock w₀.stream.state false true).tryCharge c.publisher World.retainedItem =
        (.ok lease, ⟨g', (w₀.unlock w₀.stream.state false true).stream⟩) := by
      simp only [World.tryCharge, World.unlock_grants, World.unlock_event, hcharge]
    have hloop := hreserve.trans (World.reserveLoop_charged value _ hrevoked hopen₀ htail₀ hfree₀ hok)
    have hcharged := (hsame.trans (World.SameStream.unlock w₀ w₀.stream.state false true)).trans
      (World.SameStream.tryCharge _ c.publisher World.retainedItem)
    rw [hok] at hcharged
    have hstate₁ : (w₀.unlock w₀.stream.state false true).stream.state =
        { w.stream.state with entries := w.stream.state.entries } := by
      rw [World.unlock_state, hstate]
    obtain ⟨w', hcommit, hw'⟩ := h.commit_entries hcharged hstate₁ hopen hbound hcap
      (fun hb => hfree ((World.blocked_congr hcharged hstate₁).mp hb)) value lease
    exact ⟨lease, w', World.sendNow_ok hloop hcommit, hnode, hw'⟩
  · -- the publisher's oldest entry is the front, which nobody needs: it is evicted
    have hfull' : w.stream.state.entries.length = w.stream.config.capacity := by
      rw [← hsame.config, ← hfull, hstate]
    cases hfront : w.stream.state.entries with
    | nil =>
      rw [hfront, List.length_nil] at hfull'
      omega
    | cons front rest =>
      have hfront₀ : w₀.stream.state.entries = front :: rest := by rw [hstate]; exact hfront
      have hmem : front ∈ w₀.stream.state.entries := by rw [hfront₀]; exact List.mem_cons_self
      have hnode : front.lease.node = c.publisher := h₀.own front hmem
      have hneed : w₀.stream.state.requiredNeeds w₀.grants front.sequence = false := by
        rw [← Bool.not_eq_true]
        intro hn
        exact hfree₀ ⟨hfull, by rw [hfront₀]; exact hn⟩
      have hown : w₀.stream.state.entries.find? (fun entry => entry.lease.belongsTo c.publisher) =
          some front := by
        rw [hfront₀]
        exact List.find?_cons_of_pos (by simp [Lease.belongsTo, hnode])
      have herror : (w₀.unlock w₀.stream.state false true).tryCharge c.publisher
          World.retainedItem = (.error .capacity, w₀.unlock w₀.stream.state false true) := by
        simp only [World.tryCharge, World.unlock_grants, World.unlock_event, hcharge]
        rfl
      have hevict := hreserve.trans (World.reserveLoop_evicts value _ hrevoked hopen₀ htail₀ hfree₀
        herror hordered hown hneed hfront₀)
      -- the lease of the front pays for the new item
      have hsame₁ : w.SameStream (w₀.evicted front rest) :=
        ((hsame.trans (World.SameStream.unlock _ _ _ _)).trans (World.SameStream.unlock _ _ _ _)).trans
          (World.SameStream.release _ _)
      have hstate₁ : (w₀.evicted front rest).stream.state =
          { w.stream.state with entries := rest } := by
        rw [World.evicted_state, hstate]
      obtain ⟨lease, hlease⟩ := World.charge_after_release h₀.balanced hmem
        (by rw [hnode]; exact hrevoked)
      rw [hnode] at hlease
      obtain ⟨k, hk⟩ : ∃ k, w.stream.config.capacity = k + 1 := ⟨_, (Nat.succ_pred hcap.ne').symm⟩
      rw [hk] at hevict
      have hrest : rest.length ≠ w.stream.config.capacity := by
        rw [hfront, List.length_cons] at hfull'
        omega
      have hfree₁ : ¬ (w₀.evicted front rest).Blocked := by
        intro hb
        refine hrest ?_
        rw [← hsame₁.config, ← hb.1, hstate₁]
      have hopen₁ : (w₀.evicted front rest).stream.state.closed = false := by
        rw [hstate₁]
        exact hopen
      have htail₁ : (w₀.evicted front rest).stream.state.tail ≠ u64Max := by
        rw [hstate₁]
        exact htail
      have hrevoked₁ : (w₀.evicted front rest).grants.isRevoked c.publisher = false :=
        (hsame₁.authority.isRevoked_eq _).trans (Grants.not_revoked_of_enter h.publish)
      obtain ⟨w₂, hpaid⟩ : ∃ w₂, ((w₀.evicted front rest).unlock
          (w₀.evicted front rest).stream.state false true).tryCharge c.publisher
            World.retainedItem = (.ok lease, w₂) := by
        refine ⟨_, Prod.ext ?_ rfl⟩
        simpa [World.tryCharge, World.evicted] using hlease
      have hloop := hevict.trans
        (World.reserveLoop_charged value k hrevoked₁ hopen₁ htail₁ hfree₁ hpaid)
      have hsame₂ := (hsame₁.trans (World.SameStream.unlock _
        (w₀.evicted front rest).stream.state false true)).trans
          (World.SameStream.tryCharge _ c.publisher World.retainedItem)
      rw [hpaid] at hsame₂
      have hstate₂ : w₂.stream.state = { w.stream.state with entries := rest } := by
        have hstream := World.tryCharge_stream ((w₀.evicted front rest).unlock
          (w₀.evicted front rest).stream.state false true) c.publisher World.retainedItem
        rw [hpaid] at hstream
        dsimp only at hstream
        rw [hstream, World.unlock_state, hstate₁]
      obtain ⟨w', hcommit, hw'⟩ := h.commit_entries hsame₂ hstate₂ hopen hbound hcap (by
        intro hb
        refine hrest ?_
        rw [← hsame₂.config, ← hb.1, hstate₂]) value lease
      refine ⟨lease, w', World.sendNow_ok hloop hcommit, (World.tryCharge_ok hpaid).1, ?_⟩
      rw [hw', if_neg hrest, roomFor, if_pos hfull', hfront, List.tail_cons]

/-- A publication leaves the grants in order. -/
theorem sendNow (h : Funded c roles g w rs) (hcap : 0 < w.stream.config.capacity) {value : α}
    {lease : Lease} {result : Except (TrySendError α) Unit}
    (he : w.sendNow c.publisher value = (result, w')) (hnode : lease.node = c.publisher)
    (hstate : w'.stream.state =
      World.append { w.stream.state with entries := roomFor w } value lease) :
    Funded c roles g w' rs := by
  have hsame := World.SameStream.sendNow hcap c.publisher value
  have hbalanced := h.balanced.sendNow hcap c.publisher value
  rw [he] at hsame hbalanced
  refine h.of_same hsame hbalanced ?_ ?_
  · rw [hstate]
    exact h.retired
  · intro e hmem
    rw [hstate, World.append] at hmem
    rcases List.mem_append.mp hmem with hmem | hmem
    · refine h.own e ?_
      unfold roomFor at hmem
      split at hmem
      · exact List.mem_of_mem_tail hmem
      · exact hmem
    · rw [List.mem_singleton.mp hmem]
      exact hnode

/-! ## Subscription -/

/-- A node that may and that has a place is bound to the stream. -/
theorem bind (h : Funded c roles g w rs) {node : NodeId} {rights : Rights}
    (hcheck : w.grants.check node w.stream.event rights = .ok ())
    (hregisters : g.Registers node w.stream.event) :
    ∃ w₀, w.bindStream node rights = (.ok (), w₀) ∧ w₀.stream = w.stream ∧
      w.SameStream w₀ ∧ Funded c roles g w₀ rs := by
  have hrevoked : w.grants.isRevoked node = false := by
    unfold Grants.check at hcheck
    cases hr : w.grants.isRevoked node with
    | false => rfl
    | true =>
      rw [hr, if_pos rfl] at hcheck
      cases hcheck
  have hbind : (w.bindStream node rights).1 = .ok () := by
    unfold World.bindStream
    rw [hcheck]
    exact Grants.registerStream_ok hrevoked (h.registers _ hregisters)
  have hstream := World.bindStream_stream w node rights
  have hsame := World.SameStream.bindStream w node rights
  refine ⟨_, Prod.ext hbind rfl, hstream, hsame,
    h.of_same hsame (h.balanced.bindStream node rights) ?_ ?_⟩
  · rw [hstream]
    exact h.retired
  · rw [hstream]
    exact h.own

/-- The check, the registration, the charge and the entry all succeed: only the table
decides. -/
theorem subscribe_eq (h : Funded c roles g w rs) {role : SubscriptionRole} (hrole : roles role)
    (hlatest : ¬ (w.stream.delivery = .latest ∧ role = .required)) :
    ∃ (lease : Lease) (w₁ : World α), w₁.stream = w.stream ∧
      lease.usage = oneSubscription.asLimits ∧
      w.subscribe (c.reader role) role = match w₁.claim (c.reader role) role with
        | (.error error, w₂) => (.error error, w₂.release lease)
        | (.ok key, w₂) => (.ok (key, lease), w₂) := by
  obtain ⟨henter, -, hregisters, index, p, hn, hp, hroom⟩ := h.sufficient.subscribe role hrole
  have hcheck : w.grants.check (c.reader role) w.stream.event (World.roleRights role) = .ok () := by
    rw [h.authority.check_eq]
    exact Grants.check_of_enter henter
  obtain ⟨w₀, hbind, hstream, hsame, h₀⟩ := h.bind hcheck hregisters
  rw [← hsame.event] at hn
  obtain ⟨p', hn', hp', hlimits, husage⟩ := h₀.pool_now hn hp
  have hrevoked₀ : w₀.grants.isRevoked (c.reader role) = false := by
    rw [h₀.authority.isRevoked_eq]
    exact Grants.not_revoked_of_enter henter
  have hu : p'.usage.subscriptions = p.usage.subscriptions + Grants.held _ _ _ _ :=
    husage .subscriptions
  have hheld := (h₀.held_le (c.reader role) (some index)).2
  have hcount := h.count
  have hfit : p'.usage.subscriptions + 1 ≤ p'.limits.subscriptions := by
    rw [hlimits]
    omega
  obtain ⟨-, hmax⟩ := h₀.balanced.bounded _ _ p' hp' .subscriptions
  have hmax : p'.limits.subscriptions ≤ isizeMax := hmax
  have hword := isizeMax_lt_usizeMax
  have hok := Grants.tryChargeStream_eq_ok oneSubscription hrevoked₀ hn' hp' (by
    intro r
    cases r with
    | subscriptions =>
      refine Or.inr ⟨?_, hfit⟩
      change p'.usage.subscriptions + 1 ≤ _
      omega
    | _ => exact Or.inl rfl)
  obtain ⟨w₁, hw₁⟩ : ∃ w₁, w₁ = (w₀.tryCharge (c.reader role) oneSubscription).2 := ⟨_, rfl⟩
  have hcharge : w₀.tryCharge (c.reader role) oneSubscription =
      (.ok ⟨c.reader role, oneSubscription.asLimits, some index⟩, w₁) := Prod.ext hok hw₁.symm
  have hsame₁ := World.SameStream.tryCharge w₀ (c.reader role) oneSubscription
  rw [hcharge] at hsame₁
  have henter₁ : w₁.grants.enter (c.reader role) w₁.stream.event (World.roleRights role) =
      .ok () := by
    rw [hsame₁.authority.enter_eq, h₀.authority.enter_eq, hsame₁.event, hsame.event]
    exact henter
  have hstream₁ : w₁.stream = w.stream := by
    rw [hw₁, World.tryCharge_stream, hstream]
  refine ⟨⟨c.reader role, oneSubscription.asLimits, some index⟩, w₁, hstream₁, rfl, ?_⟩
  rcases hclaim : w₁.claim (c.reader role) role with ⟨error | key, w₂⟩
  all_goals
    unfold World.subscribe
    rw [if_neg hlatest, hbind]
    simp only [hcharge, henter₁, hclaim]

/-- A refused subscription leaves everything in order. -/
theorem refused (h : Funded c roles g w rs) {node : NodeId} {role : SubscriptionRole}
    {error : TopicError} (he : w.subscribe node role = (.error error, w'))
    (hstate : w'.stream.state = w.stream.state) : Funded c roles g w' rs := by
  have hsame := World.SameStream.subscribe w node role
  rw [he] at hsame
  rcases h.balanced.subscribe node role with ⟨error', w₁, he₁, hbalanced⟩ | ⟨key, lease, w₁, he₁, -⟩
  · rw [he] at he₁
    cases he₁
    exact h.of_same hsame hbalanced (by rw [hstate]; exact h.retired) (by rw [hstate]; exact h.own)
  · rw [he] at he₁
    cases he₁

/-- One more receiver. -/
theorem subscribed (h : Funded c roles g w rs) {role : SubscriptionRole} (hrole : roles role)
    {key : Fabric.CursorKey} {lease : Lease}
    (he : w.subscribe (c.reader role) role = (.ok (key, lease), w'))
    (hlease : lease.usage = oneSubscription.asLimits)
    (hentries : w'.stream.state.entries = w.stream.state.entries)
    (hretired : w'.stream.state.retired = w.stream.state.retired)
    (hcount : (outside rs).length + 1 ≤ w.stream.config.subscribers) :
    Funded c roles g w' (rs ++ [⟨c.reader role, key, lease, false⟩]) := by
  have hsame := World.SameStream.subscribe w (c.reader role) role
  rw [he] at hsame
  have hbalanced : w'.Balanced g.usageOf (outside (rs ++ [⟨c.reader role, key, lease, false⟩])) := by
    rw [outside_snoc rs rfl]
    rcases h.balanced.subscribe (c.reader role) role with
      ⟨error', w₁, he₁, -⟩ | ⟨key', lease', w₁, he₁, hbalanced⟩
    · rw [he] at he₁
      cases he₁
    · rw [he] at he₁
      cases he₁
      exact hbalanced.perm (@List.perm_append_comm _ [lease] _)
  exact
    { sufficient := by
        rw [hsame.event, hsame.delivery, hsame.config]
        exact h.sufficient
      authority := h.authority.trans hsame.authority
      registers := by
        intro i hi
        rw [hsame.event] at hi ⊢
        exact hsame.registers i (h.registers i hi)
      balanced := hbalanced
      retired := hretired.trans h.retired
      own := by
        rw [hentries]
        exact h.own
      lease := by
        intro r hr
        rcases List.mem_append.mp hr with hr | hr
        · exact h.lease r hr
        · rw [List.mem_singleton.mp hr]
          exact hlease
      reader := by
        intro r hr
        rcases List.mem_append.mp hr with hr | hr
        · exact h.reader r hr
        · rw [List.mem_singleton.mp hr]
          exact ⟨role, hrole, rfl⟩
      count := by
        rw [outside_snoc rs rfl, hsame.config, List.length_append]
        exact hcount }

/-! ## Reception and drop -/

theorem reads (h : Funded c roles g w rs) {r : DynamicReceiver} (hr : r ∈ rs) :
    w.grants.enter r.node w.stream.event .observe = .ok () := by
  obtain ⟨role, hrole, hnode⟩ := h.reader r hr
  rw [h.authority.enter_eq, hnode]
  exact (h.sufficient.subscribe role hrole).2.1

/-- A reception and the maintenance after it. -/
theorem received (h : Funded c roles g w rs) (hroom : w.stream.state.needsRoom = false)
    {node : NodeId} {key : Fabric.CursorKey} {result : Except ReceiveError (Option (StreamItem α))}
    (he : w.tryRecv node key = .ok (result, w')) : Funded c roles g w'.maintain rs := by
  obtain ⟨hentries, hretired, hroom'⟩ : w'.stream.state.entries = w.stream.state.entries ∧
      w'.stream.state.retired = w.stream.state.retired ∧ w'.stream.state.needsRoom = false := by
    rcases World.tryRecv_world he with rfl | ⟨subscribers, d, rfl⟩
    · exact ⟨rfl, rfl, hroom⟩
    · rw [World.unlock_state]
      exact ⟨rfl, rfl, hroom⟩
  obtain ⟨n, hstate, -, -⟩ := World.maintain_state hroom' (hretired.trans h.retired)
  refine h.of_same ((World.SameStream.tryRecv he).trans (World.Trims.maintain w').toSameStream)
    (h.balanced.tryRecv he).maintain ?_ ?_
  · rw [hstate]
    exact hretired.trans h.retired
  · intro e hmem
    rw [hstate] at hmem
    refine h.own e ?_
    rw [← hentries]
    exact List.mem_of_mem_drop hmem

/-- One receiver less. -/
theorem dropped (h : Funded c roles g w rs) {i : Nat} {r : DynamicReceiver}
    (hr : rs[i]? = some r) (hlive : r.dropped = false) {n : Nat}
    (hentries : (w.dropReceiver r.key r.lease).stream.state.entries =
      w.stream.state.entries.drop n)
    (hretired : (w.dropReceiver r.key r.lease).stream.state.retired = w.stream.state.retired) :
    Funded c roles g (w.dropReceiver r.key r.lease) (rs.set i { r with dropped := true }) := by
  have hsame := World.SameStream.dropReceiver w r.key r.lease
  have hperm : (outside rs).Perm (r.lease :: outside (rs.set i { r with dropped := true })) :=
    Fabric.Session.filterMap_set_perm hr (by simp [hlive]) (by simp)
  have hmem : ∀ r' ∈ rs.set i { r with dropped := true }, r' ∈ rs ∨ r' = { r with dropped := true } :=
    fun r' hr' => List.mem_or_eq_of_mem_set hr'
  exact
    { sufficient := by
        rw [hsame.event, hsame.delivery, hsame.config]
        exact h.sufficient
      authority := h.authority.trans hsame.authority
      registers := by
        intro j hj
        rw [hsame.event] at hj ⊢
        exact hsame.registers j (h.registers j hj)
      balanced := (h.balanced.perm hperm).dropReceiver r.key
      retired := hretired.trans h.retired
      own := by
        rw [hentries]
        exact fun e he => h.own e (List.mem_of_mem_drop he)
      lease := by
        intro r' hr'
        rcases hmem r' hr' with hr' | rfl
        · exact h.lease r' hr'
        · exact h.lease r (List.mem_of_getElem? hr)
      reader := by
        intro r' hr'
        rcases hmem r' hr' with hr' | rfl
        · exact h.reader r' hr'
        · exact h.reader r (List.mem_of_getElem? hr)
      count := by
        have hlen := hperm.length_eq
        have hcount := h.count
        rw [List.length_cons] at hlen
        rw [hsame.config]
        omega }

/-! ## Closure -/

theorem closeStream (h : Funded c roles g w rs) :
    ∃ w', w.closeStream Fabric.Session.root = (.ok (), w') ∧
      w'.stream.state = { w.stream.state with
        closed := true, entries := [], subscribers := [], retired := none } ∧
      w.SameStream w' ∧ Funded c roles g w' rs := by
  have hsame := World.SameStream.closeStream w Fabric.Session.root
  have hbalanced := h.balanced.closeStream Fabric.Session.root
  obtain ⟨hcheck, hregisters⟩ := h.sufficient.close
  obtain ⟨w₀, hbind, hstream, -⟩ := h.bind (by rw [h.authority.check_eq]; exact hcheck) hregisters
  unfold World.closeStream at hsame hbalanced ⊢
  rw [hbind] at hsame hbalanced ⊢
  dsimp only at hsame hbalanced ⊢
  have hstate : ∀ entries : List (Entry α), ∀ v : World α,
      (v.releaseAll entries).stream.state = v.stream.state := by
    intro entries
    induction entries with
    | nil => exact fun v => rfl
    | cons e rest ih => exact fun v => (ih (v.release e.lease)).trans (World.release_state v e.lease)
  refine ⟨_, rfl, ?_, hsame, h.of_same hsame hbalanced ?_ ?_⟩
  · rw [hstate, World.unlock_state, hstream]
  · rw [hstate, World.unlock_state]
  · rw [hstate, World.unlock_state]
    simp

end Funded

end Hiway.Parity
