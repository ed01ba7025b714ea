import Hiway.Fabric.Credits

/-!
# The ledger of a fabric

The books of the whole tree are exact: the usage of every pool is what the streams, their
clients and the children of the node hold. What the pool of one event is charged for
follows by counting.

* `step`, `run`: every operation of a fabric keeps the books of the whole tree.
* `Inv.usage`: the usage of an event pool, resource by resource, is a count of entries,
  preparations, receivers, waiters and reservations of children.
* `run_credits`: so it is in every run.
-/

namespace Hiway.Fabric

open Exec Target

variable {α : Type}

namespace Channel

variable {g g' : Grants} {ch : Channel α}

theorem mem_leases_of_holds {e : Entry α} (h : ch.stream.state.Holds e) : e.lease ∈ ch.leases := by
  refine List.mem_cons_of_mem _ (List.mem_append_left _ (List.mem_append_left _ ?_))
  rcases h with h | h
  · exact List.mem_append_left _ (List.mem_map_of_mem h)
  · refine List.mem_append_right _ ?_
    rw [h]
    exact List.mem_cons_self

theorem mem_leases_of_preparation {p : Nat} {prepared : Prepared α}
    (h : Slots.entry ch.preparations p = some prepared) : prepared.lease ∈ ch.leases := by
  refine List.mem_cons_of_mem _ (List.mem_append_left _ (List.mem_append_right _
    (List.mem_append_left _ ?_)))
  exact List.mem_filterMap.mpr ⟨_, List.mem_of_getElem? (Slots.entry_eq_some.mp h), rfl⟩

theorem mem_leases_of_receiver {r : Nat} {sub : Subscription α}
    (h : ch.subscriptions[r]? = some sub) (hd : sub.dropped = false) : sub.lease ∈ ch.leases := by
  refine List.mem_cons_of_mem _ (List.mem_append_left _ (List.mem_append_right _
    (List.mem_append_right _ ?_)))
  exact List.mem_filterMap.mpr ⟨sub, List.mem_of_getElem? h, by simp [hd]⟩

theorem mem_leases_of_waiter {f : Nat} {future : Future α} {lease : Lease}
    (h : ch.future f = some future) (hw : future.waiter = some lease) : lease ∈ ch.leases := by
  refine List.mem_cons_of_mem _ (List.mem_append_right _ ?_)
  exact List.mem_filterMap.mpr ⟨_, List.mem_of_getElem? (Slots.entry_eq_some.mp h), hw⟩

/-- The nodes of the stream's leases still know its event. -/
theorem Sound.of_index (h : ch.Sound g)
    (hg : ∀ l ∈ ch.leases, ∀ event index,
      (g.get l.node).map (fun n => n.eventIndex event) = some (.ok index) →
        (g'.get l.node).map (fun n => n.eventIndex event) = some (.ok index)) : ch.Sound g' where
  capacity := h.capacity
  classified :=
    { holds := by
        intro e he
        obtain ⟨husage, index, hindex, hn⟩ := h.classified.holds e he
        exact ⟨husage, index, hindex, hg _ (mem_leases_of_holds he) _ _ hn⟩
      prepared := by
        intro p prepared hp
        obtain ⟨hnode, husage, index, hindex, hn⟩ := h.classified.prepared p prepared hp
        exact ⟨hnode, husage, index, hindex, hg _ (mem_leases_of_preparation hp) _ _ hn⟩
      receivers := by
        intro r sub hr hd
        obtain ⟨hnode, husage, index, hindex, hn⟩ := h.classified.receivers r sub hr hd
        exact ⟨hnode, husage, index, hindex, hg _ (mem_leases_of_receiver hr hd) _ _ hn⟩ }
  waiting := by
    intro f future lease hf hw
    obtain ⟨hnode, husage, index, hindex, hn⟩ := h.waiting f future lease hf hw
    exact ⟨hnode, husage, index, hindex, hg _ (mem_leases_of_waiter hf hw) _ _ hn⟩
  waiters := h.waiters
  limit := h.limit
  allocation := h.allocation

theorem Sound.of_authority (h : ch.Sound g) (hs : SameAuthority g g') : ch.Sound g' :=
  h.of_index fun l _ event _ hn => (hs.eventIndex_eq l.node event).trans hn

/-- Notifications change nothing that is accounted for. -/
theorem Sound.notified (h : ch.Sound g) (n : Nat) (senders : List NodeId) :
    Sound g { ch with
      stream := { ch.stream with changed := ch.stream.changed + n }, senders := senders } :=
  ⟨h.capacity, ⟨h.classified.holds, h.classified.prepared, h.classified.receivers⟩, h.waiting,
    h.waiters, h.limit, h.allocation⟩

/-- Every lease of a stream lies at a live node. -/
theorem Sound.live (h : ch.Sound g) (hroot : ∃ n, g.get 0 = some n) {l : Lease}
    (hl : l ∈ ch.leases) : ∃ n, g.get l.node = some n := by
  have hleased : ∀ {usage : StreamLimits}, Leased usage g ch.stream.event l →
      ∃ n, g.get l.node = some n := by
    intro usage hleased
    obtain ⟨-, index, -, hn⟩ := hleased
    obtain ⟨n, hn, -⟩ := Option.map_eq_some_iff.mp hn
    exact ⟨n, hn⟩
  unfold leases at hl
  rw [List.mem_cons, List.mem_append, List.mem_append] at hl
  rcases hl with rfl | (hl | hl) | hl
  · rw [h.allocation.2]
    exact hroot
  · have hholds : ∃ e, ch.stream.state.Holds e ∧ e.lease = l := by
      rcases List.mem_append.mp hl with hl | hl
      · obtain ⟨e, he, rfl⟩ := List.mem_map.mp hl
        exact ⟨e, Or.inl he, rfl⟩
      · obtain ⟨e, he, rfl⟩ := List.mem_map.mp hl
        exact ⟨e, Or.inr (Option.mem_toList.mp he), rfl⟩
    obtain ⟨e, he, rfl⟩ := hholds
    exact hleased (h.classified.holds e he)
  · rcases List.mem_append.mp hl with hl | hl
    · obtain ⟨o, ho, hp⟩ := List.mem_filterMap.mp hl
      obtain ⟨prepared, rfl, rfl⟩ := Option.map_eq_some_iff.mp hp
      obtain ⟨p, hp⟩ := List.getElem?_of_mem ho
      exact hleased (h.classified.prepared p prepared (Slots.entry_eq_some.mpr hp)).2
    · obtain ⟨sub, hsub, hlease⟩ := List.mem_filterMap.mp hl
      cases hd : sub.dropped with
      | true =>
        rw [hd] at hlease
        cases hlease
      | false =>
        rw [hd] at hlease
        cases hlease
        obtain ⟨r, hr⟩ := List.getElem?_of_mem hsub
        exact hleased (h.classified.receivers r sub hr hd).2
  · obtain ⟨o, ho, hw⟩ := List.mem_filterMap.mp hl
    obtain ⟨future, rfl, hw⟩ := Option.bind_eq_some_iff.mp hw
    obtain ⟨f, hf⟩ := List.getElem?_of_mem ho
    exact hleased (h.waiting f future l (Slots.entry_eq_some.mpr hf) hw).2

end Channel

/-! ## The scope -/

namespace DynamicFabric

/-- All leases, wherever they are. -/
def leases (s : DynamicFabric α) : List Lease :=
  s.channels.flatMap Channel.leases ++ s.grants.reservations

/-- What everybody but one stream and its clients holds. -/
def elsewhere (s : DynamicFabric α) (k : Nat) (ch : Channel α) : List Lease :=
  ch.allocation :: ((s.channels.eraseIdx k).flatMap Channel.leases ++ s.grants.reservations)

structure Inv [Target] (s : DynamicFabric α) : Prop where
  books : s.grants.Exact s.leases
  bounded : s.grants.Bounded
  founded : s.grants.Founded
  sound : ∀ (k : Nat) (ch : Channel α), s.channels[k]? = some ch → ch.Sound s.grants
  distinct : (s.channels.map fun ch => ch.stream.event).Nodup

/-- The leases after the stream at place `k` has changed. -/
theorem leases_set {s : DynamicFabric α} {k : Nat} {ch : Channel α}
    (hk : s.channels[k]? = some ch) (ch' : Channel α) :
    ((s.channels.set k ch').flatMap Channel.leases ++ s.grants.reservations).Perm
      ((ch'.stream.state.leases ++ (ch'.clients ++ ch'.waiting)) ++
        (ch'.allocation :: ((s.channels.eraseIdx k).flatMap Channel.leases ++
          s.grants.reservations))) := by
  obtain ⟨hlt, -⟩ := List.getElem?_eq_some_iff.mp hk
  have hset := (List.set_perm_cons_eraseIdx hlt ch').flatMap_right Channel.leases
  rw [List.flatMap_cons] at hset
  refine (hset.append_right _).trans ?_
  rw [List.append_assoc]
  unfold Channel.leases
  rw [List.cons_append, List.append_assoc ch'.stream.state.leases]
  exact List.perm_middle.symm

namespace Inv

variable [Target] {s : DynamicFabric α}

/-- One stream, with what everybody else holds as its base. -/
theorem balanced (h : s.Inv) {k : Nat} {ch : Channel α} (hk : s.channels[k]? = some ch) :
    ch.Balanced (fun i event r => 0 + Grants.held (s.elsewhere k ch) i event r) s.grants where
  world :=
    { books := by
        have hperm := leases_set hk ch
        rw [Slots.set_getElem? hk] at hperm
        exact Grants.Books.frame.mp (Grants.exact_perm h.books hperm)
      bounded := h.bounded
      charged := fun e he => (h.sound k ch hk).classified.holds e (Or.inl he) }
  sound := h.sound k ch hk

/-- One stream and the usage of the grants have changed. -/
theorem set (h : s.Inv) {k : Nat} {ch ch' : Channel α} {g : Grants}
    (hk : s.channels[k]? = some ch)
    (hgoes : Channel.Goes (fun i event r => 0 + Grants.held (s.elsewhere k ch) i event r)
      s.grants ch g ch') : Inv ⟨g, s.channels.set k ch'⟩ where
  books := by
    have hbooks := Grants.Books.frame.mpr hgoes.balanced.world.books
    have hperm := leases_set hk ch'
    unfold elsewhere at hbooks
    rw [← hgoes.allocation] at hbooks
    rw [← hgoes.moves.steady.reservations] at hbooks hperm
    exact Grants.exact_perm hbooks hperm.symm
  bounded := hgoes.balanced.world.bounded
  founded := h.founded.steady hgoes.moves.steady
  sound := by
    intro k' other hother
    rcases Handles.getElem?_set_cases hother with ⟨-, rfl⟩ | ⟨-, hother⟩
    · exact hgoes.balanced.sound
    · exact (h.sound k' other hother).of_authority hgoes.moves.authority
  distinct := by
    have hevent : ch'.stream.event = ch.stream.event := hgoes.moves.event
    dsimp only
    rw [List.map_set, hevent, Slots.set_getElem? (by rw [List.getElem?_map, hk]; rfl)]
    exact h.distinct

theorem onChannel (h : s.Inv) {k : Nat} {f : Channel α → Grants → Exec (Channel α × Grants)}
    (hf : ∀ base ch result, ch.Balanced base s.grants → f ch s.grants = .ok result →
      Channel.Goes base s.grants ch result.2 result.1)
    {s' : DynamicFabric α} (he : s.onChannel k f = .ok s') : s'.Inv := by
  unfold DynamicFabric.onChannel at he
  split at he
  · cases he
    exact h
  · rename_i ch hk
    obtain ⟨⟨ch', g⟩, hresult, he⟩ := bind_eq_ok.mp he
    cases he
    exact h.set hk (hf _ ch _ (h.balanced hk) hresult)

/-- Notifications, and senders that are gone. -/
theorem notify (h : s.Inv) (count : EventId → Nat) : (s.notify count).Inv where
  books := by
    have hleases : (s.notify count).leases = s.leases := by
      unfold leases DynamicFabric.notify
      rw [List.flatMap_map]
      rfl
    rw [hleases]
    exact h.books
  bounded := h.bounded
  founded := h.founded
  sound := by
    intro k ch hk
    unfold DynamicFabric.notify at hk
    rw [List.getElem?_map] at hk
    obtain ⟨ch₀, hk₀, rfl⟩ := Option.map_eq_some_iff.mp hk
    exact (h.sound k ch₀ hk₀).notified _ ch₀.senders
  distinct := by
    unfold DynamicFabric.notify
    rw [List.map_map]
    exact h.distinct

/-- The tree has changed, and every stream still knows its nodes. -/
theorem of_grants (h : s.Inv) {g : Grants}
    (hbooks : g.Exact (s.channels.flatMap Channel.leases ++ g.reservations))
    (hbounded : g.Bounded) (hfounded : g.Founded)
    (hindex : ∀ ch ∈ s.channels, ∀ l ∈ ch.leases, ∀ event index,
      (s.grants.get l.node).map (fun n => n.eventIndex event) = some (.ok index) →
        (g.get l.node).map (fun n => n.eventIndex event) = some (.ok index)) :
    Inv ⟨g, s.channels⟩ where
  books := hbooks
  bounded := hbounded
  founded := hfounded
  sound := fun k ch hk => (h.sound k ch hk).of_index (hindex ch (List.mem_of_getElem? hk))
  distinct := h.distinct

theorem live (h : s.Inv) {l : Lease} (hl : l ∈ s.channels.flatMap Channel.leases) :
    ∃ n, s.grants.get l.node = some n := by
  obtain ⟨ch, hch, hl⟩ := List.mem_flatMap.mp hl
  obtain ⟨k, hk⟩ := List.getElem?_of_mem hch
  exact (h.sound k ch hk).live h.founded.root hl

theorem createStream (h : s.Inv) (event : EventId) (delivery : Delivery)
    (config : StreamConfig) : (s.createStream event delivery config).2.Inv := by
  unfold DynamicFabric.createStream
  split
  · exact h
  · rename_i stream hcreate
    obtain ⟨hcap, -, -, rfl⟩ := Session.create_spec hcreate
    split
    · split <;> exact h
    · rename_i hfresh
      split
      · rename_i error g hcharge
        rw [Grants.charge_error hcharge]
        exact h
      · rename_i allocation g hcharge
        have hcharge : s.grants.charge Session.root none
          { Limits.zero with
            streams := 1
            retainedItems := config.capacity
            subscriptions := config.subscribers
            waiters := config.waiters } = (.ok allocation, g) := hcharge
        have hsteady := Grants.Steady.charge s.grants Session.root none
          { Limits.zero with
            streams := 1
            retainedItems := config.capacity
            subscriptions := config.subscribers
            waiters := config.waiters }
        have hbounded := h.bounded.charge Session.root none
          { Limits.zero with
            streams := 1
            retainedItems := config.capacity
            subscriptions := config.subscribers
            waiters := config.waiters }
        rw [hcharge] at hsteady hbounded
        have hbooks : g.Exact (allocation :: s.leases) := Grants.Books.charge h.books hcharge
        obtain ⟨rfl, -⟩ := Grants.charge_ok hcharge
        refine
          { books := ?_
            bounded := hbounded
            founded := h.founded.steady hsteady
            sound := ?_
            distinct := ?_ }
        · refine Grants.exact_perm hbooks ?_
          unfold leases
          rw [hsteady.reservations, List.flatMap_append, List.append_assoc]
          exact List.perm_middle.symm
        · intro k ch hk
          rcases Handles.getElem?_snoc hk with ⟨hk, -⟩ | ⟨-, rfl⟩
          · exact (h.sound k ch hk).of_authority hsteady.authority
          · refine ⟨hcap, ⟨?_, ?_, ?_⟩, ?_, rfl, Nat.zero_le _, rfl, rfl⟩
            · rintro e (he | he) <;> cases he
            · intro p prepared hp
              cases hp
            · intro r sub hr
              cases hr
            · intro f future lease hf
              cases hf
        · rw [List.map_append, List.map_cons, List.map_nil, List.nodup_append]
          refine ⟨h.distinct, List.nodup_singleton _, ?_⟩
          intro a ha b hb
          obtain ⟨ch, hch, rfl⟩ := List.mem_map.mp ha
          rw [List.mem_singleton.mp hb]
          have hne := List.find?_eq_none.mp hfresh ch hch
          exact fun heq => hne (decide_eq_true heq)

theorem delegate (h : s.Inv) (node : NodeId) (request : Request) :
    (s.delegate node request).2.Inv := by
  unfold DynamicFabric.delegate
  split
  · exact h
  · obtain ⟨hbooks, hbounded, hfounded, hgrows⟩ :=
      Grants.restrict_grows (i := node) request.perm h.bounded h.founded h.books
      fun l hl => by
        obtain ⟨n, hn⟩ := h.live hl
        exact Slots.lt_of_entry hn
    refine notify (h.of_grants hbooks hbounded hfounded ?_) _
    intro ch hch l hl event index hn
    obtain ⟨n, hget, -⟩ := Option.map_eq_some_iff.mp hn
    exact (SameAuthority.eventIndex_of (hgrows.authority l.node n hget) event).trans hn

theorem dropGrant (h : s.Inv) (node : NodeId) : (s.dropGrant node).Inv := by
  unfold DynamicFabric.dropGrant
  split
  · exact h
  · rename_i hfree
    rw [not_or, Bool.not_eq_true, List.any_eq_false] at hfree
    obtain ⟨hroot, hrefers⟩ := hfree
    obtain ⟨hbooks, hbounded, hfounded⟩ := Grants.dropNode_exact (g := s.grants) (i := node) hroot
      h.bounded h.founded h.books
    have hgone := h.of_grants hbooks hbounded hfounded (by
      intro ch hch l hl event index hn
      have hne : l.node ≠ node := by
        rintro rfl
        refine hrefers ch hch ?_
        unfold Channel.refers
        rw [Bool.or_eq_true, Bool.or_eq_true]
        exact Or.inl (Or.inl (List.any_eq_true.mpr ⟨l, hl, decide_eq_true rfl⟩))
      exact (SameAuthority.eventIndex_of (Grants.dropNode_others hne).1 event).trans hn)
    refine notify ?_ _
    exact
      { books := by
          have hleases : (DynamicFabric.mk (s.grants.dropNode node) (s.channels.map fun ch =>
              { ch with senders := ch.senders.filter fun i => i ≠ node })).leases =
              (DynamicFabric.mk (s.grants.dropNode node) s.channels).leases := by
            unfold leases
            rw [List.flatMap_map]
            rfl
          rw [hleases]
          exact hgone.books
        bounded := hgone.bounded
        founded := hgone.founded
        sound := by
          intro k ch hk
          rw [List.getElem?_map] at hk
          obtain ⟨ch₀, hk₀, rfl⟩ := Option.map_eq_some_iff.mp hk
          exact (hgone.sound k ch₀ hk₀).notified 0 _
        distinct := by
          rw [List.map_map]
          exact h.distinct }

theorem revoke (h : s.Inv) (node : NodeId) : (s.revoke node).Inv := by
  unfold DynamicFabric.revoke
  split
  · exact h
  · refine notify (h.of_grants ?_ ?_ (h.founded.revoke node) ?_) _
    · rw [Grants.reservations_revoke]
      exact Grants.Books.of_pools h.books (Grants.pool_revoke _ _)
    · exact Grants.bounded_of_pools h.bounded (Grants.pool_revoke _ _)
    · intro ch _ l _ event index hn
      exact (Grants.eventIndex_revoke _ _ _ _).trans hn

theorem step (h : s.Inv) {op : FabricOp α} {s' : DynamicFabric α} (he : s.step op = .ok s') :
    s'.Inv := by
  have hoperate : ∀ {k : Nat} {op : Op α} {t t' : DynamicFabric α},
      (∀ node, op ≠ .revoke node) → t.Inv →
        (t.onChannel k fun ch grants => ch.operate grants op) = .ok t' → t'.Inv :=
    fun hop ht he => ht.onChannel (fun _ _ _ hb hr => hb.operate hop hr) he
  cases op with
  | createStream event delivery config =>
    cases he
    exact h.createStream event delivery config
  | delegate node request =>
    cases he
    exact h.delegate node request
  | dropGrant node =>
    cases he
    exact h.dropGrant node
  | revoke node =>
    cases he
    exact h.revoke node
  | maintain order =>
    exact steps_preserves (fun _ _ _ ht hr => hoperate (by simp) ht hr) h he
  | stream k op =>
    cases op with
    | revoke node =>
      cases he
      exact h.revoke node
    | _ => exact hoperate (by simp) h he
  | send k node value =>
    refine onChannel (k := k) (f := fun ch grants => .ok (ch.send node value, grants)) h ?_ he
    intro base ch result hb hr
    cases hr
    exact hb.send node value
  | recv k r =>
    refine onChannel (k := k) (f := fun ch grants => .ok (ch.recv r, grants)) h ?_ he
    intro base ch result hb hr
    cases hr
    exact hb.recv r
  | poll k f =>
    refine onChannel (k := k) (f := fun ch grants => ch.poll grants f) h ?_ he
    intro base ch result hb hr
    exact hb.poll hr
  | cancel k f =>
    refine onChannel (k := k) (f := fun ch grants => .ok (ch.cancel grants f)) h ?_ he
    intro base ch result hb hr
    cases hr
    exact hb.cancel f

/-- A new fabric has nothing on its books. -/
theorem start {limits : Limits} (h : withLimits limits = .ok s) : s.Inv := by
  unfold withLimits at h
  obtain ⟨u, hvalid, h⟩ := except_bind_eq_ok.mp h
  cases h
  have hpool : ∀ i event p, (Lineage.root limits).grants.pool i event = some p →
      p = Pool.new limits := fun _ _ _ => Lineage.pool_root
  exact
    { books := ⟨fun i event p hp r => by
        rw [hpool i event p hp]
        simp [leases, Grants.reservations, Lineage.root, GrantNode.reservations, Pool.new]⟩
      bounded := by
        intro i event p hp r
        rw [hpool i event p hp]
        exact ⟨by simp [Pool.new], Limits.validate_ok hvalid r⟩
      founded :=
        { root := ⟨_, rfl⟩
          reserved := by
            intro i n hn l hl
            obtain ⟨-, rfl⟩ := Lineage.get_root hn
            cases hl }
      sound := by
        intro k ch hk
        cases hk
      distinct := List.nodup_nil }

theorem run {limits : Limits} {s₀ : DynamicFabric α} (h₀ : withLimits limits = .ok s₀)
    {ops : List (FabricOp α)} (h : s₀.run ops = .ok s) : s.Inv :=
  steps_preserves (fun _ _ _ hs he => hs.step he) (start h₀) h

end Inv

end DynamicFabric

/-! ## Counting -/

/-- Leases of one kind hold their usage at each of their nodes. -/
theorem held_leased {usage : StreamLimits} {g : Grants} {event : EventId} {leases : List Lease}
    (h : ∀ l ∈ leases, Leased usage g event l) {i : NodeId} {index : Nat}
    (hn : (g.get i).map (fun n => n.eventIndex event) = some (.ok index)) (r : Resource) :
    Grants.held leases i (some index) r =
      leases.countP (fun l => l.node = i) * usage.asLimits.get r := by
  induction leases with
  | nil => simp
  | cons l rest ih =>
    obtain ⟨husage, index', hindex, hl⟩ := h l List.mem_cons_self
    rw [Grants.held_cons, ih fun m hm => h m (List.mem_cons_of_mem l hm), List.countP_cons]
    by_cases hnode : l.node = i
    · rw [hnode, hn] at hl
      cases hl
      rw [if_pos ⟨hnode, hindex⟩, if_pos (decide_eq_true hnode), husage, Nat.succ_mul]
      omega
    · rw [if_neg fun hboth => hnode hboth.1, if_neg (by simpa using hnode), Nat.zero_add,
        Nat.add_zero]

/-- Leases of one event hold nothing in the pool of another. -/
theorem held_other {usage : StreamLimits} {g : Grants} {event event' : EventId}
    {leases : List Lease} (h : ∀ l ∈ leases, Leased usage g event' l) (hne : event' ≠ event)
    {i : NodeId} {index : Nat}
    (hn : (g.get i).map (fun n => n.eventIndex event) = some (.ok index)) (r : Resource) :
    Grants.held leases i (some index) r = 0 := by
  unfold Grants.held
  rw [List.filter_eq_nil_iff.mpr]
  · rfl
  · intro l hl hmem
    obtain ⟨hnode, hevent⟩ : l.node = i ∧ l.event = some index := by simpa using hmem
    obtain ⟨-, index', hindex, hl'⟩ := h l hl
    rw [hevent] at hindex
    cases hindex
    rw [hnode] at hl'
    obtain ⟨n, hget, hok⟩ := Option.map_eq_some_iff.mp hn
    rw [hget, Option.map_some, Option.some.injEq] at hl'
    obtain ⟨permissions, entry, hpermissions, hentry, hname⟩ := n.eventIndex_sound hok
    obtain ⟨permissions', entry', hpermissions', hentry', hname'⟩ := n.eventIndex_sound hl'
    rw [hpermissions] at hpermissions'
    cases hpermissions'
    rw [hentry] at hentry'
    cases hentry'
    exact hne (hname'.symm.trans hname)

namespace Channel

/-- The entries that a node was charged for. -/
def entriesOf (ch : Channel α) (i : NodeId) : Nat :=
  ch.stream.state.entries.countP fun e => e.lease.node = i

/-- One, if the retired slot is charged to the node. -/
def retiredOf (ch : Channel α) (i : NodeId) : Nat :=
  if ch.stream.state.retired.any fun e => e.lease.node = i then 1 else 0

/-- The live preparations of a node. -/
def preparationsOf (ch : Channel α) (i : NodeId) : Nat :=
  ch.preparations.countP fun o => o.any fun prepared => prepared.node = i

/-- The live receivers of a node. -/
def receiversOf (ch : Channel α) (i : NodeId) : Nat :=
  ch.subscriptions.countP fun sub => !sub.dropped && sub.node = i

/-- The pending futures of a node that wait. -/
def waitersOf (ch : Channel α) (i : NodeId) : Nat :=
  ch.futures.countP fun o => o.any fun future =>
    future.waiter.isSome && ch.nodeOf future.work = some i

/-- All pending futures that wait. -/
def pending (ch : Channel α) : Nat :=
  ch.futures.countP fun o => o.any fun future => future.waiter.isSome

theorem countP_filterMap {β γ : Type} {l : List β} {f : β → Option γ} {q : γ → Bool}
    {p : β → Bool} (hp : ∀ b ∈ l, (f b).any q = p b) : (l.filterMap f).countP q = l.countP p := by
  rw [List.countP_filterMap]
  refine List.countP_congr fun b hb => ?_
  rw [← hp b hb]
  cases f b <;> simp

variable {g : Grants} {ch : Channel α} {i : NodeId} {index : Nat}

/-- What the entries and the retired slot hold. -/
theorem held_state (h : ch.Sound g)
    (hn : (g.get i).map (fun n => n.eventIndex ch.stream.event) = some (.ok index))
    (r : Resource) : Grants.held ch.stream.state.leases i (some index) r =
      (ch.entriesOf i + ch.retiredOf i) * World.retainedItem.asLimits.get r := by
  have hcharged : ∀ l ∈ ch.stream.state.leases,
      Leased World.retainedItem g ch.stream.event l := by
    intro l hl
    rcases List.mem_append.mp hl with hl | hl
    · obtain ⟨e, he, rfl⟩ := List.mem_map.mp hl
      exact h.classified.holds e (Or.inl he)
    · obtain ⟨e, he, rfl⟩ := List.mem_map.mp hl
      exact h.classified.holds e (Or.inr (Option.mem_toList.mp he))
  rw [held_leased hcharged hn]
  congr 1
  unfold State.leases entriesOf retiredOf
  rw [List.countP_append, List.countP_map, List.countP_map]
  congr 1
  cases ch.stream.state.retired with
  | none => rfl
  | some e => simp [List.countP_cons]

/-- What the preparations and the receivers hold. -/
theorem held_clients (h : ch.Sound g)
    (hn : (g.get i).map (fun n => n.eventIndex ch.stream.event) = some (.ok index))
    (r : Resource) : Grants.held ch.clients i (some index) r =
      ch.preparationsOf i * World.retainedItem.asLimits.get r +
        ch.receiversOf i * oneSubscription.asLimits.get r := by
  have hprepared : ∀ o ∈ ch.preparations, ∀ prepared : Prepared α, o = some prepared →
      prepared.lease.node = prepared.node ∧ Charged g ch.stream.event prepared.lease := by
    rintro o ho prepared rfl
    obtain ⟨p, hp⟩ := List.getElem?_of_mem ho
    exact h.classified.prepared p prepared (Slots.entry_eq_some.mpr hp)
  have hreceiver : ∀ sub ∈ ch.subscriptions, sub.dropped = false → sub.lease.node = sub.node ∧
      Leased oneSubscription g ch.stream.event sub.lease := by
    intro sub hsub hd
    obtain ⟨r, hr⟩ := List.getElem?_of_mem hsub
    exact h.classified.receivers r sub hr hd
  unfold clients
  rw [Grants.held_append, held_leased ?_ hn,
    held_leased ?_ hn]
  · congr 2
    · refine countP_filterMap fun o ho => ?_
      cases o with
      | none => rfl
      | some prepared => simp [(hprepared _ ho prepared rfl).1]
    · refine countP_filterMap fun sub hsub => ?_
      cases hd : sub.dropped with
      | true => simp
      | false => simp [(hreceiver sub hsub hd).1]
  · intro l hl
    obtain ⟨sub, hsub, hl⟩ := List.mem_filterMap.mp hl
    cases hd : sub.dropped with
    | true =>
      rw [hd] at hl
      cases hl
    | false =>
      rw [hd] at hl
      cases hl
      exact (hreceiver sub hsub hd).2
  · intro l hl
    obtain ⟨o, ho, hl⟩ := List.mem_filterMap.mp hl
    obtain ⟨prepared, rfl, rfl⟩ := Option.map_eq_some_iff.mp hl
    exact (hprepared _ ho prepared rfl).2

/-- What the waiting futures hold. -/
theorem held_waiting (h : ch.Sound g)
    (hn : (g.get i).map (fun n => n.eventIndex ch.stream.event) = some (.ok index))
    (r : Resource) : Grants.held ch.waiting i (some index) r =
      ch.waitersOf i * oneWaiter.asLimits.get r := by
  have hwaiter : ∀ o ∈ ch.futures, ∀ (future : Future α) (lease : Lease), o = some future →
      future.waiter = some lease → ch.nodeOf future.work = some lease.node ∧
        Leased oneWaiter g ch.stream.event lease := by
    rintro o ho future lease rfl hw
    obtain ⟨f, hf⟩ := List.getElem?_of_mem ho
    exact h.waiting f future lease (Slots.entry_eq_some.mpr hf) hw
  unfold waiting
  rw [held_leased ?_ hn]
  · congr 1
    refine countP_filterMap fun o ho => ?_
    cases o with
    | none => rfl
    | some future =>
      cases hw : future.waiter with
      | none => simp [hw]
      | some lease => simp [hw, (hwaiter _ ho future lease rfl hw).1]
  · intro l hl
    obtain ⟨o, ho, hl⟩ := List.mem_filterMap.mp hl
    obtain ⟨future, rfl, hw⟩ := Option.bind_eq_some_iff.mp hl
    exact (hwaiter _ ho future l rfl hw).2

/-- The leases of a stream hold nothing of another event. -/
theorem held_leases_other (h : ch.Sound g) {event : EventId} (hne : ch.stream.event ≠ event)
    (hn : (g.get i).map (fun n => n.eventIndex event) = some (.ok index)) (r : Resource) :
    Grants.held ch.leases i (some index) r = 0 := by
  have hnone : ∀ l ∈ ch.leases, ¬(l.node = i ∧ l.event = some index) := by
    intro l hl hboth
    have hleased : ∀ {usage : StreamLimits}, Leased usage g ch.stream.event l → False := by
      intro usage hleased
      have hone : ∀ m ∈ [(⟨l.node, (⟨1, 1, 1⟩ : StreamLimits).asLimits, l.event⟩ : Lease)],
          Leased ⟨1, 1, 1⟩ g ch.stream.event m := by
        intro m hm
        rw [List.mem_singleton.mp hm]
        exact ⟨rfl, hleased.2⟩
      have hzero := held_other hone hne hn .waiters
      rw [Grants.held_cons, if_pos hboth] at hzero
      cases hzero
    unfold leases at hl
    rw [List.mem_cons, List.mem_append, List.mem_append] at hl
    rcases hl with rfl | (hl | hl) | hl
    · rw [h.allocation.1] at hboth
      cases hboth.2
    · rcases List.mem_append.mp hl with hl | hl
      · obtain ⟨e, he, rfl⟩ := List.mem_map.mp hl
        exact hleased (h.classified.holds e (Or.inl he))
      · obtain ⟨e, he, rfl⟩ := List.mem_map.mp hl
        exact hleased (h.classified.holds e (Or.inr (Option.mem_toList.mp he)))
    · rcases List.mem_append.mp hl with hl | hl
      · obtain ⟨o, ho, hl⟩ := List.mem_filterMap.mp hl
        obtain ⟨prepared, rfl, rfl⟩ := Option.map_eq_some_iff.mp hl
        obtain ⟨p, hp⟩ := List.getElem?_of_mem ho
        exact hleased (h.classified.prepared p prepared (Slots.entry_eq_some.mpr hp)).2
      · obtain ⟨sub, hsub, hl⟩ := List.mem_filterMap.mp hl
        obtain ⟨r, hr⟩ := List.getElem?_of_mem hsub
        cases hd : sub.dropped with
        | true =>
          rw [hd] at hl
          cases hl
        | false =>
          rw [hd] at hl
          cases hl
          exact hleased (h.classified.receivers r sub hr hd).2
    · obtain ⟨o, ho, hl⟩ := List.mem_filterMap.mp hl
      obtain ⟨future, rfl, hw⟩ := Option.bind_eq_some_iff.mp hl
      obtain ⟨f, hf⟩ := List.getElem?_of_mem ho
      exact hleased (h.waiting f future l (Slots.entry_eq_some.mpr hf) hw).2
  unfold Grants.held
  rw [List.filter_eq_nil_iff.mpr fun l hl => by simpa using hnone l hl]
  rfl

theorem held_leases (h : ch.Sound g)
    (hn : (g.get i).map (fun n => n.eventIndex ch.stream.event) = some (.ok index))
    (r : Resource) : Grants.held ch.leases i (some index) r =
      (ch.entriesOf i + ch.retiredOf i + ch.preparationsOf i) *
          World.retainedItem.asLimits.get r +
        ch.receiversOf i * oneSubscription.asLimits.get r +
        ch.waitersOf i * oneWaiter.asLimits.get r := by
  have hgeneric : ¬(ch.allocation.node = i ∧ ch.allocation.event = some index) := by
    rw [h.allocation.1]
    exact fun hboth => by cases hboth.2
  unfold leases
  rw [Grants.held_cons, if_neg hgeneric, Nat.zero_add, Grants.held_append, Grants.held_append,
    held_state h hn, held_clients h hn, held_waiting h hn]
  ring

end Channel

/-! ## The pools of one event -/

/-- What the live children of a node have reserved in one of its event pools. -/
def reserved (g : Grants) (i : NodeId) (index : Nat) (r : Resource) : Nat :=
  Grants.held g.reservations i (some index) r

namespace DynamicFabric

/-- A count over the stream of an event; no stream counts nothing. -/
def count (s : DynamicFabric α) (event : EventId) (f : Channel α → Nat) : Nat :=
  (s.channels.find? fun ch => ch.stream.event = event).elim 0 f

/-- Of streams with different events only the one of the event counts. -/
theorem sum_eq_find {channels : List (Channel α)} {event : EventId} {f F : Channel α → Nat}
    (hdistinct : (channels.map fun ch => ch.stream.event).Nodup)
    (hF : ∀ ch ∈ channels, F ch = if ch.stream.event = event then f ch else 0) :
    (channels.map F).sum = (channels.find? fun ch => ch.stream.event = event).elim 0 f := by
  induction channels with
  | nil => rfl
  | cons ch rest ih =>
    rw [List.map_cons, List.nodup_cons] at hdistinct
    rw [List.map_cons, List.sum_cons, hF ch List.mem_cons_self, List.find?_cons]
    by_cases hevent : ch.stream.event = event
    · have hzero : ∀ n ∈ rest.map F, n = 0 := by
        intro n hn
        obtain ⟨other, hother, rfl⟩ := List.mem_map.mp hn
        rw [hF other (List.mem_cons_of_mem ch hother), if_neg]
        rintro rfl
        exact hdistinct.1 (hevent ▸ List.mem_map_of_mem hother)
      rw [if_pos hevent, decide_eq_true hevent, List.sum_eq_zero hzero]
      rfl
    · rw [if_neg hevent, decide_eq_false hevent, Nat.zero_add]
      exact ih hdistinct.2 fun other hother => hF other (List.mem_cons_of_mem ch hother)

/-- Where the credits of every event pool are, and those of every stream's waiters. -/
structure Credits (s : DynamicFabric α) : Prop where
  retained : ∀ i event index p,
    (s.grants.get i).map (fun n => n.eventIndex event) = some (.ok index) →
      s.grants.pool i (some index) = some p →
        p.usage.retainedItems =
          s.count event (fun ch => ch.entriesOf i + ch.retiredOf i + ch.preparationsOf i) +
            reserved s.grants i index .retainedItems
  subscriptions : ∀ i event index p,
    (s.grants.get i).map (fun n => n.eventIndex event) = some (.ok index) →
      s.grants.pool i (some index) = some p →
        p.usage.subscriptions =
          s.count event (fun ch => ch.receiversOf i) + reserved s.grants i index .subscriptions
  waiters : ∀ i event index p,
    (s.grants.get i).map (fun n => n.eventIndex event) = some (.ok index) →
      s.grants.pool i (some index) = some p →
        p.usage.waiters =
          s.count event (fun ch => ch.waitersOf i) + reserved s.grants i index .waiters
  pending : ∀ (k : Nat) (ch : Channel α), s.channels[k]? = some ch →
    ch.waiters = ch.pending ∧ ch.pending ≤ ch.stream.config.waiters

/-- The usage of an event pool, resource by resource. -/
theorem Inv.usage [Target] {s : DynamicFabric α} (h : s.Inv) {i : NodeId} {event : EventId}
    {index : Nat} {p : Pool}
    (hn : (s.grants.get i).map (fun n => n.eventIndex event) = some (.ok index))
    (hp : s.grants.pool i (some index) = some p) (r : Resource) :
    p.usage.get r = s.count event (fun ch =>
        (ch.entriesOf i + ch.retiredOf i + ch.preparationsOf i) *
            World.retainedItem.asLimits.get r +
          ch.receiversOf i * oneSubscription.asLimits.get r +
          ch.waitersOf i * oneWaiter.asLimits.get r) + reserved s.grants i index r := by
  have hflat : ∀ channels : List (Channel α),
      Grants.held (channels.flatMap Channel.leases) i (some index) r =
        (channels.map fun ch => Grants.held ch.leases i (some index) r).sum := by
    intro channels
    induction channels with
    | nil => rfl
    | cons ch rest ih => rw [List.flatMap_cons, Grants.held_append, ih, List.map_cons, List.sum_cons]
  rw [h.books.usage i (some index) p hp r, Nat.zero_add, leases, Grants.held_append, hflat]
  congr 1
  refine sum_eq_find h.distinct fun ch hch => ?_
  obtain ⟨k, hk⟩ := List.getElem?_of_mem hch
  split
  · rename_i hevent
    rw [← hevent] at hn
    exact Channel.held_leases (h.sound k ch hk) hn r
  · rename_i hevent
    exact Channel.held_leases_other (h.sound k ch hk) hevent hn r

/-- In every run of a fabric each credit is where the code says it is. -/
theorem run_credits [Target] {limits : Limits} {s₀ s : DynamicFabric α}
    (h₀ : withLimits limits = .ok s₀) {ops : List (FabricOp α)} (h : s₀.run ops = .ok s) :
    s.Credits := by
  have hinv := Inv.run h₀ h
  refine ⟨fun i event index p hn hp => ?_, fun i event index p hn hp => ?_,
    fun i event index p hn hp => ?_, fun k ch hk => ?_⟩
  · have hu := hinv.usage hn hp .retainedItems
    simpa [StreamLimits.asLimits, StreamLimits.zero, Limits.zero, Limits.get] using hu
  · have hu := hinv.usage hn hp .subscriptions
    simpa [StreamLimits.asLimits, StreamLimits.zero, Limits.zero, Limits.get] using hu
  · have hu := hinv.usage hn hp .waiters
    simpa [StreamLimits.asLimits, StreamLimits.zero, Limits.zero, Limits.get] using hu
  · have hsound := hinv.sound k ch hk
    have hlen : ch.waiting.length = ch.pending := by
      unfold Channel.waiting Channel.pending
      rw [List.length_filterMap_eq_countP]
      refine List.countP_congr fun o _ => ?_
      cases o <;> simp
    rw [← hlen]
    exact ⟨hsound.waiters, hsound.waiters ▸ hsound.limit⟩

/-- The second of two values waits for the required receiver of a stream of one item. -/
def stalledSend : List (FabricOp Nat) :=
  [.createStream ⟨1⟩ .ordered ⟨1, 1, 1⟩,
    .delegate 0 ⟨[⟨⟨1⟩, ⟨7⟩, ⟨1, 1, 1⟩⟩], [⟨⟨1⟩, ⟨7⟩, ⟨1, 1, 1⟩⟩],
      { Limits.zero with streams := 1, retainedItems := 1, subscriptions := 1, waiters := 1 },
      .refl _, by simp [Ordered]⟩,
    .stream 0 (.sender 1), .stream 0 (.subscribe 1 .required), .send 0 1 7, .send 0 1 8,
    .poll 0 0, .poll 0 1]

theorem run_credits_stalled :
    let _ := Target.x64
    ∃ s₀ s : DynamicFabric Nat, withLimits Limits.default = .ok s₀ ∧
      s₀.run stalledSend = .ok s ∧
        s.channels.map (fun ch => (ch.pending, ch.entriesOf 1)) = [(1, 1)] ∧ s.Credits := by
  intro _
  have h₀ : (withLimits Limits.default : Except TopicError (DynamicFabric Nat)) =
      .ok ⟨(Lineage.root Limits.default).grants, []⟩ := by
    have hvalid : Limits.default.validate = .ok () := if_neg (by decide)
    simp only [withLimits, hvalid]
    rfl
  obtain ⟨s, hs, htest⟩ : ∃ s, DynamicFabric.run ⟨(Lineage.root Limits.default).grants, []⟩
      stalledSend = .ok s ∧
        (s.channels.map (fun ch => (ch.pending, ch.entriesOf 1)) == [(1, 1)]) = true :=
    Exec.of_any (by decide +kernel)
  exact ⟨_, s, h₀, hs, eq_of_beq htest, run_credits h₀ hs⟩

end DynamicFabric

end Hiway.Fabric
