import Hiway.Grant.Restrict

/-!
# What operations on streams leave alone

Charges, releases and registrations make and drop no node. Each node keeps its authority,
what it has reserved at its parent, and the streams it is registered for.

* `charge`, `release`, `registerStream`: the operations that keep a tree steady.
* `usageOf_release_of_silent`: a release notifies the registered nodes, or frees nothing of
  that event at them.
* `exhausted_iff`, `Exhausted.mono`: when a node is exhausted, and that it stays so while
  its usage does not fall.
-/

namespace Hiway

open Target

/-- What a node holds of its parent. -/
def GrantNode.reservations (n : GrantNode) : List Lease :=
  n.parentReservation.toList ++ n.eventReservations

theorem GrantNode.reservations_modifyUsage (n : GrantNode) (event : Option Nat)
    (f : Limits → Limits) : (n.modifyUsage event f).reservations = n.reservations := by
  cases event <;> rfl

theorem GrantNode.streams_modifyUsage (n : GrantNode) (event : Option Nat)
    (f : Limits → Limits) : (n.modifyUsage event f).streams = n.streams := by
  cases event <;> rfl

/-- The index of an event names an entry for that event. -/
theorem GrantNode.eventIndex_sound (n : GrantNode) {event : EventId} {index : Nat}
    (h : n.eventIndex event = .ok index) : ∃ permissions entry, n.permissions = some permissions ∧
      permissions[index]? = some entry ∧ entry.permission.event = event := by
  unfold eventIndex at h
  split at h
  · cases h
  · rename_i permissions hpermissions
    split at h
    · cases h
    · rename_i hk
      cases h
      obtain ⟨entry, hentry, hkey⟩ := Search.binarySearch_sound hk
      exact ⟨permissions, entry, hpermissions, hentry, EventId.asU128_inj.mp hkey⟩

namespace Grants

/-- The node is registered for the notifications of a stream. -/
def Registered (g : Grants) (i : NodeId) (event : EventId) : Prop :=
  ∃ n, g.get i = some n ∧ event ∈ n.streams

/-- What the live nodes hold of their parents. -/
def reservations (g : Grants) : List Lease :=
  g.nodes.flatMap fun o => o.elim [] GrantNode.reservations

/-- The same nodes, with nothing but usage and new registrations changed. -/
structure Steady (g g' : Grants) : Prop where
  authority : SameAuthority g g'
  nodes : g'.nodes.map (Option.map GrantNode.reservations) =
    g.nodes.map (Option.map GrantNode.reservations)
  registered : ∀ i event, g.Registered i event → g'.Registered i event

namespace Steady

variable {g g' g'' : Grants}

theorem refl (g : Grants) : Steady g g := ⟨SameAuthority.refl g, rfl, fun _ _ h => h⟩

theorem trans (h : Steady g g') (h' : Steady g' g'') : Steady g g'' where
  authority := h.authority.trans h'.authority
  nodes := h'.nodes.trans h.nodes
  registered := fun i event hr => h'.registered i event (h.registered i event hr)

theorem length (h : Steady g g') : g'.nodes.length = g.nodes.length := by
  have hl := congrArg List.length h.nodes
  simpa using hl

theorem reservations (h : Steady g g') : g'.reservations = g.reservations := by
  have hflat : ∀ g : Grants, g.reservations =
      (g.nodes.map (Option.map GrantNode.reservations)).flatMap fun o => o.elim [] id := by
    intro g
    rw [List.flatMap_map]
    refine List.flatMap_congr fun o _ => ?_
    cases o <;> rfl
  rw [hflat, hflat, h.nodes]

/-- A node keeps its own reservations. -/
theorem get (h : Steady g g') (i : NodeId) :
    (g'.get i).map GrantNode.reservations = (g.get i).map GrantNode.reservations := by
  have hi := congrArg (fun l => Slots.entry l i) h.nodes
  simp only [Slots.entry_map] at hi
  exact hi

theorem modify (g : Grants) (i : NodeId) {f : GrantNode → GrantNode}
    (ha : ∀ n, (f n).authority = n.authority) (hr : ∀ n, (f n).reservations = n.reservations)
    (hs : ∀ n, n.streams ⊆ (f n).streams) : Steady g (g.modify i f) where
  authority := SameAuthority.modify g i ha
  nodes := by
    unfold Grants.modify
    refine List.ext_getElem? fun k => ?_
    rw [List.getElem?_map, List.getElem?_map, List.getElem?_modify]
    cases g.nodes[k]? with
    | none => simp
    | some o => by_cases hk : i = k <;> cases o <;> simp [hk, hr]
  registered := by
    rintro j event ⟨n, hn, hmem⟩
    unfold Registered
    rw [get_modify, hn]
    split
    · exact ⟨f n, rfl, hs n hmem⟩
    · exact ⟨n, rfl, hmem⟩

theorem modifyUsage (g : Grants) (i : NodeId) (event : Option Nat) (f : Limits → Limits) :
    Steady g (g.modify i fun n => n.modifyUsage event f) :=
  modify g i (fun n => n.authority_modifyUsage _ _) (fun n => n.reservations_modifyUsage _ _)
    fun n => by rw [n.streams_modifyUsage]; exact fun _ h => h

theorem release (g : Grants) (lease : Lease) : Steady g (g.release lease) :=
  modifyUsage g lease.node lease.event _

theorem charge [Target] (g : Grants) (i : NodeId) (event : Option Nat) (usage : Limits) :
    Steady g (g.charge i event usage).2 := by
  unfold Grants.charge
  split
  · exact refl g
  · split
    · exact refl g
    · split
      · exact refl g
      · exact modifyUsage g i event _

theorem tryChargeStream [Target] (g : Grants) (i : NodeId) (event : EventId)
    (usage : StreamLimits) : Steady g (g.tryChargeStream i event usage).2 := by
  unfold Grants.tryChargeStream
  split
  · exact refl g
  · split
    · exact refl g
    · exact charge g i _ _

theorem registerStream (g : Grants) (i : NodeId) (event : EventId) :
    Steady g (g.registerStream i event).2 := by
  unfold Grants.registerStream
  split
  · exact refl g
  · split
    · exact refl g
    · split
      · exact refl g
      · split
        · exact refl g
        · exact modify g i (fun _ => rfl) (fun _ => rfl)
            fun n => List.subset_append_left n.streams [event]

end Steady

/-- A registration that succeeds registers the node. -/
theorem registered_of_registerStream {g g' : Grants} {i : NodeId} {event : EventId}
    (h : g.registerStream i event = (.ok (), g')) : g'.Registered i event := by
  unfold registerStream at h
  split at h
  · cases h
  · split at h
    · cases h
    · rename_i n hn
      split at h
      · rename_i hmem
        cases h
        exact ⟨n, hn, by simpa using hmem⟩
      · split at h
        · cases h
        · cases h
          unfold Registered
          rw [get_modify, if_pos rfl, hn]
          exact ⟨_, rfl, by simp⟩

/-! ## Usage -/

/-- A charge takes nothing away. -/
theorem usageOf_le_charge [Target] (g : Grants) (i : NodeId) (event : Option Nat) (usage : Limits)
    (j : NodeId) (event' : Option Nat) (r : Resource) :
    g.usageOf j event' r ≤ (g.charge i event usage).2.usageOf j event' r := by
  cases hc : g.charge i event usage with
  | mk result g' =>
    cases result with
    | error error => rw [charge_error hc]
    | ok lease =>
      obtain ⟨-, -, p, total, hp, htotal, rfl⟩ := charge_ok hc
      simp only [usageOf, pool_modifyUsage]
      split
      · rename_i h
        obtain ⟨rfl, rfl⟩ := h
        rw [hp, Option.map_some, Option.elim_some, Option.elim_some,
          (chargePool_eq_some.mp htotal).2 r]
        exact Nat.le_add_right _ _
      · exact le_refl _

theorem usageOf_le_tryChargeStream [Target] (g : Grants) (i : NodeId) (event : EventId)
    (usage : StreamLimits) (j : NodeId) (event' : Option Nat) (r : Resource) :
    g.usageOf j event' r ≤ (g.tryChargeStream i event usage).2.usageOf j event' r := by
  unfold tryChargeStream
  split
  · exact le_refl _
  · split
    · exact le_refl _
    · exact usageOf_le_charge g i _ _ j event' r

/-- A release takes away from one pool only, and only what it held. -/
theorem usageOf_release (g : Grants) (lease : Lease) {j : NodeId} {event : Option Nat}
    {r : Resource} (h : lease.node = j → lease.event = event → lease.usage.get r = 0) :
    (g.release lease).usageOf j event r = g.usageOf j event r := by
  simp only [usageOf, pool_release]
  split
  · rename_i hl
    cases g.pool j event with
    | none => rfl
    | some p => simp [h hl.1 hl.2]
  · rfl

theorem usageOf_registerStream (g : Grants) (i : NodeId) (stream : EventId) (j : NodeId)
    (event : Option Nat) (r : Resource) :
    (g.registerStream i stream).2.usageOf j event r = g.usageOf j event r := by
  simp only [usageOf, pool_registerStream]

/-- The release of a lease of an event notifies the registered nodes, or frees nothing of
that event at them. -/
theorem usageOf_release_of_silent {g : Grants} {lease : Lease} {i : NodeId} {event : EventId}
    {index : Nat} (hreg : g.Registered i event)
    (hn : (g.get i).map (fun n => n.eventIndex event) = some (.ok index))
    (hsilent : g.releaseNotifies lease event = false) (r : Resource) :
    (g.release lease).usageOf i (some index) r = g.usageOf i (some index) r := by
  refine usageOf_release g lease fun hnode hevent => ?_
  obtain ⟨n, hget, hmem⟩ := hreg
  rw [hget, Option.map_some, Option.some.injEq] at hn
  obtain ⟨permissions, entry, hpermissions, hentry, hname⟩ := n.eventIndex_sound hn
  unfold releaseNotifies at hsilent
  rw [hnode, hevent, hget] at hsilent
  dsimp only at hsilent
  rw [hpermissions, Option.bind_some, hentry, Option.any_some, decide_eq_true hname,
    Bool.and_true, List.contains_iff_mem.mpr hmem, Bool.and_true] at hsilent
  have hzero := List.any_eq_false.mp hsilent r (Resource.mem_all r)
  simpa using hzero

/-! ## Exhausted pools -/

/-- The allowance of a node for an event has no room for one more retained item. -/
def Exhausted [Target] (g : Grants) (i : NodeId) (event : EventId) : Prop :=
  (g.tryChargeStream i event { StreamLimits.zero with retainedItems := 1 }).1 = .error .capacity

theorem chargePool_retainedItem [Target] {pool : Pool} :
    chargePool pool
        ({ StreamLimits.zero with retainedItems := 1 } : StreamLimits).asLimits = none ↔
      ¬(pool.usage.retainedItems + 1 ≤ usizeMax ∧
        pool.usage.retainedItems + 1 ≤ pool.limits.retainedItems) := by
  constructor
  · intro hnone hroom
    have hsome : chargePool pool ({ StreamLimits.zero with retainedItems := 1 } :
        StreamLimits).asLimits = some (Limits.ofValues fun r => pool.usage.get r +
          ({ StreamLimits.zero with retainedItems := 1 } : StreamLimits).asLimits.get r) := by
      refine chargePool_eq_some.mpr ⟨fun r => ?_, fun r => by simp⟩
      cases r with
      | retainedItems => exact Or.inr hroom
      | _ => exact Or.inl rfl
    rw [hnone] at hsome
    cases hsome
  · intro hfull
    cases hc : chargePool pool
        ({ StreamLimits.zero with retainedItems := 1 } : StreamLimits).asLimits with
    | none => rfl
    | some total =>
      rcases (chargePool_eq_some.mp hc).1 .retainedItems with hzero | hroom
      · cases hzero
      · exact absurd hroom hfull

/-- When a node is exhausted. -/
theorem exhausted_iff [Target] {g : Grants} {i : NodeId} {event : EventId} :
    g.Exhausted i event ↔ g.isRevoked i = false ∧ ∃ index p,
      (g.get i).map (fun n => n.eventIndex event) = some (.ok index) ∧
      g.pool i (some index) = some p ∧
      ¬(p.usage.retainedItems + 1 ≤ usizeMax ∧
        p.usage.retainedItems + 1 ≤ p.limits.retainedItems) := by
  constructor
  · intro h
    unfold Exhausted tryChargeStream at h
    split at h
    · cases h
    · rename_i n hn
      split at h
      · rename_i error hindex
        -- an event that the node does not list is denied
        unfold GrantNode.eventIndex at hindex
        split at hindex
        · cases hindex
          cases h
        · split at hindex
          · cases hindex
            cases h
          · cases hindex
      · rename_i index hindex
        have hn' : (g.get i).map (fun n => n.eventIndex event) = some (.ok index) := by
          rw [hn, Option.map_some, hindex]
        obtain ⟨p, hp⟩ := pool_of_eventIndex hn'
        unfold charge at h
        split at h
        · cases h
        · rename_i hr
          have hp' : ((g.get i).bind fun n => n.getPool (some index)) = some p := hp
          rw [hp'] at h
          dsimp only at h
          split at h
          · rename_i hnone
            exact ⟨by simpa using hr, index, p, hn', hp, chargePool_retainedItem.mp hnone⟩
          · cases h
  · rintro ⟨hr, index, p, hn, hp, hfull⟩
    rcases tryChargeStream_or hr hn hp with
      ⟨g', hc⟩ | hc
    · obtain ⟨n, hget⟩ : ∃ n, g.get i = some n := by
        cases hget : g.get i with
        | none =>
          rw [hget] at hn
          cases hn
        | some n => exact ⟨n, rfl⟩
      rw [hget, Option.map_some, Option.some.injEq] at hn
      unfold tryChargeStream at hc
      rw [hget] at hc
      dsimp only at hc
      rw [hn] at hc
      obtain ⟨-, -, p', total, hp', htotal, -⟩ := charge_ok hc
      rw [hp] at hp'
      cases hp'
      rw [chargePool_retainedItem.mpr hfull] at htotal
      cases htotal
    · unfold Exhausted
      rw [hc]

/-- An exhausted node stays exhausted while its usage does not fall. -/
theorem Exhausted.mono [Target] {g g' : Grants} {i : NodeId} {event : EventId}
    (h : g.Exhausted i event) (hr : g'.isRevoked i = g.isRevoked i)
    (ha : (g'.get i).map GrantNode.authority = (g.get i).map GrantNode.authority)
    (hle : ∀ index, (g.get i).map (fun n => n.eventIndex event) = some (.ok index) →
      g.usageOf i (some index) .retainedItems ≤ g'.usageOf i (some index) .retainedItems) :
    g'.Exhausted i event := by
  obtain ⟨hrevoked, index, p, hn, hp, hfull⟩ := exhausted_iff.mp h
  have hn' := (SameAuthority.eventIndex_of ha event).trans hn
  obtain ⟨p', hp'⟩ := pool_of_eventIndex hn'
  refine exhausted_iff.mpr ⟨hr.trans hrevoked, index, p', hn', hp', ?_⟩
  have hlimits : p'.limits = p.limits := by
    have hl := SameAuthority.limits_of ha (some index)
    have heq : (g'.pool i (some index)).map Pool.limits =
        (g.pool i (some index)).map Pool.limits := by
      simp only [pool, Option.map_bind]
      exact hl
    rw [hp, hp'] at heq
    exact Option.some.inj heq
  have husage := hle index hn
  simp only [usageOf, hp, hp', Option.elim_some] at husage
  have husage : p.usage.retainedItems ≤ p'.usage.retainedItems := husage
  rw [hlimits]
  omega

end Grants

end Hiway
