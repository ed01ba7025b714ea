import Hiway.Grant.Tree

/-!
# Authority

What decides whether a node may act: its ancestors, its permissions, the revoked bits
and the count of operations. Charges, releases and registrations change none of it, and
a revocation only takes authority away.

* `check_eq`, `enter_eq`: what keeps the authority of every node keeps the answers of its
  checks.
* `isRevoked_revoke`: revocation is never undone.
* `check_of_enter`, `not_revoked_of_enter`: an operation that enters was checked, on a node
  that is not revoked.
-/

namespace Hiway

open Target

/-- The part of a node that is not spent: what admission depends on, and the limits of
its pools. -/
structure Authority where
  parent : Option NodeId
  permissions : Option (List (Permission × Limits))
  limits : Limits
  generic : Limits
  revoked : Bool
  active : Nat
  deriving DecidableEq, Repr

def GrantNode.authority (n : GrantNode) : Authority where
  parent := n.parent
  permissions := n.permissions.map fun permissions =>
    permissions.map fun entry => (entry.permission, entry.pool.limits)
  limits := n.limits
  generic := n.pool.limits
  revoked := n.revoked
  active := n.active

theorem GrantNode.authority_modifyUsage (n : GrantNode) (event : Option Nat)
    (f : Limits → Limits) : (n.modifyUsage event f).authority = n.authority := by
  cases event with
  | none => rfl
  | some index =>
    simp only [authority, modifyUsage, parent, Option.map_map]
    congr 1
    cases n.permissions with
    | none => rfl
    | some permissions =>
      simp only [Option.map_some, Function.comp_apply, Option.some.injEq]
      refine List.ext_getElem? fun k => ?_
      simp only [List.getElem?_map, List.getElem?_modify]
      cases permissions[k]? with
      | none => rfl
      | some entry =>
        simp only [Option.map_eq_map, Option.map_some, Option.some.injEq]
        split <;> rfl

/-- Two trees give every node the same authority. -/
def SameAuthority (g g' : Grants) : Prop :=
  ∀ i, (g'.get i).map GrantNode.authority = (g.get i).map GrantNode.authority

namespace SameAuthority

variable {g g' g'' : Grants}

theorem refl (g : Grants) : SameAuthority g g := fun _ => rfl

theorem trans (h : SameAuthority g g') (h' : SameAuthority g' g'') : SameAuthority g g'' :=
  fun i => (h' i).trans (h i)

theorem modify (g : Grants) (i : NodeId) {f : GrantNode → GrantNode}
    (hf : ∀ n, (f n).authority = n.authority) : SameAuthority g (g.modify i f) := by
  intro j
  rw [Grants.get_modify]
  split
  · cases g.get j with
    | none => rfl
    | some n => simp [hf]
  · rfl

theorem release (g : Grants) (lease : Lease) : SameAuthority g (g.release lease) :=
  modify g lease.node fun n => n.authority_modifyUsage _ _

theorem charge [Target] (g : Grants) (i : NodeId) (event : Option Nat) (usage : Limits) :
    SameAuthority g (g.charge i event usage).2 := by
  unfold Grants.charge
  split
  · exact refl g
  · split
    · exact refl g
    · split
      · exact refl g
      · exact modify g i fun n => n.authority_modifyUsage _ _

theorem tryChargeStream [Target] (g : Grants) (i : NodeId) (event : EventId)
    (usage : StreamLimits) : SameAuthority g (g.tryChargeStream i event usage).2 := by
  unfold Grants.tryChargeStream
  split
  · exact refl g
  · split
    · exact refl g
    · exact charge g i _ _

theorem registerStream (g : Grants) (i : NodeId) (event : EventId) :
    SameAuthority g (g.registerStream i event).2 := by
  unfold Grants.registerStream
  split
  · exact refl g
  · split
    · exact refl g
    · split
      · exact refl g
      · split
        · exact refl g
        · exact modify g i fun n => rfl

/-! ## What follows from authority -/

theorem parent_eq (h : SameAuthority g g') (i : NodeId) :
    (g'.get i).bind GrantNode.parent = (g.get i).bind GrantNode.parent := by
  have hi := congrArg (fun a => a.bind Authority.parent) (h i)
  simpa [Option.bind_map, Function.comp_def, GrantNode.authority] using hi

theorem chain_eq (h : SameAuthority g g') (fuel : Nat) (i : NodeId) :
    g'.chain fuel i = g.chain fuel i := by
  induction fuel generalizing i with
  | zero => rfl
  | succ fuel ih =>
    simp only [Grants.chain, h.parent_eq i]
    cases (g.get i).bind GrantNode.parent with
    | none => rfl
    | some p => simp only [ih]

theorem path_eq (h : SameAuthority g g') (i : NodeId) : g'.path i = g.path i :=
  h.chain_eq _ _

/-- What depends on nothing but the authority of one node. -/
theorem any_of {i : NodeId}
    (h : (g'.get i).map GrantNode.authority = (g.get i).map GrantNode.authority)
    {p : GrantNode → Bool} {q : Authority → Bool} (hp : ∀ n : GrantNode, p n = q n.authority) :
    (g'.get i).any p = (g.get i).any p := by
  have hi := congrArg (fun a => a.any q) h
  simp only [Option.any_map] at hi
  have hpq : p = q ∘ GrantNode.authority := funext hp
  rw [hpq]
  exact hi

theorem any_eq (h : SameAuthority g g') {p : GrantNode → Bool} {q : Authority → Bool}
    (hp : ∀ n : GrantNode, p n = q n.authority) (i : NodeId) :
    (g'.get i).any p = (g.get i).any p := any_of (h i) hp

theorem isRevoked_eq (h : SameAuthority g g') (i : NodeId) : g'.isRevoked i = g.isRevoked i := by
  unfold Grants.isRevoked
  rw [h.path_eq]
  congr 1
  funext j
  exact h.any_eq (q := Authority.revoked) (fun _ => rfl) j

/-- The index of an event, from the permissions alone. -/
def indexOf (permissions : Option (List (Permission × Limits))) (event : EventId) :
    Except TopicError Nat :=
  match permissions with
  | none => .error .denied
  | some permissions =>
    match Search.binarySearch (fun entry => entry.1.event.asU128) permissions event.asU128 with
    | none => .error .denied
    | some index => .ok index

/-- Permission to an event, from the permissions alone. -/
def permitsOf (permissions : Option (List (Permission × Limits))) (event : EventId)
    (right : Rights) : Bool :=
  match permissions with
  | none => true
  | some permissions =>
    match Search.binarySearch (fun entry => entry.1.event.asU128) permissions event.asU128 with
    | none => false
    | some index => permissions[index]?.any fun entry => entry.1.rights.contains right

/-- The limits of one pool. -/
def limitsOf (a : Authority) (event : Option Nat) : Option Limits :=
  match event with
  | none => some a.generic
  | some index => (a.permissions.bind fun permissions => permissions[index]?).map Prod.snd

theorem limits_of {i : NodeId}
    (h : (g'.get i).map GrantNode.authority = (g.get i).map GrantNode.authority)
    (event : Option Nat) :
    (g'.get i).bind (fun n => (n.getPool event).map Pool.limits) =
      (g.get i).bind fun n => (n.getPool event).map Pool.limits := by
  have hq : (fun n : GrantNode => (n.getPool event).map Pool.limits) =
      fun n => limitsOf n.authority event := by
    funext n
    cases event with
    | none => rfl
    | some index =>
      simp only [GrantNode.getPool, limitsOf, GrantNode.authority]
      cases n.permissions with
      | none => rfl
      | some permissions =>
        simp only [Option.bind_some, Option.map_some, List.getElem?_map]
        cases permissions[index]? <;> rfl
  have hi := congrArg (fun a => a.bind fun a => limitsOf a event) h
  simp only [Option.bind_map] at hi
  rw [hq]
  exact hi

theorem limits_eq (h : SameAuthority g g') (i : NodeId) (event : Option Nat) :
    (g'.get i).bind (fun n => (n.getPool event).map Pool.limits) =
      (g.get i).bind fun n => (n.getPool event).map Pool.limits := limits_of (h i) event

theorem nodeLimits_eq (h : SameAuthority g g') (i : NodeId) :
    (g'.get i).map GrantNode.limits = (g.get i).map GrantNode.limits := by
  have hi := congrArg (fun a => a.map Authority.limits) (h i)
  simp only [Option.map_map] at hi
  exact hi

theorem eventIndex_of {i : NodeId}
    (h : (g'.get i).map GrantNode.authority = (g.get i).map GrantNode.authority)
    (event : EventId) :
    (g'.get i).map (fun n => n.eventIndex event) = (g.get i).map fun n => n.eventIndex event := by
  have hq : (fun n : GrantNode => n.eventIndex event) =
      (fun a : Authority => indexOf a.permissions event) ∘ GrantNode.authority := by
    funext n
    simp only [GrantNode.eventIndex, GrantNode.authority, indexOf, Function.comp_apply]
    cases n.permissions with
    | none => rfl
    | some permissions =>
      simp only [Option.map_some, Search.binarySearch_map]
      rfl
  rw [hq, ← Option.map_map, ← Option.map_map, h]

theorem eventIndex_eq (h : SameAuthority g g') (i : NodeId) (event : EventId) :
    (g'.get i).map (fun n => n.eventIndex event) = (g.get i).map fun n => n.eventIndex event :=
  eventIndex_of (h i) event

/-- The permissions alone decide what a node permits. -/
theorem permits_eq (n : GrantNode) (event : EventId) (right : Rights) :
    n.permits event right = permitsOf n.authority.permissions event right := by
  simp only [GrantNode.permits, GrantNode.authority, permitsOf]
  cases n.permissions with
  | none => rfl
  | some permissions =>
    simp only [Option.map_some, Search.binarySearch_map, List.getElem?_map, Option.any_map]
    rfl

theorem check_eq (h : SameAuthority g g') (i : NodeId) (event : EventId) (right : Rights) :
    g'.check i event right = g.check i event right := by
  have hpermits := h.any_eq (p := fun n => n.permits event right)
    (q := fun a => permitsOf a.permissions event right) (fun n => permits_eq n event right) i
  simp only [Grants.check, h.isRevoked_eq, hpermits]

theorem enter_eq [Target] (h : SameAuthority g g') (i : NodeId) (event : EventId)
    (right : Rights) : g'.enter i event right = g.enter i event right := by
  have hactive := h.any_eq (p := fun n => decide (n.active < activeCount))
    (q := fun a => decide (a.active < activeCount)) (fun _ => rfl) i
  simp only [Grants.enter, h.check_eq, hactive]

end SameAuthority

/-! ## Registration -/

namespace Grants

/-- The node is registered for the notifications of a stream, or has room for it. -/
def Registers (g : Grants) (i : NodeId) (event : EventId) : Prop :=
  ∃ n, g.get i = some n ∧ (event ∈ n.streams ∨ n.streams.length < n.limits.streams)

theorem Registers.modify {g : Grants} {i : NodeId} {event : EventId} (h : g.Registers i event)
    (j : NodeId) {f : GrantNode → GrantNode} (hs : ∀ n, (f n).streams = n.streams)
    (hl : ∀ n, (f n).limits = n.limits) : (g.modify j f).Registers i event := by
  obtain ⟨n, hn, hroom⟩ := h
  unfold Registers
  rw [get_modify, hn]
  split
  · exact ⟨f n, rfl, by rw [hs, hl]; exact hroom⟩
  · exact ⟨n, rfl, hroom⟩

theorem Registers.release {g : Grants} {i : NodeId} {event : EventId} (h : g.Registers i event)
    (lease : Lease) : (g.release lease).Registers i event := by
  refine h.modify lease.node (fun n => ?_) (fun n => ?_)
  · cases lease.event <;> rfl
  · cases lease.event <;> rfl

theorem Registers.tryChargeStream [Target] {g : Grants} {i : NodeId} {event : EventId}
    (h : g.Registers i event) (j : NodeId) (stream : EventId) (usage : StreamLimits) :
    (g.tryChargeStream j stream usage).2.Registers i event := by
  unfold Grants.tryChargeStream
  split
  · exact h
  · split
    · exact h
    · unfold Grants.charge
      split
      · exact h
      · split
        · exact h
        · split
          · exact h
          · exact h.modify j (fun n => rfl) (fun n => rfl)

/-- A registration takes no place but the one that its own stream needs. -/
theorem Registers.registerStream {g : Grants} {i : NodeId} {event : EventId}
    (h : g.Registers i event) (j : NodeId) : (g.registerStream j event).2.Registers i event := by
  obtain ⟨n, hn, hroom⟩ := h
  unfold Grants.registerStream
  split
  · exact ⟨n, hn, hroom⟩
  · split
    · exact ⟨n, hn, hroom⟩
    · split
      · exact ⟨n, hn, hroom⟩
      · split
        · exact ⟨n, hn, hroom⟩
        · unfold Registers
          dsimp only
          rw [get_modify, hn]
          split
          · exact ⟨_, rfl, Or.inl (by simp)⟩
          · exact ⟨n, rfl, hroom⟩

/-- A node that has a place registers. -/
theorem registerStream_ok {g : Grants} {i : NodeId} {event : EventId}
    (hr : g.isRevoked i = false) (h : g.Registers i event) :
    (g.registerStream i event).1 = .ok () := by
  obtain ⟨n, hn, hroom⟩ := h
  unfold Grants.registerStream
  rw [hr, if_neg (by decide), hn]
  dsimp only
  by_cases hmem : n.streams.contains event = true
  · rw [if_pos hmem]
  · rw [if_neg hmem, if_neg]
    rcases hroom with h | h
    · exact absurd (by simpa using h) hmem
    · omega

end Grants

/-! ## Revocation -/

namespace Grants

theorem get_revoke (g : Grants) (i j : NodeId) :
    (g.revoke i).get j =
      (g.get j).map fun n => if i ∈ g.path j then { n with revoked := true } else n := by
  simp only [revoke, get, Slots.entry, List.getElem?_mapIdx]
  cases g.nodes[j]? <;> simp

theorem eventIndex_revoke (g : Grants) (i j : NodeId) (event : EventId) :
    ((g.revoke i).get j).map (fun n => n.eventIndex event) =
      (g.get j).map fun n => n.eventIndex event := by
  rw [get_revoke]
  cases g.get j with
  | none => rfl
  | some n =>
    simp only [Option.map_some]
    split <;> rfl

theorem path_revoke (g : Grants) (i j : NodeId) : (g.revoke i).path j = g.path j := by
  have hparent : ∀ k, ((g.revoke i).get k).bind GrantNode.parent =
      (g.get k).bind GrantNode.parent := by
    intro k
    rw [get_revoke]
    cases g.get k with
    | none => rfl
    | some n =>
      simp only [Option.map_some, Option.bind_some]
      split <;> rfl
  have hchain : ∀ fuel k, (g.revoke i).chain fuel k = g.chain fuel k := by
    intro fuel
    induction fuel with
    | zero => exact fun _ => rfl
    | succ fuel ih =>
      intro k
      simp only [chain, hparent k]
      cases (g.get k).bind GrantNode.parent with
      | none => rfl
      | some p => simp only [ih]
  exact hchain _ _

/-- Revocation is never undone. -/
theorem isRevoked_revoke {g : Grants} {j : NodeId} (i : NodeId) (h : g.isRevoked j = true) :
    (g.revoke i).isRevoked j = true := by
  unfold isRevoked at h ⊢
  rw [path_revoke]
  rw [List.any_eq_true] at h ⊢
  obtain ⟨k, hk, hr⟩ := h
  refine ⟨k, hk, ?_⟩
  rw [get_revoke]
  cases hn : g.get k with
  | none => simp [hn] at hr
  | some n =>
    simp only [hn, Option.any_some] at hr
    simp only [Option.map_some, Option.any_some]
    split
    · rfl
    · exact hr

/-- An operation that enters was checked. -/
theorem check_of_enter [Target] {g : Grants} {i : NodeId} {event : EventId} {right : Rights}
    (h : g.enter i event right = .ok ()) : g.check i event right = .ok () := by
  unfold enter at h
  cases hc : g.check i event right with
  | error error =>
    rw [hc] at h
    cases h
  | ok u => rfl

/-- An operation that enters is on a node that is not revoked. -/
theorem not_revoked_of_enter [Target] {g : Grants} {i : NodeId} {event : EventId}
    {right : Rights} (h : g.enter i event right = .ok ()) : g.isRevoked i = false := by
  unfold enter check at h
  cases hr : g.isRevoked i with
  | false => rfl
  | true =>
    rw [hr, if_pos rfl] at h
    cases h

end Grants

end Hiway
