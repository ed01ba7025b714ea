import Hiway.Grant.Accounting

/-!
# Delegation

`restrict` makes a child of a node: it checks every requested permission against the
node, reserves the child's limits in the node's pools and gives the child the sorted and
merged permissions. What the unstable sort makes of the requested list is an argument.

* `restrict_cases`: a delegation fails and changes nothing, or it charges the reservation
  and every event.
* `release_of_charge`, `release_comm`: a charge can be taken back, and leases in any order.
* `requested_ok`: what was checked of a request.
-/

namespace Hiway

open Target

namespace Grants

/-- What a child is checked for before anything is charged: its generic limits and the
reservation that they are charged with. -/
def requested [Target] (g : Grants) (i : NodeId) (permissions : List Permission)
    (limits : Limits) : Except TopicError (Limits × Limits) := do
  limits.validate
  if permissions.length > limits.streams then .error .capacity
  else do
    permissions.forM fun permission => g.check i permission.event permission.rights
    let generic ← partition limits permissions
    let reservation := if (g.get i).any fun n => n.permissions.isNone then limits else generic
    if reservation.grants + 1 > usizeMax then .error .invalidConfig
    else return (generic, { reservation with grants := reservation.grants + 1 })

/-- One reservation for each event. A failure gives those before it back. -/
def chargeEvents [Target] (g : Grants) (i : NodeId) :
    List Permission → List Lease → Except TopicError (List Lease) × Grants
  | [], leases => (.ok leases, g)
  | permission :: rest, leases =>
    match g.tryChargeStream i permission.event permission.limits with
    | (.error error, g) => (.error error, leases.foldl release g)
    | (.ok lease, g) => chargeEvents g i rest (leases ++ [lease])

/-- The node that `restrict` makes. -/
def child (limits generic : Limits) (permissions : List Permission) (reservation : Lease)
    (events : List Lease) : GrantNode where
  limits := limits
  pool := Pool.new generic
  permissions := some (permissions.map fun permission =>
    ⟨permission, Pool.new permission.limits.asLimits⟩)
  parentReservation := some reservation
  eventReservations := events
  revoked := false
  active := 0
  streams := []

/-- `GrantNode::restrict`, where the sort made `sorted` of `permissions`. -/
def restrict [Target] (g : Grants) (i : NodeId) (permissions sorted : List Permission)
    (limits : Limits) : Except TopicError NodeId × Grants :=
  match g.requested i permissions limits with
  | .error error => (.error error, g)
  | .ok (generic, amount) =>
    match g.tryCharge i amount with
    | (.error error, g) => (.error error, g)
    | (.ok reservation, g) =>
      let permissions := dedup sorted
      match if (g.get i).any fun n => n.permissions.isSome then g.chargeEvents i permissions []
        else (.ok [], g) with
      | (.error error, g) => (.error error, g.release reservation)
      | (.ok events, g) =>
        if g.isRevoked i then (.error .revoked, (events.foldl release g).release reservation)
        else
          (.ok g.nodes.length,
            ⟨g.nodes ++ [some (child limits generic permissions reservation events)]⟩)

/-- The last handle of a node without children is gone: the node gives its reservations
back. -/
def dropNode (g : Grants) (i : NodeId) : Grants :=
  match g.get i with
  | none => g
  | some n =>
    if g.nodes.any fun o => o.any fun m => m.parent = some i then g
    else (n.parentReservation.toList ++ n.eventReservations).foldl release ⟨g.nodes.set i none⟩

/-! ## Charges that are given back -/

end Grants

namespace GrantNode

theorem modifyUsage_modifyUsage (n : GrantNode) (event : Option Nat) (f f' : Limits → Limits) :
    (n.modifyUsage event f).modifyUsage event f' = n.modifyUsage event (f' ∘ f) := by
  cases event with
  | none => rfl
  | some index =>
    simp only [modifyUsage]
    cases n.permissions with
    | none => rfl
    | some permissions =>
      simp only [Option.map_some, List.modify_modify_eq]
      rfl

/-- Changes of one pool commute when their functions do, changes of two pools always. -/
theorem modifyUsage_comm (n : GrantNode) {event event' : Option Nat} {f f' : Limits → Limits}
    (h : event = event' → f' ∘ f = f ∘ f') :
    (n.modifyUsage event f).modifyUsage event' f' =
      (n.modifyUsage event' f').modifyUsage event f := by
  by_cases he : event = event'
  · subst he
    rw [modifyUsage_modifyUsage, modifyUsage_modifyUsage, h rfl]
  · cases event with
    | none =>
      cases event' with
      | none => exact absurd rfl he
      | some k' => rfl
    | some k =>
      cases event' with
      | none => rfl
      | some k' =>
        have hk : k ≠ k' := fun hk => he (congrArg some hk)
        simp only [modifyUsage]
        cases n.permissions with
        | none => rfl
        | some permissions =>
          simp only [Option.map_some]
          rw [List.modify_modify_ne _ _ _ hk]

/-- A change that leaves the usage of the pool as it is changes nothing. -/
theorem modifyUsage_of_eq {n : GrantNode} {event : Option Nat} {p : Pool}
    (hp : n.getPool event = some p) {f : Limits → Limits} (hf : f p.usage = p.usage) :
    n.modifyUsage event f = n := by
  cases event with
  | none =>
    cases hp
    simp only [modifyUsage, hf]
  | some index =>
    simp only [getPool] at hp
    simp only [modifyUsage]
    cases hperm : n.permissions with
    | none =>
      rw [Option.map_none, ← hperm]
    | some permissions =>
      rw [hperm, Option.bind_some, Option.map_eq_some_iff] at hp
      obtain ⟨entry, hentry, rfl⟩ := hp
      have hsame : permissions.modify index (fun entry =>
          { entry with pool := { entry.pool with usage := f entry.pool.usage } }) =
          permissions := by
        refine List.ext_getElem? fun k => ?_
        rw [List.getElem?_modify]
        by_cases hk : index = k
        · subst hk
          simp [hentry, hf]
        · simp [hk]
      rw [Option.map_some, hsame, ← hperm]

end GrantNode

namespace Grants

theorem modify_of_eq {g : Grants} {i : NodeId} {n : GrantNode} (hn : g.get i = some n)
    {f : GrantNode → GrantNode} (hf : f n = n) : g.modify i f = g := by
  have hn : g.nodes[i]? = some (some n) := Slots.entry_eq_some.mp hn
  unfold modify
  congr 1
  refine List.ext_getElem? fun k => ?_
  rw [List.getElem?_modify]
  by_cases hk : i = k
  · subst hk
    simp [hn, hf]
  · simp [hk]

/-- Giving a charge back undoes it. -/
theorem release_of_charge [Target] {g g' : Grants} {i : NodeId} {event : Option Nat}
    {usage : Limits} {lease : Lease} (h : g.charge i event usage = (.ok lease, g')) :
    g'.release lease = g := by
  obtain ⟨rfl, -, p, total, hp, htotal, rfl⟩ := charge_ok h
  obtain ⟨n, hn, hpool⟩ := Option.bind_eq_some_iff.mp hp
  obtain ⟨-, htotal⟩ := chargePool_eq_some.mp htotal
  have hmodify : ((g.modify i fun n => n.modifyUsage event fun _ => total).release
      ⟨i, usage, event⟩) = g.modify i fun n => n.modifyUsage event fun _ =>
        Limits.ofValues fun r => total.get r - usage.get r := by
    unfold release modify
    simp only [List.modify_modify_eq]
    congr 2
    funext o
    cases o with
    | none => rfl
    | some n => exact congrArg some (GrantNode.modifyUsage_modifyUsage n event _ _)
  rw [hmodify]
  refine modify_of_eq hn (GrantNode.modifyUsage_of_eq hpool (Limits.ext_get fun r => ?_))
  rw [Limits.get_ofValues, htotal, Nat.add_sub_cancel]

theorem release_of_tryChargeStream [Target] {g g' : Grants} {i : NodeId} {event : EventId}
    {usage : StreamLimits} {lease : Lease}
    (h : g.tryChargeStream i event usage = (.ok lease, g')) : g'.release lease = g := by
  unfold tryChargeStream at h
  split at h
  · cases h
  · split at h
    · cases h
    · exact release_of_charge h

/-- Leases may be given back in any order. -/
theorem release_comm (g : Grants) (a b : Lease) :
    (g.release a).release b = (g.release b).release a := by
  unfold release modify
  by_cases hn : a.node = b.node
  · rw [hn, List.modify_modify_eq, List.modify_modify_eq]
    congr 2
    funext o
    cases o with
    | none => rfl
    | some n =>
      refine congrArg some (GrantNode.modifyUsage_comm n fun _ => ?_)
      funext usage
      refine Limits.ext_get fun r => ?_
      simp only [Function.comp_apply, Limits.get_ofValues]
      omega
  · rw [List.modify_modify_ne _ _ _ hn]

theorem foldl_release_comm (leases : List Lease) (g : Grants) (a : Lease) :
    leases.foldl release (g.release a) = (leases.foldl release g).release a := by
  induction leases generalizing g with
  | nil => rfl
  | cons b rest ih => rw [List.foldl_cons, List.foldl_cons, release_comm, ih]

/-- No node comes or goes with a charge. -/
theorem length_charge [Target] (g : Grants) (i : NodeId) (event : Option Nat) (usage : Limits) :
    (g.charge i event usage).2.nodes.length = g.nodes.length := by
  unfold charge
  split
  · rfl
  · split
    · rfl
    · split
      · rfl
      · simp [modify]

theorem length_tryChargeStream [Target] (g : Grants) (i : NodeId) (event : EventId)
    (usage : StreamLimits) : (g.tryChargeStream i event usage).2.nodes.length = g.nodes.length := by
  unfold tryChargeStream
  split
  · rfl
  · split
    · rfl
    · exact length_charge g i _ _

theorem length_registerStream (g : Grants) (i : NodeId) (event : EventId) :
    (g.registerStream i event).2.nodes.length = g.nodes.length := by
  unfold registerStream
  split
  · rfl
  · split
    · rfl
    · split
      · rfl
      · split
        · rfl
        · simp [modify]

/-! ## What a delegation can do -/

/-- The leases that were charged one after the other since `g`. -/
inductive ChargedEvents [Target] (i : NodeId) : Grants → List Permission → List Lease → Grants → Prop
  | nil (g : Grants) : ChargedEvents i g [] [] g
  | cons {g g₁ g' : Grants} {permission : Permission} {rest : List Permission} {lease : Lease}
      {leases : List Lease}
      (hcharge : g.tryChargeStream i permission.event permission.limits = (.ok lease, g₁))
      (hrest : ChargedEvents i g₁ rest leases g') :
      ChargedEvents i g (permission :: rest) (lease :: leases) g'

theorem ChargedEvents.release [Target] {i : NodeId} {g g' : Grants} {permissions : List Permission}
    {leases : List Lease} (h : ChargedEvents i g permissions leases g') :
    leases.foldl Grants.release g' = g := by
  induction h with
  | nil => rfl
  | cons hcharge hrest ih =>
    rw [List.foldl_cons, foldl_release_comm, ih, release_of_tryChargeStream hcharge]

theorem ChargedEvents.same [Target] {i : NodeId} {g g' : Grants} {permissions : List Permission}
    {leases : List Lease} (h : ChargedEvents i g permissions leases g') : SameAuthority g g' := by
  induction h with
  | nil => exact SameAuthority.refl _
  | @cons g g₁ g' permission rest lease leases hcharge hrest ih =>
    have hfirst := SameAuthority.tryChargeStream g i permission.event permission.limits
    rw [hcharge] at hfirst
    exact hfirst.trans ih

theorem ChargedEvents.length [Target] {i : NodeId} {g g' : Grants} {permissions : List Permission}
    {leases : List Lease} (h : ChargedEvents i g permissions leases g') :
    g'.nodes.length = g.nodes.length := by
  induction h with
  | nil => rfl
  | @cons g g₁ g' permission rest lease leases hcharge hrest ih =>
    have hfirst := length_tryChargeStream g i permission.event permission.limits
    rw [hcharge] at hfirst
    exact ih.trans hfirst

theorem chargeEvents_cases [Target] (i : NodeId) (permissions : List Permission) (g : Grants)
    (before : List Lease) :
    (∃ error, g.chargeEvents i permissions before = (.error error, before.foldl release g)) ∨
    ∃ leases g', ChargedEvents i g permissions leases g' ∧
      g.chargeEvents i permissions before = (.ok (before ++ leases), g') := by
  induction permissions generalizing g before with
  | nil => exact Or.inr ⟨[], g, .nil g, by rw [List.append_nil]; rfl⟩
  | cons permission rest ih =>
    rw [chargeEvents]
    cases hc : g.tryChargeStream i permission.event permission.limits with
    | mk result g₁ =>
      cases result with
      | error error =>
        refine Or.inl ⟨error, ?_⟩
        rw [tryChargeStream_error hc]
      | ok lease =>
        dsimp only
        rcases ih g₁ (before ++ [lease]) with ⟨error, he⟩ | ⟨leases, g', hcharged, he⟩
        · refine Or.inl ⟨error, ?_⟩
          rw [he, List.foldl_append, List.foldl_cons, List.foldl_nil, ← foldl_release_comm,
            release_of_tryChargeStream hc]
        · refine Or.inr ⟨lease :: leases, g', .cons hc hcharged, ?_⟩
          rw [he, List.append_assoc]
          rfl

/-- What was checked of a request. -/
theorem requested_ok [Target] {g : Grants} {i : NodeId} {permissions : List Permission}
    {limits generic amount : Limits}
    (h : g.requested i permissions limits = .ok (generic, amount)) :
    limits.validate = .ok () ∧ permissions.length ≤ limits.streams ∧
      (∀ p ∈ permissions, g.check i p.event p.rights = .ok ()) ∧
      partition limits permissions = .ok generic ∧
      amount = (let reservation :=
          if (g.get i).any fun n => n.permissions.isNone then limits else generic
        { reservation with grants := reservation.grants + 1 }) := by
  have hforM : ∀ l : List Permission,
      (l.forM fun p => g.check i p.event p.rights) = .ok () →
        ∀ p ∈ l, g.check i p.event p.rights = .ok () := by
    intro l
    induction l with
    | nil => simp
    | cons q rest ih =>
      intro hl p hp
      obtain ⟨u, hq, hrest⟩ := Exec.except_bind_eq_ok.mp hl
      rcases List.mem_cons.mp hp with rfl | hp
      · exact hq
      · exact ih hrest p hp
  unfold requested at h
  obtain ⟨u, hvalid, h⟩ := Exec.except_bind_eq_ok.mp h
  split at h
  · cases h
  · rename_i hlength
    obtain ⟨u, hchecks, h⟩ := Exec.except_bind_eq_ok.mp h
    obtain ⟨generic', hpartition, h⟩ := Exec.except_bind_eq_ok.mp h
    dsimp only at h ⊢
    generalize hreservation : (if (g.get i).any (fun n => n.permissions.isNone) = true then limits
      else generic') = reservation at h
    split at h
    · cases h
    · cases h
      rw [hreservation]
      exact ⟨hvalid, Nat.not_lt.mp hlength, hforM permissions hchecks, hpartition, rfl⟩

/-- A delegation fails and changes nothing, or it charges the reservation and, at a node
with permissions, every event, and adds the child. -/
theorem restrict_cases [Target] (g : Grants) (i : NodeId) (permissions sorted : List Permission)
    (limits : Limits) :
    (∃ error, g.restrict i permissions sorted limits = (.error error, g)) ∨
    ∃ generic amount reservation g₁ events g₂,
      g.requested i permissions limits = .ok (generic, amount) ∧
      g.tryCharge i amount = (.ok reservation, g₁) ∧
      ((g.get i).any (fun n => n.permissions.isSome) = true ∧
          ChargedEvents i g₁ (dedup sorted) events g₂ ∨
        (g.get i).any (fun n => n.permissions.isSome) = false ∧ events = [] ∧ g₂ = g₁) ∧
      g₂.isRevoked i = false ∧
      g.restrict i permissions sorted limits = (.ok g₂.nodes.length,
        ⟨g₂.nodes ++ [some (child limits generic (dedup sorted) reservation events)]⟩) := by
  unfold restrict
  split
  · exact Or.inl ⟨_, rfl⟩
  · rename_i generic amount hrequested
    split
    · rename_i error g₁ hcharge
      exact Or.inl ⟨error, by rw [charge_error hcharge]⟩
    · rename_i reservation g₁ hcharge
      have hrelease : g₁.release reservation = g := release_of_charge hcharge
      have hsome : (g₁.get i).any (fun n => n.permissions.isSome) =
          (g.get i).any fun n => n.permissions.isSome := by
        have hsame := SameAuthority.charge g i none amount
        rw [show g.charge i none amount = (.ok reservation, g₁) from hcharge] at hsame
        exact hsame.any_eq (q := fun a => a.permissions.isSome) (fun n => by
          simp [GrantNode.authority]) i
      dsimp only
      rw [hsome]
      by_cases hperm : (g.get i).any (fun n => n.permissions.isSome) = true
      · rw [if_pos hperm]
        rcases chargeEvents_cases i (dedup sorted) g₁ [] with ⟨error, he⟩ | ⟨events, g₂, hcharged, he⟩
        · rw [he]
          exact Or.inl ⟨error, Prod.ext rfl hrelease⟩
        · rw [he, List.nil_append]
          dsimp only
          split
          · exact Or.inl ⟨_, by rw [hcharged.release, hrelease]⟩
          · rename_i hrevoked
            exact Or.inr ⟨generic, amount, reservation, g₁, events, g₂, hrequested, hcharge,
              Or.inl ⟨hperm, hcharged⟩, by simpa using hrevoked, rfl⟩
      · rw [if_neg hperm]
        dsimp only
        split
        · exact Or.inl ⟨_, by rw [List.foldl_nil, hrelease]⟩
        · rename_i hrevoked
          exact Or.inr ⟨generic, amount, reservation, g₁, [], g₁, hrequested, hcharge,
            Or.inr ⟨by simpa using hperm, rfl, rfl⟩, by simpa using hrevoked, rfl⟩

end Grants

end Hiway
