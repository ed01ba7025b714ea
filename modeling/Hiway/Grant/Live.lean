import Hiway.Grant.Books

/-!
# Live grants

A delegation and the end of a node leave the live nodes as they are: who is revoked stays
revoked, and nobody else becomes it. Between two operations no node has one under way.

* `Grows.isRevoked`, `isRevoked_dropNode`: neither a delegation nor the end of a node
  revokes anybody else.
* `Serves.grows`, `Serves.dropNode`, `Serves.revoke`: who can be served stays so, unless it
  is revoked.
* `Idle.enter`: an idle node that passes the check can be entered.
-/

namespace Hiway

open Target

namespace Grants

variable {g g' : Grants} {i j : NodeId}

/-! ## Revocation -/

/-- A tree that only grows revokes nobody. -/
theorem Grows.isRevoked (h : Grows g g') (hf : g.Founded) {n : GrantNode}
    (hj : g.get j = some n) : g'.isRevoked j = g.isRevoked j := by
  refine isRevoked_of fun k hk => ?_
  obtain ⟨m, hm⟩ := hf.path_live hj hk
  exact h.authority k m hm

/-- The end of a node revokes nobody else: it was on nobody's way to the root. -/
theorem isRevoked_dropNode (hj : j ≠ i) : (g.dropNode i).isRevoked j = g.isRevoked j := by
  rcases g.dropNode_cases i with he | ⟨n, -, hchildless, -⟩
  · rw [he]
  · refine isRevoked_of fun k hk => (dropNode_others ?_).1
    rcases mem_chain hk with rfl | ⟨m, c, hc, hp⟩
    · exact hj
    · rintro rfl
      exact hchildless m c hc hp

/-! ## Nodes that use a stream -/

/-- The node lists the event, and hears of what happens to the stream's leases. -/
def Serves (g : Grants) (i : NodeId) (event : EventId) : Prop :=
  g.Registered i event ∧ ∃ index, (g.get i).map (fun n => n.eventIndex event) = some (.ok index)

theorem Serves.steady {event : EventId} (h : g.Serves i event) (hs : g.Steady g') :
    g'.Serves i event := by
  obtain ⟨hr, index, hn⟩ := h
  exact ⟨hs.registered i event hr, index, (hs.authority.eventIndex_eq i event).trans hn⟩

theorem Serves.grows {event : EventId} (h : g.Serves i event) (hg : Grows g g') :
    g'.Serves i event := by
  obtain ⟨hr, index, hn⟩ := h
  obtain ⟨n, hi, -⟩ := Option.map_eq_some_iff.mp hn
  exact ⟨hg.registered i event hr, index,
    (SameAuthority.eventIndex_of (hg.authority i n hi) event).trans hn⟩

theorem Serves.dropNode {event : EventId} (h : g.Serves j event) (hj : j ≠ i) :
    (g.dropNode i).Serves j event := by
  obtain ⟨hr, index, hn⟩ := h
  obtain ⟨hauthority, hregistered⟩ := dropNode_others (g := g) hj
  exact ⟨hregistered event hr, index, (SameAuthority.eventIndex_of hauthority event).trans hn⟩

theorem Serves.revoke {event : EventId} (h : g.Serves j event) (i : NodeId) :
    (g.revoke i).Serves j event := by
  obtain ⟨⟨n, hn, hmem⟩, index, hi⟩ := h
  refine ⟨?_, index, (g.eventIndex_revoke i j event).trans hi⟩
  unfold Registered
  rw [get_revoke, hn]
  refine ⟨_, rfl, ?_⟩
  split <;> exact hmem

/-! ## Operations under way -/

/-- No node has as many operations under way as it can count. -/
def Idle [Target] (g : Grants) : Prop :=
  ∀ i n, g.get i = some n → n.active < activeCount

variable [Target]

theorem activeCount_pos : 0 < activeCount := by
  have hbits := bits_ge
  have hle : 2 ^ 1 ≤ 2 ^ (usizeBits - 1) := Nat.pow_le_pow_right (by omega) (by omega)
  unfold activeCount isizeMax
  omega

theorem Idle.of_authority (h : g.Idle)
    (ha : ∀ i n, g'.get i = some n →
      (g'.get i).map GrantNode.authority = (g.get i).map GrantNode.authority) : g'.Idle := by
  intro i n hn
  have hi := ha i n hn
  rw [hn] at hi
  obtain ⟨m, hm, hauthority⟩ := Option.map_eq_some_iff.mp hi.symm
  have hactive : n.active = m.active := congrArg Authority.active hauthority.symm
  rw [hactive]
  exact h i m hm

theorem Idle.restrict (h : g.Idle) (i : NodeId) (permissions sorted : List Permission)
    (limits : Limits) : (g.restrict i permissions sorted limits).2.Idle := by
  rcases g.restrict_cases i permissions sorted limits with
    ⟨error, he⟩ | ⟨generic, amount, reservation, g₁, events, g₂, -, hcharge, hevents, -, he⟩
  · rw [he]
    exact h
  · have hsteady₁ := Steady.charge g i none amount
    rw [show g.charge i none amount = (.ok reservation, g₁) from hcharge] at hsteady₁
    have hsteady₂ : g₁.Steady g₂ := by
      rcases hevents with ⟨-, hcharged⟩ | ⟨-, -, rfl⟩
      · exact hcharged.steady
      · exact Steady.refl _
    have hidle : g₂.Idle := h.of_authority fun j _ _ => (hsteady₁.trans hsteady₂).authority j
    rw [he]
    intro j n hn
    rw [get_snoc] at hn
    split at hn
    · cases hn
      exact activeCount_pos
    · exact hidle j n hn

theorem Idle.dropNode (h : g.Idle) (i : NodeId) : (g.dropNode i).Idle := by
  rcases g.dropNode_cases i with he | ⟨n, hn, -, he⟩
  · rw [he]
    exact h
  · have hsteady := Steady.foldl_release n.reservations (Grants.mk (g.nodes.set i none))
    have hgone : (Grants.mk (g.nodes.set i none)).Idle := by
      intro j m hm
      rw [get_set_none hn] at hm
      split at hm
      · cases hm
      · exact h j m hm
    rw [he]
    exact hgone.of_authority fun j _ _ => hsteady.authority j

theorem Idle.revoke (h : g.Idle) (i : NodeId) : (g.revoke i).Idle := by
  intro j n hn
  rw [get_revoke] at hn
  obtain ⟨m, hm, rfl⟩ := Option.map_eq_some_iff.mp hn
  split <;> exact h j m hm

/-- An idle node that passes the check can be entered. -/
theorem Idle.enter (h : g.Idle) {event : EventId} {right : Rights}
    (hc : g.check i event right = .ok ()) : g.enter i event right = .ok () := by
  have hactive : (g.get i).any (fun n => n.active < activeCount) = true := by
    unfold check at hc
    split at hc
    · cases hc
    · split at hc
      · rename_i hpermits
        obtain ⟨n, hn, -⟩ := (Option.any_eq_true _ _).mp hpermits
        rw [hn]
        exact decide_eq_true (h i n hn)
      · cases hc
  simp only [Grants.enter, hc, hactive, if_true]
  rfl

end Grants

end Hiway
