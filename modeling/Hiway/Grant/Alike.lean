import Hiway.Grant.Steady

/-!
# Trees that retain differently

Two trees are alike when they differ in nothing but how many items are retained. What
does not charge for an item cannot tell them apart.

* `Alike`: two trees with the same nodes, authority and pools but for the items.
* `charge`: what charges for no item is charged in both or in none.
* `registerStream`: and a node registers for a stream in both or in none.
-/

namespace Hiway

open Target

namespace Grants

/-- Nothing but the usage of retained items differs. -/
structure Alike (g g' : Grants) : Prop where
  authority : SameAuthority g g'
  streams : ∀ i, (g'.get i).map GrantNode.streams = (g.get i).map GrantNode.streams
  usage : ∀ i event r, r ≠ .retainedItems → g'.usageOf i event r = g.usageOf i event r

namespace Alike

variable {g g' g'' : Grants}

theorem refl (g : Grants) : Alike g g := ⟨SameAuthority.refl g, fun _ => rfl, fun _ _ _ _ => rfl⟩

theorem trans (h : Alike g g') (h' : Alike g' g'') : Alike g g'' where
  authority := h.authority.trans h'.authority
  streams i := (h'.streams i).trans (h.streams i)
  usage i event r hr := (h'.usage i event r hr).trans (h.usage i event r hr)

theorem symm (h : Alike g g') : Alike g' g where
  authority i := (h.authority i).symm
  streams i := (h.streams i).symm
  usage i event r hr := (h.usage i event r hr).symm

/-- The streams of the nodes after one of them has changed. -/
theorem streams_modify (g : Grants) (i : NodeId) {f : GrantNode → GrantNode}
    (hf : ∀ n, (f n).streams = n.streams) (j : NodeId) :
    ((g.modify i f).get j).map GrantNode.streams = (g.get j).map GrantNode.streams := by
  rw [get_modify]
  split
  · cases g.get j with
    | none => rfl
    | some n => simp [hf]
  · rfl

/-- An item is given back. -/
theorem release (g : Grants) {lease : Lease}
    (hl : lease.usage = ({ StreamLimits.zero with retainedItems := 1 } : StreamLimits).asLimits) :
    Alike g (g.release lease) where
  authority := SameAuthority.release g lease
  streams := streams_modify g lease.node fun n => n.streams_modifyUsage _ _
  usage i event r hr := usageOf_release g lease fun _ _ => by
    rw [hl]
    cases r with
    | retainedItems => exact absurd rfl hr
    | _ => rfl

/-- The pools of alike trees, one by one. -/
theorem pools (h : Alike g g') (i : NodeId) (event : Option Nat) :
    (g.pool i event = none ∧ g'.pool i event = none) ∨
    ∃ p p', g.pool i event = some p ∧ g'.pool i event = some p' ∧ p'.limits = p.limits ∧
      ∀ r, r ≠ .retainedItems → p'.usage.get r = p.usage.get r := by
  have hlimits : (g'.pool i event).map Pool.limits = (g.pool i event).map Pool.limits := by
    simp only [pool, Option.map_bind]
    exact h.authority.limits_eq i event
  have husage := h.usage i event
  simp only [usageOf] at husage
  cases hp : g.pool i event with
  | none =>
    rw [hp, Option.map_none, Option.map_eq_none_iff] at hlimits
    exact Or.inl ⟨rfl, hlimits⟩
  | some p =>
    rw [hp, Option.map_some] at hlimits
    obtain ⟨p', hp', hl⟩ := Option.map_eq_some_iff.mp hlimits
    rw [hp, hp'] at husage
    exact Or.inr ⟨p, p', rfl, hp', hl, husage⟩

/-- One pool has changed in both, in the same way. -/
theorem modifyUsage (h : Alike g g') (i : NodeId) (event : Option Nat) {f f' : Limits → Limits}
    (hf : ∀ p p', g.pool i event = some p → g'.pool i event = some p' →
      ∀ r, r ≠ .retainedItems → (f' p'.usage).get r = (f p.usage).get r) :
    Alike (g.modify i fun n => n.modifyUsage event f)
      (g'.modify i fun n => n.modifyUsage event f') where
  authority j := by
    rw [SameAuthority.modify g' i (fun n => n.authority_modifyUsage _ _) j, h.authority j,
      SameAuthority.modify g i (fun n => n.authority_modifyUsage _ _) j]
  streams j := by
    rw [streams_modify g' i (fun n => n.streams_modifyUsage _ _) j, h.streams j,
      streams_modify g i (fun n => n.streams_modifyUsage _ _) j]
  usage j event' r hr := by
    simp only [usageOf, pool_modifyUsage]
    split
    · rename_i hl
      obtain ⟨rfl, rfl⟩ := hl
      rcases h.pools i event with ⟨hp, hp'⟩ | ⟨p, p', hp, hp', -, -⟩
      · rw [hp, hp']
        rfl
      · rw [hp, hp']
        exact hf p p' hp hp' r hr
    · exact h.usage j event' r hr

/-- The same lease is given back in both. -/
theorem releaseBoth (h : Alike g g') (lease : Lease) :
    Alike (g.release lease) (g'.release lease) := by
  refine h.modifyUsage lease.node lease.event fun p p' hp hp' r hr => ?_
  rcases h.pools lease.node lease.event with ⟨hp₀, -⟩ | ⟨q, q', hq, hq', -, husage⟩
  · rw [hp] at hp₀
    cases hp₀
  · cases hp.symm.trans hq
    cases hp'.symm.trans hq'
    rw [Limits.get_ofValues, Limits.get_ofValues, husage r hr]

/-- A pool that agrees on what is requested can be charged as well. -/
theorem chargePool_of_agree [Target] {p p' : Pool} {requested total : Limits}
    (h : ∀ r, requested.get r = 0 ∨
      (p.usage.get r = p'.usage.get r ∧ p.limits.get r = p'.limits.get r))
    (hc : chargePool p requested = some total) :
    chargePool p' requested =
      some (Limits.ofValues fun r => p'.usage.get r + requested.get r) := by
  obtain ⟨hfit, -⟩ := chargePool_eq_some.mp hc
  refine chargePool_eq_some.mpr ⟨fun r => ?_, fun r => by simp⟩
  rcases h r with hzero | ⟨husage, hlimit⟩
  · exact Or.inl hzero
  · rw [← husage, ← hlimit]
    exact hfit r

/-- What charges for no item is charged in both or in none. -/
theorem charge [Target] (h : Alike g g') (i : NodeId) (event : Option Nat) {usage : Limits}
    (hu : usage.retainedItems = 0) :
    (g'.charge i event usage).1 = (g.charge i event usage).1 ∧
      Alike (g.charge i event usage).2 (g'.charge i event usage).2 := by
  have hrevoked := h.authority.isRevoked_eq i
  have hpools := h.pools i event
  unfold pool at hpools
  unfold Grants.charge
  rw [hrevoked]
  split
  · exact ⟨rfl, h⟩
  · rcases hpools with ⟨hp, hp'⟩ | ⟨p, p', hp, hp', hlimits, husage⟩
    · rw [hp, hp']
      exact ⟨rfl, h⟩
    · rw [hp, hp']
      dsimp only
      have hagree : ∀ r, usage.get r = 0 ∨
          (p.usage.get r = p'.usage.get r ∧ p.limits.get r = p'.limits.get r) := by
        intro r
        by_cases hr : r = .retainedItems
        · subst hr
          exact Or.inl hu
        · exact Or.inr ⟨(husage r hr).symm, by rw [hlimits]⟩
      cases hc : chargePool p usage with
      | none =>
        cases hc' : chargePool p' usage with
        | none => exact ⟨rfl, h⟩
        | some total =>
          rw [chargePool_of_agree (fun r => (hagree r).imp_right fun ha => ⟨ha.1.symm, ha.2.symm⟩)
            hc'] at hc
          cases hc
      | some total =>
        rw [chargePool_of_agree hagree hc]
        refine ⟨rfl, h.modifyUsage i event fun q q' _ _ r hr => ?_⟩
        rw [(chargePool_eq_some.mp hc).2 r, Limits.get_ofValues, husage r hr]

theorem tryChargeStream [Target] (h : Alike g g') (i : NodeId) (event : EventId)
    {usage : StreamLimits} (hu : usage.retainedItems = 0) :
    (g'.tryChargeStream i event usage).1 = (g.tryChargeStream i event usage).1 ∧
      Alike (g.tryChargeStream i event usage).2 (g'.tryChargeStream i event usage).2 := by
  have hindex := h.authority.eventIndex_eq i event
  unfold Grants.tryChargeStream
  cases hn : g.get i with
  | none =>
    rw [hn, Option.map_none, Option.map_eq_none_iff] at hindex
    rw [hindex]
    exact ⟨rfl, h⟩
  | some n =>
    rw [hn, Option.map_some] at hindex
    obtain ⟨n', hn', heq⟩ := Option.map_eq_some_iff.mp hindex
    rw [hn']
    dsimp only at heq ⊢
    rw [heq]
    cases n.eventIndex event with
    | error error => exact ⟨rfl, h⟩
    | ok index => exact h.charge i (some index) hu

theorem registerStream (h : Alike g g') (i : NodeId) (event : EventId) :
    (g'.registerStream i event).1 = (g.registerStream i event).1 ∧
      Alike (g.registerStream i event).2 (g'.registerStream i event).2 := by
  have hrevoked := h.authority.isRevoked_eq i
  have hstreams := h.streams i
  have hlimits := h.authority.nodeLimits_eq i
  have hsame : (g'.registerStream i event).1 = (g.registerStream i event).1 ∧
      ∀ j, ((g'.registerStream i event).2.get j).map GrantNode.streams =
        ((g.registerStream i event).2.get j).map GrantNode.streams := by
    unfold Grants.registerStream
    rw [hrevoked]
    split
    · exact ⟨rfl, h.streams⟩
    · cases hn : g.get i with
      | none =>
        rw [hn, Option.map_none, Option.map_eq_none_iff] at hstreams
        rw [hstreams]
        exact ⟨rfl, h.streams⟩
      | some n =>
        rw [hn, Option.map_some] at hstreams hlimits
        obtain ⟨n', hn', hs⟩ := Option.map_eq_some_iff.mp hstreams
        rw [hn', Option.map_some, Option.some.injEq] at hlimits
        rw [hn']
        dsimp only
        rw [hs, hlimits]
        split
        · exact ⟨rfl, h.streams⟩
        · split
          · exact ⟨rfl, h.streams⟩
          · refine ⟨rfl, fun j => ?_⟩
            dsimp only
            rw [get_modify, get_modify]
            split
            · rename_i hj
              subst hj
              rw [hn, hn']
              simp [hs]
            · exact h.streams j
  refine ⟨hsame.1, fun j => ?_, hsame.2, fun j event' r hr => ?_⟩
  · rw [SameAuthority.registerStream g' i event j, h.authority j,
      SameAuthority.registerStream g i event j]
  · rw [usageOf_registerStream, usageOf_registerStream]
    exact h.usage j event' r hr

end Alike

end Grants

end Hiway
