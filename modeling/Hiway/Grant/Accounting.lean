import Hiway.Grant.Authority

/-!
# Accounting

The usage of every pool is what it was at the start and what the leases taken since
then still hold. `Books` says so for a list of leases; a charge adds one, a release takes
one away, and nothing else changes a counter.

* `charge_eq_ok`, `tryChargeStream_eq_ok`: when a charge succeeds.
* `release`, `charge`: the books with one lease less, and with one more.
* `bounded_of_pools`, `Bounded.release`, `Bounded.charge`: no pool is ever over its limits.
-/

namespace Hiway

open Target

/-! ## Charging one pool -/

namespace Grants

/-- One resource of a charge. -/
theorem chargePool_step [Target] {pool : Pool} {requested : Limits} {usage : Limits}
    (rs : List Resource) (hrs : rs.Nodup) :
    rs.foldlM (fun (usage : Limits) r =>
      if requested.get r = 0 then some usage
      else if usage.get r + requested.get r ≤ usizeMax ∧
          usage.get r + requested.get r ≤ pool.limits.get r then
        some (usage.modify r (· + requested.get r))
      else none) usage =
    if ∀ r ∈ rs, requested.get r = 0 ∨ (usage.get r + requested.get r ≤ usizeMax ∧
        usage.get r + requested.get r ≤ pool.limits.get r) then
      some (Limits.ofValues fun r => if r ∈ rs then usage.get r + requested.get r else usage.get r)
    else none := by
  induction rs generalizing usage with
  | nil =>
    simp only [List.foldlM_nil, List.not_mem_nil, false_implies, implies_true, if_true, if_false]
    exact congrArg some (Limits.ext_get fun r => by simp)
  | cons q rest ih =>
    obtain ⟨hq, hrest⟩ := List.nodup_cons.mp hrs
    rw [List.foldlM_cons]
    by_cases hzero : requested.get q = 0
    · rw [if_pos hzero, Option.bind_eq_bind, Option.bind_some, ih hrest]
      simp only [List.forall_mem_cons, hzero, true_or, true_and]
      split
      · refine congrArg some (Limits.ext_get fun r => ?_)
        by_cases hr : r = q
        · subst hr
          simp [hq, hzero]
        · simp [hr]
      · rfl
    · rw [if_neg hzero]
      by_cases hroom : usage.get q + requested.get q ≤ usizeMax ∧
          usage.get q + requested.get q ≤ pool.limits.get q
      · rw [if_pos hroom, Option.bind_eq_bind, Option.bind_some, ih hrest]
        have hother : ∀ r ∈ rest, (usage.modify q (· + requested.get q)).get r = usage.get r := by
          intro r hr
          have hne : r ≠ q := fun h => hq (h ▸ hr)
          simp [hne]
        have hall : (∀ r ∈ rest, requested.get r = 0 ∨
            ((usage.modify q (· + requested.get q)).get r + requested.get r ≤ usizeMax ∧
              (usage.modify q (· + requested.get q)).get r + requested.get r ≤
                pool.limits.get r)) ↔
            ∀ r ∈ rest, requested.get r = 0 ∨ (usage.get r + requested.get r ≤ usizeMax ∧
              usage.get r + requested.get r ≤ pool.limits.get r) :=
          forall₂_congr fun r hr => by rw [hother r hr]
        simp only [List.forall_mem_cons, hall, hroom, and_self, or_true, true_and]
        split
        · refine congrArg some (Limits.ext_get fun r => ?_)
          by_cases hr : r = q
          · subst hr
            simp [hq]
          · simp [hr]
        · rfl
      · rw [if_neg hroom, Option.bind_eq_bind, Option.bind_none, if_neg]
        rw [List.forall_mem_cons]
        rintro ⟨h | h, -⟩
        · exact hzero h
        · exact hroom h

/-- A charge succeeds when each requested resource has room, and adds the request. -/
theorem chargePool_eq_some [Target] {pool : Pool} {requested total : Limits} :
    chargePool pool requested = some total ↔
      (∀ r, requested.get r = 0 ∨ (pool.usage.get r + requested.get r ≤ usizeMax ∧
        pool.usage.get r + requested.get r ≤ pool.limits.get r)) ∧
      ∀ r, total.get r = pool.usage.get r + requested.get r := by
  unfold chargePool
  rw [chargePool_step Resource.all (by decide)]
  simp only [Resource.mem_all, true_implies, if_true]
  split
  · rename_i hroom
    rw [Option.some.injEq]
    constructor
    · rintro rfl
      exact ⟨fun r => hroom r (Resource.mem_all r), fun r => by simp⟩
    · rintro ⟨-, ht⟩
      exact Limits.ext_get fun r => by simp [ht]
  · rename_i hroom
    refine iff_of_false (by simp) ?_
    rintro ⟨h, -⟩
    exact hroom fun r _ => h r

/-! ## Pools of a tree -/

def pool (g : Grants) (i : NodeId) (event : Option Nat) : Option Pool :=
  (g.get i).bind fun n => n.getPool event

end Grants

theorem GrantNode.getPool_modifyUsage (n : GrantNode) (event event' : Option Nat)
    (f : Limits → Limits) :
    (n.modifyUsage event f).getPool event' =
      if event = event' then (n.getPool event').map fun p => { p with usage := f p.usage }
      else n.getPool event' := by
  cases event with
  | none => cases event' <;> simp [modifyUsage, getPool]
  | some k =>
    cases event' with
    | none => simp [modifyUsage, getPool]
    | some k' =>
      cases hp : n.permissions with
      | none => simp [modifyUsage, getPool, hp]
      | some permissions =>
        simp only [modifyUsage, getPool, hp, Option.map_some, Option.bind_some,
          List.getElem?_modify, Option.some.injEq]
        by_cases hk : k = k'
        · subst hk
          cases permissions[k]? <;> simp
        · simp [hk]

namespace Grants

theorem pool_modifyUsage (g : Grants) (i j : NodeId) (event event' : Option Nat)
    (f : Limits → Limits) :
    (g.modify i fun n => n.modifyUsage event f).pool j event' =
      if i = j ∧ event = event' then
        (g.pool j event').map fun p => { p with usage := f p.usage }
      else g.pool j event' := by
  unfold pool
  rw [get_modify]
  by_cases hi : i = j
  · subst hi
    rw [if_pos rfl]
    cases g.get i with
    | none => simp
    | some n =>
      simp only [Option.map_some, Option.bind_some, GrantNode.getPool_modifyUsage, true_and]
  · simp [hi]

/-- A release takes the lease's amounts out of its pool. -/
theorem pool_release (g : Grants) (lease : Lease) (j : NodeId) (event : Option Nat) :
    (g.release lease).pool j event =
      if lease.node = j ∧ lease.event = event then
        (g.pool j event).map fun p =>
          { p with usage := Limits.ofValues fun r => p.usage.get r - lease.usage.get r }
      else g.pool j event :=
  pool_modifyUsage g lease.node j lease.event event _

/-- A successful charge hands out the lease of what it added to the pool. -/
theorem charge_ok [Target] {g g' : Grants} {i : NodeId} {event : Option Nat} {usage : Limits}
    {lease : Lease} (h : g.charge i event usage = (.ok lease, g')) :
    lease = ⟨i, usage, event⟩ ∧ g.isRevoked i = false ∧ ∃ pool total,
      g.pool i event = some pool ∧ chargePool pool usage = some total ∧
        g' = g.modify i fun n => n.modifyUsage event fun _ => total := by
  unfold charge at h
  split at h
  · cases h
  · rename_i hr
    split at h
    · cases h
    · rename_i pool hpool
      split at h
      · cases h
      · rename_i total htotal
        cases h
        exact ⟨rfl, by simpa using hr, pool, total, hpool, htotal, rfl⟩

/-- When a charge succeeds. -/
theorem charge_eq_ok [Target] {g : Grants} {i : NodeId} {event : Option Nat} {usage : Limits}
    {pool : Pool} (hr : g.isRevoked i = false) (hpool : g.pool i event = some pool)
    (hroom : ∀ r, usage.get r = 0 ∨ (pool.usage.get r + usage.get r ≤ usizeMax ∧
      pool.usage.get r + usage.get r ≤ pool.limits.get r)) :
    (g.charge i event usage).1 = .ok ⟨i, usage, event⟩ := by
  have htotal : chargePool pool usage =
      some (Limits.ofValues fun r => pool.usage.get r + usage.get r) :=
    chargePool_eq_some.mpr ⟨hroom, fun r => by simp⟩
  unfold charge
  rw [hr, if_neg (by decide)]
  have hpool : ((g.get i).bind fun n => n.getPool event) = some pool := hpool
  simp only [hpool, htotal]

/-! ## Books -/

/-- No pool is overdrawn, and every limit is a valid one. -/
def Bounded [Target] (g : Grants) : Prop :=
  ∀ i event p, g.pool i event = some p →
    ∀ r, p.usage.get r ≤ p.limits.get r ∧ p.limits.get r ≤ isizeMax

/-- What the leases on one pool hold of a resource. -/
def held (leases : List Lease) (i : NodeId) (event : Option Nat) (r : Resource) : Nat :=
  ((leases.filter fun l => l.node = i ∧ l.event = event).map fun l => l.usage.get r).sum

/-- The usage of every pool is its share of the start and what `leases` hold. -/
structure Books (base : NodeId → Option Nat → Resource → Nat) (g : Grants)
    (leases : List Lease) : Prop where
  usage : ∀ i event p, g.pool i event = some p →
    ∀ r, p.usage.get r = base i event r + held leases i event r

end Grants

namespace Grants

@[simp] theorem held_nil (i : NodeId) (event : Option Nat) (r : Resource) :
    held [] i event r = 0 := rfl

theorem held_cons (l : Lease) (leases : List Lease) (i : NodeId) (event : Option Nat)
    (r : Resource) :
    held (l :: leases) i event r =
      (if l.node = i ∧ l.event = event then l.usage.get r else 0) + held leases i event r := by
  unfold held
  rw [List.filter_cons]
  by_cases h : l.node = i ∧ l.event = event
  · simp [h]
  · simp [h]

theorem held_perm {leases leases' : List Lease} (h : leases.Perm leases') (i : NodeId)
    (event : Option Nat) (r : Resource) : held leases i event r = held leases' i event r :=
  ((h.filter _).map _).sum_eq

theorem held_append (l m : List Lease) (i : NodeId) (event : Option Nat) (r : Resource) :
    held (l ++ m) i event r = held l i event r + held m i event r := by
  simp [held]

theorem held_le {leases : List Lease} {k : Nat} {r : Resource}
    (h : ∀ l ∈ leases, l.usage.get r ≤ k) (i : NodeId) (event : Option Nat) :
    held leases i event r ≤ leases.length * k := by
  induction leases with
  | nil => exact Nat.zero_le _
  | cons l rest ih =>
    rw [held_cons, List.length_cons, Nat.succ_mul, Nat.add_comm]
    refine Nat.add_le_add (ih fun m hm => h m (List.mem_cons_of_mem l hm)) ?_
    split
    · exact h l List.mem_cons_self
    · exact Nat.zero_le _

/-- A lease of a list is part of what the list holds. -/
theorem le_held {leases : List Lease} {l : Lease} (h : l ∈ leases) (r : Resource) :
    l.usage.get r ≤ held leases l.node l.event r := by
  rw [held_perm (List.perm_cons_erase h), held_cons, if_pos ⟨rfl, rfl⟩]
  exact Nat.le_add_right _ _

/-- The index of an event names one of the node's pools. -/
theorem pool_of_eventIndex {g : Grants} {i : NodeId} {event : EventId} {index : Nat}
    (h : (g.get i).map (fun n => n.eventIndex event) = some (.ok index)) :
    ∃ p, g.pool i (some index) = some p := by
  cases hn : g.get i with
  | none =>
    rw [hn] at h
    cases h
  | some n =>
    rw [hn, Option.map_some, Option.some.injEq] at h
    unfold GrantNode.eventIndex at h
    cases hp : n.permissions with
    | none =>
      rw [hp] at h
      cases h
    | some permissions =>
      rw [hp] at h
      dsimp only at h
      split at h
      · cases h
      · rename_i hk
        cases h
        obtain ⟨entry, hentry, -⟩ := Search.binarySearch_sound hk
        exact ⟨entry.pool, by simp [pool, hn, GrantNode.getPool, hp, hentry]⟩

/-- When a charge of an event succeeds. -/
theorem tryChargeStream_eq_ok [Target] {g : Grants} {i : NodeId} {event : EventId} {index : Nat}
    (usage : StreamLimits) {p : Pool} (hr : g.isRevoked i = false)
    (hn : (g.get i).map (fun n => n.eventIndex event) = some (.ok index))
    (hp : g.pool i (some index) = some p)
    (hroom : ∀ r, usage.asLimits.get r = 0 ∨ (p.usage.get r + usage.asLimits.get r ≤ usizeMax ∧
      p.usage.get r + usage.asLimits.get r ≤ p.limits.get r)) :
    (g.tryChargeStream i event usage).1 = .ok ⟨i, usage.asLimits, some index⟩ := by
  have hcharge := charge_eq_ok hr hp hroom
  cases hget : g.get i with
  | none =>
    rw [hget] at hn
    cases hn
  | some n =>
    rw [hget, Option.map_some, Option.some.injEq] at hn
    unfold tryChargeStream
    rw [hget]
    dsimp only
    rw [hn]
    exact hcharge

/-- A charge of an event by a node that may charge it fails only for want of room. -/
theorem tryChargeStream_or [Target] {g : Grants} {i : NodeId} {event : EventId} {index : Nat}
    {usage : StreamLimits} {p : Pool} (hr : g.isRevoked i = false)
    (hn : (g.get i).map (fun n => n.eventIndex event) = some (.ok index))
    (hp : g.pool i (some index) = some p) :
    (∃ g', g.tryChargeStream i event usage = (.ok ⟨i, usage.asLimits, some index⟩, g')) ∨
    g.tryChargeStream i event usage = (.error .capacity, g) := by
  cases hget : g.get i with
  | none =>
    rw [hget] at hn
    cases hn
  | some n =>
    rw [hget, Option.map_some, Option.some.injEq] at hn
    have hp : ((g.get i).bind fun n => n.getPool (some index)) = some p := hp
    unfold tryChargeStream charge
    rw [hget]
    dsimp only
    rw [hn]
    dsimp only
    rw [hr, if_neg (by decide), ← hget, hp]
    dsimp only
    cases chargePool p usage.asLimits with
    | none => exact Or.inr rfl
    | some total => exact Or.inl ⟨_, rfl⟩

/-- The usage of every pool as it is now. -/
def usageOf (g : Grants) (i : NodeId) (event : Option Nat) (r : Resource) : Nat :=
  (g.pool i event).elim 0 fun p => p.usage.get r

namespace Books

theorem start (g : Grants) : Books g.usageOf g [] where
  usage := by
    intro i event p hp r
    simp [usageOf, hp]

variable {base : NodeId → Option Nat → Resource → Nat} {g g' : Grants} {leases leases' : List Lease}

theorem perm (h : Books base g leases) (hp : leases.Perm leases') : Books base g leases' where
  usage := by
    intro i event p hpool r
    rw [← held_perm hp]
    exact h.usage i event p hpool r

/-- Nothing happened to the pools. -/
theorem of_pools (h : Books base g leases) (hg : ∀ i event, g'.pool i event = g.pool i event) :
    Books base g' leases where
  usage := by
    intro i event p hpool
    rw [hg] at hpool
    exact h.usage i event p hpool

theorem release {l : Lease} (h : Books base g (l :: leases)) :
    Books base (g.release l) leases where
  usage := by
    intro i event p hpool r
    rw [pool_release] at hpool
    split at hpool
    · rename_i hl
      obtain ⟨p₀, hp₀, rfl⟩ := Option.map_eq_some_iff.mp hpool
      have hu := h.usage i event p₀ hp₀ r
      rw [held_cons, if_pos hl] at hu
      simp only [Limits.get_ofValues]
      omega
    · rename_i hl
      have hu := h.usage i event p hpool r
      rw [held_cons, if_neg hl, Nat.zero_add] at hu
      exact hu

theorem charge [Target] {i : NodeId} {event : Option Nat} {usage : Limits} {lease : Lease}
    (h : Books base g leases) (hc : g.charge i event usage = (.ok lease, g')) :
    Books base g' (lease :: leases) where
  usage := by
    obtain ⟨rfl, -, p₀, total, hp₀, htotal, rfl⟩ := charge_ok hc
    intro j event' p hpool r
    rw [pool_modifyUsage] at hpool
    rw [held_cons]
    split at hpool
    · rename_i hl
      obtain ⟨p₁, hp₁, rfl⟩ := Option.map_eq_some_iff.mp hpool
      obtain ⟨rfl, rfl⟩ := hl
      rw [hp₀] at hp₁
      cases hp₁
      have hu := h.usage i event p₀ hp₀ r
      simp only [and_self, if_true, (chargePool_eq_some.mp htotal).2 r]
      omega
    · rename_i hl
      rw [if_neg hl, Nat.zero_add]
      exact h.usage j event' p hpool r

end Books

theorem bounded_of_pools [Target] {g g' : Grants} (h : g.Bounded)
    (hg : ∀ i event, g'.pool i event = g.pool i event) : g'.Bounded := by
  intro i event p hpool
  rw [hg] at hpool
  exact h i event p hpool

theorem Bounded.release [Target] {g : Grants} (h : g.Bounded) (l : Lease) :
    (g.release l).Bounded := by
  intro i event p hpool r
  rw [pool_release] at hpool
  split at hpool
  · obtain ⟨p₀, hp₀, rfl⟩ := Option.map_eq_some_iff.mp hpool
    obtain ⟨hle, hlim⟩ := h i event p₀ hp₀ r
    refine ⟨?_, hlim⟩
    simp only [Limits.get_ofValues]
    exact (Nat.sub_le _ _).trans hle
  · exact h i event p hpool r

theorem Bounded.charge [Target] {g : Grants} (h : g.Bounded) (i : NodeId) (event : Option Nat)
    (usage : Limits) : (g.charge i event usage).2.Bounded := by
  cases hc : g.charge i event usage with
  | mk result g' =>
    cases result with
    | error error =>
      rw [charge_error hc]
      exact h
    | ok lease =>
      obtain ⟨-, -, p₀, total, hp₀, htotal, rfl⟩ := charge_ok hc
      intro j event' p hpool r
      rw [pool_modifyUsage] at hpool
      split at hpool
      · rename_i hl
        obtain ⟨p₁, hp₁, rfl⟩ := Option.map_eq_some_iff.mp hpool
        obtain ⟨rfl, rfl⟩ := hl
        rw [hp₀] at hp₁
        cases hp₁
        obtain ⟨hroom, hsum⟩ := chargePool_eq_some.mp htotal
        obtain ⟨hle, hlim⟩ := h i event p₀ hp₀ r
        refine ⟨?_, hlim⟩
        dsimp only
        rw [hsum r]
        rcases hroom r with hz | ⟨-, hfit⟩
        · omega
        · exact hfit
      · exact h j event' p hpool r

/-! ## Operations that change no counter -/

theorem pool_registerStream (g : Grants) (i : NodeId) (stream : EventId) (j : NodeId)
    (event : Option Nat) : (g.registerStream i stream).2.pool j event = g.pool j event := by
  unfold registerStream
  split
  · rfl
  · split
    · rfl
    · split
      · rfl
      · split
        · rfl
        · simp only [pool, get_modify]
          by_cases h : i = j
          · rw [if_pos h]
            cases g.get j <;> rfl
          · rw [if_neg h]

theorem pool_revoke (g : Grants) (i j : NodeId) (event : Option Nat) :
    (g.revoke i).pool j event = g.pool j event := by
  simp only [pool, get_revoke]
  cases g.get j with
  | none => rfl
  | some n =>
    simp only [Option.map_some, Option.bind_some]
    split <;> rfl

end Grants

end Hiway
