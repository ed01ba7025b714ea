import Hiway.Grant.Attenuation
import Hiway.Grant.Live
import Hiway.Lib.Forest

/-!
# Registrations under delegation

A node registers for as many streams as its limits allow, and delegates as much of the same
allowance as its pool has. The one is a test of its own list, the other a charge, and
neither knows of the other, so the two together may spend an allowance twice. A tree in
which no node does so keeps every subtree within the limits of its root.

* `Spare`: no node has registered and delegated more streams than its limits have.
* `registrations_le`: in such a tree every subtree keeps within the limits of its top.
* `Estate.sparesAll`: the condition on the steps of a run: none takes an allowance that has
  been taken the other way.
* `registrations_conserved`: in such a run the registrations of a node below the root and of
  its live descendants stay within its limits.
* `registrations_exceed`: a run outside of it in which they do not.
-/

namespace Hiway

open Target

namespace Grants

/-! ## Subtrees -/

/-- How many streams a node is registered for. -/
def registeredAt (g : Grants) (i : NodeId) : Nat := (g.get i).elim 0 fun n => n.streams.length

/-- The live nodes. -/
def live (g : Grants) : Finset NodeId :=
  (Finset.range g.nodes.length).filter fun j => (g.get j).isSome

/-- A node and its live descendants. -/
def subtree (g : Grants) (i : NodeId) : Finset NodeId := g.live.filter fun j => i ∈ g.path j

/-- The registrations of a node and its live descendants. -/
def registrations (g : Grants) (i : NodeId) : Nat := ∑ j ∈ g.subtree i, g.registeredAt j

theorem mem_live {g : Grants} {j : NodeId} : j ∈ g.live ↔ ∃ n, g.get j = some n := by
  unfold live
  rw [Finset.mem_filter, Finset.mem_range, Option.isSome_iff_exists]
  exact ⟨fun h => h.2, fun ⟨n, hn⟩ => ⟨Slots.lt_of_entry hn, n, hn⟩⟩

theorem Founded.parent_lt {g : Grants} (h : g.Founded) {j p : NodeId}
    (hp : (g.get j).bind GrantNode.parent = some p) : p < j := by
  obtain ⟨n, hn, hparent⟩ := Option.bind_eq_some_iff.mp hp
  obtain ⟨l, hl, rfl⟩ := Option.map_eq_some_iff.mp hparent
  exact (h.reserved j n hn l (by simp [GrantNode.reservations, hl])).2.1

/-- Enough fuel finds all ancestors. -/
theorem Founded.chain_eq {g : Grants} (h : g.Founded) {fuel j : Nat} (hj : j < fuel) :
    g.chain fuel j = g.path j := by
  induction j using Nat.strongRecOn generalizing fuel with
  | ind j ih =>
    obtain ⟨fuel, rfl⟩ : ∃ n, fuel = n + 1 := ⟨fuel - 1, by omega⟩
    have hle : j ≤ fuel := Nat.lt_succ_iff.mp hj
    unfold path chain
    cases hp : (g.get j).bind GrantNode.parent with
    | none => rfl
    | some p =>
      have hlt := h.parent_lt hp
      dsimp only
      rw [ih p hlt (hlt.trans_le hle), ih p hlt hlt]

/-- The way of a child is the child and the way of its parent. -/
theorem Founded.path_parent {g : Grants} (h : g.Founded) {j p : NodeId}
    (hp : (g.get j).bind GrantNode.parent = some p) : g.path j = j :: g.path p := by
  have hlt := h.parent_lt hp
  rw [← h.chain_eq hlt]
  unfold path
  rw [chain, hp]

theorem path_orphan {g : Grants} {j : NodeId} (hp : (g.get j).bind GrantNode.parent = none) :
    g.path j = [j] := by
  unfold path
  rw [chain, hp]

theorem Founded.le_of_mem_path {g : Grants} (h : g.Founded) {j k : NodeId} (hk : k ∈ g.path j) :
    k ≤ j := by
  induction j using Nat.strongRecOn with
  | ind j ih =>
    cases hp : (g.get j).bind GrantNode.parent with
    | none =>
      rw [path_orphan hp, List.mem_singleton] at hk
      exact hk.le
    | some p =>
      rw [h.path_parent hp] at hk
      rcases List.mem_cons.mp hk with rfl | hk
      · exact le_rfl
      · have hlt := h.parent_lt hp
        exact (ih p hlt hk).trans hlt.le

/-! ## What is delegated -/

/-- What the live nodes hold of one pool. -/
theorem held_reservations (g : Grants) (i : NodeId) (event : Option Nat) (r : Resource) :
    held g.reservations i event r =
      ∑ j ∈ Finset.range g.nodes.length,
        (g.get j).elim 0 fun n => held n.reservations i event r := by
  obtain ⟨nodes⟩ := g
  unfold reservations get
  dsimp only
  induction nodes with
  | nil => rfl
  | cons o rest ih =>
    rw [List.flatMap_cons, held_append, ih, List.length_cons, Finset.sum_range_succ']
    have hfirst : held (o.elim [] GrantNode.reservations) i event r =
        o.elim 0 fun n => held n.reservations i event r := by
      cases o <;> rfl
    rw [hfirst, Nat.add_comm]
    rfl

/-- A limit on streams. -/
def streamLimit (g : Grants) (i : NodeId) : Nat := (g.get i).elim 0 fun n => n.limits.streams

/-- What a node has of its parent is charged there with the limit of the node, and a node
below the root has registered for no more than what it has not delegated. -/
structure Careful (i : NodeId) (n : GrantNode) : Prop where
  charged : ∀ l, n.parentReservation = some l → l.event = none ∧ l.usage.streams = n.limits.streams
  spare : i ≠ 0 → n.streams.length + n.pool.usage.streams ≤ n.limits.streams

def Spare (g : Grants) : Prop := ∀ i n, g.get i = some n → Careful i n

/-- The children of a node have no more than what its pool has given away. -/
theorem delegated_le {g : Grants} {outside : List Lease} (hb : g.Exact (outside ++ g.reservations))
    (hspare : g.Spare) {i : NodeId} {n : GrantNode} (hn : g.get i = some n) :
    ∑ c ∈ g.live with (g.get c).bind GrantNode.parent = some i, g.streamLimit c ≤
      n.pool.usage.streams := by
  have hpool : g.pool i none = some n.pool := by
    unfold pool
    rw [hn]
    rfl
  have husage : n.pool.usage.streams = 0 + held (outside ++ g.reservations) i none .streams :=
    hb.usage i none n.pool hpool .streams
  rw [husage, Nat.zero_add, held_append, held_reservations]
  refine le_trans ?_ (Nat.le_add_left _ _)
  refine (Finset.sum_le_sum fun c hc => ?_).trans (Finset.sum_le_sum_of_subset
    ((Finset.filter_subset _ _).trans (Finset.filter_subset _ _)))
  obtain ⟨hlive, hparent⟩ := Finset.mem_filter.mp hc
  obtain ⟨m, hm, hparent⟩ := Option.bind_eq_some_iff.mp hparent
  obtain ⟨l, hl, hnode⟩ := Option.map_eq_some_iff.mp hparent
  obtain ⟨hevent, hstreams⟩ := (hspare c m hm).charged l hl
  have hmem : l ∈ m.reservations := by simp [GrantNode.reservations, hl]
  have hle := le_held hmem .streams
  rw [hnode, hevent] at hle
  have hle : l.usage.streams ≤ held m.reservations i none .streams := hle
  unfold streamLimit
  rw [hm]
  rw [hstreams] at hle
  exact hle

/-- In such a tree every subtree keeps within the limits of its top. -/
theorem registrations_le {g : Grants} {outside : List Lease}
    (hb : g.Exact (outside ++ g.reservations)) (hf : g.Founded) (hspare : g.Spare) {i : NodeId}
    {n : GrantNode} (hi : i ≠ 0) (hn : g.get i = some n) :
    g.registrations i ≤ n.limits.streams := by
  have hself : ∀ j, j ∈ g.path j := by
    intro j
    unfold path
    rw [chain]
    exact List.mem_cons_self
  have hlimit : g.streamLimit i = n.limits.streams := by
    unfold streamLimit
    rw [hn]
    rfl
  rw [← hlimit]
  refine Forest.sum_use_le (fun j => (g.get j).bind GrantNode.parent)
    ?_ (Finset.filter_subset _ _) ?_ ?_
  · exact Finset.mem_filter.mpr ⟨mem_live.mpr ⟨n, hn⟩, hself i⟩
  · intro c hc hne
    obtain ⟨hlive, hpath⟩ := Finset.mem_filter.mp hc
    cases hp : (g.get c).bind GrantNode.parent with
    | none =>
      rw [path_orphan hp, List.mem_singleton] at hpath
      exact absurd hpath.symm hne
    | some p =>
      rw [hf.path_parent hp] at hpath
      have hpath := (List.mem_cons.mp hpath).resolve_left (Ne.symm hne)
      obtain ⟨m, hm, hparent⟩ := Option.bind_eq_some_iff.mp hp
      exact ⟨p, Finset.mem_filter.mpr ⟨mem_live.mpr (hf.parent hm hparent), hpath⟩, rfl⟩
  · intro j hj
    obtain ⟨hlive, hpath⟩ := Finset.mem_filter.mp hj
    obtain ⟨m, hm⟩ := mem_live.mp hlive
    have hne : j ≠ 0 := by
      rintro rfl
      exact hi (Nat.le_zero.mp (hf.le_of_mem_path hpath))
    have hdelegated := delegated_le hb hspare hm
    have hm' := (hspare j m hm).spare hne
    unfold registeredAt
    have hlimit : g.streamLimit j = m.limits.streams := by
      unfold streamLimit
      rw [hm]
      rfl
    rw [hlimit, hm, Option.elim_some]
    omega

/-! ## Steps of careful nodes -/

section

variable {g : Grants}

theorem Spare.modify (h : g.Spare) {i : NodeId} {f : GrantNode → GrantNode}
    (hf : ∀ n, g.get i = some n → Careful i n → Careful i (f n)) : (g.modify i f).Spare := by
  intro j n hn
  rw [get_modify] at hn
  split at hn
  · rename_i hij
    subst hij
    obtain ⟨m, hm, rfl⟩ := Option.map_eq_some_iff.mp hn
    exact hf m hm (h i m hm)
  · exact h j n hn

/-- Usage of the generic pool that still fits. -/
theorem Careful.modifyUsage {i : NodeId} {n : GrantNode} (h : Careful i n) {event : Option Nat}
    {f : Limits → Limits} (hf : event = none → i ≠ 0 →
      n.streams.length + (f n.pool.usage).streams ≤ n.limits.streams) :
    Careful i (n.modifyUsage event f) := by
  cases event with
  | none => exact ⟨h.charged, fun hi => hf rfl hi⟩
  | some index => exact ⟨h.charged, h.spare⟩

/-- What is given back can be spent again. -/
theorem Spare.release (h : g.Spare) (lease : Lease) : (g.release lease).Spare := by
  refine h.modify fun n _ hn => hn.modifyUsage fun _ hi => ?_
  exact (Nat.add_le_add_left (Nat.sub_le n.pool.usage.streams lease.usage.streams) _).trans
    (hn.spare hi)

theorem Spare.foldl_release (leases : List Lease) (h : g.Spare) :
    (leases.foldl Grants.release g).Spare := by
  induction leases generalizing g with
  | nil => exact h
  | cons l rest ih => exact ih (h.release l)

/-- A charge on the generic pool of a node below the root needs room beside the node's
registrations. -/
theorem Spare.charge [Target] (h : g.Spare) (i : NodeId) (event : Option Nat) (usage : Limits)
    (hroom : ∀ n, g.get i = some n → event = none → i ≠ 0 →
      n.pool.usage.streams + usage.streams ≤ n.pool.limits.streams →
      n.streams.length + n.pool.usage.streams + usage.streams ≤ n.limits.streams) :
    (g.charge i event usage).2.Spare := by
  cases hc : g.charge i event usage with
  | mk result g' =>
    cases result with
    | error error =>
      rw [charge_error hc]
      exact h
    | ok lease =>
      obtain ⟨-, -, p, total, hp, htotal, rfl⟩ := charge_ok hc
      refine h.modify fun n hget hn => hn.modifyUsage fun hevent hi => ?_
      subst hevent
      have hpool : n.pool = p := by
        unfold pool at hp
        rw [hget] at hp
        exact Option.some.inj hp
      obtain ⟨hfit, hsum⟩ := chargePool_eq_some.mp htotal
      have hsum : total.streams = n.pool.usage.streams + usage.streams := hpool ▸ hsum .streams
      have hfit : usage.streams = 0 ∨ _ ∧
          n.pool.usage.streams + usage.streams ≤ n.pool.limits.streams := hpool ▸ hfit .streams
      rw [hsum]
      rcases hfit with hzero | ⟨-, hfit⟩
      · rw [hzero]
        exact hn.spare hi
      · have hroom := hroom n hget rfl hi hfit
        omega

theorem Spare.registerStream (h : g.Spare) {i : NodeId} {event : EventId}
    (hroom : ∀ n, g.get i = some n → i ≠ 0 → event ∉ n.streams →
      n.streams.length < n.limits.streams →
      n.streams.length + n.pool.usage.streams < n.limits.streams) :
    (g.registerStream i event).2.Spare := by
  unfold Grants.registerStream
  split
  · exact h
  · split
    · exact h
    · rename_i n hn
      split
      · exact h
      · rename_i hnew
        split
        · exact h
        · rename_i hfit
          refine h.modify fun m hm hcareful => ⟨hcareful.charged, fun hi => ?_⟩
          rw [hn] at hm
          cases hm
          have hroom := hroom n hn hi (by simpa using hnew) (by omega)
          dsimp only
          rw [List.length_append, List.length_singleton]
          omega

theorem Spare.revoke (h : g.Spare) (i : NodeId) : (g.revoke i).Spare := by
  intro j n hn
  rw [get_revoke] at hn
  obtain ⟨m, hm, rfl⟩ := Option.map_eq_some_iff.mp hn
  have hcareful := h j m hm
  split
  · exact ⟨hcareful.charged, hcareful.spare⟩
  · exact hcareful

theorem Spare.dropNode (h : g.Spare) (i : NodeId) : (g.dropNode i).Spare := by
  rcases g.dropNode_cases i with he | ⟨n, hn, -, he⟩
  · rw [he]
    exact h
  · rw [he]
    refine Spare.foldl_release _ fun j m hm => ?_
    rw [get_set_none hn] at hm
    split at hm
    · cases hm
    · exact h j m hm

theorem Spare.chargedEvents [Target] {i : NodeId} {g' : Grants} {permissions : List Permission}
    {leases : List Lease} (hcharged : ChargedEvents i g permissions leases g') (h : g.Spare) :
    g'.Spare := by
  induction hcharged with
  | nil => exact h
  | @cons g g₁ g' permission rest lease leases hcharge hrest ih =>
    refine ih ?_
    unfold Grants.tryChargeStream at hcharge
    split at hcharge
    · cases hcharge
    · split at hcharge
      · cases hcharge
      · rename_i index hindex
        have hspare := h.charge i (some index) permission.limits.asLimits
          fun _ _ hnone => by cases hnone
        rw [hcharge] at hspare
        exact hspare

/-- The permissions of a child take nothing of its streams. -/
theorem partitionFrom_streams {previous permissions : List Permission} {generic generic' : Limits}
    (h : partitionFrom previous generic permissions = .ok generic') :
    generic'.streams = generic.streams := by
  induction permissions generalizing previous generic with
  | nil =>
    cases h
    rfl
  | cons permission rest ih =>
    unfold partitionFrom at h
    split at h
    · split at h
      · cases h
      · exact ih h
    · obtain ⟨generic₁, hreserve, h⟩ := Exec.except_bind_eq_ok.mp h
      rw [ih h]
      unfold Limits.reserve at hreserve
      split at hreserve
      · cases hreserve
      · split at hreserve
        · cases hreserve
        · split at hreserve
          · cases hreserve
          · cases hreserve
            rfl

/-- A child is charged with the limit on streams that it gets. -/
theorem requested_streams [Target] {i : NodeId} {permissions : List Permission}
    {limits generic amount : Limits}
    (h : g.requested i permissions limits = .ok (generic, amount)) :
    amount.streams = limits.streams ∧ generic.streams = limits.streams := by
  obtain ⟨-, -, -, hpartition, rfl⟩ := requested_ok h
  have hgeneric := partitionFrom_streams hpartition
  refine ⟨?_, hgeneric⟩
  dsimp only
  split
  · rfl
  · exact hgeneric

theorem length_le_restrict [Target] (g : Grants) (i : NodeId) (permissions sorted : List Permission)
    (limits : Limits) :
    g.nodes.length ≤ (g.restrict i permissions sorted limits).2.nodes.length := by
  rcases g.restrict_cases i permissions sorted limits with
    ⟨error, he⟩ | ⟨generic, amount, reservation, g₁, events, g₂, -, hcharge, hevents, -, he⟩
  · rw [he]
  · have hlength₁ := length_charge g i none amount
    rw [show g.charge i none amount = (.ok reservation, g₁) from hcharge] at hlength₁
    have hlength₂ : g₂.nodes.length = g₁.nodes.length := by
      rcases hevents with ⟨-, hcharged⟩ | ⟨-, -, rfl⟩
      · exact hcharged.length
      · rfl
    rw [he, List.length_append, hlength₂, hlength₁]
    exact Nat.le_add_right _ _

/-- A node has what a child asks of it, in its own pool and in those of its events. -/
def affords [Target] (g : Grants) (i : NodeId) (permissions sorted : List Permission)
    (limits : Limits) : Bool :=
  match g.requested i permissions limits with
  | .error _ => false
  | .ok (_, amount) =>
    match g.tryCharge i amount with
    | (.error _, _) => false
    | (.ok _, g₁) => (g.get i).all (fun n => n.permissions.isNone) ||
        (g₁.chargeEvents i (dedup sorted) []).1.isOk

theorem ChargedEvents.chargeEvents_eq [Target] {i : NodeId} {g g' : Grants}
    {permissions : List Permission} {leases : List Lease}
    (h : ChargedEvents i g permissions leases g') (before : List Lease) :
    g.chargeEvents i permissions before = (.ok (before ++ leases), g') := by
  induction h generalizing before with
  | nil => rw [chargeEvents, List.append_nil]
  | cons hcharge _ ih =>
    rw [chargeEvents, hcharge]
    dsimp only
    rw [ih, List.append_assoc, List.singleton_append]

/-- A delegation needs room beside the node's registrations. -/
theorem Spare.restrict [Target] (h : g.Spare) {i : NodeId} {permissions sorted : List Permission}
    {limits : Limits}
    (hroom : ∀ n, g.get i = some n → i ≠ 0 → g.affords i permissions sorted limits = true →
      n.streams.length + n.pool.usage.streams + limits.streams ≤ n.limits.streams) :
    (g.restrict i permissions sorted limits).2.Spare := by
  rcases g.restrict_cases i permissions sorted limits with
    ⟨error, he⟩ | ⟨generic, amount, reservation, g₁, events, g₂, hrequested, hcharge, hevents, -, he⟩
  · rw [he]
    exact h
  · obtain ⟨hstreams, -⟩ := requested_streams hrequested
    have haffords : g.affords i permissions sorted limits = true := by
      unfold affords
      rw [hrequested]
      dsimp only
      rw [hcharge]
      dsimp only
      rcases hevents with ⟨-, hcharged⟩ | ⟨hnone, -⟩
      · rw [hcharged.chargeEvents_eq]
        exact Bool.or_true _
      · refine Bool.or_eq_true_iff.mpr (Or.inl ?_)
        cases hn : g.get i with
        | none => rfl
        | some n =>
          rw [hn, Option.any_some] at hnone
          rw [Option.all_some, ← Option.not_isSome, hnone]
          rfl
    have hcharge : g.charge i none amount = (.ok reservation, g₁) := hcharge
    have hspare₁ : g₁.Spare := by
      have hspare := h.charge i none amount fun n hn _ hi _ => by
        rw [hstreams]
        exact hroom n hn hi haffords
      rw [hcharge] at hspare
      exact hspare
    have hspare₂ : g₂.Spare := by
      rcases hevents with ⟨-, hcharged⟩ | ⟨-, -, rfl⟩
      · exact hspare₁.chargedEvents hcharged
      · exact hspare₁
    obtain ⟨rfl, -⟩ := charge_ok hcharge
    rw [he]
    intro j n hn
    rw [get_snoc] at hn
    split at hn
    · cases hn
      refine ⟨?_, fun _ => Nat.zero_le _⟩
      rintro l hl
      cases hl
      exact ⟨rfl, hstreams⟩
    · exact hspare₂ j n hn

end

end Grants

/-! ## Runs -/

/-- A fabric: its grants, the leases that streams, endpoints and transports hold, and the
streams that have been declared. -/
structure Estate where
  grants : Grants
  leases : List Lease
  declared : List EventId

namespace Estate

inductive Op where
  /-- `create_stream` charges the root. -/
  | declare (event : EventId) (allowance : Limits)
  | restrict (node : NodeId) (request : Request)
  /-- `Grant::stream`, with which `sender` and `subscribe` begin. The call may ask for the
  declared payload type and wire generation, or for others. -/
  | resolve (node : NodeId) (event : EventId) (rights : Rights) (fits : Bool)
  /-- `close_stream` resolves the stream at the root, and it stays declared. -/
  | close (event : EventId) (fits : Bool)
  /-- Any other charge: for items, subscriptions, waiters, connections or bytes. -/
  | charge (node : NodeId) (event : Option Nat) (usage : Limits) (h : usage.streams = 0)
  /-- A lease is dropped. -/
  | release (index : Nat)
  | revoke (node : NodeId)
  /-- The last handle of a node below the root is dropped. -/
  | drop (node : NodeId)

variable [Target]

def start (limits : Limits) : Estate := ⟨(Lineage.root limits).grants, [], []⟩

/-- A charge and who holds it then. -/
def charged (s : Estate) (node : NodeId) (event : Option Nat) (usage : Limits) : Estate :=
  match s.grants.charge node event usage with
  | (.ok lease, grants) => { s with grants := grants, leases := lease :: s.leases }
  | (.error _, grants) => { s with grants := grants }

def resolved (s : Estate) (node : NodeId) (event : EventId) (rights : Rights) (fits : Bool) :
    Estate :=
  if s.grants.check node event rights = .ok () ∧ event ∈ s.declared ∧ fits = true then
    { s with grants := (s.grants.registerStream node event).2 }
  else s

def step (s : Estate) : Op → Estate
  | .declare event allowance =>
    if event ∈ s.declared then s
    else
      let t := s.charged 0 none allowance
      if t.leases.length = s.leases.length then t else { t with declared := event :: t.declared }
  | .restrict node request =>
    { s with
      grants := (s.grants.restrict node request.permissions request.sorted request.limits).2 }
  | .resolve node event rights fits => s.resolved node event rights fits
  | .close event fits => s.resolved 0 event .publish fits
  | .charge node event usage _ => s.charged node event usage
  | .release index =>
    match s.leases[index]? with
    | some lease => { s with
        grants := s.grants.release lease
        leases := s.leases.eraseIdx index }
    | none => s
  | .revoke node => { s with grants := s.grants.revoke node }
  | .drop node => if node = 0 then s else { s with grants := s.grants.dropNode node }

def run (limits : Limits) (ops : List Op) : Estate := ops.foldl step (start limits)

/-- A registration or a delegation of a node below the root does not take what the other
one has taken before. The tests of the program are what precedes the last inequality: a call
that they refuse takes nothing. -/
def spares (s : Estate) : Op → Bool
  | .resolve node event rights fits => (s.grants.get node).all fun n => decide <|
    node ≠ 0 → s.grants.check node event rights = .ok () → event ∈ s.declared → fits = true →
      event ∉ n.streams → n.streams.length < n.limits.streams →
        n.streams.length + n.pool.usage.streams < n.limits.streams
  | .restrict node request => (s.grants.get node).all fun n => decide <|
    node ≠ 0 → s.grants.affords node request.permissions request.sorted request.limits = true →
      n.streams.length + n.pool.usage.streams + request.limits.streams ≤ n.limits.streams
  | _ => true

/-- Every step of the run spares what has been taken. -/
def sparesAll : Estate → List Op → Bool
  | _, [] => true
  | s, op :: rest => s.spares op && (s.step op).sparesAll rest

/-- The books are exact, and every node is careful. -/
structure Inv (s : Estate) : Prop where
  exact : s.grants.Exact (s.leases ++ s.grants.reservations)
  bounded : s.grants.Bounded
  founded : s.grants.Founded
  live : ∀ l ∈ s.leases, l.node < s.grants.nodes.length
  spare : s.grants.Spare

namespace Inv

variable {s : Estate} {g : Grants}

theorem start {limits : Limits} (h : limits.validate = .ok ()) : (Estate.start limits).Inv := by
  have hget : ∀ i n, (Estate.start limits).grants.get i = some n → i = 0 ∧
      n = ⟨limits, Pool.new limits, none, none, [], false, 0, []⟩ := fun _ _ => Lineage.get_root
  have hpool : ∀ i event p, (Estate.start limits).grants.pool i event = some p →
      p = Pool.new limits := fun _ _ _ => Lineage.pool_root
  refine ⟨⟨fun i event p hp r => ?_⟩, fun i event p hp r => ?_, ⟨⟨_, rfl⟩, fun i n hn l hl => ?_⟩,
    fun _ hl => absurd hl List.not_mem_nil, fun i n hn => ?_⟩
  · rw [hpool i event p hp]
    exact Limits.get_zero r
  · rw [hpool i event p hp]
    exact ⟨(Limits.get_zero r).trans_le (Nat.zero_le _), Limits.validate_ok h r⟩
  · obtain ⟨-, rfl⟩ := hget i n hn
    cases hl
  · obtain ⟨rfl, rfl⟩ := hget i n hn
    exact ⟨fun l hl => (by cases hl), fun hne => absurd rfl hne⟩

/-- Nothing but authority and registrations has changed. -/
theorem steady (h : s.Inv) (hs : s.grants.Steady g) (hb : g.Exact (s.leases ++ g.reservations))
    (hbounded : g.Bounded) (hspare : g.Spare) : Inv { s with grants := g } where
  exact := hb
  bounded := hbounded
  founded := h.founded.steady hs
  live := fun l hl => hs.length ▸ h.live l hl
  spare := hspare

theorem charged (h : s.Inv) (node : NodeId) (event : Option Nat) (usage : Limits)
    (hroom : ∀ n, s.grants.get node = some n → event = none → node ≠ 0 →
      n.pool.usage.streams + usage.streams ≤ n.pool.limits.streams →
      n.streams.length + n.pool.usage.streams + usage.streams ≤ n.limits.streams) :
    (s.charged node event usage).Inv := by
  have hsteady := Grants.Steady.charge s.grants node event usage
  have hbounded := h.bounded.charge node event usage
  have hspare := h.spare.charge node event usage hroom
  unfold Estate.charged
  cases hc : s.grants.charge node event usage with
  | mk result g =>
    rw [hc] at hsteady hbounded hspare
    cases result with
    | error error =>
      have hsame := Grants.charge_error hc
      exact h.steady hsteady (hsame.symm ▸ h.exact) hbounded hspare
    | ok lease =>
      have hexact : g.Exact (lease :: (s.leases ++ s.grants.reservations)) :=
        Grants.Books.charge h.exact hc
      obtain ⟨rfl, -, p, total, hp, -, -⟩ := Grants.charge_ok hc
      obtain ⟨n, hn, -⟩ := Option.bind_eq_some_iff.mp hp
      refine ⟨?_, hbounded, h.founded.steady hsteady, ?_, hspare⟩
      · dsimp only
        rw [hsteady.reservations]
        exact hexact
      · refine List.forall_mem_cons.mpr ⟨?_, fun l hl => ?_⟩
        · rw [hsteady.length]
          exact Slots.lt_of_entry hn
        · rw [hsteady.length]
          exact h.live l hl

theorem resolved (h : s.Inv) {node : NodeId} {event : EventId} {rights : Rights} {fits : Bool}
    (hroom : ∀ n, s.grants.get node = some n → node ≠ 0 →
      s.grants.check node event rights = .ok () → event ∈ s.declared → fits = true →
        event ∉ n.streams → n.streams.length < n.limits.streams →
          n.streams.length + n.pool.usage.streams < n.limits.streams) :
    (s.resolved node event rights fits).Inv := by
  unfold Estate.resolved
  split
  · rename_i htests
    obtain ⟨hcheck, hdeclared, hfits⟩ := htests
    have hsteady := Grants.Steady.registerStream s.grants node event
    have hpools := Grants.pool_registerStream s.grants node event
    refine h.steady hsteady ?_ (Grants.bounded_of_pools h.bounded hpools)
      (h.spare.registerStream fun n hn hi => hroom n hn hi hcheck hdeclared hfits)
    rw [hsteady.reservations]
    exact Grants.Books.of_pools h.exact hpools
  · exact h

theorem declare (h : s.Inv) (event : EventId) (allowance : Limits) :
    (s.step (.declare event allowance)).Inv := by
  have hcharged := h.charged 0 none allowance
    fun _ _ _ hroot => absurd rfl hroot
  unfold Estate.step
  dsimp only
  split
  · exact h
  · split
    · exact hcharged
    · exact ⟨hcharged.exact, hcharged.bounded, hcharged.founded, hcharged.live, hcharged.spare⟩

theorem release (h : s.Inv) (index : Nat) : (s.step (.release index)).Inv := by
  unfold Estate.step
  dsimp only
  cases hlease : s.leases[index]? with
  | none => exact h
  | some lease =>
    obtain ⟨hlt, hget⟩ := List.getElem?_eq_some_iff.mp hlease
    have hperm := (List.getElem_cons_eraseIdx_perm hlt).symm
    rw [hget] at hperm
    have hsteady := Grants.Steady.release s.grants lease
    have hexact : (s.grants.release lease).Exact
        (s.leases.eraseIdx index ++ s.grants.reservations) :=
      Grants.Books.release (Grants.exact_perm h.exact (hperm.append_right _))
    refine ⟨?_, h.bounded.release lease, h.founded.steady hsteady, fun l hl => ?_,
      h.spare.release lease⟩
    · dsimp only
      rw [hsteady.reservations]
      exact hexact
    · rw [hsteady.length]
      exact h.live l (List.mem_of_mem_eraseIdx hl)

theorem revoke (h : s.Inv) (node : NodeId) : (s.step (.revoke node)).Inv := by
  have hpools := Grants.pool_revoke s.grants node
  refine ⟨?_, Grants.bounded_of_pools h.bounded hpools, h.founded.revoke node, fun l hl => ?_,
    h.spare.revoke node⟩
  · have hexact := Grants.Books.of_pools h.exact hpools
    unfold Estate.step
    dsimp only
    rw [Grants.reservations_revoke]
    exact hexact
  · have hlength : (s.grants.revoke node).nodes.length = s.grants.nodes.length := by
      simp [Grants.revoke]
    exact hlength ▸ h.live l hl

theorem drop (h : s.Inv) (node : NodeId) : (s.step (.drop node)).Inv := by
  unfold Estate.step
  dsimp only
  split
  · exact h
  · rename_i hroot
    obtain ⟨hexact, hbounded, hfounded⟩ :=
      Grants.dropNode_exact hroot h.bounded h.founded h.exact
    refine ⟨hexact, hbounded, hfounded, fun l hl => ?_, h.spare.dropNode node⟩
    have hlength : (s.grants.dropNode node).nodes.length = s.grants.nodes.length := by
      rcases s.grants.dropNode_cases node with he | ⟨n, -, -, he⟩
      · rw [he]
      · rw [he, (Grants.Steady.foldl_release _ _).length, List.length_set]
    exact hlength ▸ h.live l hl

theorem restrict (h : s.Inv) (node : NodeId) (request : Request)
    (hroom : ∀ n, s.grants.get node = some n → node ≠ 0 →
      s.grants.affords node request.permissions request.sorted request.limits = true →
        n.streams.length + n.pool.usage.streams + request.limits.streams ≤ n.limits.streams) :
    (s.step (.restrict node request)).Inv := by
  obtain ⟨hexact, hbounded, hfounded, -⟩ :=
    Grants.restrict_grows (i := node) request.perm h.bounded h.founded h.exact h.live
  refine ⟨hexact, hbounded, hfounded, fun l hl => ?_, h.spare.restrict hroom⟩
  exact (h.live l hl).trans_le (Grants.length_le_restrict _ _ _ _ _)

theorem step (h : s.Inv) (op : Op) (hop : s.spares op = true) : (s.step op).Inv := by
  cases op with
  | declare event allowance => exact h.declare event allowance
  | restrict node request =>
    refine h.restrict node request fun n hn => ?_
    have hspares := (Option.all_eq_true _ _).mp hop n hn
    exact of_decide_eq_true hspares
  | resolve node event rights fits =>
    refine h.resolved fun n hn => ?_
    have hspares := (Option.all_eq_true _ _).mp hop n hn
    exact of_decide_eq_true hspares
  | close event fits => exact h.resolved fun _ _ hroot => absurd rfl hroot
  | charge node event usage hzero =>
    refine h.charged _ _ _ fun n hn _ hi _ => ?_
    rw [hzero]
    exact (h.spare node n hn).spare hi
  | release index => exact h.release index
  | revoke node => exact h.revoke node
  | drop node => exact h.drop node

end Inv

theorem Inv.run {s : Estate} (h : s.Inv) (ops : List Op) (hops : s.sparesAll ops = true) :
    (ops.foldl Estate.step s).Inv := by
  induction ops generalizing s with
  | nil => exact h
  | cons op rest ih =>
    obtain ⟨hop, hrest⟩ := Bool.and_eq_true_iff.mp hops
    exact ih (h.step op hop) hrest

/-- In a run that takes no allowance twice, the registrations of a node below the root and
of its live descendants keep within the limits of the node. -/
theorem registrations_conserved (limits : Limits) (ops : List Op)
    (hvalid : limits.validate = .ok ()) (hops : (start limits).sparesAll ops = true) :
    ∀ i n, i ≠ 0 → (run limits ops).grants.get i = some n →
      (run limits ops).grants.registrations i ≤ n.limits.streams := by
  intro i n hi hn
  have hinv := (Inv.start hvalid).run ops hops
  exact Grants.registrations_le hinv.exact hinv.founded hinv.spare hi hn

end Estate

namespace Estate

/-- A component that may publish one event, as a child of a node. -/
def publisher (node : NodeId) (grants : Nat) : Op :=
  .restrict node ⟨[⟨⟨1⟩, .publish, ⟨1, 0, 0⟩⟩], [⟨⟨1⟩, .publish, ⟨1, 0, 0⟩⟩],
    { Limits.zero with streams := 1, grants := grants, retainedItems := 1 }, .refl _,
    List.pairwise_singleton _ _⟩

/-- A stream, and a component that resolves its sender. -/
def sender : List Op :=
  [.declare ⟨1⟩ { Limits.zero with streams := 1, retainedItems := 1 }, publisher 0 1,
    .resolve 1 ⟨1⟩ .publish true]

theorem registrations_conserved_sender :
    let _ := Target.x64
    ∃ n, (run Limits.default sender).grants.get 1 = some n ∧
      (run Limits.default sender).grants.registrations 1 ≤ n.limits.streams := by
  intro _
  obtain ⟨n, hn⟩ : ∃ n, (run Limits.default sender).grants.get 1 = some n :=
    Option.isSome_iff_exists.mp (by decide +kernel)
  have hspares : (start Limits.default).sparesAll sender = true := by decide +kernel
  exact ⟨n, hn, registrations_conserved Limits.default sender (by decide) hspares 1 n (by decide) hn⟩

/-- The component delegates its only stream to a child, and both resolve the sender. -/
theorem registrations_exceed :
    let _ := Target.x64
    ¬ ∀ (limits : Limits) (ops : List Op) (i : NodeId) (n : GrantNode),
      limits.validate = .ok () → i ≠ 0 → (run limits ops).grants.get i = some n →
        (run limits ops).grants.registrations i ≤ n.limits.streams := by
  intro _ h
  let ops := sender ++ [publisher 1 0, .resolve 2 ⟨1⟩ .publish true]
  obtain ⟨n, hn⟩ : ∃ n, (run Limits.default ops).grants.get 1 = some n :=
    Option.isSome_iff_exists.mp (by decide +kernel)
  have hlimit : n.limits.streams = 1 := by
    have hall : ((run Limits.default ops).grants.get 1).all fun n => n.limits.streams = 1 := by
      decide +kernel
    exact of_decide_eq_true ((Option.all_eq_true _ _).mp hall n hn)
  have hregistrations : (run Limits.default ops).grants.registrations 1 = 2 := by decide +kernel
  have hle := h Limits.default ops 1 n (by decide) (by decide) hn
  rw [hregistrations, hlimit] at hle
  exact absurd hle (by decide)

end Estate

end Hiway
