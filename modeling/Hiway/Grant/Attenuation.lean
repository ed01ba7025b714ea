import Hiway.Grant.Restrict

/-!
# Authority only attenuates

Over any sequence of delegations, a node permits exactly the rights that were listed for
an event when it was made, however the list was ordered and however often it named the
event, and nothing that one of its ancestors does not permit.

* `permits_dedup`: sorting and merging a list of permissions keeps what it permits.
* `restrict`: a child permits what was listed for it, and each of these rights was checked.
* `run_attenuates`: in every tree that operations lead to a node permits exactly what was
  listed for it, and no more than any of its ancestors.
-/

namespace Hiway

open Target
open SameAuthority (permitsOf)

/-! ## Rights as sets of bits -/

namespace Rights

theorem contains_iff {a b : Rights} : a.contains b = true ↔ a.bits &&& b.bits = b.bits := by
  unfold contains
  exact decide_eq_true_iff

/-- No right at all. -/
def none : Rights := ⟨0⟩

@[simp] theorem contains_none (a : Rights) : a.contains none = true := by
  rw [contains_iff]
  exact UInt8.and_zero

theorem contains_union {a b c : Rights} (hb : a.contains b = true) (hc : a.contains c = true) :
    a.contains (b.union c) = true := by
  rw [contains_iff] at hb hc ⊢
  change a.bits &&& (b.bits ||| c.bits) = b.bits ||| c.bits
  have hdistrib : a.bits &&& (b.bits ||| c.bits) = a.bits &&& b.bits ||| a.bits &&& c.bits :=
    UInt8.toBitVec_inj.1 BitVec.and_or_distrib_left
  rw [hdistrib, hb, hc]

theorem contains_trans {a b c : Rights} (hab : a.contains b = true) (hbc : b.contains c = true) :
    a.contains c = true := by
  rw [contains_iff] at hab hbc ⊢
  calc a.bits &&& c.bits = a.bits &&& (b.bits &&& c.bits) := by rw [hbc]
    _ = a.bits &&& b.bits &&& c.bits := (UInt8.and_assoc _ _ _).symm
    _ = c.bits := by rw [hab, hbc]

theorem union_comm (a b : Rights) : a.union b = b.union a :=
  congrArg Rights.mk (UInt8.or_comm a.bits b.bits)

theorem union_assoc (a b c : Rights) : (a.union b).union c = a.union (b.union c) :=
  congrArg Rights.mk (UInt8.or_assoc a.bits b.bits c.bits)

theorem union_none (a : Rights) : a.union none = a :=
  congrArg Rights.mk UInt8.or_zero

/-- The union of the rights that a list names for an event. -/
def listed (permissions : List Permission) (event : EventId) : Rights :=
  (permissions.filter fun p => p.event = event).foldr (fun p rights => p.rights.union rights) none

theorem listed_cons (p : Permission) (rest : List Permission) (event : EventId) :
    listed (p :: rest) event =
      if p.event = event then p.rights.union (listed rest event) else listed rest event := by
  unfold listed
  rw [List.filter_cons]
  by_cases h : p.event = event <;> simp [h]

/-- The order of the list does not matter. -/
theorem listed_perm {l m : List Permission} (h : l.Perm m) (event : EventId) :
    listed l event = listed m event := by
  refine List.Perm.foldr_eq' (h.filter _) ?_ none
  intro p _ q _ rights
  rw [← union_assoc, ← union_assoc, union_comm p.rights]

/-- What contains every listed right contains their union. -/
theorem contains_listed {a : Rights} {permissions : List Permission} {event : EventId}
    (h : ∀ p ∈ permissions, p.event = event → a.contains p.rights = true) :
    a.contains (listed permissions event) = true := by
  induction permissions with
  | nil => exact contains_none a
  | cons p rest ih =>
    have hrest := ih fun q hq => h q (List.mem_cons_of_mem p hq)
    rw [listed_cons]
    split
    · rename_i hp
      exact contains_union (h p List.mem_cons_self hp) hrest
    · exact hrest

theorem listed_of_forall_ne {permissions : List Permission} {event : EventId}
    (h : ∀ p ∈ permissions, p.event ≠ event) : listed permissions event = none := by
  unfold listed
  rw [List.filter_eq_nil_iff.mpr fun p hp => by simpa using h p hp]
  rfl

end Rights

/-! ## Sorting and merging -/

/-- In the order of the events. -/
def Ordered (permissions : List Permission) : Prop :=
  permissions.Pairwise fun a b => a.event.asU128 ≤ b.event.asU128

/-- What merging a sorted list leaves: each event once, with all its rights. -/
theorem dedup_spec {l : List Permission} (h : Ordered l) :
    (dedup l).Pairwise (fun a b => a.event.asU128 < b.event.asU128) ∧
      (∀ event, (∃ p ∈ dedup l, p.event = event) ↔ ∃ p ∈ l, p.event = event) ∧
      ∀ p ∈ dedup l, p.rights = Rights.listed l p.event := by
  induction l with
  | nil => simp [dedup]
  | cons p rest ih =>
    obtain ⟨hhead, htail⟩ := List.pairwise_cons.mp h
    obtain ⟨hsorted, hevents, hrights⟩ := ih htail
    have hle : ∀ q ∈ dedup rest, p.event.asU128 ≤ q.event.asU128 := by
      intro q hq
      obtain ⟨q', hq', heq⟩ := (hevents q.event).mp ⟨q, hq, rfl⟩
      rw [← heq]
      exact hhead q' hq'
    unfold dedup
    cases hd : dedup rest with
    | nil =>
      have hempty : rest = [] := by
        refine List.eq_nil_iff_forall_not_mem.mpr fun q hq => ?_
        obtain ⟨q', hq', -⟩ := (hevents q.event).mpr ⟨q, hq, rfl⟩
        rw [hd] at hq'
        cases hq'
      subst hempty
      refine ⟨by simp, by simp, ?_⟩
      intro q hq
      rw [List.mem_singleton.mp hq, Rights.listed_cons, if_pos rfl]
      exact (Rights.union_none _).symm
    | cons next more =>
      rw [hd] at hsorted hevents hrights hle
      obtain ⟨hnext, hmore⟩ := List.pairwise_cons.mp hsorted
      have hother : ∀ q ∈ more, q.event ≠ next.event := by
        intro q hq heq
        have := hnext q hq
        rw [heq] at this
        exact lt_irrefl _ this
      dsimp only
      by_cases heq : next.event = p.event
      · rw [if_pos heq]
        refine ⟨List.pairwise_cons.mpr ⟨fun q hq => ?_, hmore⟩, fun event => ?_, fun q hq => ?_⟩
        · rw [← heq]
          exact hnext q hq
        · have hevent := hevents event
          simp only [List.mem_cons, exists_eq_or_imp, heq] at hevent ⊢
          rw [← hevent]
          tauto
        · rcases List.mem_cons.mp hq with rfl | hq
          · rw [Rights.listed_cons, if_pos rfl, hrights next List.mem_cons_self, heq]
          · rw [Rights.listed_cons, if_neg, hrights q (List.mem_cons_of_mem next hq)]
            rw [← heq]
            exact (hother q hq).symm
      · rw [if_neg heq]
        have hlt : p.event.asU128 < next.event.asU128 :=
          lt_of_le_of_ne (hle next List.mem_cons_self) fun h => heq (EventId.asU128_inj.mp h).symm
        -- the event of the first is not among the others
        have hfresh : ∀ q ∈ next :: more, p.event.asU128 < q.event.asU128 := by
          intro q hq
          rcases List.mem_cons.mp hq with rfl | hq
          · exact hlt
          · exact hlt.trans (hnext q hq)
        refine ⟨List.pairwise_cons.mpr ⟨hfresh, hsorted⟩, fun event => ?_, fun q hq => ?_⟩
        · have hevent := hevents event
          simp only [List.mem_cons, exists_eq_or_imp] at hevent ⊢
          rw [← hevent]
        · rcases List.mem_cons.mp hq with rfl | hq
          · have hnone : Rights.listed rest q.event = Rights.none := by
              refine Rights.listed_of_forall_ne fun q' hq' he => ?_
              obtain ⟨q'', hq'', he'⟩ := (hevents q.event).mpr ⟨q', hq', he⟩
              have := hfresh q'' hq''
              rw [he'] at this
              exact lt_irrefl _ this
            rw [Rights.listed_cons, if_pos rfl, hnone, Rights.union_none]
          · rw [Rights.listed_cons, if_neg, hrights q hq]
            intro he
            have := hfresh q hq
            rw [he] at this
            exact lt_irrefl _ this

/-- Whether a node with the sorted permissions `dedup l` permits something. -/
theorem permits_dedup {l : List Permission} (h : Ordered l) (pools : Permission → Limits)
    (event : EventId) (right : Rights) :
    permitsOf (some ((dedup l).map fun p => (p, pools p))) event right = true ↔
      (∃ p ∈ l, p.event = event) ∧ (Rights.listed l event).contains right = true := by
  obtain ⟨hsorted, hevents, hrights⟩ := dedup_spec h
  have hsearch : ∀ i, Search.binarySearch (fun p : Permission => p.event.asU128) (dedup l)
      event.asU128 = some i ↔ ∃ p, (dedup l)[i]? = some p ∧ p.event.asU128 = event.asU128 :=
    fun _ => Search.binarySearch_eq_some hsorted
  unfold permitsOf
  dsimp only
  rw [Search.binarySearch_map]
  rw [← hevents]
  cases hfound : Search.binarySearch (fun p : Permission => p.event.asU128) (dedup l)
      event.asU128 with
  | none =>
    have hnone : ¬ ∃ p ∈ dedup l, p.event = event := by
      rintro ⟨p, hp, heq⟩
      obtain ⟨i, hi⟩ := List.getElem?_of_mem hp
      have := (hsearch i).mpr ⟨p, hi, by rw [heq]⟩
      rw [hfound] at this
      cases this
    have hfound' : Search.binarySearch ((fun entry : Permission × Limits => entry.1.event.asU128) ∘
        fun p => (p, pools p)) (dedup l) event.asU128 = none := hfound
    rw [hfound']
    simp [hnone]
  | some i =>
    obtain ⟨p, hi, hkey⟩ := (hsearch i).mp hfound
    have heq : p.event = event := EventId.asU128_inj.mp hkey
    have hp := List.mem_of_getElem? hi
    have hfound' : Search.binarySearch ((fun entry : Permission × Limits => entry.1.event.asU128) ∘
        fun p => (p, pools p)) (dedup l) event.asU128 = some i := hfound
    rw [hfound']
    dsimp only
    rw [List.getElem?_map, hi, Option.map_some, Option.any_some, hrights p hp, heq]
    exact ⟨fun h => ⟨⟨p, hp, heq⟩, h⟩, fun h => h.2⟩

/-! ## Trees that grow -/

/-- What a delegation asks for, and what the unstable sort makes of the list. -/
structure Request where
  permissions : List Permission
  sorted : List Permission
  limits : Limits
  perm : sorted.Perm permissions
  ordered : Ordered sorted

/-- A tree, and what each of its nodes was made with. -/
structure Lineage where
  grants : Grants
  lists : List (List Permission)

namespace Lineage

inductive Op where
  | restrict (node : NodeId) (request : Request)
  | revoke (node : NodeId)
  | charge (node : NodeId) (event : Option Nat) (usage : Limits)
  | release (lease : Lease)
  | register (node : NodeId) (event : EventId)
  | drop (node : NodeId)

/-- A root alone. -/
def root (limits : Limits) : Lineage where
  grants := ⟨[some {
    limits := limits
    pool := Pool.new limits
    permissions := none
    parentReservation := none
    eventReservations := []
    revoked := false
    active := 0
    streams := [] }]⟩
  lists := [[]]

def step [Target] (s : Lineage) : Op → Lineage
  | .restrict node request =>
    match s.grants.restrict node request.permissions request.sorted request.limits with
    | (.error _, grants) => { s with grants := grants }
    | (.ok _, grants) => ⟨grants, s.lists ++ [request.permissions]⟩
  | .revoke node => { s with grants := s.grants.revoke node }
  | .charge node event usage => { s with grants := (s.grants.charge node event usage).2 }
  | .release lease => { s with grants := s.grants.release lease }
  | .register node event => { s with grants := (s.grants.registerStream node event).2 }
  | .drop node => { s with grants := s.grants.dropNode node }

def run [Target] (limits : Limits) (ops : List Op) : Lineage := ops.foldl step (root limits)

/-- The permissions that a node was made with. -/
def listOf (s : Lineage) (i : NodeId) : List Permission := s.lists[i]?.getD []

theorem get_root {limits : Limits} {i : NodeId} {n : GrantNode}
    (h : (root limits).grants.get i = some n) :
    i = 0 ∧ n = ⟨limits, Pool.new limits, none, none, [], false, 0, []⟩ := by
  cases i with
  | zero =>
    cases h
    exact ⟨rfl, rfl⟩
  | succ i => cases h

/-- The root has its generic pool, and nothing is taken from it. -/
theorem pool_root {limits : Limits} {i : NodeId} {event : Option Nat} {p : Pool}
    (h : (root limits).grants.pool i event = some p) : p = Pool.new limits := by
  obtain ⟨n, hn, hp⟩ := Option.bind_eq_some_iff.mp h
  obtain ⟨-, rfl⟩ := get_root hn
  cases event with
  | none =>
    cases hp
    rfl
  | some index => cases hp

end Lineage

namespace Grants

/-- What decides the checks of a node. -/
def authorityOf (g : Grants) (i : NodeId) : Option Authority := (g.get i).map GrantNode.authority

/-- `j` is `i` or one of its ancestors. -/
def Ancestor (g : Grants) (j i : NodeId) : Prop :=
  Relation.ReflTransGen (fun a b => (g.get a).bind GrantNode.parent = some b) i j

theorem check_eq_ok {g : Grants} {i : NodeId} {event : EventId} {right : Rights} :
    g.check i event right = .ok () ↔ g.isRevoked i = false ∧
      ∃ a, g.authorityOf i = some a ∧ permitsOf a.permissions event right = true := by
  have hpermits : ((g.get i).any fun n => n.permits event right) = true ↔
      ∃ a, g.authorityOf i = some a ∧ permitsOf a.permissions event right = true := by
    unfold authorityOf
    cases g.get i with
    | none => simp
    | some n => simp [SameAuthority.permits_eq]
  rw [← hpermits]
  unfold check
  cases g.isRevoked i with
  | true => simp
  | false =>
    cases (g.get i).any fun n => n.permits event right <;> simp

end Grants

namespace Lineage

/-- Each node below the root permits what was listed for it, and its parent, which is
older, permits that too. -/
structure Inv (s : Lineage) : Prop where
  length : s.lists.length = s.grants.nodes.length
  root : ∀ a, s.grants.authorityOf 0 = some a → a.permissions = none ∧ a.parent = none
  listed : ∀ i a, 0 < i → s.grants.authorityOf i = some a → ∀ event right,
    permitsOf a.permissions event right = true ↔
      (∃ p ∈ s.listOf i, p.event = event) ∧
        (Rights.listed (s.listOf i) event).contains right = true
  parent : ∀ i a, 0 < i → s.grants.authorityOf i = some a →
    ∃ j b, a.parent = some j ∧ j < i ∧ s.grants.authorityOf j = some b ∧
      ∀ event right, permitsOf a.permissions event right = true →
        permitsOf b.permissions event right = true

namespace Inv

variable {s : Lineage} {g : Grants}

/-- What keeps the authority of every node keeps the invariant. -/
theorem same (h : s.Inv) (hsame : SameAuthority s.grants g)
    (hlength : g.nodes.length = s.grants.nodes.length) : Inv { s with grants := g } := by
  have hauthority : ∀ i, g.authorityOf i = s.grants.authorityOf i := hsame
  exact
    { length := h.length.trans hlength.symm
      root := by
        intro a ha
        rw [hauthority] at ha
        exact h.root a ha
      listed := by
        intro i a hi ha
        rw [hauthority] at ha
        exact h.listed i a hi ha
      parent := by
        intro i a hi ha
        rw [hauthority] at ha
        obtain ⟨j, b, hj, hlt, hb, hpermits⟩ := h.parent i a hi ha
        exact ⟨j, b, hj, hlt, (hauthority j).trans hb, hpermits⟩ }

/-- Revocation changes no permission. -/
theorem revoke (h : s.Inv) (node : NodeId) : Inv { s with grants := s.grants.revoke node } := by
  have hauthority : ∀ i a, (s.grants.revoke node).authorityOf i = some a →
      ∃ b, s.grants.authorityOf i = some b ∧ a.parent = b.parent ∧
        a.permissions = b.permissions := by
    intro i a ha
    unfold Grants.authorityOf at ha ⊢
    rw [Grants.get_revoke] at ha
    cases hn : s.grants.get i with
    | none =>
      rw [hn] at ha
      cases ha
    | some n =>
      rw [hn] at ha
      refine ⟨n.authority, rfl, ?_⟩
      simp only [Option.map_some, Option.some.injEq] at ha
      subst ha
      split <;> exact ⟨rfl, rfl⟩
  have hkept : ∀ i b, s.grants.authorityOf i = some b →
      ∃ a, (s.grants.revoke node).authorityOf i = some a ∧ a.permissions = b.permissions := by
    intro i b hb
    obtain ⟨n, hn, rfl⟩ := Option.map_eq_some_iff.mp hb
    unfold Grants.authorityOf
    rw [Grants.get_revoke, hn]
    refine ⟨_, rfl, ?_⟩
    split <;> rfl
  exact
    { length := by simp [Grants.revoke, h.length]
      root := by
        intro a ha
        obtain ⟨b, hb, hparent, hpermissions⟩ := hauthority 0 a ha
        rw [hparent, hpermissions]
        exact h.root b hb
      listed := by
        intro i a hi ha
        obtain ⟨b, hb, -, hpermissions⟩ := hauthority i a ha
        rw [hpermissions]
        exact h.listed i b hi hb
      parent := by
        intro i a hi ha
        obtain ⟨b, hb, hparent, hpermissions⟩ := hauthority i a ha
        obtain ⟨j, b', hj, hlt, hb', hpermits⟩ := h.parent i b hi hb
        obtain ⟨a', ha', hsame⟩ := hkept j b' hb'
        refine ⟨j, a', hparent.trans hj, hlt, ha', ?_⟩
        rw [hpermissions, hsame]
        exact hpermits }

/-- A node without children goes. -/
theorem drop (h : s.Inv) (node : NodeId) : Inv { s with grants := s.grants.dropNode node } := by
  unfold Grants.dropNode
  split
  · exact h
  · rename_i n hn
    split
    · exact h
    · rename_i hchildless
      have hrelease : ∀ (leases : List Lease) (g : Grants), Inv { s with grants := g } →
          Inv { s with grants := leases.foldl Grants.release g } := by
        intro leases
        induction leases with
        | nil => exact fun g hg => hg
        | cons lease rest ih =>
          intro g hg
          exact ih _ (hg.same (SameAuthority.release g lease) (by simp [Grants.release, Grants.modify]))
      apply hrelease
      have hi : node < s.grants.nodes.length := Slots.lt_of_entry hn
      have hauthority : ∀ i, (Grants.mk (s.grants.nodes.set node none)).authorityOf i =
          if node = i then none else s.grants.authorityOf i := by
        intro i
        unfold Grants.authorityOf Grants.get
        rw [Slots.entry_set hi]
        split <;> rfl
      have hold : ∀ i a, (Grants.mk (s.grants.nodes.set node none)).authorityOf i = some a →
          s.grants.authorityOf i = some a := by
        intro i a ha
        rw [hauthority] at ha
        split at ha
        · cases ha
        · exact ha
      exact
        { length := by simpa using h.length
          root := fun a ha => h.root a (hold 0 a ha)
          listed := fun i a hi ha => h.listed i a hi (hold i a ha)
          parent := by
            intro i a hi' ha
            obtain ⟨j, b, hj, hlt, hb, hpermits⟩ := h.parent i a hi' (hold i a ha)
            refine ⟨j, b, hj, hlt, ?_, hpermits⟩
            rw [hauthority, if_neg]
            · exact hb
            -- the node that went has no child
            · rintro rfl
              obtain ⟨m, hm, rfl⟩ := Option.map_eq_some_iff.mp (hold i a ha)
              exact hchildless (Slots.any_iff.mpr ⟨i, m, hm, decide_eq_true hj⟩) }

/-- A child permits what was listed for it, and each of these rights was checked. -/
theorem restrict [Target] (h : s.Inv) (node : NodeId) (request : Request) :
    (s.step (.restrict node request)).Inv := by
  unfold step
  rcases s.grants.restrict_cases node request.permissions request.sorted request.limits with
    ⟨error, he⟩ | ⟨generic, amount, reservation, g₁, events, g₂, hrequested, hcharge, hevents, -, he⟩
  · simp only [he]
    exact h
  · simp only [he]
    obtain ⟨-, -, hchecks, -, -⟩ := Grants.requested_ok hrequested
    have hsame : SameAuthority s.grants g₂ := by
      have h₁ := SameAuthority.charge s.grants node none amount
      rw [show s.grants.charge node none amount = (.ok reservation, g₁) from hcharge] at h₁
      rcases hevents with ⟨-, hevents⟩ | ⟨-, -, rfl⟩
      · exact h₁.trans hevents.same
      · exact h₁
    have hlength : g₂.nodes.length = s.grants.nodes.length := by
      have h₁ := Grants.length_charge s.grants node none amount
      rw [show s.grants.charge node none amount = (.ok reservation, g₁) from hcharge] at h₁
      rcases hevents with ⟨-, hevents⟩ | ⟨-, -, rfl⟩
      · exact hevents.length.trans h₁
      · exact h₁
    obtain ⟨rfl, -, p, -, hpool, -⟩ := Grants.charge_ok hcharge
    obtain ⟨n, hn, -⟩ := Option.bind_eq_some_iff.mp hpool
    have hnode : node < s.grants.nodes.length := Slots.lt_of_entry hn
    -- the old nodes are as they were, and the child is the last
    obtain ⟨child, hchild⟩ : ∃ c, c = Grants.child request.limits generic (dedup request.sorted)
        ⟨node, amount, none⟩ events := ⟨_, rfl⟩
    rw [← hchild]
    have hold : ∀ i, i < s.grants.nodes.length →
        (Grants.mk (g₂.nodes ++ [some child])).authorityOf i = s.grants.authorityOf i := by
      intro i hi
      have hget : (Grants.mk (g₂.nodes ++ [some child])).get i = g₂.get i := by
        unfold Grants.get Slots.entry
        rw [List.getElem?_append_left (by omega)]
      unfold Grants.authorityOf
      rw [hget]
      exact hsame i
    have hnew : (Grants.mk (g₂.nodes ++ [some child])).authorityOf s.grants.nodes.length =
        some child.authority := by
      unfold Grants.authorityOf Grants.get Slots.entry
      rw [← hlength, List.getElem?_concat_length]
      rfl
    have hcases : ∀ i a, (Grants.mk (g₂.nodes ++ [some child])).authorityOf i = some a →
        (i < s.grants.nodes.length ∧ s.grants.authorityOf i = some a) ∨
          i = s.grants.nodes.length ∧ a = child.authority := by
      intro i a ha
      have hi : i < s.grants.nodes.length + 1 := by
        obtain ⟨m, hm, -⟩ := Option.map_eq_some_iff.mp ha
        have := Slots.lt_of_entry hm
        simpa [hlength] using this
      rcases Nat.lt_succ_iff_lt_or_eq.mp hi with hlt | rfl
      · rw [hold i hlt] at ha
        exact Or.inl ⟨hlt, ha⟩
      · rw [hnew] at ha
        cases ha
        exact Or.inr ⟨rfl, rfl⟩
    have hlistOld : ∀ i, i < s.grants.nodes.length →
        listOf ⟨⟨g₂.nodes ++ [some child]⟩, s.lists ++ [request.permissions]⟩ i = s.listOf i := by
      intro i hi
      unfold listOf
      rw [List.getElem?_append_left (by rw [h.length]; exact hi)]
    have hlistNew : listOf ⟨⟨g₂.nodes ++ [some child]⟩, s.lists ++ [request.permissions]⟩
        s.grants.nodes.length = request.permissions := by
      unfold listOf
      rw [← h.length, List.getElem?_concat_length]
      rfl
    have hlisted : ∀ event right, permitsOf child.authority.permissions event right = true ↔
        (∃ p ∈ request.permissions, p.event = event) ∧
          (Rights.listed request.permissions event).contains right = true := by
      intro event right
      have hmem : (∃ p ∈ request.sorted, p.event = event) ↔
          ∃ p ∈ request.permissions, p.event = event :=
        exists_congr fun p => and_congr_left fun _ => request.perm.mem_iff
      rw [← Rights.listed_perm request.perm, ← hmem, ← permits_dedup request.ordered
        (fun p => p.limits.asLimits), hchild]
      simp only [Grants.child, GrantNode.authority, Option.map_some, List.map_map]
      rfl
    refine
      { length := by simp [h.length, hlength]
        root := ?_
        listed := ?_
        parent := ?_ }
    · intro a ha
      rcases hcases 0 a ha with ⟨-, ha⟩ | ⟨hzero, -⟩
      · exact h.root a ha
      · exact absurd hzero (Nat.zero_lt_of_lt hnode).ne
    · intro i a hi ha
      rcases hcases i a ha with ⟨hlt, ha⟩ | ⟨rfl, rfl⟩
      · rw [hlistOld i hlt]
        exact h.listed i a hi ha
      · rw [hlistNew]
        exact hlisted
    · intro i a hi ha
      rcases hcases i a ha with ⟨hlt, ha⟩ | ⟨rfl, rfl⟩
      · obtain ⟨j, b, hj, hjlt, hb, hpermits⟩ := h.parent i a hi ha
        exact ⟨j, b, hj, hjlt, (hold j (hjlt.trans hlt)).trans hb, hpermits⟩
      · refine ⟨node, n.authority, by rw [hchild]; rfl, hnode, ?_, ?_⟩
        · rw [hold node hnode]
          exact congrArg (Option.map GrantNode.authority) hn
        · intro event right hpermits
          obtain ⟨⟨q, hq, hqe⟩, hcontains⟩ := (hlisted event right).mp hpermits
          -- every listed right was checked at the parent
          have hparent : ∀ p ∈ request.permissions,
              permitsOf n.authority.permissions p.event p.rights = true := by
            intro p hp
            obtain ⟨-, a, ha, hpermit⟩ := Grants.check_eq_ok.mp (hchecks p hp)
            unfold Grants.authorityOf at ha
            rw [hn, Option.map_some, Option.some.injEq] at ha
            rw [ha]
            exact hpermit
          rcases Nat.eq_zero_or_pos node with rfl | hpos
          · obtain ⟨hnone, -⟩ := h.root n.authority (congrArg (Option.map GrantNode.authority) hn)
            rw [hnone]
            rfl
          · have hlistedParent := h.listed node n.authority hpos
              (congrArg (Option.map GrantNode.authority) hn)
            rw [hlistedParent]
            have hall : ∀ p ∈ request.permissions, p.event = event →
                (Rights.listed (s.listOf node) event).contains p.rights = true := by
              intro p hp hpe
              have := (hlistedParent p.event p.rights).mp (hparent p hp)
              rw [hpe] at this
              exact this.2
            refine ⟨?_, Rights.contains_trans (Rights.contains_listed hall) hcontains⟩
            have := ((hlistedParent q.event q.rights).mp (hparent q hq)).1
            rw [hqe] at this
            exact this

theorem step [Target] (h : s.Inv) (op : Op) : (s.step op).Inv := by
  cases op with
  | restrict node request => exact h.restrict node request
  | revoke node => exact h.revoke node
  | charge node event usage =>
    exact h.same (SameAuthority.charge _ _ _ _) (Grants.length_charge _ _ _ _)
  | release lease =>
    exact h.same (SameAuthority.release _ _) (by simp [Grants.release, Grants.modify])
  | register node event =>
    exact h.same (SameAuthority.registerStream _ _ _) (Grants.length_registerStream _ _ _)
  | drop node => exact h.drop node

theorem start (limits : Limits) : (Lineage.root limits).Inv where
  length := rfl
  root := by
    intro a ha
    cases ha
    exact ⟨rfl, rfl⟩
  listed := by
    intro i a hi ha
    unfold Lineage.root Grants.authorityOf Grants.get Slots.entry at ha
    rw [List.getElem?_eq_none hi] at ha
    cases ha
  parent := by
    intro i a hi ha
    unfold Lineage.root Grants.authorityOf Grants.get Slots.entry at ha
    rw [List.getElem?_eq_none hi] at ha
    cases ha

theorem run [Target] (limits : Limits) (ops : List Op) : (Lineage.run limits ops).Inv := by
  unfold Lineage.run
  refine List.foldlRecOn ops Lineage.step (start limits) ?_
  intro s hs op _
  exact hs.step op

/-! ## What the invariant says of checks -/

theorem parent_lt (h : s.Inv) {i j : NodeId}
    (hj : (s.grants.get i).bind GrantNode.parent = some j) : j < i ∧ 0 < i ∧
      ∃ a b, s.grants.authorityOf i = some a ∧ s.grants.authorityOf j = some b ∧
        ∀ event right, permitsOf a.permissions event right = true →
          permitsOf b.permissions event right = true := by
  obtain ⟨n, hn, hparent⟩ := Option.bind_eq_some_iff.mp hj
  have ha : s.grants.authorityOf i = some n.authority := congrArg (Option.map GrantNode.authority) hn
  rcases Nat.eq_zero_or_pos i with rfl | hpos
  · obtain ⟨-, hnone⟩ := h.root n.authority ha
    rw [show n.parent = none from hnone] at hparent
    cases hparent
  · obtain ⟨j', b, hj', hlt, hb, hpermits⟩ := h.parent i n.authority hpos ha
    have heq : some j' = some j := hj'.symm.trans hparent
    cases heq
    exact ⟨hlt, hpos, _, b, ha, hb, hpermits⟩

/-- The path of a node holds its ancestors, and itself. -/
theorem mem_path (h : s.Inv) {i j : NodeId} : j ∈ s.grants.path i ↔ s.grants.Ancestor j i := by
  have hchain : ∀ fuel i, i < fuel → (j ∈ s.grants.chain fuel i ↔ s.grants.Ancestor j i) := by
    intro fuel
    induction fuel with
    | zero => intro i hi; exact absurd hi (Nat.not_lt_zero i)
    | succ fuel ih =>
      intro i hi
      unfold Grants.chain Grants.Ancestor
      rw [List.mem_cons, Relation.ReflTransGen.cases_head_iff]
      cases hp : (s.grants.get i).bind GrantNode.parent with
      | none =>
        simp only [List.not_mem_nil, or_false, reduceCtorEq, false_and, exists_false]
        exact eq_comm
      | some p =>
        have hlt := (h.parent_lt hp).1
        simp only [Option.some.injEq, exists_eq_left', ih p (by
          exact Nat.lt_of_lt_of_le hlt (Nat.lt_succ_iff.mp hi))]
        exact or_congr_left eq_comm
  exact hchain (i + 1) i (Nat.lt_succ_self i)

theorem isRevoked_eq_false (h : s.Inv) {i : NodeId} : s.grants.isRevoked i = false ↔
    ∀ j n, s.grants.Ancestor j i → s.grants.get j = some n → n.revoked = false := by
  unfold Grants.isRevoked
  rw [List.any_eq_false]
  constructor
  · intro hall j n hj hn
    have := hall j (h.mem_path.mpr hj)
    rw [hn] at this
    simpa using this
  · intro hall j hj
    cases hn : s.grants.get j with
    | none => simp
    | some n => simpa using hall j n (h.mem_path.mp hj) hn

end Inv

/-- What a tree of delegations owes its clients. -/
structure Attenuates (s : Lineage) : Prop where
  /-- A check succeeds exactly when no node on the way to the root is revoked and, below
  the root, the event was listed with the rights among its own. -/
  check_iff : ∀ i n event rights, s.grants.get i = some n →
    (s.grants.check i event rights = .ok () ↔
      (∀ j m, s.grants.Ancestor j i → s.grants.get j = some m → m.revoked = false) ∧
        (i = 0 ∨ (∃ p ∈ s.listOf i, p.event = event) ∧
          (Rights.listed (s.listOf i) event).contains rights = true))
  /-- What a descendant may do its ancestors may. -/
  ancestor : ∀ i j event rights, s.grants.Ancestor j i →
    s.grants.check i event rights = .ok () → s.grants.check j event rights = .ok ()

theorem Inv.attenuates {s : Lineage} (h : s.Inv) : s.Attenuates where
  check_iff := by
    intro i n event rights hn
    have ha : s.grants.authorityOf i = some n.authority :=
      congrArg (Option.map GrantNode.authority) hn
    rw [Grants.check_eq_ok, h.isRevoked_eq_false, ha]
    refine and_congr_right fun _ => ?_
    simp only [Option.some.injEq, exists_eq_left']
    rcases Nat.eq_zero_or_pos i with rfl | hpos
    · obtain ⟨hnone, -⟩ := h.root n.authority ha
      rw [hnone]
      exact iff_of_true rfl (Or.inl rfl)
    · rw [h.listed i n.authority hpos ha]
      exact ⟨Or.inr, fun hor => hor.resolve_left hpos.ne'⟩
  ancestor := by
    intro i j event rights hj hcheck
    induction hj with
    | refl => exact hcheck
    | @tail k l hpath hparent ih =>
      obtain ⟨hrevoked, a, ha, hpermits⟩ := Grants.check_eq_ok.mp ih
      obtain ⟨-, -, a', b, ha', hb, hup⟩ := h.parent_lt hparent
      rw [ha] at ha'
      cases ha'
      refine Grants.check_eq_ok.mpr ⟨?_, b, hb, hup event rights hpermits⟩
      rw [h.isRevoked_eq_false] at hrevoked ⊢
      intro m n hm hn
      exact hrevoked m n (Relation.ReflTransGen.head hparent hm) hn

theorem run_attenuates [Target] (limits : Limits) (ops : List Op) : (run limits ops).Attenuates :=
  (Inv.run limits ops).attenuates

/-- A node that may publish one event. -/
def publisherOf (event : EventId) : Op :=
  .restrict 0 ⟨[⟨event, .publish, ⟨1, 0, 0⟩⟩], [⟨event, .publish, ⟨1, 0, 0⟩⟩],
    { Limits.zero with streams := 1, retainedItems := 1 }, .refl _, List.pairwise_singleton _ _⟩

/-- No rights at all are contained in the rights listed for any event, but the check of an
event that was not listed fails even for them. -/
theorem unlisted_denied :
    let _ := Target.x64
    ¬ ∀ (limits : Limits) (ops : List Op) (i : NodeId) (n : GrantNode) (event : EventId)
      (rights : Rights), (run limits ops).grants.get i = some n →
        ((run limits ops).grants.check i event rights = .ok () ↔
          (∀ j m, (run limits ops).grants.Ancestor j i →
            (run limits ops).grants.get j = some m → m.revoked = false) ∧
          (i = 0 ∨ (Rights.listed ((run limits ops).listOf i) event).contains rights = true)) := by
  intro _ h
  obtain ⟨n, hn⟩ : ∃ n, (run Limits.default [publisherOf ⟨1⟩]).grants.get 1 = some n :=
    Option.isSome_iff_exists.mp (by decide +kernel)
  have hiff := h Limits.default [publisherOf ⟨1⟩] 1 n ⟨2⟩ Rights.none hn
  have hdenied : (run Limits.default [publisherOf ⟨1⟩]).grants.check 1 ⟨2⟩ Rights.none =
      .error .denied := by
    decide +kernel
  rw [hdenied] at hiff
  refine absurd (hiff.mpr ⟨?_, Or.inr (Rights.contains_none _)⟩) (by simp)
  exact (Inv.run _ _).isRevoked_eq_false.mp (by decide +kernel)

end Lineage

end Hiway
