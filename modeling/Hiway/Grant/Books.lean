import Hiway.Grant.Steady

/-!
# The books of a growing tree

A delegation moves what it asks for from the parent's pools into reservations that the
child holds, and the end of a child gives them back. `Founded` says where reservations
lie, `Exact` that the usage of every pool is what the leases hold, with nothing left over.

* `restrict_grows`: a delegation that succeeds, with everything that follows from its
  charges.
* `dropNode_exact`: a node to which nothing refers leaves, and everybody else keeps what
  they have.
* `Exact.foldl_release`: leases that are given back leave the books of the rest.
-/

namespace Hiway

open Target

/-! ## What may be reserved -/

theorem Limits.get_asLimits_le {l : StreamLimits} {m : Limits}
    (hi : l.retainedItems ≤ m.retainedItems) (hs : l.subscriptions ≤ m.subscriptions)
    (hw : l.waiters ≤ m.waiters) (r : Resource) : l.asLimits.get r ≤ m.get r := by
  cases r with
  | retainedItems => exact hi
  | subscriptions => exact hs
  | waiters => exact hw
  | _ => exact Nat.zero_le _

/-- What is taken out of the generic pool was in it, and the rest stays. -/
theorem Limits.reserve_ok {generic generic' : Limits} {l : StreamLimits}
    (h : generic.reserve l = .ok generic') (r : Resource) :
    l.asLimits.get r ≤ generic.get r ∧ generic'.get r = generic.get r - l.asLimits.get r := by
  unfold reserve at h
  split at h
  · cases h
  · split at h
    · cases h
    · split at h
      · cases h
      · cases h
        refine ⟨get_asLimits_le (by omega) (by omega) (by omega) r, ?_⟩
        cases r <;> rfl

/-- The partition hands out no more than there is, to the generic pool and to each event. -/
theorem partitionFrom_le {previous permissions : List Permission} {generic generic' total : Limits}
    (h : partitionFrom previous generic permissions = .ok generic')
    (hprevious : ∀ p ∈ previous, ∀ r, p.limits.asLimits.get r ≤ total.get r)
    (hgeneric : ∀ r, generic.get r ≤ total.get r) :
    (∀ r, generic'.get r ≤ total.get r) ∧
      ∀ p ∈ permissions, ∀ r, p.limits.asLimits.get r ≤ total.get r := by
  induction permissions generalizing previous generic with
  | nil =>
    cases h
    exact ⟨hgeneric, by simp⟩
  | cons permission rest ih =>
    have hcons : (∀ r, permission.limits.asLimits.get r ≤ total.get r) →
        ∀ p ∈ previous ++ [permission], ∀ r, p.limits.asLimits.get r ≤ total.get r := by
      intro hp p hmem
      rcases List.mem_append.mp hmem with hmem | hmem
      · exact hprevious p hmem
      · rw [List.mem_singleton.mp hmem]
        exact hp
    unfold partitionFrom at h
    split at h
    · rename_i entry hfind
      split at h
      · cases h
      · rename_i hsame
        -- the same limits as an earlier permission for the event
        have hp : ∀ r, permission.limits.asLimits.get r ≤ total.get r := by
          rw [← not_not.mp hsame]
          exact hprevious entry (List.mem_of_find?_eq_some hfind)
        obtain ⟨hg, hrest⟩ := ih h (hcons hp) hgeneric
        exact ⟨hg, List.forall_mem_cons.mpr ⟨hp, hrest⟩⟩
    · obtain ⟨taken, htaken, h⟩ := Exec.except_bind_eq_ok.mp h
      have hreserve := Limits.reserve_ok htaken
      have hp : ∀ r, permission.limits.asLimits.get r ≤ total.get r :=
        fun r => (hreserve r).1.trans (hgeneric r)
      obtain ⟨hg, hrest⟩ := ih h (hcons hp) fun r => by
        rw [(hreserve r).2]
        exact (Nat.sub_le _ _).trans (hgeneric r)
      exact ⟨hg, List.forall_mem_cons.mpr ⟨hp, hrest⟩⟩

theorem partition_le {limits generic : Limits} {permissions : List Permission}
    (h : partition limits permissions = .ok generic) :
    (∀ r, generic.get r ≤ limits.get r) ∧
      ∀ p ∈ permissions, ∀ r, p.limits.asLimits.get r ≤ limits.get r :=
  partitionFrom_le h (by simp) fun _ => le_refl _

theorem dedup_limits {l : List Permission} {p : Permission} (h : p ∈ dedup l) :
    ∃ q ∈ l, q.limits = p.limits := by
  induction l generalizing p with
  | nil => cases h
  | cons q rest ih =>
    have hrest : ∀ x ∈ dedup rest, ∃ y ∈ q :: rest, y.limits = x.limits := by
      intro x hx
      obtain ⟨y, hy, hl⟩ := ih hx
      exact ⟨y, List.mem_cons_of_mem q hy, hl⟩
    unfold dedup at h
    cases hd : dedup rest with
    | nil =>
      rw [hd, List.mem_singleton] at h
      exact ⟨q, List.mem_cons_self, by rw [h]⟩
    | cons next more =>
      rw [hd] at h hrest
      dsimp only at h
      split at h
      · rcases List.mem_cons.mp h with rfl | h
        · exact ⟨q, List.mem_cons_self, rfl⟩
        · exact hrest p (List.mem_cons_of_mem next h)
      · rcases List.mem_cons.mp h with rfl | h
        · exact ⟨p, List.mem_cons_self, rfl⟩
        · exact hrest p h

theorem Limits.validate_ok [Target] {l : Limits} (h : l.validate = .ok ()) (r : Resource) :
    l.get r ≤ isizeMax := by
  unfold validate at h
  split at h
  · cases h
  · rename_i hany
    rw [Bool.not_eq_true, List.any_eq_false] at hany
    simpa using hany r (Resource.mem_all r)

namespace Grants

/-! ## A new node -/

theorem get_snoc (g : Grants) (n : GrantNode) (j : NodeId) :
    (Grants.mk (g.nodes ++ [some n])).get j = if j = g.nodes.length then some n else g.get j := by
  unfold get Slots.entry
  dsimp only
  by_cases hj : j = g.nodes.length
  · rw [if_pos hj, hj, List.getElem?_concat_length]
    rfl
  · rw [if_neg hj]
    rcases Nat.lt_or_gt_of_ne hj with hlt | hgt
    · rw [List.getElem?_append_left hlt]
    · rw [List.getElem?_eq_none (by simp; omega), List.getElem?_eq_none hgt.le]

theorem reservations_snoc (g : Grants) (n : GrantNode) :
    (Grants.mk (g.nodes ++ [some n])).reservations = g.reservations ++ n.reservations := by
  simp [reservations]

/-- A pool of a new node holds nothing yet. -/
theorem child_pool {limits generic : Limits} {permissions : List Permission} {reservation : Lease}
    {events : List Lease} {event : Option Nat} {p : Pool}
    (h : (child limits generic permissions reservation events).getPool event = some p) :
    p.usage = Limits.zero ∧ (p.limits = generic ∨
      ∃ permission ∈ permissions, p.limits = permission.limits.asLimits) := by
  cases event with
  | none =>
    cases h
    exact ⟨rfl, Or.inl rfl⟩
  | some index =>
    simp only [GrantNode.getPool, child, Option.bind_some, List.getElem?_map, Option.map_map]
      at h
    obtain ⟨permission, hpermission, rfl⟩ := Option.map_eq_some_iff.mp h
    exact ⟨rfl, Or.inr ⟨permission, List.mem_of_getElem? hpermission, rfl⟩⟩

theorem ChargedEvents.steady [Target] {i : NodeId} {g g' : Grants} {permissions : List Permission}
    {leases : List Lease} (h : ChargedEvents i g permissions leases g') : g.Steady g' := by
  induction h with
  | nil => exact Steady.refl _
  | @cons g g₁ g' permission rest lease leases hcharge hrest ih =>
    have hfirst := Steady.tryChargeStream g i permission.event permission.limits
    rw [hcharge] at hfirst
    exact hfirst.trans ih

/-- The reservations of the events are leases of the node, none of them generic. -/
theorem ChargedEvents.node [Target] {i : NodeId} {g g' : Grants} {permissions : List Permission}
    {leases : List Lease} (h : ChargedEvents i g permissions leases g') :
    ∀ l ∈ leases, l.node = i := by
  induction h with
  | nil => simp
  | @cons g g₁ g' permission rest lease leases hcharge hrest ih =>
    refine List.forall_mem_cons.mpr ⟨?_, ih⟩
    unfold Grants.tryChargeStream at hcharge
    split at hcharge
    · cases hcharge
    · split at hcharge
      · cases hcharge
      · obtain ⟨rfl, -⟩ := charge_ok hcharge
        rfl

theorem ChargedEvents.bounded [Target] {i : NodeId} {g g' : Grants}
    {permissions : List Permission} {leases : List Lease}
    (h : ChargedEvents i g permissions leases g') (hg : g.Bounded) : g'.Bounded := by
  induction h with
  | nil => exact hg
  | @cons g g₁ g' permission rest lease leases hcharge hrest ih =>
    refine ih ?_
    unfold Grants.tryChargeStream at hcharge
    split at hcharge
    · cases hcharge
    · split at hcharge
      · cases hcharge
      · rename_i index hindex
        have hb := hg.charge i (some index) permission.limits.asLimits
        rw [hcharge] at hb
        exact hb

theorem ChargedEvents.books [Target] {base : NodeId → Option Nat → Resource → Nat} {i : NodeId}
    {g g' : Grants} {permissions : List Permission} {leases held : List Lease}
    (h : ChargedEvents i g permissions leases g') (hb : Books base g held) :
    Books base g' (leases ++ held) := by
  induction h generalizing held with
  | nil => exact hb
  | @cons g g₁ g' permission rest lease leases hcharge hrest ih =>
    unfold Grants.tryChargeStream at hcharge
    split at hcharge
    · cases hcharge
    · split at hcharge
      · cases hcharge
      · exact (ih (hb.charge hcharge)).perm List.perm_middle

/-! ## Exact books -/

theorem held_of_forall_ne {l : List Lease} {i : NodeId} (h : ∀ lease ∈ l, lease.node ≠ i)
    (event : Option Nat) (r : Resource) : held l i event r = 0 := by
  unfold held
  rw [List.filter_eq_nil_iff.mpr fun lease hl => by simp [h lease hl]]
  rfl

/-- The usage of every pool is what `leases` hold, and nothing more. -/
def Exact (g : Grants) (leases : List Lease) : Prop := Books (fun _ _ _ => 0) g leases

/-- What some of the leases hold counts as given. -/
theorem Books.frame {base : NodeId → Option Nat → Resource → Nat} {g : Grants}
    {leases rest : List Lease} :
    Books base g (leases ++ rest) ↔
      Books (fun i event r => base i event r + held rest i event r) g leases := by
  constructor
  · rintro ⟨h⟩
    refine ⟨fun i event p hp r => ?_⟩
    rw [h i event p hp r, held_append]
    omega
  · rintro ⟨h⟩
    refine ⟨fun i event p hp r => ?_⟩
    rw [h i event p hp r, held_append]
    omega

/-- Reservations lie at the parent, which is live and older. -/
structure Founded (g : Grants) : Prop where
  root : ∃ n, g.get 0 = some n
  reserved : ∀ i n, g.get i = some n → ∀ l ∈ n.reservations,
    n.parent = some l.node ∧ l.node < i ∧ ∃ m, g.get l.node = some m

namespace Founded

variable {g g' : Grants}

theorem lt_length (h : g.Founded) {l : Lease} (hl : l ∈ g.reservations) :
    l.node < g.nodes.length := by
  obtain ⟨o, ho, hl⟩ := List.mem_flatMap.mp hl
  cases o with
  | none => cases hl
  | some n =>
    obtain ⟨i, hi⟩ := List.getElem?_of_mem ho
    obtain ⟨-, -, m, hm⟩ := h.reserved i n (Slots.entry_eq_some.mpr hi) l hl
    exact Slots.lt_of_entry hm

theorem steady (h : g.Founded) (hs : g.Steady g') : g'.Founded where
  root := by
    obtain ⟨n, hn⟩ := h.root
    have hr := hs.get 0
    rw [hn] at hr
    obtain ⟨n', hn', -⟩ := Option.map_eq_some_iff.mp hr
    exact ⟨n', hn'⟩
  reserved := by
    intro i n hn l hl
    have hr := hs.get i
    rw [hn] at hr
    obtain ⟨m, hm, hsame⟩ := Option.map_eq_some_iff.mp hr.symm
    obtain ⟨hparent, hlt, p, hp⟩ := h.reserved i m hm l (by rw [hsame]; exact hl)
    have hpar := hs.authority.parent_eq i
    rw [hn, hm, Option.bind_some, Option.bind_some] at hpar
    have hlive := hs.get l.node
    rw [hp] at hlive
    obtain ⟨p', hp', -⟩ := Option.map_eq_some_iff.mp hlive
    exact ⟨hpar.trans hparent, hlt, p', hp'⟩

theorem revoke (h : g.Founded) (i : NodeId) : (g.revoke i).Founded where
  root := by
    obtain ⟨n, hn⟩ := h.root
    rw [get_revoke, hn]
    exact ⟨_, rfl⟩
  reserved := by
    intro j n hn l hl
    rw [get_revoke] at hn
    obtain ⟨m, hm, rfl⟩ := Option.map_eq_some_iff.mp hn
    have hsame : (if i ∈ g.path j then { m with revoked := true } else m).reservations =
        m.reservations ∧
        (if i ∈ g.path j then { m with revoked := true } else m).parent = m.parent := by
      split <;> exact ⟨rfl, rfl⟩
    rw [hsame.1] at hl
    obtain ⟨hparent, hlt, p, hp⟩ := h.reserved j m hm l hl
    refine ⟨hsame.2.trans hparent, hlt, ?_⟩
    rw [get_revoke, hp]
    exact ⟨_, rfl⟩

end Founded

theorem reservations_revoke (g : Grants) (i : NodeId) :
    (g.revoke i).reservations = g.reservations := by
  unfold reservations revoke
  simp only [List.flatMap_def]
  congr 1
  refine List.ext_getElem? fun j => ?_
  rw [List.getElem?_map, List.getElem?_map, List.getElem?_mapIdx]
  cases g.nodes[j]? with
  | none => rfl
  | some o =>
    cases o with
    | none => rfl
    | some n =>
      simp only [Option.map_some, Option.elim_some, Option.some.injEq]
      split <;> rfl

/-! ## Paths -/

theorem chain_of {g g' : Grants} (fuel : Nat) (j : NodeId)
    (h : ∀ k ∈ g.chain fuel j, (g'.get k).map GrantNode.authority =
      (g.get k).map GrantNode.authority) : g'.chain fuel j = g.chain fuel j := by
  induction fuel generalizing j with
  | zero => rfl
  | succ fuel ih =>
    have hj := h j (by rw [chain]; exact List.mem_cons_self)
    have hparent : (g'.get j).bind GrantNode.parent = (g.get j).bind GrantNode.parent := by
      have hp := congrArg (fun a => a.bind Authority.parent) hj
      simpa [Option.bind_map, Function.comp_def, GrantNode.authority] using hp
    rw [chain, chain, hparent]
    cases hp : (g.get j).bind GrantNode.parent with
    | none => rfl
    | some p =>
      dsimp only
      rw [ih p]
      intro k hk
      refine h k ?_
      rw [chain, hp]
      exact List.mem_cons_of_mem j hk

/-- The nodes on the way to the root decide whether a node is revoked. -/
theorem isRevoked_of {g g' : Grants} {j : NodeId}
    (h : ∀ k ∈ g.path j, (g'.get k).map GrantNode.authority =
      (g.get k).map GrantNode.authority) : g'.isRevoked j = g.isRevoked j := by
  unfold isRevoked
  rw [show g'.path j = g.path j from chain_of (j + 1) j h]
  rw [Bool.eq_iff_iff, List.any_eq_true, List.any_eq_true]
  refine exists_congr fun k => and_congr_right fun hk => ?_
  have hany := SameAuthority.any_of (p := GrantNode.revoked) (q := Authority.revoked) (h k hk)
    fun _ => rfl
  rw [hany]

/-- Above a node there are only parents of live nodes. -/
theorem mem_chain {g : Grants} {fuel : Nat} {j k : NodeId} (h : k ∈ g.chain fuel j) :
    k = j ∨ ∃ m c, g.get m = some c ∧ c.parent = some k := by
  induction fuel generalizing j with
  | zero => cases h
  | succ fuel ih =>
    rw [chain] at h
    rcases List.mem_cons.mp h with rfl | h
    · exact Or.inl rfl
    · cases hp : (g.get j).bind GrantNode.parent with
      | none =>
        rw [hp] at h
        cases h
      | some p =>
        rw [hp] at h
        obtain ⟨c, hc, hparent⟩ := Option.bind_eq_some_iff.mp hp
        rcases ih h with rfl | hk
        · exact Or.inr ⟨j, c, hc, hparent⟩
        · exact Or.inr hk

/-- A parent of a live node is live. -/
theorem Founded.parent {g : Grants} (h : g.Founded) {m p : NodeId} {c : GrantNode}
    (hc : g.get m = some c) (hp : c.parent = some p) : ∃ n, g.get p = some n := by
  obtain ⟨l, hl, rfl⟩ := Option.map_eq_some_iff.mp hp
  obtain ⟨-, -, n, hn⟩ := h.reserved m c hc l (by simp [GrantNode.reservations, hl])
  exact ⟨n, hn⟩

theorem Founded.path_live {g : Grants} (h : g.Founded) {j k : NodeId} {n : GrantNode}
    (hj : g.get j = some n) (hk : k ∈ g.path j) : ∃ m, g.get k = some m := by
  rcases mem_chain hk with rfl | ⟨m, c, hc, hp⟩
  · exact ⟨n, hj⟩
  · exact h.parent hc hp

/-! ## Trees that change shape -/

/-- Live nodes stay what they are, as far as the clients of a stream can see, and nodes may
come. -/
structure Grows (g g' : Grants) : Prop where
  authority : ∀ i n, g.get i = some n →
    (g'.get i).map GrantNode.authority = (g.get i).map GrantNode.authority
  registered : ∀ i event, g.Registered i event → g'.Registered i event

theorem Grows.refl (g : Grants) : Grows g g := ⟨fun _ _ _ => rfl, fun _ _ h => h⟩

/-- A node leaves, and nothing of it is left but what it still has to give back. -/
theorem get_set_none {g : Grants} {i : NodeId} {n : GrantNode} (hi : g.get i = some n)
    (j : NodeId) : (Grants.mk (g.nodes.set i none)).get j = if i = j then none else g.get j := by
  unfold get
  rw [Slots.entry_set (Slots.lt_of_entry hi)]

theorem reservations_set_none {g : Grants} {i : NodeId} {n : GrantNode} (hi : g.get i = some n) :
    g.reservations.Perm (n.reservations ++ (Grants.mk (g.nodes.set i none)).reservations) := by
  have hget := Slots.entry_eq_some.mp hi
  obtain ⟨hlt, hn⟩ := List.getElem?_eq_some_iff.mp hget
  have h₁ := (List.getElem_cons_eraseIdx_perm hlt).symm.flatMap_right
    (fun o : Option GrantNode => o.elim [] GrantNode.reservations)
  have h₂ := (List.set_perm_cons_eraseIdx hlt none).flatMap_right
    (fun o : Option GrantNode => o.elim [] GrantNode.reservations)
  rw [List.flatMap_cons, hn] at h₁
  rw [List.flatMap_cons] at h₂
  exact h₁.trans (h₂.symm.append_left _)

theorem exact_perm {g : Grants} {leases leases' : List Lease} (h : g.Exact leases)
    (hp : leases.Perm leases') : g.Exact leases' := Books.perm h hp

/-! ### The end of a node -/

theorem Steady.foldl_release (leases : List Lease) (g : Grants) :
    Steady g (leases.foldl Grants.release g) := by
  induction leases generalizing g with
  | nil => exact Steady.refl g
  | cons l rest ih => exact (Steady.release g l).trans (ih _)

theorem Bounded.foldl_release [Target] (leases : List Lease) {g : Grants} (h : g.Bounded) :
    (leases.foldl Grants.release g).Bounded := by
  induction leases generalizing g with
  | nil => exact h
  | cons l rest ih => exact ih (h.release l)

theorem Exact.foldl_release (leases : List Lease) {g : Grants} {rest : List Lease}
    (h : g.Exact (leases ++ rest)) : (leases.foldl Grants.release g).Exact rest := by
  induction leases generalizing g with
  | nil => exact h
  | cons l more ih => exact ih (Books.release h)

/-- The end of a node is refused, or the node had no child. -/
theorem dropNode_cases (g : Grants) (i : NodeId) :
    g.dropNode i = g ∨ ∃ n, g.get i = some n ∧
      (∀ m c, g.get m = some c → c.parent ≠ some i) ∧
      g.dropNode i = n.reservations.foldl release ⟨g.nodes.set i none⟩ := by
  unfold dropNode
  split
  · exact Or.inl rfl
  · rename_i n hn
    split
    · exact Or.inl rfl
    · rename_i hchildless
      refine Or.inr ⟨n, hn, fun m c hc hp => hchildless ?_, rfl⟩
      exact Slots.any_iff.mpr ⟨m, c, hc, decide_eq_true hp⟩

/-- A node to which nothing refers leaves, and everybody else keeps what they have. -/
theorem dropNode_exact [Target] {g : Grants} {i : NodeId} (hroot : i ≠ 0) (hbounded : g.Bounded)
    (hfounded : g.Founded) {outside : List Lease} (hb : g.Exact (outside ++ g.reservations)) :
    (g.dropNode i).Exact (outside ++ (g.dropNode i).reservations) ∧ (g.dropNode i).Bounded ∧
      (g.dropNode i).Founded := by
  rcases g.dropNode_cases i with he | ⟨n, hn, hchildless, he⟩
  · rw [he]
    exact ⟨hb, hbounded, hfounded⟩
  · have hget := get_set_none hn
    have hpool : ∀ j event p, (Grants.mk (g.nodes.set i none)).pool j event = some p →
        g.pool j event = some p := by
      intro j event p hp
      unfold pool at hp ⊢
      rw [hget] at hp
      split at hp
      · cases hp
      · exact hp
    have hsteady := Steady.foldl_release n.reservations (Grants.mk (g.nodes.set i none))
    rw [he]
    refine ⟨?_, Bounded.foldl_release _ fun j event p hp => hbounded j event p (hpool j event p hp),
      Founded.steady ?_ hsteady⟩
    · have hexact : (Grants.mk (g.nodes.set i none)).Exact (outside ++ g.reservations) :=
        ⟨fun j event p hp => hb.usage j event p (hpool j event p hp)⟩
      rw [hsteady.reservations]
      refine Exact.foldl_release _ (exact_perm hexact ?_)
      refine ((reservations_set_none hn).append_left outside).trans ?_
      rw [← List.append_assoc, ← List.append_assoc]
      exact List.perm_append_comm.append_right _
    · refine ⟨?_, fun j m hm l hl => ?_⟩
      · obtain ⟨m, hm⟩ := hfounded.root
        exact ⟨m, by rw [hget, if_neg hroot, hm]⟩
      · rw [hget] at hm
        split at hm
        · cases hm
        · obtain ⟨hparent, hlt, k, hk⟩ := hfounded.reserved j m hm l hl
          refine ⟨hparent, hlt, k, ?_⟩
          rw [hget, if_neg]
          · exact hk
          · rintro rfl
            exact hchildless j m hm hparent

/-- What the end of one node is to the others. -/
theorem dropNode_others {g : Grants} {i j : NodeId} (hj : j ≠ i) :
    ((g.dropNode i).get j).map GrantNode.authority = (g.get j).map GrantNode.authority ∧
      ∀ event, g.Registered j event → (g.dropNode i).Registered j event := by
  rcases g.dropNode_cases i with he | ⟨n, hn, -, he⟩
  · rw [he]
    exact ⟨rfl, fun _ h => h⟩
  · have hsteady := Steady.foldl_release n.reservations (Grants.mk (g.nodes.set i none))
    have hget : (Grants.mk (g.nodes.set i none)).get j = g.get j := by
      rw [get_set_none hn, if_neg (Ne.symm hj)]
    rw [he]
    refine ⟨by rw [hsteady.authority j, hget], fun event hreg => ?_⟩
    refine hsteady.registered j event ?_
    unfold Registered
    rw [hget]
    exact hreg

section

variable [Target] {g : Grants} {i : NodeId} {permissions sorted : List Permission}
  {limits : Limits}

/-- A delegation that succeeds, with everything that follows from its charges. -/
theorem restrict_grows (hperm : sorted.Perm permissions) (hbounded : g.Bounded)
    (hfounded : g.Founded) {outside : List Lease} (hb : g.Exact (outside ++ g.reservations))
    (hlive : ∀ l ∈ outside, l.node < g.nodes.length) :
    (g.restrict i permissions sorted limits).2.Exact
        (outside ++ (g.restrict i permissions sorted limits).2.reservations) ∧
      (g.restrict i permissions sorted limits).2.Bounded ∧
      (g.restrict i permissions sorted limits).2.Founded ∧
      Grows g (g.restrict i permissions sorted limits).2 := by
  rcases g.restrict_cases i permissions sorted limits with
    ⟨error, he⟩ | ⟨generic, amount, reservation, g₁, events, g₂, hrequested, hcharge, hevents, -, he⟩
  · rw [he]
    exact ⟨hb, hbounded, hfounded, Grows.refl g⟩
  · obtain ⟨hvalid, -, -, hpartition, -⟩ := requested_ok hrequested
    have hcharge : g.charge i none amount = (.ok reservation, g₁) := hcharge
    have hnode : reservation.node = i := by
      obtain ⟨rfl, -⟩ := charge_ok hcharge
      rfl
    -- the charges, first the generic one
    have hsteady₁ := Steady.charge g i none amount
    have hbounded₁ := hbounded.charge i none amount
    rw [hcharge] at hsteady₁ hbounded₁
    have hbooks₁ : g₁.Exact (reservation :: (outside ++ g.reservations)) := Books.charge hb hcharge
    obtain ⟨hsteady₂, hbounded₂, hbooks₂, hevent⟩ : g₁.Steady g₂ ∧ g₂.Bounded ∧
        g₂.Exact (events ++ reservation :: (outside ++ g.reservations)) ∧
        ∀ l ∈ events, l.node = i := by
      rcases hevents with ⟨-, hcharged⟩ | ⟨-, rfl, rfl⟩
      · exact ⟨hcharged.steady, hcharged.bounded hbounded₁, hcharged.books hbooks₁, hcharged.node⟩
      · exact ⟨Steady.refl _, hbounded₁, hbooks₁, by simp⟩
    have hsteady := hsteady₁.trans hsteady₂
    have hfounded₂ := hfounded.steady hsteady
    have hlength := hsteady.length
    obtain ⟨n, hn⟩ : ∃ n, g₂.get i = some n := by
      obtain ⟨-, -, p, -, hp, -⟩ := charge_ok hcharge
      obtain ⟨n, hn, -⟩ := Option.bind_eq_some_iff.mp hp
      have hi := hsteady.get i
      rw [hn] at hi
      obtain ⟨m, hm, -⟩ := Option.map_eq_some_iff.mp hi
      exact ⟨m, hm⟩
    have hi : i < g₂.nodes.length := Slots.lt_of_entry hn
    have hreservations : (child limits generic (dedup sorted) reservation events).reservations =
        reservation :: events := rfl
    have hget := get_snoc g₂ (child limits generic (dedup sorted) reservation events)
    rw [he]
    dsimp only
    refine ⟨?_, ?_, ?_, ?_⟩
    · -- the new node has no usage and no lease names it
      refine ⟨fun j event p hp r => ?_⟩
      rw [held_append, reservations_snoc, hreservations, hsteady.reservations, held_append]
      unfold pool at hp
      rw [hget] at hp
      split at hp
      · rename_i hj
        subst hj
        obtain ⟨hzero, -⟩ := child_pool hp
        have hnone : ∀ l ∈ outside ++ (g.reservations ++ reservation :: events),
            l.node ≠ g₂.nodes.length := by
          intro l hl
          rcases List.mem_append.mp hl with hl | hl
          · exact Nat.ne_of_lt (hlength ▸ hlive l hl)
          · rcases List.mem_append.mp hl with hl | hl
            · exact Nat.ne_of_lt (hlength ▸ hfounded.lt_length hl)
            · rcases List.mem_cons.mp hl with rfl | hl
              · exact Nat.ne_of_lt (hnode ▸ hi)
              · rw [hevent l hl]
                exact Nat.ne_of_lt hi
        have hheld := held_of_forall_ne hnone event r
        rw [held_append, held_append] at hheld
        rw [hzero, Limits.get_zero]
        omega
      · have hu := hbooks₂.usage j event p hp r
        rw [held_append, held_cons, held_append] at hu
        rw [held_cons]
        omega
    · intro j event p hp r
      unfold pool at hp
      rw [hget] at hp
      split at hp
      · obtain ⟨hzero, hlimits⟩ := child_pool hp
        obtain ⟨hgeneric, hpermissions⟩ := partition_le hpartition
        have hle : p.limits.get r ≤ limits.get r := by
          rcases hlimits with hl | ⟨permission, hpermission, hl⟩
          · rw [hl]
            exact hgeneric r
          · obtain ⟨q, hq, hsame⟩ := dedup_limits hpermission
            rw [hl, ← hsame]
            exact hpermissions q (hperm.mem_iff.mp hq) r
        rw [hzero, Limits.get_zero]
        exact ⟨Nat.zero_le _, hle.trans (Limits.validate_ok hvalid r)⟩
      · exact hbounded₂ j event p hp r
    · refine ⟨?_, ?_⟩
      · obtain ⟨m, hm⟩ := hfounded₂.root
        exact ⟨m, by rw [hget, if_neg (Nat.ne_of_lt (Slots.lt_of_entry hm)), hm]⟩
      · intro j m hm l hl
        have hlift : ∀ k, (∃ m, g₂.get k = some m) → ∃ m,
            (Grants.mk (g₂.nodes ++ [some (child limits generic (dedup sorted) reservation
              events)])).get k = some m := by
          rintro k ⟨m, hm⟩
          rw [hget, if_neg (Slots.lt_of_entry hm).ne, hm]
          exact ⟨m, rfl⟩
        rw [hget] at hm
        split at hm
        · rename_i hj
          cases hm
          have hl : l.node = i := by
            rcases List.mem_cons.mp hl with rfl | hl
            · exact hnode
            · exact hevent l hl
          rw [hl, hj]
          exact ⟨congrArg some hnode, hi, hlift i ⟨n, hn⟩⟩
        · obtain ⟨hparent, hlt, hlive⟩ := hfounded₂.reserved j m hm l hl
          exact ⟨hparent, hlt, hlift _ hlive⟩
    · have hold : ∀ j m, g.get j = some m → j ≠ g₂.nodes.length := by
        intro j m hm
        exact Nat.ne_of_lt (hlength ▸ Slots.lt_of_entry hm)
      refine ⟨fun j m hm => ?_, ?_⟩
      · rw [hget, if_neg (hold j m hm)]
        exact hsteady.authority j
      · intro j event hreg
        obtain ⟨m, hm, hmem⟩ := hsteady.registered j event hreg
        unfold Registered
        rw [hget, if_neg (Slots.lt_of_entry hm).ne]
        exact ⟨m, hm, hmem⟩

end

end Grants

end Hiway
