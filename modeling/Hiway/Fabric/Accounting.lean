import Hiway.Fabric.Retention
import Hiway.Fabric.Session
import Hiway.Grant.Accounting

/-!
# Accounting for a stream

Every retained entry carries the lease of its publisher. `Balanced` says that the usage
of every pool is its share of the start, what the entries hold, and what is held outside
of the stream: by preparations and by receivers.

* `tryCharge_ok`: what a charge for the stream is charged to.
* `maintain`, `commit`, `subscribe`, `closeStream`: what each operation of the stream does
  to the books: leases move between the entries and what is held outside, and none is lost.
* `step`: an operation of a session keeps the books balanced.
* `run_balanced`: so does every run from an empty stream.
-/

namespace Hiway.Fabric

open Target

variable {α : Type}

/-- The leases that a stream holds. -/
def State.leases (s : State α) : List Lease :=
  s.entries.map Entry.lease ++ s.retired.toList.map Entry.lease

/-- The lease of one retained item of the event, from the pool of its node. -/
def Charged (g : Grants) (event : EventId) (lease : Lease) : Prop :=
  lease.usage = World.retainedItem.asLimits ∧ ∃ index, lease.event = some index ∧
    (g.get lease.node).map (fun n => n.eventIndex event) = some (.ok index)

theorem Charged.of_authority {g g' : Grants} {event : EventId} {lease : Lease}
    (h : Charged g event lease) (hg : SameAuthority g g') : Charged g' event lease := by
  obtain ⟨husage, index, hindex, hn⟩ := h
  exact ⟨husage, index, hindex, (hg.eventIndex_eq _ _).trans hn⟩

theorem Charged.revoke {g : Grants} {event : EventId} {lease : Lease}
    (h : Charged g event lease) (i : NodeId) : Charged (g.revoke i) event lease := by
  obtain ⟨husage, index, hindex, hn⟩ := h
  exact ⟨husage, index, hindex, (g.eventIndex_revoke i _ _).trans hn⟩

/-- A charge of the stream's event is one of the pool of its index. -/
theorem tryChargeStream_ok [Target] {g g' : Grants} {i : NodeId} {event : EventId}
    {usage : StreamLimits} {lease : Lease}
    (h : g.tryChargeStream i event usage = (.ok lease, g')) :
    ∃ index, (g.get i).map (fun n => n.eventIndex event) = some (.ok index) ∧
      g.charge i (some index) usage.asLimits = (.ok lease, g') := by
  unfold Grants.tryChargeStream at h
  split at h
  · cases h
  · rename_i n hn
    split at h
    · cases h
    · rename_i index hindex
      exact ⟨index, by rw [hn, Option.map_some, hindex], h⟩

theorem Charged.of_charge [Target] {g g' : Grants} {i : NodeId} {event : EventId} {lease : Lease}
    (h : g.tryChargeStream i event World.retainedItem = (.ok lease, g')) :
    Charged g event lease ∧ lease.node = i := by
  obtain ⟨index, hindex, hcharge⟩ := tryChargeStream_ok h
  obtain ⟨rfl, -⟩ := Grants.charge_ok hcharge
  exact ⟨⟨rfl, index, rfl, hindex⟩, rfl⟩

namespace World

/-- What a charge is charged to. -/
theorem tryCharge_ok [Target] {w w' : World α} {node : NodeId} {usage : StreamLimits}
    {lease : Lease} (h : w.tryCharge node usage = (.ok lease, w')) :
    lease.node = node ∧ lease.usage = usage.asLimits ∧
      ∃ index, lease.event = some index ∧
        (w.grants.get node).map (fun n => n.eventIndex w.stream.event) = some (.ok index) := by
  unfold tryCharge at h
  cases hc : w.grants.tryChargeStream node w.stream.event usage with
  | mk result g =>
    rw [hc] at h
    cases h
    obtain ⟨index, hindex, hcharge⟩ := tryChargeStream_ok hc
    obtain ⟨rfl, -⟩ := Grants.charge_ok hcharge
    exact ⟨rfl, rfl, index, rfl, hindex⟩

/-- The books of a stream's grants balance, with `outside` held outside of the stream. -/
structure Balanced [Target] (base : NodeId → Option Nat → Resource → Nat) (w : World α)
    (outside : List Lease) : Prop where
  books : w.grants.Books base (w.stream.state.leases ++ outside)
  bounded : w.grants.Bounded
  charged : ∀ e ∈ w.stream.state.entries, Charged w.grants w.stream.event e.lease

namespace Balanced

variable [Target] {base : NodeId → Option Nat → Resource → Nat} {w w' : World α}
  {lease : Lease} {outside outside' : List Lease}

theorem perm (h : Balanced base w outside) (hp : outside.Perm outside') :
    Balanced base w outside' where
  books := h.books.perm (hp.append_left _)
  bounded := h.bounded
  charged := h.charged

/-- The entries are the same, the grants changed in no pool and no authority. -/
theorem of_same (h : Balanced base w outside)
    (hpool : ∀ i event, w'.grants.pool i event = w.grants.pool i event)
    (hauthority : SameAuthority w.grants w'.grants) (hevent : w'.stream.event = w.stream.event)
    (hentries : w'.stream.state.entries = w.stream.state.entries)
    (hretired : w'.stream.state.retired = w.stream.state.retired) : Balanced base w' outside where
  books := by
    have hleases : w'.stream.state.leases = w.stream.state.leases := by
      simp only [State.leases, hentries, hretired]
    rw [hleases]
    exact h.books.of_pools hpool
  bounded := Grants.bounded_of_pools h.bounded hpool
  charged := by
    rw [hentries, hevent]
    exact fun e he => (h.charged e he).of_authority hauthority

/-- Only the cursors and flags of the state change. -/
theorem unlock (h : Balanced base w outside) (s : State α)
    (hentries : s.entries = w.stream.state.entries) (hretired : s.retired = w.stream.state.retired)
    (d n : Bool) : Balanced base (w.unlock s d n) outside := by
  refine h.of_same (fun _ _ => rfl) (SameAuthority.refl _) (unlock_event w s d n) ?_ ?_
  · rw [unlock_state]
    exact hentries
  · rw [unlock_state]
    exact hretired

theorem release {l : Lease} (h : Balanced base w (l :: outside)) :
    Balanced base (w.release l) outside where
  books := by
    rw [release_state]
    exact (h.books.perm List.perm_middle).release
  bounded := h.bounded.release l
  charged := by
    rw [release_state, release_event]
    exact fun e he => (h.charged e he).of_authority (SameAuthority.release _ _)

theorem tryCharge {node : NodeId} {usage : StreamLimits}
    (h : Balanced base w outside) (hc : w.tryCharge node usage = (.ok lease, w')) :
    Balanced base w' (lease :: outside) := by
  unfold World.tryCharge at hc
  cases hg : w.grants.tryChargeStream node w.stream.event usage with
  | mk result g =>
    rw [hg] at hc
    cases hc
    have hauthority := SameAuthority.tryChargeStream w.grants node w.stream.event usage
    rw [hg] at hauthority
    obtain ⟨index, -, hcharge⟩ := tryChargeStream_ok hg
    have hbounded := h.bounded.charge node (some index) usage.asLimits
    rw [hcharge] at hbounded
    exact
      { books := (h.books.charge hcharge).perm List.perm_middle.symm
        bounded := hbounded
        charged := fun e he => (h.charged e he).of_authority hauthority }

theorem bindStream (h : Balanced base w outside) (node : NodeId) (rights : Rights) :
    Balanced base (w.bindStream node rights).2 outside := by
  unfold World.bindStream
  split
  · exact h
  · exact h.of_same (fun _ _ => Grants.pool_registerStream _ _ _ _ _)
      (SameAuthority.registerStream _ _ _) rfl rfl rfl

theorem revoke (h : Balanced base w outside) (node : NodeId) :
    Balanced base (w.revoke node) outside where
  books := h.books.of_pools (Grants.pool_revoke _ _)
  bounded := Grants.bounded_of_pools h.bounded (Grants.pool_revoke _ _)
  charged := fun e he => (h.charged e he).revoke node

/-! ## Entries -/

/-- The front leaves the queue and its lease is held outside. -/
theorem pop {e : Entry α} {rest : List (Entry α)} (h : Balanced base w outside)
    (he : w.stream.state.entries = e :: rest) (room : Bool) (d n : Bool) :
    Balanced base (w.unlock { w.stream.state with needsRoom := room, entries := rest } d n)
      (e.lease :: outside) where
  books := by
    have hb := h.books
    simp only [State.leases, he, List.map_cons, List.cons_append] at hb
    rw [unlock_state, unlock_grants]
    simp only [State.leases]
    exact hb.perm List.perm_middle.symm
  bounded := h.bounded
  charged := by
    intro x hx
    rw [unlock_state] at hx
    rw [unlock_event, unlock_grants]
    exact h.charged x (by rw [he]; exact List.mem_cons_of_mem _ hx)

/-- The retired snapshot leaves the stream and its lease is held outside. -/
theorem takeRetired (h : Balanced base w outside) (d n : Bool) :
    Balanced base (w.unlock { w.stream.state with retired := none } d n)
      (w.stream.state.retired.toList.map Entry.lease ++ outside) where
  books := by
    have hb := h.books
    rw [unlock_state, unlock_grants]
    simp only [State.leases, List.append_assoc] at hb ⊢
    exact hb
  bounded := h.bounded
  charged := by
    rw [unlock_state, unlock_event]
    exact h.charged

/-- A lease held outside is the one of the new entry. -/
theorem append (h : Balanced base w (lease :: outside))
    (hlease : Charged w.grants w.stream.event lease) (value : α) (d n : Bool) :
    Balanced base (w.unlock (World.append w.stream.state value lease) d n) outside where
  books := by
    have hb := h.books
    rw [unlock_state, unlock_grants]
    simp only [State.leases, World.append, List.map_append, List.map_cons, List.map_nil,
      List.append_assoc, List.cons_append, List.nil_append] at hb ⊢
    exact hb.perm (List.perm_middle.append_left _)
  bounded := h.bounded
  charged := by
    intro x hx
    rw [unlock_state] at hx
    rw [unlock_event, unlock_grants]
    rcases List.mem_append.mp hx with hx | hx
    · exact h.charged x hx
    · rw [List.mem_singleton.mp hx]
      exact hlease

/-- Leases are given back one after the other. -/
theorem releaseAll (entries : List (Entry α)) {w : World α}
    (h : Balanced base w (entries.map Entry.lease ++ outside)) :
    Balanced base (w.releaseAll entries) outside := by
  induction entries generalizing w with
  | nil => exact h
  | cons e rest ih => exact ih h.release

/-! ## Maintenance -/

theorem retireLoop (fuel : Nat) {w : World α} (h : Balanced base w outside) :
    Balanced base (w.retireLoop fuel) outside := by
  induction fuel generalizing w with
  | zero => exact h
  | succ fuel ih =>
    unfold World.retireLoop
    split
    · exact h.unlock _ rfl rfl _ _
    · rename_i e rest he
      split
      · exact ih (h.pop he w.stream.state.needsRoom true true).release
      · exact h.unlock _ rfl rfl _ _

theorem retireConsumed (h : Balanced base w outside) : Balanced base w.retireConsumed outside := by
  unfold World.retireConsumed
  split
  · exact h
  · exact h.retireLoop _

theorem freeRetired (h : Balanced base w outside) : Balanced base w.freeRetired outside := by
  unfold World.freeRetired
  split
  · have ht := h.takeRetired w.stream.state.retired.isSome true
    dsimp only
    cases hr : w.stream.state.retired with
    | none =>
      rw [hr] at ht
      exact ht
    | some e =>
      rw [hr] at ht
      exact ht.release
  · exact h

theorem makeRoom (h : Balanced base w outside) : Balanced base w.makeRoom outside := by
  unfold World.makeRoom
  dsimp only
  split
  · rename_i e rest he
    split
    · exact (h.pop he false true true).release
    · exact h.unlock { w.stream.state with needsRoom := false } rfl rfl _ _
  · exact h.unlock { w.stream.state with needsRoom := false } rfl rfl _ _

theorem maintain (h : Balanced base w outside) : Balanced base w.maintain outside := by
  have hm := h.freeRetired.retireConsumed.makeRoom
  unfold World.maintain
  dsimp only
  split
  · exact hm.of_same (fun _ _ => rfl) (SameAuthority.refl _) rfl rfl rfl
  · exact hm

/-! ## Publication -/

/-- A reservation leaves the books balanced; a successful one holds one more lease. -/
theorem reserveLoop (node : NodeId) (value : α) (fuel : Nat) {w : World α}
    (h : Balanced base w outside) :
    (∃ error w', w.reserveLoop node value fuel = (.error error, w') ∧ Balanced base w' outside) ∨
    ∃ lease w', w.reserveLoop node value fuel = (.ok (value, lease), w') ∧
      Charged w'.grants w'.stream.event lease ∧ lease.node = node ∧
      Balanced base w' (lease :: outside) := by
  induction fuel generalizing w with
  | zero => exact Or.inl ⟨_, _, rfl, h⟩
  | succ fuel ih =>
    have hseen : Balanced base (w.unlock w.stream.state false true) outside :=
      h.unlock _ rfl rfl _ _
    rcases w.reserveLoop_cases node value fuel with
      ⟨error, w', he, hg, hstate, hevent, -, -⟩ | ⟨-, -, -, ⟨lease, w', hcharge, he⟩ |
        ⟨error, own, front, rest, -, -, -, -, hfront, he⟩⟩
    · refine Or.inl ⟨error, w', he, h.of_same ?_ ?_ hevent ?_ ?_⟩
      · rw [hg]
        exact fun _ _ => rfl
      · rw [hg]
        exact SameAuthority.refl _
      · rw [hstate]
      · rw [hstate]
    · refine Or.inr ⟨lease, w', he, ?_, ?_, hseen.tryCharge hcharge⟩
      all_goals
        unfold World.tryCharge at hcharge
        cases hg : (w.unlock w.stream.state false true).grants.tryChargeStream node
          (w.unlock w.stream.state false true).stream.event retainedItem with
        | mk result g =>
          rw [hg] at hcharge
          cases hcharge
          have hauthority := SameAuthority.tryChargeStream
            (w.unlock w.stream.state false true).grants node
            (w.unlock w.stream.state false true).stream.event retainedItem
          rw [hg] at hauthority
          obtain ⟨hcharged, hnode⟩ := Charged.of_charge hg
          first
            | exact hcharged.of_authority hauthority
            | exact hnode
    · have hpop := hseen.pop (e := front) (by rw [unlock_state]; exact hfront)
        w.stream.state.needsRoom true true
      rw [unlock_state] at hpop
      rw [he]
      exact ih hpop.release

theorem reserve (h : Balanced base w outside) (node : NodeId) (value : α) :
    (∃ error w', w.reserve node value = (.error error, w') ∧ Balanced base w' outside) ∨
    ∃ lease w', w.reserve node value = (.ok (value, lease), w') ∧
      Charged w'.grants w'.stream.event lease ∧ lease.node = node ∧
      Balanced base w' (lease :: outside) := by
  unfold World.reserve
  split
  · exact Or.inl ⟨_, _, rfl, h⟩
  · exact Or.inl ⟨_, _, rfl, h⟩
  · exact Or.inl ⟨_, _, rfl, h⟩
  · refine reserveLoop node value _ ?_
    split
    · exact h.maintain
    · exact h

/-- A publication turns a lease held outside into the one of an entry, or leaves it. -/
theorem commit (h : Balanced base w (lease :: outside)) (hcap : 0 < w.stream.config.capacity)
    (hlease : Charged w.grants w.stream.event lease) (node : NodeId) (value : α)
    (deferred : Bool) :
    (∃ error w', w.commit node value lease deferred = (.error error, w') ∧
      Balanced base w' (lease :: outside)) ∨
    ∃ w', w.commit node value lease deferred = (.ok (), w') ∧ Balanced base w' outside := by
  rcases commit_cases hcap node value lease deferred with
    ⟨error, w', he, hw⟩ | ⟨-, -, -, ⟨-, he⟩ | ⟨front, rest, hfront, -, -,
      ⟨rfl, he⟩ | ⟨rfl, -, hretired, he⟩⟩⟩
  · refine Or.inl ⟨error, w', he, ?_⟩
    rcases hw with rfl | ⟨room, n, -, rfl⟩
    · exact h
    · exact h.unlock { w.stream.state with needsRoom := room } rfl rfl _ _
  · exact Or.inr ⟨_, he, h.append hlease value _ _⟩
  · refine Or.inr ⟨_, he, release ?_⟩
    have hpop := (h.pop hfront w.stream.state.needsRoom true true).perm
      (List.Perm.swap lease front.lease outside)
    have happend := hpop.append (by rw [unlock_event]; exact hlease) value true true
    refine happend.of_same (fun _ _ => rfl) (SameAuthority.refl _) ?_ ?_ ?_
    all_goals simp [World.append]
  · refine Or.inr ⟨_, he, ?_⟩
    exact
      { books := by
          have hb := h.books
          rw [unlock_state, unlock_grants]
          simp only [State.leases, World.append, hfront, hretired, Option.toList_none,
            Option.toList_some, List.map_append, List.map_cons, List.map_nil, List.append_assoc,
            List.cons_append, List.nil_append] at hb ⊢
          exact hb.perm (List.perm_middle.symm.trans ((List.Perm.swap _ _ _).append_left _))
        bounded := h.bounded
        charged := by
          intro x hx
          rw [unlock_state] at hx
          rw [unlock_event, unlock_grants]
          rcases List.mem_append.mp hx with hx | hx
          · exact h.charged x (by rw [hfront]; exact List.mem_cons_of_mem _ hx)
          · rw [List.mem_singleton.mp hx]
            exact hlease }

theorem reserve_error (h : Balanced base w outside) {node : NodeId} {value : α}
    {error : TrySendError α} (he : w.reserve node value = (.error error, w')) :
    Balanced base w' outside := by
  rcases h.reserve node value with ⟨error₁, w₁, hr, hb⟩ | ⟨lease, w₁, hr, -⟩
  · rw [he] at hr
    cases hr
    exact hb
  · rw [he] at hr
    cases hr

theorem reserve_ok (h : Balanced base w outside) {node : NodeId} {value v : α}
    (he : w.reserve node value = (.ok (v, lease), w')) :
    Charged w'.grants w'.stream.event lease ∧ lease.node = node ∧
      Balanced base w' (lease :: outside) := by
  rcases h.reserve node value with ⟨error₁, w₁, hr, -⟩ | ⟨lease₁, w₁, hr, hrest⟩
  · rw [he] at hr
    cases hr
  · rw [he] at hr
    cases hr
    exact hrest

theorem sendNow (h : Balanced base w outside) (hcap : 0 < w.stream.config.capacity)
    (node : NodeId) (value : α) : Balanced base (w.sendNow node value).2 outside := by
  have hsame := SameStream.reserve node value w
  rcases w.sendNow_cases node value with
    ⟨error, w', he, hreserve | ⟨lease, w₁, error₂, w₂, hreserve, hcommit, rfl⟩⟩ |
      ⟨lease, w₁, w', hreserve, hcommit, he⟩
  · rw [he]
    exact h.reserve_error hreserve
  · rw [hreserve] at hsame
    obtain ⟨hcharged, -, hb⟩ := h.reserve_ok hreserve
    rw [he]
    rcases hb.commit (hsame.config ▸ hcap) hcharged node value false with
      ⟨error₁, w₄, hc, hb'⟩ | ⟨w₄, hc, -⟩
    · rw [hcommit] at hc
      cases hc
      exact hb'.release
    · rw [hcommit] at hc
      cases hc
  · rw [hreserve] at hsame
    obtain ⟨hcharged, -, hb⟩ := h.reserve_ok hreserve
    rw [he]
    rcases hb.commit (hsame.config ▸ hcap) hcharged node value false with
      ⟨error₁, w₄, hc, -⟩ | ⟨w₄, hc, hb'⟩
    · rw [hcommit] at hc
      cases hc
    · rw [hcommit] at hc
      cases hc
      exact hb'

/-! ## Subscriptions -/

theorem claimed (h : Balanced base w outside) (index : Nat) (node : NodeId)
    (role : SubscriptionRole) : Balanced base (w.claimed index node role) outside := by
  unfold World.claimed
  refine h.unlock _ ?_ ?_ _ _
  · rfl
  · rfl

/-- A subscription holds one more lease, or none when it is refused. -/
theorem subscribe (h : Balanced base w outside) (node : NodeId) (role : SubscriptionRole) :
    (∃ error w', w.subscribe node role = (.error error, w') ∧ Balanced base w' outside) ∨
    ∃ key lease w', w.subscribe node role = (.ok (key, lease), w') ∧
      Balanced base w' (lease :: outside) := by
  have hbind := h.bindStream node (roleRights role)
  rcases w.subscribe_cases node role with
    ⟨error, w', he, hw⟩ | ⟨w₁, lease, index, -, hcharge, -, -, -, -, he⟩
  · refine Or.inl ⟨error, w', he, ?_⟩
    rcases hw with rfl | rfl | ⟨lease, w₁, hcharge, rfl | rfl⟩
    · exact h
    · exact hbind
    · exact (hbind.tryCharge hcharge).release
    · exact ((hbind.tryCharge hcharge).unlock _ rfl rfl _ _).release
  · exact Or.inr ⟨_, lease, _, he, (hbind.tryCharge hcharge).claimed index node role⟩

theorem tryRecv {key : CursorKey} {node : NodeId}
    {result : Except ReceiveError (Option (StreamItem α))} (h : Balanced base w outside)
    (he : w.tryRecv node key = .ok (result, w')) : Balanced base w' outside := by
  rcases tryRecv_world he with rfl | ⟨subscribers, d, rfl⟩
  · exact h
  · exact h.unlock { w.stream.state with subscribers := subscribers } rfl rfl _ _

theorem dropReceiver (h : Balanced base w (lease :: outside)) (key : CursorKey) :
    Balanced base (w.dropReceiver key lease) outside :=
  (h.unlock { w.stream.state with
    subscribers := w.stream.state.subscribers.set key.index none } rfl rfl true
      true).retireConsumed.release

/-! ## Administration -/

theorem sender (h : Balanced base w outside) (node : NodeId) :
    Balanced base (w.sender node).2 outside := by
  have hb := h.bindStream node .publish
  unfold World.sender
  split
  · rename_i heq
    rw [heq] at hb
    exact hb
  · rename_i heq
    rw [heq] at hb
    dsimp only
    split <;> exact hb

/-- A closed stream gives all its leases back. -/
theorem closeStream (h : Balanced base w outside) (node : NodeId) :
    Balanced base (w.closeStream node).2 outside := by
  have hb := h.bindStream node .publish
  unfold World.closeStream
  split
  · rename_i heq
    rw [heq] at hb
    exact hb
  · rename_i w₁ heq
    rw [heq] at hb
    refine releaseAll _ ?_
    exact
      { books := by
          have hbooks := hb.books
          rw [unlock_state, unlock_grants]
          simp only [State.leases, List.map_nil, Option.toList_none, List.nil_append,
            List.map_append] at hbooks ⊢
          exact hbooks
        bounded := hb.bounded
        charged := by
          rw [unlock_state]
          simp }

end Balanced

end World

/-! ## Sessions -/

namespace Session

/-- The leases that the clients of a session hold. -/
def outside (s : Session α) : List Lease :=
  s.preparations.filterMap (fun o => o.map Prepared.lease) ++
    s.subscriptions.filterMap fun sub => if sub.dropped then none else some sub.lease

/-- A list with one place changed to nothing. -/
theorem filterMap_set_perm {β γ : Type} {l : List β} {f : β → Option γ} {i : Nat} {x y : β}
    {c : γ} (hx : l[i]? = some x) (hfx : f x = some c) (hfy : f y = none) :
    (l.filterMap f).Perm (c :: (l.set i y).filterMap f) := by
  obtain ⟨hi, rfl⟩ := List.getElem?_eq_some_iff.mp hx
  have h₁ := (List.getElem_cons_eraseIdx_perm hi).symm.filterMap f
  have h₂ := (List.set_perm_cons_eraseIdx hi y).filterMap f
  rw [List.filterMap_cons, hfx] at h₁
  rw [List.filterMap_cons, hfy] at h₂
  exact h₁.trans (h₂.symm.cons c)

/-- A list with one place changed to something of the same image. -/
theorem filterMap_set_eq {β γ : Type} {l : List β} {f : β → Option γ} {i : Nat} {x y : β}
    (hx : l[i]? = some x) (hf : f y = f x) : (l.set i y).filterMap f = l.filterMap f := by
  have hmap : (l.set i y).map f = l.map f := by
    refine List.ext_getElem? fun j => ?_
    rw [List.getElem?_map, List.getElem?_map, List.getElem?_set]
    split
    · rename_i hij
      subst hij
      obtain ⟨hi, rfl⟩ := List.getElem?_eq_some_iff.mp hx
      rw [if_pos hi, List.getElem?_eq_getElem hi, Option.map_some, Option.map_some, hf]
    · rfl
  have h := congrArg (List.filterMap id) hmap
  rwa [List.filterMap_map, List.filterMap_map] at h

structure Balanced [Target] (base : NodeId → Option Nat → Resource → Nat) (config : StreamConfig)
    (s : Session α) : Prop where
  config : s.world.stream.config = config
  world : s.world.Balanced base s.outside
  prepared : ∀ (p : Nat) (prepared : Prepared α), Slots.entry s.preparations p = some prepared →
    Charged s.world.grants s.world.stream.event prepared.lease

namespace Balanced

/-- The lease of a preparation, apart from the others held outside. -/
theorem outside_preparation {s : Session α} {p : Nat} {prepared : Prepared α}
    (hp : Slots.entry s.preparations p = some prepared) :
    s.outside.Perm (prepared.lease ::
      outside { s with preparations := s.preparations.set p none }) :=
  (filterMap_set_perm (f := fun o : Option (Prepared α) => o.map Prepared.lease) (y := none)
    (Slots.entry_eq_some.mp hp) rfl rfl).append_right _

variable [Target] {base : NodeId → Option Nat → Resource → Nat} {config : StreamConfig}
  {s : Session α}

/-- Only the world changed. -/
theorem of_world (h : s.Balanced base config) {w : World α}
    (hsame : s.world.SameStream w) (hb : w.Balanced base s.outside) :
    Balanced base config { s with world := w } where
  config := hsame.config.trans h.config
  world := hb
  prepared := by
    intro p prepared hp
    dsimp only at hp ⊢
    rw [hsame.event]
    exact (h.prepared p prepared hp).of_authority hsame.authority

theorem sendNow (h : s.Balanced base config) (hcap : 0 < config.capacity) (node : NodeId)
    (value : α) : (s.sendNow node value).Balanced base config := by
  have hcap : 0 < s.world.stream.config.capacity := h.config ▸ hcap
  have hsame := World.SameStream.sendNow hcap node value
  have hb := h.world.sendNow hcap node value
  unfold Session.sendNow
  split
  · rename_i heq
    rw [heq] at hsame hb
    exact h.of_world hsame hb
  · rename_i heq
    rw [heq] at hsame hb
    have hw := h.of_world hsame hb
    exact ⟨hw.config, hw.world, hw.prepared⟩

theorem prepare (h : s.Balanced base config) (node : NodeId) (value : α) :
    (s.prepare node value).Balanced base config := by
  have hsame := World.SameStream.reserve node value s.world
  unfold Session.prepare
  split
  · rename_i heq
    rw [heq] at hsame
    exact h.of_world hsame (h.world.reserve_error heq)
  · rename_i v lease w heq
    rw [heq] at hsame
    obtain ⟨hcharged, -, hb⟩ := h.world.reserve_ok heq
    refine ⟨hsame.config.trans h.config, hb.perm ?_, ?_⟩
    · simp only [outside, List.filterMap_append, List.filterMap_cons, Option.map_some,
        List.filterMap_nil, List.append_assoc, List.cons_append, List.nil_append]
      exact List.perm_middle.symm
    · intro p prepared hp
      rcases Handles.getElem?_snoc (Slots.entry_eq_some.mp hp) with ⟨hp, -⟩ | ⟨-, hp⟩
      · dsimp only
        rw [hsame.event]
        exact (h.prepared p prepared (Slots.entry_eq_some.mpr hp)).of_authority hsame.authority
      · cases hp
        exact hcharged

/-- The other preparations are still prepared. -/
theorem prepared_set (h : s.Balanced base config) (p : Nat) :
    ∀ (q : Nat) (prepared : Prepared α),
      Slots.entry (s.preparations.set p none) q = some prepared →
        Charged s.world.grants s.world.stream.event prepared.lease := by
  intro q prepared hq
  rcases Handles.getElem?_set_cases (Slots.entry_eq_some.mp hq) with ⟨-, hq⟩ | ⟨-, hq⟩
  · cases hq
  · exact h.prepared q prepared (Slots.entry_eq_some.mpr hq)

theorem trySend (h : s.Balanced base config) (hcap : 0 < config.capacity) (p : Nat) :
    (s.trySend p).Balanced base config := by
  have hcap : 0 < s.world.stream.config.capacity := h.config ▸ hcap
  unfold Session.trySend
  split
  · exact h
  · rename_i prepared hp
    have hsame := World.SameStream.commit hcap prepared.node prepared.value prepared.lease true
    have hb := h.world.perm (outside_preparation hp)
    rcases hb.commit hcap (h.prepared p prepared hp) prepared.node prepared.value true with
      ⟨error, w, he, hb'⟩ | ⟨w, he, hb'⟩
    · rw [he] at hsame ⊢
      exact h.of_world hsame (hb'.perm (outside_preparation hp).symm)
    · rw [he] at hsame ⊢
      refine ⟨hsame.config.trans h.config, hb', ?_⟩
      intro q other hq
      dsimp only
      rw [hsame.event]
      exact (h.prepared_set p q other hq).of_authority hsame.authority

theorem cancel (h : s.Balanced base config) (p : Nat) : (s.cancel p).Balanced base config := by
  unfold Session.cancel
  split
  · exact h
  · rename_i prepared hp
    have hsame := World.SameStream.release s.world prepared.lease
    refine ⟨hsame.config.trans h.config, (h.world.perm (outside_preparation hp)).release, ?_⟩
    intro q other hq
    dsimp only
    rw [hsame.event]
    exact (h.prepared_set p q other hq).of_authority hsame.authority

theorem subscribe (h : s.Balanced base config) (node : NodeId) (role : SubscriptionRole) :
    (s.subscribe node role).Balanced base config := by
  have hsame := World.SameStream.subscribe s.world node role
  unfold Session.subscribe
  rcases h.world.subscribe node role with ⟨error, w, he, hb⟩ | ⟨key, lease, w, he, hb⟩
  · rw [he] at hsame ⊢
    exact h.of_world hsame hb
  · rw [he] at hsame ⊢
    have hw : Balanced base config
        { s with world := w, subscriptions := s.subscriptions ++
          [⟨node, key, lease, role, s.world.stream.state.tail, [], false⟩] } := by
      refine ⟨hsame.config.trans h.config, hb.perm ?_, ?_⟩
      · simp only [outside, List.filterMap_append, List.filterMap_cons, List.filterMap_nil]
        rw [← List.append_assoc]
        exact (List.perm_append_singleton lease _).symm
      · intro p prepared hp
        dsimp only
        rw [hsame.event]
        exact (h.prepared p prepared hp).of_authority hsame.authority
    exact hw

/-- What a receiver is told changes no lease. -/
theorem told (h : s.Balanced base config) {r : Nat} {sub : Subscription α}
    (hr : s.subscriptions[r]? = some sub)
    (result : Except ReceiveError (Option (StreamItem α)) × World α)
    (hsame : s.world.SameStream result.2) (hb : result.2.Balanced base s.outside) :
    (s.told r sub result).Balanced base config := by
  have hw := h.of_world hsame hb
  unfold Session.told
  split
  · rename_i item w
    refine ⟨hw.config, hb.perm ?_, hw.prepared⟩
    refine List.Perm.append_left _ (List.Perm.of_eq (Eq.symm ?_))
    exact filterMap_set_eq hr rfl
  · exact hw

theorem tryRecv (h : s.Balanced base config) {s' : Session α} {r : Nat}
    (he : s.tryRecv r = .ok s') : s'.Balanced base config := by
  unfold Session.tryRecv at he
  split at he
  · cases he
    exact h
  · rename_i sub hr
    split at he
    · cases he
      exact h
    · obtain ⟨result, hrecv, he⟩ := Exec.bind_eq_ok.mp he
      cases he
      exact h.told hr result (World.SameStream.tryRecv hrecv) (h.world.tryRecv hrecv)

theorem recvNow (h : s.Balanced base config) {s' : Session α} {r : Nat}
    (he : s.recvNow r = .ok s') : s'.Balanced base config := by
  unfold Session.recvNow at he
  split at he
  · cases he
    exact h
  · rename_i sub hr
    split at he
    · cases he
      exact h
    · obtain ⟨result, hrecv, he⟩ := Exec.bind_eq_ok.mp he
      cases he
      obtain ⟨⟨item, w⟩, htry, hmaintain⟩ := Exec.bind_eq_ok.mp hrecv
      cases hmaintain
      exact h.told hr _
        ((World.SameStream.tryRecv htry).trans (World.Trims.maintain w).toSameStream)
        (h.world.tryRecv htry).maintain

theorem drop (h : s.Balanced base config) (r : Nat) : (s.drop r).Balanced base config := by
  unfold Session.drop
  split
  · exact h
  · rename_i sub hr
    split
    · exact h
    · rename_i hd
      have hsame := World.SameStream.dropReceiver s.world sub.key sub.lease
      have hperm : s.outside.Perm (sub.lease ::
          outside { s with subscriptions := s.subscriptions.set r { sub with dropped := true } }) :=
        ((filterMap_set_perm hr (if_neg hd) rfl).append_left _).trans List.perm_middle
      refine ⟨hsame.config.trans h.config, (h.world.perm hperm).dropReceiver sub.key, ?_⟩
      intro p prepared hp
      dsimp only
      rw [hsame.event]
      exact (h.prepared p prepared hp).of_authority hsame.authority

theorem revoke (h : s.Balanced base config) (node : NodeId) :
    Balanced base config { s with world := s.world.revoke node } where
  config := h.config
  world := h.world.revoke node
  prepared := fun p prepared hp => (h.prepared p prepared hp).revoke node

theorem step (h : s.Balanced base config) (hcap : 0 < config.capacity) {op : Op α}
    {s' : Session α} (he : s.step op = .ok s') : s'.Balanced base config := by
  cases op with
  | sender node =>
    cases he
    exact h.of_world (World.SameStream.sender _ _) (h.world.sender node)
  | sendNow node value =>
    cases he
    exact h.sendNow hcap node value
  | prepare node value =>
    cases he
    exact h.prepare node value
  | trySend p =>
    cases he
    exact h.trySend hcap p
  | cancel p =>
    cases he
    exact h.cancel p
  | subscribe node role =>
    cases he
    exact h.subscribe node role
  | tryRecv r => exact h.tryRecv he
  | recvNow r => exact h.recvNow he
  | drop r =>
    cases he
    exact h.drop r
  | maintain =>
    cases he
    exact h.of_world (World.Trims.maintain _).toSameStream h.world.maintain
  | revoke node =>
    cases he
    exact h.revoke node
  | closeStream =>
    cases he
    exact h.of_world (World.SameStream.closeStream _ _) (h.world.closeStream root)

end Balanced

/-- A session over an empty stream starts balanced. -/
theorem balanced_begin [Target] {grants : Grants} (hgrants : grants.Bounded) {stream : Stream α}
    (hentries : stream.state.entries = []) (hretired : stream.state.retired = none) :
    Balanced grants.usageOf stream.config (begin ⟨grants, stream⟩) where
  config := rfl
  world :=
    { books := by
        simp only [begin, outside, State.leases, hentries, hretired, List.map_nil,
          Option.toList_none, List.filterMap_nil, List.append_nil]
        exact Grants.Books.start grants
      bounded := hgrants
      charged := by
        intro e he
        simp only [begin, hentries] at he
        cases he }
  prepared := by
    intro p prepared hp
    cases hp

theorem run_balanced [Target] {grants : Grants} (hgrants : grants.Bounded) {stream : Stream α}
    (hentries : stream.state.entries = []) (hretired : stream.state.retired = none)
    (hcap : 0 < stream.config.capacity) {ops : List (Op α)} {s : Session α}
    (h : run ⟨grants, stream⟩ ops = .ok s) : s.Balanced grants.usageOf stream.config :=
  Exec.steps_preserves (fun _ _ _ hs he => hs.step hcap he)
    (balanced_begin hgrants hentries hretired) h

end Session

end Hiway.Fabric
