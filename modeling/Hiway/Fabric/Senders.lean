import Hiway.Fabric.Histories

/-!
# The senders of a fabric

A sender is made for a node that lists the event of its stream and is registered with it,
and while the sender is held the node stays so, whatever becomes of the other nodes.

* `serves_sender`: a node that can be made a sender is bound to the stream and lists its
  event.
* `mem_sendersAfter`: the senders after an operation are those before it and the one that it
  made.
* `step`, `run`: while a sender is held its node stays bound, in every run of a fabric.
-/

namespace Hiway.Fabric

open Exec Target

variable {α : Type}

namespace Channel

@[simp] theorem finish_senders (ch : Channel α) (g : Grants) (f : Nat) (future : Future α) :
    (ch.finish g f future).1.senders = ch.senders := by
  unfold finish
  dsimp only
  split <;> rfl

theorem cancel_senders (ch : Channel α) (g : Grants) (f : Nat) :
    (ch.cancel g f).1.senders = ch.senders := by
  unfold cancel
  split
  · rfl
  · rw [finish_senders]

section

variable [Target] (ch : Channel α) (g : Grants)

@[simp] theorem waiter_senders (node : NodeId) :
    (ch.waiter g node).2.1.senders = ch.senders := by
  unfold waiter
  split
  · rfl
  · split <;> rfl

@[simp] theorem block_senders (node : NodeId) (f : Nat) (future : Future α) (mark : Nat) :
    (ch.block g node f future mark).1.senders = ch.senders := by
  have hw := ch.waiter_senders g node
  unfold block
  split
  · rfl
  · split <;> rename_i heq <;> rw [heq] at hw
    · exact hw
    · rw [finish_senders]
      exact hw

/-- A poll makes no sender. -/
theorem poll_senders {f : Nat} {result : Channel α × Grants} (h : ch.poll g f = .ok result) :
    result.1.senders = ch.senders := by
  unfold poll at h
  split at h
  · cases h
    rfl
  · split at h
    · cases h
      rfl
    · split at h
      · cases h
        unfold pollSend
        dsimp only
        split
        · rw [block_senders]
          rfl
        · rw [finish_senders]
          rfl
      · split at h
        · cases h
          rfl
        · unfold pollRecv at h
          obtain ⟨⟨item, world⟩, -, h⟩ := bind_eq_ok.mp h
          dsimp only at h
          split at h
          · cases h
            rw [block_senders]
            rfl
          · cases h
            rw [finish_senders]
            rfl

/-- The senders after an operation are those before it and the one it made. -/
theorem mem_sendersAfter {op : Op α} {node : NodeId} (h : node ∈ ch.sendersAfter g op) :
    node ∈ ch.senders ∨
      op = .sender node ∧ ((⟨g, ch.stream⟩ : World α).sender node).1 = .ok () := by
  unfold sendersAfter at h
  split at h
  · rename_i node'
    split at h
    · rename_i hok
      rcases List.mem_append.mp h with h | h
      · exact Or.inl h
      · cases List.mem_singleton.mp h
        exact Or.inr ⟨rfl, hok⟩
    · exact Or.inl h
  · exact Or.inl h

end

end Channel

namespace World

/-- A node that can be made a sender is bound to the stream and lists its event. -/
theorem serves_sender {w : World α} {node : NodeId} (h : (w.sender node).1 = .ok ()) :
    (w.sender node).2.grants.Serves node w.stream.event := by
  unfold World.sender at h ⊢
  split at h
  · cases h
  · rename_i w₁ hbind
    have hstream := bindStream_stream w node .publish
    rw [hbind] at hstream
    dsimp only at h hstream ⊢
    have hregistered : w₁.grants.Registered node w.stream.event := by
      unfold bindStream at hbind
      split at hbind
      · cases hbind
      · cases hregister : w.grants.registerStream node w.stream.event with
        | mk result g =>
          rw [hregister] at hbind
          cases hbind
          exact Grants.registered_of_registerStream hregister
    split at h
    · cases h
    · rename_i limits hlimits
      refine ⟨hregistered, ?_⟩
      unfold Grants.streamLimits at hlimits
      rw [hstream] at hlimits
      split at hlimits
      · cases hlimits
      · rename_i n hn
        split at hlimits
        · cases hlimits
        · rename_i index hindex
          exact ⟨index, by rw [hn, Option.map_some, hindex]⟩

end World

namespace DynamicFabric

/-- Every sender is one of a node that serves the stream. -/
def Served (s : DynamicFabric α) : Prop :=
  ∀ (k : Nat) (ch : Channel α), s.channels[k]? = some ch →
    ∀ node ∈ ch.senders, s.grants.Serves node ch.stream.event

namespace Served

variable {s s' : DynamicFabric α}

/-- The tree has changed, and notifications were sent. -/
theorem of_grants (h : s.Served) {g : Grants} (count : EventId → Nat)
    (hg : ∀ i event, s.grants.Serves i event → g.Serves i event) :
    (({ s with grants := g } : DynamicFabric α).notify count).Served := by
  intro k ch hk node hnode
  unfold DynamicFabric.notify at hk
  rw [List.getElem?_map] at hk
  obtain ⟨ch₀, hk₀, rfl⟩ := Option.map_eq_some_iff.mp hk
  exact hg node _ (h k ch₀ hk₀ node hnode)

theorem dropGrant (h : s.Served) (node : NodeId) : (s.dropGrant node).Served := by
  unfold DynamicFabric.dropGrant
  split
  · exact h
  · intro k ch hk i hnode
    unfold DynamicFabric.notify at hk
    rw [List.getElem?_map, List.getElem?_map, Option.map_map] at hk
    obtain ⟨ch₀, hk₀, rfl⟩ := Option.map_eq_some_iff.mp hk
    obtain ⟨hmem, hne⟩ := List.mem_filter.mp hnode
    exact (h k ch₀ hk₀ i hmem).dropNode (by simpa using hne)

theorem revoke (h : s.Served) (node : NodeId) : (s.revoke node).Served := by
  unfold DynamicFabric.revoke
  split
  · exact h
  · exact h.of_grants _ fun i event hserves => hserves.revoke node

variable [Target]

/-- One stream has changed, and the usage of the grants. -/
theorem onChannel (h : s.Served) (hi : s.Inv) {k : Nat}
    {f : Channel α → Grants → Exec (Channel α × Grants)} (he : s.onChannel k f = .ok s')
    (hf : ∀ base ch result, ch.Balanced base s.grants → f ch s.grants = .ok result →
      Channel.Goes base s.grants ch result.2 result.1 ∧
        ∀ node ∈ result.1.senders, node ∈ ch.senders ∨
          result.2.Serves node ch.stream.event) : s'.Served := by
  unfold DynamicFabric.onChannel at he
  split at he
  · cases he
    exact h
  · rename_i ch hk
    obtain ⟨⟨ch', g⟩, hresult, he⟩ := bind_eq_ok.mp he
    cases he
    obtain ⟨hgoes, hsenders⟩ := hf _ ch _ (hi.balanced hk) hresult
    have hsteady : s.grants.Steady g := hgoes.moves.steady
    have hevent : ch'.stream.event = ch.stream.event := hgoes.moves.event
    intro k' other hother node hnode
    rcases Handles.getElem?_set_cases hother with ⟨-, rfl⟩ | ⟨-, hother⟩
    · rw [hevent]
      rcases hsenders node hnode with hnode | hserves
      · exact (h k ch hk node hnode).steady hsteady
      · exact hserves
    · exact (h k' other hother node hnode).steady hsteady

theorem operate (h : s.Served) (hi : s.Inv) {k : Nat} {op : Op α} (hop : ∀ node, op ≠ .revoke node)
    (he : (s.onChannel k fun ch grants => ch.operate grants op) = .ok s') : s'.Served := by
  refine h.onChannel hi he fun base ch result hb hresult =>
    ⟨hb.operate hop hresult, fun node hnode => ?_⟩
  unfold Channel.operate at hresult
  split at hresult
  · obtain ⟨session, hstep, hresult⟩ := bind_eq_ok.mp hresult
    cases hresult
    rcases ch.mem_sendersAfter s.grants hnode with hnode | ⟨rfl, hok⟩
    · exact Or.inl hnode
    · cases hstep
      exact Or.inr (World.serves_sender hok)
  · cases hresult
    exact Or.inl hnode

theorem createStream (h : s.Served) (event : EventId) (delivery : Delivery)
    (config : StreamConfig) : (s.createStream event delivery config).2.Served := by
  unfold DynamicFabric.createStream
  split
  · exact h
  · split
    · split <;> exact h
    · split
      · rename_i error g hcharge
        rw [Grants.charge_error hcharge]
        exact h
      · rename_i allocation g hcharge
        have hsteady := Grants.Steady.charge s.grants Session.root none
          { Limits.zero with
            streams := 1
            retainedItems := config.capacity
            subscriptions := config.subscribers
            waiters := config.waiters }
        rw [show s.grants.charge Session.root none _ = _ from hcharge] at hsteady
        intro k ch hk node hnode
        rcases Handles.getElem?_snoc hk with ⟨hk, -⟩ | ⟨-, rfl⟩
        · exact (h k ch hk node hnode).steady hsteady
        · cases hnode

theorem delegate (h : s.Served) (hi : s.Inv) (node : NodeId) (request : Request) :
    (s.delegate node request).2.Served := by
  unfold DynamicFabric.delegate
  split
  · exact h
  · obtain ⟨-, -, -, hgrows⟩ :=
      Grants.restrict_grows (i := node) request.perm hi.bounded hi.founded hi.books
      fun l hl => by
        obtain ⟨n, hn⟩ := hi.live hl
        exact Slots.lt_of_entry hn
    exact h.of_grants _ fun i event hserves => hserves.grows hgrows

theorem step (h : s.Served) (hi : s.Inv) {op : FabricOp α} (he : s.step op = .ok s') :
    s'.Served := by
  cases op with
  | createStream event delivery config =>
    cases he
    exact h.createStream event delivery config
  | delegate node request =>
    cases he
    exact h.delegate hi node request
  | dropGrant node =>
    cases he
    exact h.dropGrant node
  | revoke node =>
    cases he
    exact h.revoke node
  | maintain order =>
    refine (steps_preserves (P := fun t => t.Inv ∧ t.Served) (fun t k t' ht he => ?_) ⟨hi, h⟩ he).2
    exact ⟨ht.1.onChannel (fun _ _ _ hb hr => hb.operate (by simp) hr) he,
      ht.2.operate ht.1 (by simp) he⟩
  | stream k op =>
    cases op with
    | revoke node =>
      cases he
      exact h.revoke node
    | _ => exact h.operate hi (by simp) he
  | send k node value =>
    refine h.onChannel hi (f := fun ch grants => .ok (ch.send node value, grants)) he
      fun base ch result hb hresult => ?_
    cases hresult
    refine ⟨hb.send node value, fun i hi => Or.inl ?_⟩
    unfold Channel.send at hi
    split at hi <;> exact hi
  | recv k r =>
    refine h.onChannel hi (f := fun ch grants => .ok (ch.recv r, grants)) he
      fun base ch result hb hresult => ?_
    cases hresult
    refine ⟨hb.recv r, fun i hi => Or.inl ?_⟩
    unfold Channel.recv at hi
    split at hi <;> exact hi
  | poll k f =>
    refine h.onChannel hi (f := fun ch grants => ch.poll grants f) he
      fun base ch result hb hresult => ⟨hb.poll hresult, fun i hi => Or.inl ?_⟩
    rw [ch.poll_senders s.grants hresult] at hi
    exact hi
  | cancel k f =>
    refine h.onChannel hi (f := fun ch grants => .ok (ch.cancel grants f)) he
      fun base ch result hb hresult => ?_
    cases hresult
    refine ⟨hb.cancel f, fun i hi => Or.inl ?_⟩
    rw [ch.cancel_senders s.grants f] at hi
    exact hi

/-- A new fabric has no streams. -/
theorem start {limits : Limits} (h : withLimits limits = .ok s) : s.Served := by
  unfold withLimits at h
  obtain ⟨u, -, h⟩ := except_bind_eq_ok.mp h
  cases h
  intro k ch hk
  cases hk

theorem run {limits : Limits} {s₀ : DynamicFabric α} (h₀ : withLimits limits = .ok s₀)
    (ops : List (FabricOp α)) : ∃ s, s₀.run ops = .ok s ∧ s.Historic ∧ s.Served := by
  refine steps_invariant (P := fun t : DynamicFabric α => t.Historic ∧ t.Served)
    (fun t op ht => ?_) ⟨Historic.start h₀, start h₀⟩ ops
  obtain ⟨t', ht', hhistoric⟩ := ht.1.step op
  exact ⟨t', ht', hhistoric, ht.2.step ht.1.inv ht'⟩

end Served

end DynamicFabric

end Hiway.Fabric
