import Hiway.Fabric.Histories
import Hiway.Grant.Alike

/-!
# Streams that look the same

Two states of a stream look the same to its subscriptions when they differ only in what
every live cursor has passed and in how much the publishers may still retain. Whatever is
received from the one is received from the other.

* `Twins.tryRecv`, `Twins.subscribe`: what is received and how a subscription ends does not
  tell two such streams apart.
* `Twins.retireConsumed`: both let go of the same.
* `maintained_state`: what maintenance leaves.
* `Twins.maintain`: it does the same to both when both or neither were asked for room.
-/

namespace Hiway.Fabric

open Exec Target

variable {α : Type}

namespace State

theorem consumed_congr {s s' : State α} {g g' : Grants}
    (hs : s'.subscribers = s.subscribers) (hg : SameAuthority g g') (n : Nat) :
    s'.consumed g' n = s.consumed g n := by
  unfold consumed
  simp only [hs, hg.isRevoked_eq]

end State

namespace World

/-! ## What maintenance gives back -/

/-- Every lease that the stream holds is one of a retained item. -/
def Itemized (w : World α) : Prop :=
  ∀ e, w.stream.state.Holds e → e.lease.usage = retainedItem.asLimits

/-- Nothing but retained items has been given back. -/
structure Frees (w w' : World α) : Prop where
  alike : w.grants.Alike w'.grants
  itemized : w'.Itemized

section

variable {w w' w'' : World α}

theorem Frees.trans (h : w.Frees w') (h' : w'.Frees w'') : w.Frees w'' :=
  ⟨h.alike.trans h'.alike, h'.itemized⟩

theorem Frees.unlock (h : w.Itemized) {s : State α} (d n : Bool)
    (hs : ∀ e, s.Holds e → w.stream.state.Holds e) : w.Frees (w.unlock s d n) where
  alike := Grants.Alike.refl _
  itemized := by
    intro e he
    rw [unlock_state] at he
    exact h e (hs e he)

theorem Frees.release (h : w.Itemized) {lease : Lease}
    (hl : lease.usage = retainedItem.asLimits) : w.Frees (w.release lease) where
  alike := Grants.Alike.release w.grants hl
  itemized := by
    intro e he
    rw [release_state] at he
    exact h e he

/-- The front goes. -/
theorem Frees.pop (h : w.Itemized) {e : Entry α} {rest : List (Entry α)}
    (he : w.stream.state.entries = e :: rest) (room d n : Bool) :
    w.Frees ((w.unlock { w.stream.state with needsRoom := room, entries := rest } d n).release
      e.lease) := by
  have hu : w.Frees (w.unlock { w.stream.state with needsRoom := room, entries := rest } d n) := by
    refine Frees.unlock h d n fun x hx => hx.imp_left fun hx => ?_
    rw [he]
    exact List.mem_cons_of_mem _ hx
  exact hu.trans (Frees.release hu.itemized (h e (Or.inl (by rw [he]; exact List.mem_cons_self))))

theorem Frees.retireLoop (fuel : Nat) {w : World α} (h : w.Itemized) :
    w.Frees (w.retireLoop fuel) := by
  induction fuel generalizing w with
  | zero => exact ⟨Grants.Alike.refl _, h⟩
  | succ fuel ih =>
    unfold World.retireLoop
    split
    · exact Frees.unlock h _ _ fun _ he => he
    · rename_i e rest he
      split
      · have hp := Frees.pop h he w.stream.state.needsRoom true true
        exact hp.trans (ih hp.itemized)
      · exact Frees.unlock h _ _ fun _ he => he

theorem Frees.retireConsumed (h : w.Itemized) : w.Frees w.retireConsumed := by
  unfold World.retireConsumed
  split
  · exact ⟨Grants.Alike.refl _, h⟩
  · exact Frees.retireLoop _ h

theorem Frees.freeRetired (h : w.Itemized) : w.Frees w.freeRetired := by
  unfold World.freeRetired
  split
  · have hu : w.Frees (w.unlock { w.stream.state with retired := none }
        w.stream.state.retired.isSome true) :=
      Frees.unlock h _ _ fun e he => he.elim Or.inl nofun
    dsimp only
    split
    · exact hu
    · rename_i e he
      exact hu.trans (Frees.release hu.itemized (h e (Or.inr he)))
  · exact ⟨Grants.Alike.refl _, h⟩

theorem Frees.maintain (h : w.Itemized) : w.Frees w.maintain := by
  have hfree := Frees.freeRetired h
  have hretire := Frees.retireConsumed hfree.itemized
  have hmake : w.freeRetired.retireConsumed.Frees w.freeRetired.retireConsumed.makeRoom := by
    unfold World.makeRoom
    dsimp only
    split
    · rename_i e rest he
      split
      · exact Frees.pop hretire.itemized he false true true
      · exact Frees.unlock hretire.itemized _ _ fun _ hx => hx
    · exact Frees.unlock hretire.itemized _ _ fun _ hx => hx
  have hall := (hfree.trans hretire).trans hmake
  unfold World.maintain
  dsimp only
  split
  · exact ⟨hall.alike, hall.itemized⟩
  · exact hall

/-- What is left of the state of a maintained stream. -/
theorem maintain_stages (w : World α) :
    w.maintain.stream.state = w.freeRetired.retireConsumed.makeRoom.stream.state := by
  unfold World.maintain
  dsimp only
  split <;> rfl

/-- A latest-state stream loses nothing but the snapshot that was kept aside. -/
theorem maintain_latest (hlatest : w.stream.delivery = .latest)
    (hroom : w.stream.state.needsRoom = false) :
    w.maintain.stream.state = { w.stream.state with retired := none } := by
  have hfree : w.freeRetired.stream.state = { w.stream.state with retired := none } := by
    unfold World.freeRetired
    rw [if_pos hlatest]
    dsimp only
    split
    · rw [unlock_state]
    · rw [release_state, unlock_state]
  have hretire : w.freeRetired.retireConsumed = w.freeRetired := by
    unfold World.retireConsumed
    rw [if_pos ((Trims.freeRetired w).delivery.trans hlatest)]
  rw [maintain_stages, hretire]
  unfold World.makeRoom
  dsimp only
  split
  · rw [if_neg (by simp [hfree, hroom]), unlock_state, hfree]
    simp only [hroom]
  · rw [unlock_state, hfree]
    simp only [hroom]

end

/-! ## What a subscription cannot tell apart -/

/-- Two worlds in which every subscription sees the same: the second has let go of more
of the front, which every live cursor has passed. -/
structure Twins (w w' : World α) : Prop where
  event : w'.stream.event = w.stream.event
  config : w'.stream.config = w.stream.config
  delivery : w'.stream.delivery = w.stream.delivery
  tail : w'.stream.state.tail = w.stream.state.tail
  nextCursor : w'.stream.state.nextCursor = w.stream.state.nextCursor
  closed : w'.stream.state.closed = w.stream.state.closed
  subscribers : w'.stream.state.subscribers = w.stream.state.subscribers
  grants : w.grants.Alike w'.grants
  entries : ∃ old, w.stream.state.entries = old ++ w'.stream.state.entries ∧
    ∀ e ∈ old, w.stream.state.consumed w.grants e.sequence = true
  latest : w.stream.delivery = .latest → w'.stream.state.entries = w.stream.state.entries

section

variable {w w' : World α} {published : List α}

/-- Where the queue starts. -/
theorem Retains.head_add (h : w.Retains published) :
    (w.stream.state.entries.head?.map (·.sequence)).getD w.stream.state.tail +
      w.stream.state.entries.length = published.length := by
  cases he : w.stream.state.entries with
  | nil => exact h.tail
  | cons front rest =>
    rw [← he, ← h.head_sequence he, he]
    rfl

/-- The table of cursors changes in both, and nobody falls back. -/
theorem Twins.table (h : w.Twins w') (next : Nat) (subscribers : List (Option Cursor))
    (hkeep : w.stream.delivery = .ordered → ∀ e ∈ w.stream.state.entries,
      w.stream.state.consumed w.grants e.sequence = true →
        { w.stream.state with nextCursor := next, subscribers := subscribers }.consumed w.grants
          e.sequence = true) (d d' n n' : Bool) :
    (w.unlock { w.stream.state with nextCursor := next, subscribers := subscribers } d n).Twins
      (w'.unlock { w'.stream.state with nextCursor := next, subscribers := subscribers } d' n') := by
  obtain ⟨old, hold, hconsumed⟩ := h.entries
  refine ⟨?_, ?_, ?_, ?_, ?_, ?_, ?_, ?_, ⟨old, ?_, ?_⟩, ?_⟩
  all_goals simp only [unlock_event, unlock_config, unlock_delivery, unlock_state, unlock_grants]
  · exact h.event
  · exact h.config
  · exact h.delivery
  · exact h.tail
  · exact h.closed
  · exact h.grants
  · exact hold
  · intro e he
    cases hd : w.stream.delivery with
    | ordered =>
      exact hkeep hd e (by rw [hold]; exact List.mem_append_left _ he) (hconsumed e he)
    | latest =>
      have heq := h.latest hd
      rw [hold] at heq
      rw [List.self_eq_append_left.mp heq] at he
      cases he
  · exact h.latest

theorem Twins.cursors (h : w.Twins w') (subscribers : List (Option Cursor))
    (hkeep : w.stream.delivery = .ordered → ∀ e ∈ w.stream.state.entries,
      w.stream.state.consumed w.grants e.sequence = true →
        { w.stream.state with subscribers := subscribers }.consumed w.grants e.sequence = true)
    (d d' n n' : Bool) :
    (w.unlock { w.stream.state with subscribers := subscribers } d n).Twins
      (w'.unlock { w'.stream.state with subscribers := subscribers } d' n') := by
  have ht := h.table w.stream.state.nextCursor subscribers hkeep d d' n n'
  have hnext : { w'.stream.state with
      nextCursor := w.stream.state.nextCursor, subscribers := subscribers } =
        { w'.stream.state with subscribers := subscribers } := by rw [← h.nextCursor]
  rw [hnext] at ht
  exact ht

/-- A cursor moves on in both. -/
theorem Twins.moved (h : w.Twins w') {key : CursorKey} {c : Cursor}
    (hc : Slots.entry w.stream.state.subscribers key.index = some c) {next : Nat}
    (hle : c.next ≤ next) : (w.moved key c next).Twins (w'.moved key c next) := by
  unfold World.moved
  rw [h.subscribers]
  refine h.cursors _ (fun _ e _ he => ?_) true true false false
  rw [State.consumed_iff] at he ⊢
  intro i c' hc'
  dsimp only at hc'
  by_cases hi : key.index = i
  · subst hi
    rw [Slots.entry_set_self (Slots.lt_of_entry hc)] at hc'
    cases hc'
    exact (he _ c hc).imp_left fun hlt => hlt.trans_le hle
  · rw [Slots.entry_set_of_ne hi] at hc'
    exact he i c' hc'

/-- Nothing but a lock was taken in both. -/
theorem Twins.seen (h : w.Twins w') (d d' n n' : Bool) :
    (w.unlock w.stream.state d n).Twins (w'.unlock w'.stream.state d' n') := by
  have ht := h.cursors w.stream.state.subscribers (fun _ _ _ he => he) d d' n n'
  have hsubscribers : { w'.stream.state with subscribers := w.stream.state.subscribers } =
      w'.stream.state := by rw [← h.subscribers]
  rw [hsubscribers] at ht
  exact ht

/-- A live cursor has passed whatever only the first of the two still retains. -/
theorem Twins.passed (h : w.Twins w') (hret : w.Retains published) (hret' : w'.Retains published)
    {i : Nat} {c : Cursor} (hc : Slots.entry w.stream.state.subscribers i = some c)
    (hlive : w.grants.isRevoked c.grant = false) :
    w'.stream.state.entries = w.stream.state.entries ∨
      (w'.stream.state.entries.head?.map (·.sequence)).getD w'.stream.state.tail ≤ c.next := by
  obtain ⟨old, hold, hconsumed⟩ := h.entries
  rcases List.eq_nil_or_concat old with rfl | ⟨rest, last, rfl⟩
  · exact Or.inl (by rw [hold, List.nil_append])
  · have hhead := hret'.head_add
    have hseq := hret.sequence (k := rest.length) (e := last) (by rw [hold]; simp)
    have hlast := State.consumed_iff.mp (hconsumed last (by simp)) i c hc
    rw [hlive] at hlast
    have hlen := congrArg List.length hold
    simp only [List.length_append, List.concat_eq_append, List.length_singleton] at hlen
    rcases hlast with hlt | hr
    · exact Or.inr (by omega)
    · cases hr

/-- Whatever is received from the one is received from the other. -/
theorem Twins.tryRecv [Target] (h : w.Twins w') (hret : w.Retains published)
    (hret' : w'.Retains published) (hword : w.stream.config.capacity ≤ usizeMax) {node : NodeId}
    {key : CursorKey} (hkey : w.stream.state.closed = false → ∃ c,
      Slots.entry w.stream.state.subscribers key.index = some c ∧ c.id = key.id ∧
        (w.stream.delivery = .ordered → c.grant = node)) :
    ∃ result u u', w.tryRecv node key = .ok (result, u) ∧ w'.tryRecv node key = .ok (result, u') ∧
      u.Twins u' := by
  have henter : w'.grants.enter node w'.stream.event .observe =
      w.grants.enter node w.stream.event .observe := by
    rw [h.event, h.grants.authority.enter_eq]
  cases he : w.grants.enter node w.stream.event .observe with
  | error error =>
    unfold World.tryRecv
    rw [henter, he]
    cases error <;> exact ⟨_, _, _, rfl, rfl, h⟩
  | ok u =>
    have he' := henter.trans he
    cases hclosed : w.stream.state.closed with
    | true =>
      exact ⟨_, _, _, tryRecv_closed he hclosed,
        tryRecv_closed he' (h.closed.trans hclosed), h.seen _ _ _ _⟩
    | false =>
      obtain ⟨c, hc, hid, hgrant⟩ := hkey hclosed
      have hc' : Slots.entry w'.stream.state.subscribers key.index = some c := by
        rw [h.subscribers]
        exact hc
      have hposition : w'.position c = w.position c := by
        unfold World.position
        rw [h.delivery, h.tail]
      have hge : c.next ≤ w.position c := by
        unfold World.position
        split
        · exact le_max_left _ _
        · exact le_refl _
      have hhead := hret.head_add
      have hhead' := hret'.head_add
      have htail := hret.tail
      have hbounded := hret.bounded
      have hcapacity := hret.capacity
      obtain ⟨old, hold, -⟩ := h.entries
      have hlen := congrArg List.length hold
      rw [List.length_append] at hlen
      have hpassed : w'.stream.state.entries = w.stream.state.entries ∨
          (w'.stream.state.entries.head?.map (·.sequence)).getD w'.stream.state.tail ≤ c.next := by
        cases hd : w.stream.delivery with
        | latest => exact Or.inl (h.latest hd)
        | ordered =>
          refine h.passed hret hret' hc ?_
          rw [hgrant hd]
          exact Grants.not_revoked_of_enter he
      have hopen := tryRecv_open he hclosed hc hid rfl
      have hopen' := tryRecv_open he' (h.closed.trans hclosed) hc' hid rfl
      rw [hposition, h.tail] at hopen'
      rw [h.tail] at hhead' hpassed
      have hsame : w'.stream.state.entries = w.stream.state.entries →
          (w'.stream.state.entries.head?.map (·.sequence)).getD w.stream.state.tail =
            (w.stream.state.entries.head?.map (·.sequence)).getD w.stream.state.tail := by
        intro heq
        rw [heq]
      generalize (w'.stream.state.entries.head?.map (·.sequence)).getD w.stream.state.tail = head'
        at hhead' hpassed hopen' hsame
      generalize (w.stream.state.entries.head?.map (·.sequence)).getD w.stream.state.tail = head
        at hhead hopen hsame
      have hbehind : head' = head ∨ head' ≤ w.position c :=
        hpassed.imp hsame fun hle => hle.trans hge
      rcases hopen with ⟨hlt, hr⟩ | ⟨hle, hlt, hr⟩ | ⟨hle, hend, hr⟩
      · rcases hopen' with ⟨hlt', hr'⟩ | ⟨hle', -, -⟩ | ⟨hle', -, -⟩
        · obtain rfl : head' = head := by omega
          exact ⟨_, _, _, hr, hr', h.moved hc (hge.trans hlt.le)⟩
        · omega
        · omega
      · rcases hopen' with ⟨hlt', -⟩ | ⟨hle', -, hr'⟩ | ⟨-, hend', -⟩
        · omega
        · have hk : w.position c - head' < w'.stream.state.entries.length := by omega
          have hget' := List.getElem?_eq_getElem hk
          have hget : w.stream.state.entries[w.position c - head]? =
              some (w'.stream.state.entries[w.position c - head']) := by
            rw [hold, List.getElem?_append_right (by omega), ← hget']
            congr 1
            omega
          exact ⟨_, _, _, hr _ hget (by omega) (by omega), hr' _ hget' (by omega) (by omega),
            h.moved hc (hge.trans (Nat.le_succ _))⟩
        · omega
      · rcases hopen' with ⟨hlt', -⟩ | ⟨-, hlt', -⟩ | ⟨-, -, hr'⟩
        · omega
        · omega
        · exact ⟨_, _, _, hr, hr', h.seen _ _ _ _⟩

/-! ### Subscriptions -/

theorem Twins.grantsChange (h : w.Twins w') {g g' : Grants} (hg : g.Alike g')
    (hold : SameAuthority w.grants g) :
    Twins { w with grants := g } { w' with grants := g' } := by
  obtain ⟨old, hentries, hconsumed⟩ := h.entries
  exact ⟨h.event, h.config, h.delivery, h.tail, h.nextCursor, h.closed, h.subscribers, hg,
    ⟨old, hentries, fun e he => (State.consumed_congr rfl hold _).trans (hconsumed e he)⟩,
    h.latest⟩

theorem Twins.bindStream (h : w.Twins w') (node : NodeId) (rights : Rights) :
    (w'.bindStream node rights).1 = (w.bindStream node rights).1 ∧
      (w.bindStream node rights).2.Twins (w'.bindStream node rights).2 := by
  unfold World.bindStream
  rw [h.event, h.grants.authority.check_eq]
  split
  · exact ⟨rfl, h⟩
  · obtain ⟨hsame, halike⟩ := h.grants.registerStream node w.stream.event
    exact ⟨hsame, h.grantsChange halike (SameAuthority.registerStream _ _ _)⟩

theorem Twins.tryCharge [Target] (h : w.Twins w') (node : NodeId) (usage : StreamLimits)
    (hu : usage.retainedItems = 0) :
    (w'.tryCharge node usage).1 = (w.tryCharge node usage).1 ∧
      (w.tryCharge node usage).2.Twins (w'.tryCharge node usage).2 := by
  unfold World.tryCharge
  rw [h.event]
  obtain ⟨hsame, halike⟩ := h.grants.tryChargeStream node w.stream.event hu
  exact ⟨hsame, h.grantsChange halike (SameAuthority.tryChargeStream _ _ _ _)⟩

theorem Twins.release (h : w.Twins w') (lease : Lease) :
    (w.release lease).Twins (w'.release lease) := by
  obtain ⟨old, hentries, hconsumed⟩ := h.entries
  refine ⟨?_, ?_, ?_, ?_, ?_, ?_, ?_, h.grants.releaseBoth lease, ⟨old, ?_, ?_⟩, ?_⟩
  all_goals simp only [release_event, release_config, release_delivery, release_state]
  · exact h.event
  · exact h.config
  · exact h.delivery
  · exact h.tail
  · exact h.nextCursor
  · exact h.closed
  · exact h.subscribers
  · exact hentries
  · exact fun e he => (State.consumed_congr rfl (SameAuthority.release _ _) _).trans
      (hconsumed e he)
  · exact h.latest

/-- A new cursor starts where it needs nothing that is gone. -/
theorem Twins.claimed (h : w.Twins w') (hret : w.Retains published) {index : Nat}
    (hfree : Slots.free w.stream.state.subscribers = some index) (node : NodeId)
    (role : SubscriptionRole) : (w.claimed index node role).Twins (w'.claimed index node role) := by
  have hstart : w'.startPosition = w.startPosition := by
    unfold startPosition
    rw [h.delivery, h.tail]
  unfold World.claimed
  rw [hstart, h.subscribers, h.nextCursor]
  refine h.table _ _ (fun hordered e he hconsumed => ?_) _ _ _ _
  rw [State.consumed_iff] at hconsumed ⊢
  intro i c hc
  dsimp only at hc
  by_cases hi : index = i
  · subst hi
    rw [Slots.entry_set_self ((Slots.free_eq_some hfree).1)] at hc
    cases hc
    obtain ⟨k, hk⟩ := List.getElem?_of_mem he
    have hseq := hret.sequence hk
    have hlt := (List.getElem?_eq_some_iff.mp hk).1
    have htail := hret.tail
    refine Or.inl ?_
    unfold startPosition
    rw [if_neg (by simp [hordered])]
    dsimp only
    omega
  · rw [Slots.entry_set_of_ne hi] at hc
    exact hconsumed i c hc

theorem Twins.claim (h : w.Twins w') (hret : w.Retains published) (node : NodeId)
    (role : SubscriptionRole) :
    (w'.claim node role).1 = (w.claim node role).1 ∧
      (w.claim node role).2.Twins (w'.claim node role).2 := by
  have hseen := h.seen false false true true
  cases hclosed : w.stream.state.closed with
  | true =>
    rw [claim_closed node role hclosed, claim_closed node role (h.closed.trans hclosed)]
    exact ⟨rfl, hseen⟩
  | false =>
    have hclosed' := h.closed.trans hclosed
    by_cases hfull : Slots.free w.stream.state.subscribers = none ∨
        w.stream.state.nextCursor + 1 > u64Max
    · rw [claim_full node role hclosed hfull, claim_full node role hclosed' (by
        rw [h.subscribers, h.nextCursor]
        exact hfull)]
      exact ⟨rfl, hseen⟩
    · obtain ⟨hfree, hmax⟩ := not_or.mp hfull
      obtain ⟨index, hfree⟩ := Option.ne_none_iff_exists'.mp hfree
      rw [claim_ok node role hclosed hfree hmax, claim_ok (w := w') node role hclosed'
        (by rw [h.subscribers]; exact hfree) (by rw [h.nextCursor]; exact hmax), h.nextCursor]
      exact ⟨rfl, h.claimed hret hfree node role⟩

/-- A subscription succeeds with both or with neither, and is the same. -/
theorem Twins.subscribe [Target] (h : w.Twins w') (hret : w.Retains published) (node : NodeId)
    (role : SubscriptionRole) :
    (w'.subscribe node role).1 = (w.subscribe node role).1 ∧
      (w.subscribe node role).2.Twins (w'.subscribe node role).2 := by
  unfold World.subscribe
  rw [h.delivery]
  split
  · exact ⟨rfl, h⟩
  · obtain ⟨hbind, htwins⟩ := h.bindStream node (roleRights role)
    have hstream := bindStream_stream w node (roleRights role)
    cases hb : w.bindStream node (roleRights role) with
    | mk bound w₁ =>
    cases hb' : w'.bindStream node (roleRights role) with
    | mk bound' w₁' =>
    rw [hb, hb'] at hbind htwins
    rw [hb] at hstream
    dsimp only at hbind htwins hstream
    subst hbind
    cases bound' with
    | error error => exact ⟨rfl, htwins⟩
    | ok u =>
      have hsame := (SameStream.bindStream w node (roleRights role)).trans
        (SameStream.tryCharge _ node oneSubscription)
      obtain ⟨hcharge, hcharged⟩ := htwins.tryCharge node oneSubscription rfl
      have hstream₂ := tryCharge_stream w₁ node oneSubscription
      rw [hb] at hsame
      dsimp only at hsame ⊢
      cases hc : w₁.tryCharge node oneSubscription with
      | mk charged w₂ =>
      cases hc' : w₁'.tryCharge node oneSubscription with
      | mk charged' w₂' =>
      rw [hc, hc'] at hcharge hcharged
      rw [hc] at hstream₂ hsame
      dsimp only at hcharge hcharged hstream₂ hsame
      subst hcharge
      cases charged' with
      | error error => exact ⟨rfl, hcharged⟩
      | ok lease =>
        have hret₂ := hret.of_state hsame (by rw [hstream₂, hstream])
        have henter := hcharged.grants.authority.enter_eq node w₂.stream.event (roleRights role)
        dsimp only
        rw [hcharged.event, henter]
        cases w₂.grants.enter node w₂.stream.event (roleRights role) with
        | error error => exact ⟨rfl, hcharged.release lease⟩
        | ok u =>
          obtain ⟨hclaim, hclaimed⟩ := hcharged.claim hret₂ node role
          dsimp only
          cases hk : w₂.claim node role with
          | mk result w₃ =>
          cases hk' : w₂'.claim node role with
          | mk result' w₃' =>
          rw [hk, hk'] at hclaim hclaimed
          dsimp only at hclaim hclaimed
          subst hclaim
          cases result' with
          | error error => exact ⟨rfl, hclaimed.release lease⟩
          | ok key => exact ⟨rfl, hclaimed⟩

/-! ### Maintenance of both -/

/-- With enough rounds, whatever stands at the front and was consumed goes. -/
theorem retireLoop_entries (fuel : Nat) {w : World α}
    (hfuel : w.stream.state.entries.length ≤ fuel) :
    (w.retireLoop fuel).stream.state.entries =
      w.stream.state.entries.dropWhile fun e =>
        w.stream.state.consumed w.grants e.sequence := by
  induction fuel generalizing w with
  | zero =>
    have hnil := List.length_eq_zero_iff.mp (Nat.le_zero.mp hfuel)
    unfold World.retireLoop
    rw [hnil]
    rfl
  | succ fuel ih =>
    unfold World.retireLoop
    split
    · rename_i he
      rw [unlock_state, he]
      rfl
    · rename_i e rest he
      rw [he, List.length_cons] at hfuel
      split
      · rename_i hconsumed
        rw [ih (by rw [release_state, unlock_state]; exact Nat.le_of_succ_le_succ hfuel),
          release_state, unlock_state, he,
          List.dropWhile_cons_of_pos (p := fun x : Entry α =>
            w.stream.state.consumed w.grants x.sequence) hconsumed]
        congr 1
        funext x
        exact State.consumed_congr rfl (SameAuthority.release _ _) _
      · rename_i hneeded
        rw [unlock_state, he, List.dropWhile_cons_of_neg (p := fun x : Entry α =>
          w.stream.state.consumed w.grants x.sequence) hneeded]

/-- Both have come to the same entries, and gave nothing but items back. -/
theorem Twins.of_frees (h : w.Twins w') {v v' : World α} (hsame : w.SameStream v)
    (hsame' : w'.SameStream v') (hfrees : w.Frees v) (hfrees' : w'.Frees v')
    {entries : List (Entry α)} {retired retired' : Option (Entry α)} {room room' : Bool}
    (hv : v.stream.state =
      { w.stream.state with needsRoom := room, entries := entries, retired := retired })
    (hv' : v'.stream.state =
      { w'.stream.state with needsRoom := room', entries := entries, retired := retired' }) :
    v.Twins v' := by
  refine ⟨?_, ?_, ?_, ?_, ?_, ?_, ?_, (hfrees.alike.symm.trans h.grants).trans hfrees'.alike,
    ⟨[], ?_, fun _ he => by cases he⟩, fun _ => ?_⟩
  · rw [hsame.event, hsame'.event, h.event]
  · rw [hsame.config, hsame'.config, h.config]
  · rw [hsame.delivery, hsame'.delivery, h.delivery]
  · rw [hv, hv']
    exact h.tail
  · rw [hv, hv']
    exact h.nextCursor
  · rw [hv, hv']
    exact h.closed
  · rw [hv, hv']
    exact h.subscribers
  · rw [hv, hv']
    rfl
  · rw [hv, hv']

/-- What no live cursor has passed, from the first such entry on. -/
def kept (w : World α) : List (Entry α) :=
  if w.stream.delivery = .latest then w.stream.state.entries
  else w.stream.state.entries.dropWhile fun e => w.stream.state.consumed w.grants e.sequence

/-- What stands at the front and was consumed is the same in both, up to what only the
first still retains. -/
theorem Twins.kept_eq (h : w.Twins w') : w'.kept = w.kept := by
  unfold World.kept
  rw [h.delivery]
  split
  · rename_i hd
    exact h.latest hd
  · obtain ⟨old, hold, hconsumed⟩ := h.entries
    rw [hold, List.dropWhile_append_of_pos hconsumed]
    congr 1
    funext e
    exact State.consumed_congr h.subscribers h.grants.authority e.sequence

theorem retireConsumed_kept (w : World α)
    (hcapacity : w.stream.state.entries.length ≤ w.stream.config.capacity) :
    w.retireConsumed.stream.state = { w.stream.state with entries := w.kept } := by
  unfold World.kept
  by_cases hd : w.stream.delivery = .latest
  · rw [if_pos hd, World.retireConsumed, if_pos hd]
  · obtain ⟨n, hn, -⟩ := retireConsumed_state w
    have hentries := retireLoop_entries w.stream.config.capacity hcapacity
    unfold World.retireConsumed at hn ⊢
    rw [if_neg hd] at hn ⊢
    rw [hn] at hentries
    rw [if_neg hd, hn, ← hentries]

/-- Both let go of the same. -/
theorem Twins.retireConsumed (h : w.Twins w') (hitems : w.Itemized) (hitems' : w'.Itemized)
    (hcapacity : w.stream.state.entries.length ≤ w.stream.config.capacity)
    (hcapacity' : w'.stream.state.entries.length ≤ w'.stream.config.capacity) :
    w.retireConsumed.Twins w'.retireConsumed := by
  have hstate := retireConsumed_kept w hcapacity
  have hstate' := retireConsumed_kept w' hcapacity'
  rw [h.kept_eq] at hstate'
  exact h.of_frees (Trims.retireConsumed w).toSameStream (Trims.retireConsumed w').toSameStream
    (Frees.retireConsumed hitems) (Frees.retireConsumed hitems') hstate hstate'

/-- What is left when the room that was asked for is made. -/
def roomy (s : State α) (g : Grants) (capacity : Nat) : List (Entry α) :=
  match s.entries with
  | entry :: rest =>
    if s.needsRoom = true ∧ s.entries.length = capacity ∧ s.requiredNeeds g entry.sequence = false
    then rest else entry :: rest
  | [] => []

theorem roomy_congr {s t : State α} {g g' : Grants} (hentries : t.entries = s.entries)
    (hroom : t.needsRoom = s.needsRoom) (hsubscribers : t.subscribers = s.subscribers)
    (hg : SameAuthority g g') (capacity : Nat) : roomy t g' capacity = roomy s g capacity := by
  unfold roomy
  rw [hentries, hroom]
  cases s.entries with
  | nil => rfl
  | cons entry rest =>
    dsimp only
    rw [State.requiredNeeds_congr hsubscribers hg]

theorem makeRoom_state (w : World α) : w.makeRoom.stream.state = { w.stream.state with
    needsRoom := false, entries := roomy w.stream.state w.grants w.stream.config.capacity } := by
  unfold World.makeRoom roomy
  dsimp only
  cases he : w.stream.state.entries with
  | nil => simp only [unlock_state]
  | cons entry rest =>
    dsimp only
    split
    · simp only [release_state, unlock_state]
    · simp only [unlock_state]

/-- A stream that was maintained asks for no room. -/
theorem maintained_state (w : World α)
    (hcapacity : w.stream.state.entries.length ≤ w.stream.config.capacity) :
    ∃ retired, w.maintain.stream.state = { w.stream.state with
      needsRoom := false
      retired := retired
      entries := roomy { w.stream.state with entries := w.kept } w.grants
        w.stream.config.capacity } := by
  have hsame := (Trims.freeRetired w).toSameStream
  obtain ⟨retired, hfree⟩ : ∃ retired,
      w.freeRetired.stream.state = { w.stream.state with retired := retired } := by
    unfold World.freeRetired
    split
    · dsimp only
      split
      · exact ⟨none, unlock_state _ _ _ _⟩
      · exact ⟨none, by rw [release_state, unlock_state]⟩
    · exact ⟨w.stream.state.retired, rfl⟩
  have hretire := retireConsumed_kept w.freeRetired (by rw [hfree, hsame.config]; exact hcapacity)
  have hkept : w.freeRetired.kept = w.kept := by
    unfold World.kept
    rw [hsame.delivery, hfree]
    split
    · rfl
    · congr 1
      funext e
      exact State.consumed_congr rfl hsame.authority e.sequence
  have hsame₂ := hsame.trans (Trims.retireConsumed _).toSameStream
  have hroomy := roomy_congr (s := { w.stream.state with entries := w.kept })
    (t := w.freeRetired.retireConsumed.stream.state) (by rw [hretire, hkept])
    (by rw [hretire, hfree]) (by rw [hretire, hfree]) hsame₂.authority w.stream.config.capacity
  refine ⟨retired, ?_⟩
  rw [maintain_stages, makeRoom_state, hsame₂.config, hroomy, hretire, hfree]

theorem maintain_needsRoom (w : World α)
    (hcapacity : w.stream.state.entries.length ≤ w.stream.config.capacity) :
    w.maintain.stream.state.needsRoom = false := by
  obtain ⟨retired, hstate⟩ := maintained_state w hcapacity
  rw [hstate]

/-- Maintenance does the same to both when both or neither were asked for room. -/
theorem Twins.maintain (h : w.Twins w') (hitems : w.Itemized) (hitems' : w'.Itemized)
    (hroom : w'.stream.state.needsRoom = w.stream.state.needsRoom)
    (hret : w.Retains published) (hret' : w'.Retains published) :
    w.maintain.Twins w'.maintain := by
  obtain ⟨retired, hstate⟩ := maintained_state w hret.capacity
  obtain ⟨retired', hstate'⟩ := maintained_state w' hret'.capacity
  have hroomy : roomy { w'.stream.state with entries := w'.kept } w'.grants
      w'.stream.config.capacity =
        roomy { w.stream.state with entries := w.kept } w.grants w.stream.config.capacity := by
    rw [h.kept_eq, h.config]
    exact roomy_congr (s := { w.stream.state with entries := w.kept })
      (t := { w'.stream.state with entries := w.kept }) rfl hroom h.subscribers
      h.grants.authority _
  rw [hroomy] at hstate'
  exact h.of_frees (Trims.maintain w).toSameStream (Trims.maintain w').toSameStream
    (Frees.maintain hitems) (Frees.maintain hitems') hstate hstate'

/-- The cursor of a receiver goes in both, and what it held up. -/
theorem Twins.dropReceiver (h : w.Twins w') (hitems : w.Itemized) (hitems' : w'.Itemized)
    (hret : w.Retains published) (hret' : w'.Retains published) (key : CursorKey)
    (lease : Lease) : (w.dropReceiver key lease).Twins (w'.dropReceiver key lease) := by
  have hgone := h.cursors (w.stream.state.subscribers.set key.index none)
    (fun _ e _ he => ?_) true true true true
  · have hfrees := Frees.unlock hitems (s := { w.stream.state with
      subscribers := w.stream.state.subscribers.set key.index none }) true true fun _ hx => hx
    have hfrees' := Frees.unlock hitems' (s := { w'.stream.state with
      subscribers := w.stream.state.subscribers.set key.index none }) true true fun _ hx => hx
    have hretired := hgone.retireConsumed hfrees.itemized hfrees'.itemized
      (by rw [unlock_state, unlock_config]; exact hret.capacity)
      (by rw [unlock_state, unlock_config]; exact hret'.capacity)
    unfold World.dropReceiver
    dsimp only
    rw [h.subscribers]
    exact hretired.release lease
  · rw [State.consumed_iff] at he ⊢
    intro i c hc
    refine he i c ?_
    dsimp only at hc
    by_cases hi : key.index = i
    · subst hi
      rw [Slots.entry_eq_some, List.getElem?_set_self'] at hc
      cases hget : w.stream.state.subscribers[key.index]? <;> simp [hget] at hc
    · rw [Slots.entry_set_of_ne hi] at hc
      exact hc

/-! ### What receivers leave alone -/

/-- No room was asked for, and nothing is retained that was not before. -/
structure Leaves (w w' : World α) : Prop where
  room : w'.stream.state.needsRoom = w.stream.state.needsRoom
  holds : ∀ e, w'.stream.state.Holds e → w.stream.state.Holds e

namespace Leaves

theorem of_state (hroom : w'.stream.state.needsRoom = w.stream.state.needsRoom)
    (hentries : w'.stream.state.entries = w.stream.state.entries)
    (hretired : w'.stream.state.retired = w.stream.state.retired) : w.Leaves w' where
  room := hroom
  holds := by
    intro e he
    unfold State.Holds at he ⊢
    rw [← hentries, ← hretired]
    exact he

theorem refl (w : World α) : w.Leaves w := of_state rfl rfl rfl

theorem trans (h : w.Leaves w') (h' : w'.Leaves w'') : w.Leaves w'' :=
  ⟨h'.room.trans h.room, fun e he => h.holds e (h'.holds e he)⟩

theorem itemized (h : w.Leaves w') (hitems : w.Itemized) : w'.Itemized :=
  fun e he => hitems e (h.holds e he)

theorem unlock (w : World α) {s : State α} (d n : Bool)
    (hroom : s.needsRoom = w.stream.state.needsRoom) (hentries : s.entries = w.stream.state.entries)
    (hretired : s.retired = w.stream.state.retired) : w.Leaves (w.unlock s d n) := by
  apply of_state
  all_goals rw [unlock_state]
  · exact hroom
  · exact hentries
  · exact hretired

theorem release (w : World α) (lease : Lease) : w.Leaves (w.release lease) := by
  apply of_state <;> rw [release_state]

theorem tryRecv [Target] {node : NodeId} {key : CursorKey}
    {result : Except ReceiveError (Option (StreamItem α))}
    (he : w.tryRecv node key = .ok (result, w')) : w.Leaves w' := by
  rcases tryRecv_world he with rfl | ⟨subscribers, d, rfl⟩
  · exact refl _
  · exact unlock w d false rfl rfl rfl

theorem dropReceiver (w : World α) (key : CursorKey) (lease : Lease) :
    w.Leaves (w.dropReceiver key lease) := by
  have hgone := unlock w (s := { w.stream.state with
    subscribers := w.stream.state.subscribers.set key.index none }) true true rfl rfl rfl
  obtain ⟨n, hn, -⟩ := retireConsumed_state (w.unlock { w.stream.state with
    subscribers := w.stream.state.subscribers.set key.index none } true true)
  unfold World.dropReceiver
  refine (hgone.trans ⟨?_, fun e he => ?_⟩).trans (release _ lease)
  · rw [hn]
  · rw [hn] at he
    exact he.imp_left List.mem_of_mem_drop

theorem tryCharge [Target] (w : World α) (node : NodeId) (usage : StreamLimits) :
    w.Leaves (w.tryCharge node usage).2 := by
  apply of_state <;> rw [tryCharge_stream]

theorem subscribe [Target] (w : World α) (node : NodeId) (role : SubscriptionRole) :
    w.Leaves (w.subscribe node role).2 := by
  have hbind : w.Leaves (w.bindStream node (roleRights role)).2 := by
    apply of_state <;> rw [bindStream_stream]
  have hcharged : ∀ {lease w₁}, (w.bindStream node (roleRights role)).2.tryCharge node
      { StreamLimits.zero with subscriptions := 1 } = (.ok lease, w₁) → w.Leaves w₁ := by
    intro lease w₁ hc
    have htry := tryCharge (w.bindStream node (roleRights role)).2 node
      { StreamLimits.zero with subscriptions := 1 }
    rw [hc] at htry
    exact hbind.trans htry
  rcases w.subscribe_cases node role with
    ⟨error, w', he, rfl | rfl | ⟨lease, w₁, hc, rfl | rfl⟩⟩ |
      ⟨w₁, lease, index, -, hc, -, -, -, -, he⟩
  all_goals rw [he]
  · exact refl _
  · exact hbind
  · exact (hcharged hc).trans (release _ lease)
  · exact ((hcharged hc).trans (unlock _ false true rfl rfl rfl)).trans (release _ lease)
  · exact (hcharged hc).trans (unlock _ true true rfl rfl rfl)

end Leaves

end

end World

end Hiway.Fabric
