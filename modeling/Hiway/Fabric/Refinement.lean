import Hiway.Fabric.Retention
import Hiway.Fabric.Session

/-!
# The dynamic stream refines an unbounded history

Every operation trims the stream, appends to it, or moves, adds or removes one cursor.
`Inv` says that the stream retains the end of the history of the session, and that each
live cursor stands at the end of what its subscription has been told.

* `Inv.trims`, `Inv.publish`, `Inv.advance`: the three kinds of change, each under the
  invariant.
* `inv_step`, `inv_run`: every operation and every run keeps it.
* `run_refines_history`: whatever is done to a new ordered stream, nothing panics, and each
  subscription has been told an account of the accepted values.
-/

namespace Hiway.Fabric

open Exec Target

variable {α : Type}

/-- How cursors and subscriptions are named. -/
def handles (α : Type) : Handles Cursor (Subscription α) where
  ident := Cursor.id
  index sub := sub.key.index
  id sub := sub.key.id
  live sub := !sub.dropped

namespace Session

/-- The history of a session: what was accepted, from sequence 0 on. -/
def history (s : Session α) : Nat → Option α := Hiway.history 0 (fun _ => none) s.published

theorem history_eq (s : Session α) (n : Nat) : s.history n = s.published[n]? := by
  simp [history, Hiway.history]

/-- The cursor of a subscription, and what the subscription has been told. -/
structure Told (history : Nat → Option α) (sub : Subscription α) (c : Cursor) : Prop where
  role : c.role = sub.role
  grant : c.grant = sub.node
  accounts : Accounts history sub.start sub.items c.next

structure Inv (config : StreamConfig) (s : Session α) : Prop where
  config : s.world.stream.config = config
  ordered : s.world.stream.delivery = .ordered
  retains : s.world.Retains s.published
  owns : s.world.stream.state.closed = false →
    (handles α).Owns s.world.stream.state.subscribers s.world.stream.state.nextCursor
      s.subscriptions (Told s.history)
  accounts : ∀ (r : Nat) (sub : Subscription α), s.subscriptions[r]? = some sub →
    ∃ next, next ≤ s.published.length ∧ Accounts s.history sub.start sub.items next
  gapless : ∀ (r : Nat) (sub : Subscription α), s.subscriptions[r]? = some sub →
    sub.role = .required → ∀ item ∈ sub.items, item.isGap = false

variable {config : StreamConfig} {s : Session α}

/-- Trimming and the handles of preparations change nothing that a subscription sees. -/
theorem Inv.trims (h : s.Inv config) {w : World α} (ht : s.world.Trims w)
    (preparations : List (Option (Prepared α))) :
    Inv config { s with world := w, preparations := preparations } where
  config := ht.config.trans h.config
  ordered := ht.delivery.trans h.ordered
  retains := h.retains.trims ht
  owns := by
    intro hc
    dsimp only at hc ⊢
    rw [ht.closed] at hc
    rw [ht.subscribers, ht.nextCursor]
    exact h.owns hc
  accounts := h.accounts
  gapless := h.gapless

/-- A publication leaves every cursor where it was. -/
theorem Inv.publish (h : s.Inv config) {w : World α} {value : α}
    (hsame : s.world.SameStream w) (hretains : w.Retains (s.published ++ [value]))
    (hsubscribers : w.stream.state.subscribers = s.world.stream.state.subscribers)
    (hnext : w.stream.state.nextCursor = s.world.stream.state.nextCursor)
    (hopen : s.world.stream.state.closed = false)
    (preparations : List (Option (Prepared α))) :
    Inv config { s with
      world := w
      preparations := preparations
      published := s.published ++ [value] } := by
  have hgrow : ∀ n a, s.history n = some a →
      history { s with
        world := w, preparations := preparations, published := s.published ++ [value] } n =
          some a := fun n a hn => history_append hn
  refine
    { config := hsame.config.trans h.config
      ordered := hsame.delivery.trans h.ordered
      retains := hretains
      owns := ?_
      accounts := ?_
      gapless := h.gapless }
  · intro _
    dsimp only
    rw [hsubscribers, hnext]
    refine (h.owns hopen).mono ?_
    intro r sub c _ _ htold
    exact ⟨htold.role, htold.grant, htold.accounts.mono hgrow⟩
  · intro r sub hr
    obtain ⟨next, hle, hacc⟩ := h.accounts r sub hr
    refine ⟨next, ?_, hacc.mono hgrow⟩
    rw [List.length_append]
    exact hle.trans (Nat.le_add_right _ _)

/-! ## Publication -/

/-- What a publication does to the stream, accepted or not. -/
theorem Inv.commit [Target] (h : s.Inv config) (hcap : 0 < config.capacity)
    (node : NodeId) (value : α) (lease : Lease) (deferred : Bool) :
    (∃ error w, s.world.commit node value lease deferred = (.error error, w) ∧
      s.world.Trims w) ∨
    ∃ w, s.world.commit node value lease deferred = (.ok (), w) ∧
      s.world.stream.state.closed = false ∧ s.world.SameStream w ∧
      w.Retains (s.published ++ [value]) ∧
      w.stream.state.subscribers = s.world.stream.state.subscribers ∧
      w.stream.state.nextCursor = s.world.stream.state.nextCursor := by
  rcases World.commit_cases (h.config ▸ hcap) node value lease deferred with
    ⟨error, w, he, hw⟩ | ⟨-, hopen, hmax, hcommit⟩
  · refine Or.inl ⟨error, w, he, ?_⟩
    rcases hw with rfl | ⟨room, n, -, rfl⟩
    · exact World.Trims.refl _
    · exact World.Trims.unlock s.world room s.world.stream.state.retired false n
  · refine Or.inr ?_
    have hmax : s.published.length + 1 ≤ u64Max := by
      rw [← h.retains.tail]
      exact hmax
    rcases hcommit with ⟨hlen, he⟩ | ⟨front, rest, hfront, -, hneed, ⟨rfl, he⟩ | ⟨rfl, hlatest, -, -⟩⟩
    · have hroom := Nat.lt_of_le_of_ne h.retains.capacity hlen
      refine ⟨_, he, hopen, World.SameStream.unlock _ _ _ _,
        h.retains.append hmax hroom hopen value lease _ _, ?_, ?_⟩
      · simp [World.append]
      · simp [World.append]
    · refine ⟨_, he, hopen, (World.SameStream.unlock _ _ _ _).trans (World.SameStream.release _ _),
        (h.retains.replace hmax hopen hfront hneed s.world.stream.state.retired value lease
          true true).trims (World.Trims.release _ _), ?_, ?_⟩
      · simp [World.append]
      · simp [World.append]
    · rw [h.ordered] at hlatest
      cases hlatest

theorem inv_sendNow [Target] (h : s.Inv config) (hcap : 0 < config.capacity)
    (node : NodeId) (value : α) : (s.sendNow node value).Inv config := by
  have ht := World.Trims.reserve node value h.retains.sorted
  unfold sendNow
  rcases s.world.sendNow_cases node value with
    ⟨error, w, he, hreserve | ⟨lease, w₁, error₁, w₂, hreserve, hcommit, rfl⟩⟩ |
      ⟨lease, w₁, w, hreserve, hcommit, he⟩
  · rw [hreserve] at ht
    rw [he]
    exact h.trims ht s.preparations
  · rw [hreserve] at ht
    rw [he]
    have h₁ := h.trims ht s.preparations
    rcases h₁.commit hcap node value lease false with
      ⟨error₃, w₃, hc, ht₃⟩ | ⟨w₃, hc, -⟩
    · rw [hcommit] at hc
      cases hc
      exact h₁.trims (ht₃.trans (World.Trims.release _ _)) s.preparations
    · rw [hcommit] at hc
      cases hc
  · rw [hreserve] at ht
    rw [he]
    have h₁ := h.trims ht s.preparations
    rcases h₁.commit hcap node value lease false with
      ⟨error₃, w₃, hc, -⟩ | ⟨w₃, hc, hopen, hsame, hretains, hsubscribers, hnext⟩
    · rw [hcommit] at hc
      cases hc
    · rw [hcommit] at hc
      cases hc
      exact h₁.publish hsame hretains hsubscribers hnext hopen s.preparations

theorem inv_prepare [Target] (h : s.Inv config) (node : NodeId) (value : α) :
    (s.prepare node value).Inv config := by
  have ht := World.Trims.reserve node value h.retains.sorted
  unfold prepare
  split
  · rename_i error w heq
    rw [heq] at ht
    exact h.trims ht s.preparations
  · rename_i v lease w heq
    rw [heq] at ht
    exact h.trims ht _

theorem inv_trySend [Target] (h : s.Inv config) (hcap : 0 < config.capacity) (p : Nat) :
    (s.trySend p).Inv config := by
  unfold trySend
  split
  · exact h
  · rename_i prepared _
    rcases h.commit hcap prepared.node prepared.value prepared.lease true with
      ⟨error, w, he, ht⟩ | ⟨w, he, hopen, hsame, hretains, hsubscribers, hnext⟩
    · rw [he]
      exact h.trims ht s.preparations
    · rw [he]
      exact h.publish hsame hretains hsubscribers hnext hopen _

theorem inv_cancel (h : s.Inv config) (p : Nat) : (s.cancel p).Inv config := by
  unfold cancel
  split
  · exact h
  · exact h.trims (World.Trims.release _ _) _

/-! ## Subscribing -/

theorem inv_subscribe [Target] (h : s.Inv config) (node : NodeId) (role : SubscriptionRole) :
    (s.subscribe node role).Inv config := by
  have hbind := World.Trims.bindStream s.world node (World.roleRights role)
  have ht := hbind.trans (World.Trims.tryCharge _ node
    { StreamLimits.zero with subscriptions := 1 })
  unfold subscribe
  rcases s.world.subscribe_cases node role with
    ⟨error, w, he, hw⟩ | ⟨w₁, lease, index, -, hcharge, -, hopen, hfree, hmax, he⟩
  · rw [he]
    rcases hw with rfl | rfl | ⟨lease, w₁, hcharge, rfl | rfl⟩
    · exact h
    · exact h.trims hbind s.preparations
    · rw [hcharge] at ht
      exact h.trims (ht.trans (World.Trims.release _ _)) s.preparations
    · rw [hcharge] at ht
      exact h.trims ((ht.trans (World.Trims.unlock _ _ _ _ _)).trans (World.Trims.release _ _))
        s.preparations
  · rw [hcharge] at ht
    rw [he]
    have h₁ := h.trims ht s.preparations
    obtain ⟨hi, hempty⟩ := Slots.free_eq_some hfree
    have htail : w₁.stream.state.tail = s.published.length := h₁.retains.tail
    have hstart : w₁.startPosition = s.world.stream.state.tail := by
      have hordered : w₁.stream.delivery = .ordered := h₁.ordered
      rw [World.startPosition, if_neg (by rw [hordered]; decide)]
      exact ht.tail
    refine
      { config := ?_
        ordered := ?_
        retains := ?_
        owns := ?_
        accounts := ?_
        gapless := ?_ }
    · simpa [World.claimed] using h₁.config
    · simpa [World.claimed] using h₁.ordered
    · refine h₁.retains.table (World.SameStream.unlock _ _ _ _) ?_ ?_ ?_ ?_
      · simp [World.claimed]
      · simp [World.claimed]
      · simpa [World.claimed] using hopen
      · intro i c hc
        simp only [World.claimed, World.unlock_state] at hc
        by_cases hk : index = i
        · subst hk
          rw [Slots.entry_set_self hi] at hc
          cases hc
          refine Or.inr ⟨?_, fun _ _ => ?_⟩
          · rw [hstart]
            exact h.retains.tail.le
          · rw [hstart, h.retains.tail]
            exact Nat.le_add_right _ _
        · rw [Slots.entry_set_of_ne hk] at hc
          exact Or.inl hc
    · intro _
      simp only [World.claimed, World.unlock_state]
      refine (h₁.owns hopen).insert
        (x := ⟨node, ⟨index, w₁.stream.state.nextCursor⟩, lease, role,
          s.world.stream.state.tail, [], false⟩) hi hempty rfl rfl rfl ?_
      exact ⟨rfl, rfl, by rw [hstart]; exact Accounts.nil _⟩
    · intro r sub hr
      rcases Handles.getElem?_snoc hr with ⟨hr, -⟩ | ⟨-, rfl⟩
      · exact h.accounts r sub hr
      · exact ⟨_, h.retains.tail.le, Accounts.nil _⟩
    · intro r sub hr hrole
      rcases Handles.getElem?_snoc hr with ⟨hr, -⟩ | ⟨-, rfl⟩
      · exact h.gapless r sub hr hrole
      · simp

/-! ## Receiving -/

/-- A live cursor moves on, and its subscription is told one item. -/
theorem Inv.advance (h : s.Inv config) {r : Nat} {sub : Subscription α} {c : Cursor}
    (hr : s.subscriptions[r]? = some sub) (hd : sub.dropped = false)
    (hopen : s.world.stream.state.closed = false)
    (hc : Slots.entry s.world.stream.state.subscribers sub.key.index = some c)
    {next : Nat} {item : StreamItem α}
    (hacc : Accounts s.history sub.start (sub.items ++ [item]) next) (hge : c.next ≤ next)
    (hle : next ≤ s.published.length) (hgap : sub.role = .required → item.isGap = false) :
    Inv config (s.told r sub (.ok (some item), s.world.moved sub.key c next)) := by
  have hlive : (handles α).live sub = true := by simp [handles, hd]
  obtain ⟨-, htold⟩ := (h.owns hopen).of_entry hr hlive hc
  have hi := Slots.lt_of_entry hc
  change Inv config { s with
    world := s.world.moved sub.key c next
    subscriptions := s.subscriptions.set r { sub with items := sub.items ++ [item] } }
  refine
    { config := ?_
      ordered := ?_
      retains := ?_
      owns := ?_
      accounts := ?_
      gapless := ?_ }
  · simpa [World.moved] using h.config
  · simpa [World.moved] using h.ordered
  · refine h.retains.table (World.SameStream.unlock _ _ _ _) ?_ ?_ ?_ ?_
    · simp [World.moved]
    · simp [World.moved]
    · simpa [World.moved] using hopen
    · intro i c' hc'
      simp only [World.moved, World.unlock_state] at hc'
      by_cases hk : sub.key.index = i
      · subst hk
        rw [Slots.entry_set_self hi] at hc'
        cases hc'
        refine Or.inr ⟨hle, fun hrole hg => ?_⟩
        exact (h.retains.kept _ c hc hrole hg).trans (Nat.add_le_add_right hge _)
      · rw [Slots.entry_set_of_ne hk] at hc'
        exact Or.inl hc'
  · intro _
    simp only [World.moved, World.unlock_state]
    exact (h.owns hopen).update (b := { c with next := next })
      (y := { sub with items := sub.items ++ [item] }) hr hlive hc rfl rfl hlive rfl
      ⟨htold.role, htold.grant, hacc⟩
  · intro r' sub' hr'
    rcases Handles.getElem?_set_cases hr' with ⟨rfl, rfl⟩ | ⟨-, hr'⟩
    · exact ⟨next, hle, hacc⟩
    · exact h.accounts r' sub' hr'
  · intro r' sub' hr' hrole x hx
    rcases Handles.getElem?_set_cases hr' with ⟨rfl, rfl⟩ | ⟨-, hr'⟩
    · rcases List.mem_append.mp hx with hx | hx
      · exact h.gapless r' sub hr hrole x hx
      · rw [List.mem_singleton.mp hx]
        exact hgap hrole
    · exact h.gapless r' sub' hr' hrole x hx

/-- A reception by a subscription that was not dropped never panics, and tells the truth. -/
theorem Inv.tryRecv [Target] (h : s.Inv config) (hword : config.capacity ≤ usizeMax)
    {r : Nat} {sub : Subscription α} (hr : s.subscriptions[r]? = some sub)
    (hd : sub.dropped = false) :
    ∃ result w, s.world.tryRecv sub.node sub.key = .ok (result, w) ∧
      Inv config (s.told r sub (result, w)) := by
  have hlive : (handles α).live sub = true := by simp [handles, hd]
  have hkey : s.world.stream.state.closed = false →
      sub.key.index < s.world.stream.state.subscribers.length := by
    intro hopen
    obtain ⟨c, hc, -⟩ := (h.owns hopen).live r sub hr hlive
    exact Slots.lt_of_entry hc
  have hidle : ∀ result, (∀ item, result ≠ .ok (some item)) →
      Inv config (s.told r sub (result, s.world.unlock s.world.stream.state false false)) := by
    intro result hne
    have hi := h.trims (World.Trims.unlock s.world s.world.stream.state.needsRoom
      s.world.stream.state.retired false false) s.preparations
    cases result with
    | error e => exact hi
    | ok o =>
      cases o with
      | none => exact hi
      | some item => exact absurd rfl (hne item)
  rcases s.world.tryRecv_cases sub.node hkey with
    ⟨error, w, he, rfl | rfl⟩ | ⟨c, head, henter, hopen, hc, -, hhead, hcases⟩
  · exact ⟨_, _, he, h⟩
  · exact ⟨_, _, he, hidle _ (by simp)⟩
  · obtain ⟨-, htold⟩ := (h.owns hopen).of_entry hr hlive hc
    have hpos : s.world.position c = c.next := by simp [World.position, h.ordered]
    have htail := h.retains.tail
    have hlen := h.retains.length
    have hhead : head + s.world.stream.state.entries.length = s.published.length := by
      cases he : s.world.stream.state.entries with
      | nil => simp [hhead, he, htail]
      | cons front rest =>
        have := h.retains.head_sequence he
        simp only [hhead, he, List.head?_cons, Option.map_some, Option.getD_some]
        rw [← he]
        exact this
    rw [hpos] at hcases
    rcases hcases with ⟨hlt, he⟩ | ⟨hge, hlt, hdata⟩ | ⟨-, -, he⟩
    · refine ⟨_, _, he, h.advance hr hd hopen hc (htold.accounts.gap hlt) hlt.le (by omega) ?_⟩
      -- a required cursor of a node that may still act is not behind the entries
      intro hrole
      have hg : s.world.grants.isRevoked c.grant = false := by
        rw [htold.grant]
        exact Grants.not_revoked_of_enter henter
      have := h.retains.kept _ c hc (htold.role.trans hrole) hg
      omega
    · have hk : c.next - head < s.world.stream.state.entries.length := by omega
      have hget := List.getElem?_eq_getElem hk
      obtain ⟨hseq, hvalue⟩ := h.retains.entry _ _ hget
      have hcapacity := h.config ▸ h.retains.capacity
      have hbounded := h.retains.bounded
      have he := hdata _ hget (by omega) (by omega)
      refine ⟨_, _, he, h.advance hr hd hopen hc (htold.accounts.data ?_) (Nat.le_succ _)
        (by omega) fun _ => rfl⟩
      rw [history_eq, ← hvalue]
      congr 1
      omega
    · exact ⟨_, _, he, hidle _ (by simp)⟩

theorem inv_tryRecv [Target] (h : s.Inv config) (hword : config.capacity ≤ usizeMax)
    (r : Nat) : ∃ s', s.tryRecv r = .ok s' ∧ s'.Inv config := by
  unfold tryRecv
  cases hr : s.subscriptions[r]? with
  | none => exact ⟨s, rfl, h⟩
  | some sub =>
    dsimp only
    cases hd : sub.dropped with
    | true => exact ⟨s, rfl, h⟩
    | false =>
      obtain ⟨result, w, he, hinv⟩ := h.tryRecv hword hr hd
      refine ⟨_, ?_, hinv⟩
      rw [if_neg (by decide), he, ok_bind, pure_eq]

/-- A reception is followed by maintenance, which the receiver does not see. -/
theorem inv_recvNow [Target] (h : s.Inv config) (hword : config.capacity ≤ usizeMax)
    (r : Nat) : ∃ s', s.recvNow r = .ok s' ∧ s'.Inv config := by
  unfold recvNow
  cases hr : s.subscriptions[r]? with
  | none => exact ⟨s, rfl, h⟩
  | some sub =>
    dsimp only
    cases hd : sub.dropped with
    | true => exact ⟨s, rfl, h⟩
    | false =>
      obtain ⟨result, w, he, hinv⟩ := h.tryRecv hword hr hd
      refine ⟨s.told r sub (result, w.maintain), ?_, ?_⟩
      · rw [if_neg (by decide), World.recvNow, he]
        rfl
      · cases result with
        | error e => exact hinv.trims (World.Trims.maintain w) s.preparations
        | ok o =>
          cases o with
          | none => exact hinv.trims (World.Trims.maintain w) s.preparations
          | some item => exact hinv.trims (World.Trims.maintain w) s.preparations

/-! ## Dropping -/

theorem inv_drop (h : s.Inv config) (r : Nat) : (s.drop r).Inv config := by
  unfold drop
  cases hr : s.subscriptions[r]? with
  | none => exact h
  | some sub =>
    dsimp only
    cases hd : sub.dropped with
    | true => exact h
    | false =>
      rw [if_neg (by decide)]
      have hlive : (handles α).live sub = true := by simp [handles, hd]
      -- first without its cursor, then trimmed
      have hgone : Inv config { s with
          world := s.world.unlock { s.world.stream.state with
            subscribers := s.world.stream.state.subscribers.set sub.key.index none } true true
          subscriptions := s.subscriptions.set r { sub with dropped := true } } := by
        refine
          { config := ?_
            ordered := ?_
            retains := ?_
            owns := ?_
            accounts := ?_
            gapless := ?_ }
        · simpa using h.config
        · simpa using h.ordered
        · cases hclosed : s.world.stream.state.closed with
          | true =>
            obtain ⟨-, hnil⟩ := h.retains.closed hclosed
            refine h.retains.trims ⟨World.SameStream.unlock _ _ _ _, ?_, ?_, ?_, ?_, ⟨0, ?_, ?_⟩⟩
            all_goals simp [hnil]
          | false =>
            refine h.retains.table (World.SameStream.unlock _ _ _ _) ?_ ?_ ?_ ?_
            · simp
            · simp
            · simpa using hclosed
            · intro i c hc
              simp only [World.unlock_state] at hc
              obtain ⟨c₀, hc₀, -⟩ := (h.owns hclosed).live r sub hr hlive
              by_cases hk : sub.key.index = i
              · subst hk
                have hi : sub.key.index < s.world.stream.state.subscribers.length :=
                  Slots.lt_of_entry hc₀
                rw [Slots.entry_set_self hi] at hc
                cases hc
              · rw [Slots.entry_set_of_ne hk] at hc
                exact Or.inl hc
        · intro hopen
          dsimp only at hopen ⊢
          rw [World.unlock_state] at hopen ⊢
          exact (h.owns hopen).remove hr hlive rfl (by simp [handles])
        · intro r' sub' hr'
          rcases Handles.getElem?_set_cases hr' with ⟨rfl, rfl⟩ | ⟨-, hr'⟩
          · exact h.accounts r' sub hr
          · exact h.accounts r' sub' hr'
        · intro r' sub' hr' hrole
          rcases Handles.getElem?_set_cases hr' with ⟨rfl, rfl⟩ | ⟨-, hr'⟩
          · exact h.gapless r' sub hr hrole
          · exact h.gapless r' sub' hr' hrole
      exact hgone.trims ((World.Trims.retireConsumed _).trans (World.Trims.release _ _))
        s.preparations

/-! ## Administration -/

theorem inv_revoke (h : s.Inv config) (node : NodeId) :
    Inv config { s with world := s.world.revoke node } where
  config := h.config
  ordered := h.ordered
  retains := h.retains.revoke node
  owns := h.owns
  accounts := h.accounts
  gapless := h.gapless

theorem inv_sender (h : s.Inv config) (node : NodeId) :
    Inv config { s with world := (s.world.sender node).2 } := by
  have ht := World.Trims.bindStream s.world node .publish
  unfold World.sender
  split
  · rename_i heq
    rw [heq] at ht
    exact h.trims ht s.preparations
  · rename_i heq
    rw [heq] at ht
    dsimp only
    split
    · exact h.trims ht s.preparations
    · exact h.trims ht s.preparations

theorem inv_closeStream (h : s.Inv config) (node : NodeId) :
    Inv config { s with world := (s.world.closeStream node).2 } := by
  have ht := World.Trims.bindStream s.world node .publish
  unfold World.closeStream
  split
  · rename_i heq
    rw [heq] at ht
    exact h.trims ht s.preparations
  · rename_i w heq
    rw [heq] at ht
    have h₁ := h.trims ht s.preparations
    dsimp only
    have hclosed : Inv config { s with world := w.unlock { w.stream.state with
        closed := true, entries := [], subscribers := [], retired := none } true true } := by
      refine
        { config := ?_
          ordered := ?_
          retains := h₁.retains.close true true
          owns := ?_
          accounts := h.accounts
          gapless := h.gapless }
      · simpa using h₁.config
      · simpa using h₁.ordered
      · intro hc
        dsimp only at hc
        rw [World.unlock_state] at hc
        cases hc
    exact hclosed.trims (World.Trims.releaseAll _ _) s.preparations

/-! ## Whole sessions -/

theorem inv_step [Target] (h : s.Inv config) (hcap : 0 < config.capacity)
    (hword : config.capacity ≤ usizeMax) (op : Op α) :
    ∃ s', s.step op = .ok s' ∧ s'.Inv config := by
  cases op with
  | sender node => exact ⟨_, rfl, inv_sender h node⟩
  | sendNow node value => exact ⟨_, rfl, inv_sendNow h hcap node value⟩
  | prepare node value => exact ⟨_, rfl, inv_prepare h node value⟩
  | trySend p => exact ⟨_, rfl, inv_trySend h hcap p⟩
  | cancel p => exact ⟨_, rfl, inv_cancel h p⟩
  | subscribe node role => exact ⟨_, rfl, inv_subscribe h node role⟩
  | tryRecv r => exact inv_tryRecv h hword r
  | recvNow r => exact inv_recvNow h hword r
  | drop r => exact ⟨_, rfl, inv_drop h r⟩
  | maintain => exact ⟨_, rfl, h.trims (World.Trims.maintain _) s.preparations⟩
  | revoke node => exact ⟨_, rfl, inv_revoke h node⟩
  | closeStream => exact ⟨_, rfl, inv_closeStream h root⟩

/-- A stream that was created is empty and open, and its capacity is a valid one. -/
theorem create_spec [Target] {event : EventId} {delivery : Delivery} {config : StreamConfig}
    {stream : Stream α} (h : Stream.create event delivery config = .ok stream) :
    0 < config.capacity ∧ config.capacity ≤ isizeMax ∧
      (delivery = .latest → config.capacity = 1) ∧ stream = Stream.empty event delivery config := by
  unfold Stream.create Limits.validate at h
  dsimp only at h
  split at h
  · cases h
  · rename_i hvalid
    split at h
    · cases h
    · rename_i hconfig
      cases h
      push Not at hconfig
      refine ⟨Nat.pos_of_ne_zero hconfig.1, ?_, hconfig.2, rfl⟩
      by_contra hlt
      refine hvalid (List.any_eq_true.mpr ⟨.retainedItems, Resource.mem_all _, ?_⟩)
      exact decide_eq_true (Nat.not_le.mp hlt)

/-- A new stream has an empty history. -/
theorem inv_begin [Target] {event : EventId} {config : StreamConfig} {stream : Stream α}
    (hcreate : Stream.create event .ordered config = .ok stream) (grants : Grants) :
    Inv config (begin ⟨grants, stream⟩) := by
  obtain ⟨hcap, -, -, rfl⟩ := create_spec hcreate
  refine
    { config := rfl
      ordered := rfl
      retains := ?_
      owns := fun _ => Handles.Owns.nil
      accounts := by simp [begin]
      gapless := by simp [begin] }
  exact World.Retains.empty grants event .ordered config

theorem inv_run [Target] {event : EventId} {config : StreamConfig} {stream : Stream α}
    (hcreate : Stream.create event .ordered config = .ok stream) (grants : Grants)
    (ops : List (Op α)) : ∃ s, run ⟨grants, stream⟩ ops = .ok s ∧ s.Inv config := by
  obtain ⟨hcap, hvalid, -, -⟩ := create_spec hcreate
  have hword : config.capacity ≤ usizeMax := hvalid.trans isizeMax_lt_usizeMax.le
  exact steps_invariant (fun _ op h => inv_step h hcap hword op) (inv_begin hcreate grants) ops

/-- What a session shows of the history of its stream. -/
structure Refines (config : StreamConfig) (s : Session α) : Prop where
  /-- Accepted values have the sequences 0, 1, 2 and so on. -/
  consecutive : s.world.stream.state.tail = s.published.length
  bounded : s.world.stream.state.tail ≤ u64Max
  /-- The entries are the end of the history, at most as many as fit. -/
  retained : s.world.stream.state.entries.length ≤ config.capacity ∧
    ∀ (k : Nat) (e : Entry α), s.world.stream.state.entries[k]? = some e →
      e.sequence + s.world.stream.state.entries.length = s.world.stream.state.tail + k ∧
        s.history e.sequence = some e.value
  /-- What a live subscription returned accounts for all sequences up to its cursor. -/
  accounts : ∀ (r : Nat) (sub : Subscription α), s.subscriptions[r]? = some sub →
    sub.dropped = false → s.world.stream.state.closed = false →
      ∃ c, Slots.entry s.world.stream.state.subscribers sub.key.index = some c ∧
        c.id = sub.key.id ∧ Accounts s.history sub.start sub.items c.next
  /-- What any subscription ever returned accounts for a part of the history. -/
  told : ∀ (r : Nat) (sub : Subscription α), s.subscriptions[r]? = some sub →
    ∃ next, next ≤ s.world.stream.state.tail ∧ Accounts s.history sub.start sub.items next
  gapless : ∀ (r : Nat) (sub : Subscription α), s.subscriptions[r]? = some sub →
    sub.role = .required → ∀ item ∈ sub.items, item.isGap = false
  /-- What a live required cursor has not read is retained. -/
  kept : ∀ (i : Nat) (c : Cursor), Slots.entry s.world.stream.state.subscribers i = some c →
    c.role = .required → s.world.grants.isRevoked c.grant = false →
      s.world.stream.state.tail ≤ c.next + s.world.stream.state.entries.length
  /-- A subscription that is made takes a slot of the table. -/
  slot : ∀ (node : NodeId) (role : SubscriptionRole) (key : CursorKey) (w : World α),
    s.world.claim node role = (.ok key, w) → key.index < s.world.stream.state.subscribers.length

theorem Inv.refines (h : s.Inv config) : s.Refines config where
  consecutive := h.retains.tail
  bounded := h.retains.tail.trans_le h.retains.bounded
  retained := by
    refine ⟨h.config ▸ h.retains.capacity, ?_⟩
    intro k e he
    obtain ⟨hseq, hvalue⟩ := h.retains.entry k e he
    rw [h.retains.tail, history_eq]
    exact ⟨hseq, hvalue⟩
  accounts := by
    intro r sub hr hd hopen
    obtain ⟨c, hc, hid, htold⟩ := (h.owns hopen).live r sub hr (by simp [handles, hd])
    exact ⟨c, hc, hid, htold.accounts⟩
  told := by
    rw [h.retains.tail]
    exact h.accounts
  gapless := h.gapless
  kept := by
    rw [h.retains.tail]
    exact h.retains.kept
  slot := by
    intro node role key w hclaim
    rcases s.world.claim_cases node role with ⟨error, he⟩ | ⟨index, -, hfree, -, he⟩
    · rw [he] at hclaim
      cases hclaim
    · rw [he] at hclaim
      cases hclaim
      exact (Slots.free_eq_some hfree).1

/-- **Refinement.** Whatever is done to a new ordered stream, under any grants, nothing
panics and the session shows exactly the history of the stream. -/
theorem run_refines_history [Target] {event : EventId} {config : StreamConfig} {stream : Stream α}
    (hcreate : Stream.create event .ordered config = .ok stream) (grants : Grants)
    (ops : List (Op α)) : ∃ s, run ⟨grants, stream⟩ ops = .ok s ∧ s.Refines config := by
  obtain ⟨s, hs, h⟩ := inv_run hcreate grants ops
  exact ⟨s, hs, h.refines⟩

/-- A root with the default limits and a child for each list of stream limits. A child
may do anything with the event, within them. -/
def granted (event : EventId) (children : List StreamLimits) : Grants where
  nodes :=
    some {
      limits := Limits.default
      pool := ⟨Limits.default, Limits.ofValues fun r =>
        (children.map fun l => { l.asLimits with streams := 1, grants := 1 }.get r).sum⟩
      permissions := none
      parentReservation := none
      eventReservations := []
      revoked := false
      active := 0
      streams := [] } ::
    children.map fun l => some {
      limits := { l.asLimits with streams := 1 }
      pool := Pool.new { Limits.zero with streams := 1 }
      permissions := some [⟨⟨event, ⟨7⟩, l⟩, Pool.new l.asLimits⟩]
      parentReservation := some ⟨0, { l.asLimits with streams := 1, grants := 1 }, none⟩
      eventReservations := []
      revoked := false
      active := 0
      streams := [] }

/-- A full stream whose observer has fallen behind, and a revocation. -/
theorem run_refines_history_gap :
    let _ := Target.x64
    ∃ stream : Stream Nat, Stream.create ⟨1⟩ .ordered ⟨1, 1, 0⟩ = .ok stream ∧
      ∃ s, run ⟨granted ⟨1⟩ [⟨2, 1, 0⟩], stream⟩
          [.subscribe 1 .observer, .sendNow 1 7, .sendNow 1 8, .recvNow 0, .revoke 1] = .ok s ∧
        s.Refines ⟨1, 1, 0⟩ := by
  intro _
  exact ⟨_, rfl, @run_refines_history Nat _ ⟨1⟩ ⟨1, 1, 0⟩ _ rfl _ _⟩

example :
    let _ := Target.x64
    ((Stream.create ⟨1⟩ .ordered ⟨1, 1, 0⟩ : Except TopicError (Stream Nat)).toOption.map
      fun stream =>
        (run ⟨granted ⟨1⟩ [⟨2, 1, 0⟩], stream⟩
          [.subscribe 1 .observer, .sendNow 1 7, .sendNow 1 8, .recvNow 0, .revoke 1]).toOption.map
            fun s => (s.published, s.subscriptions.map Subscription.items)) =
      some (some ([7, 8], [[.gap 0 1]])) := by
  decide +kernel

end Session

end Hiway.Fabric
