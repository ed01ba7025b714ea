import Hiway.Fabric.Scope
import Hiway.Fabric.Signals
import Hiway.Grant.Books

/-!
# Credits

Every unit of an event's pool is where the code says it is: with an entry, a retired
snapshot, a preparation, a receiver, a waiting future, or in the reservation of a child.
`Channel.Balanced` says so for one stream, with the leases of everybody else as its base,
and `DynamicFabric.Inv` for the whole scope.

* `World.Balanced.frame`: the books of a stream, with part of what is held outside counted
  as given.
* `operate`: an operation on a stream that does not wait.
* `block`: an iteration that cannot complete gets a waiter, parks, or gives up.
* `poll`, `cancel`: a future is polled, or dropped, and each credit is where it was or where
  it should be.
-/

namespace Hiway.Fabric

open Exec Target

variable {α : Type}

/-! ## One stream -/

/-- The books of a stream, with part of what is held outside counted as given. -/
theorem World.Balanced.frame [Target] {base : NodeId → Option Nat → Resource → Nat} {w : World α}
    {outside rest : List Lease} :
    w.Balanced base (outside ++ rest) ↔
      w.Balanced (fun i event r => base i event r + Grants.held rest i event r) outside := by
  constructor
  · intro h
    have hb := h.books
    rw [← List.append_assoc, Grants.Books.frame] at hb
    exact ⟨hb, h.bounded, h.charged⟩
  · intro h
    have hb := h.books
    rw [← Grants.Books.frame, List.append_assoc] at hb
    exact ⟨hb, h.bounded, h.charged⟩

namespace Session

/-- A receiver keeps its node. -/
def Names (s s' : Session α) : Prop :=
  ∀ (r : Nat) (node : NodeId), s.subscriptions[r]?.map Subscription.node = some node →
    s'.subscriptions[r]?.map Subscription.node = some node

/-- The receiver that an operation drops. -/
def dropping : Op α → Option Nat
  | .drop r => some r
  | _ => none

/-- A receiver keeps its node, and lives until it is dropped. -/
def Receives (s s' : Session α) (dropped : Option Nat) : Prop :=
  ∀ (r : Nat) (sub : Subscription α), s.subscriptions[r]? = some sub →
    ∃ sub', s'.subscriptions[r]? = some sub' ∧ sub'.node = sub.node ∧
      (dropped ≠ some r → sub'.dropped = sub.dropped)

theorem Receives.names {s s' : Session α} {dropped : Option Nat} (h : Receives s s' dropped) :
    Names s s' := by
  intro r node hr
  obtain ⟨sub, hsub, rfl⟩ := Option.map_eq_some_iff.mp hr
  obtain ⟨sub', hsub', hnode, -⟩ := h r sub hsub
  rw [hsub', Option.map_some, hnode]

theorem Receives.of_eq {s s' : Session α} {dropped : Option Nat}
    (h : s'.subscriptions = s.subscriptions) : Receives s s' dropped := by
  intro r sub hr
  exact ⟨sub, by rw [h, hr], rfl, fun _ => rfl⟩

theorem Receives.set {s s' : Session α} {dropped : Option Nat} {r : Nat}
    {sub sub' : Subscription α} (hr : s.subscriptions[r]? = some sub)
    (hnode : sub'.node = sub.node) (hdropped : dropped ≠ some r → sub'.dropped = sub.dropped)
    (h : s'.subscriptions = s.subscriptions.set r sub') : Receives s s' dropped := by
  intro r' other hr'
  rw [h]
  by_cases hne : r = r'
  · subst hne
    rw [hr] at hr'
    cases hr'
    exact ⟨sub', List.getElem?_set_self (List.getElem?_eq_some_iff.mp hr).1, hnode, hdropped⟩
  · exact ⟨other, by rw [List.getElem?_set_ne hne, hr'], rfl, fun _ => rfl⟩

theorem receives_told {s : Session α} {r : Nat} {sub : Subscription α}
    (hr : s.subscriptions[r]? = some sub)
    (result : Except ReceiveError (Option (StreamItem α)) × World α) (dropped : Option Nat) :
    Receives s (s.told r sub result) dropped := by
  unfold Session.told
  split
  · refine Receives.set hr ?_ (fun _ => ?_) rfl <;> rfl
  · exact Receives.of_eq rfl

theorem receives_step [Target] {s s' : Session α} {op : Op α} (he : s.step op = .ok s') :
    Receives s s' (dropping op) := by
  cases op with
  | sender node =>
    cases he
    exact Receives.of_eq rfl
  | sendNow node value =>
    cases he
    unfold Session.sendNow
    split <;> exact Receives.of_eq rfl
  | prepare node value =>
    cases he
    unfold Session.prepare
    split <;> exact Receives.of_eq rfl
  | trySend p =>
    cases he
    unfold Session.trySend
    split
    · exact Receives.of_eq rfl
    · split <;> exact Receives.of_eq rfl
  | cancel p =>
    cases he
    unfold Session.cancel
    split <;> exact Receives.of_eq rfl
  | subscribe node role =>
    cases he
    unfold Session.subscribe
    split
    · exact Receives.of_eq rfl
    · intro r sub hr
      refine ⟨sub, ?_, rfl, fun _ => rfl⟩
      dsimp only
      rw [List.getElem?_append_left (List.getElem?_eq_some_iff.mp hr).1, hr]
  | tryRecv r =>
    change s.tryRecv r = .ok s' at he
    unfold Session.tryRecv at he
    split at he
    · cases he
      exact Receives.of_eq rfl
    · rename_i sub hr
      split at he
      · cases he
        exact Receives.of_eq rfl
      · obtain ⟨result, -, he⟩ := bind_eq_ok.mp he
        cases he
        exact receives_told hr result _
  | recvNow r =>
    change s.recvNow r = .ok s' at he
    unfold Session.recvNow at he
    split at he
    · cases he
      exact Receives.of_eq rfl
    · rename_i sub hr
      split at he
      · cases he
        exact Receives.of_eq rfl
      · obtain ⟨result, -, he⟩ := bind_eq_ok.mp he
        cases he
        exact receives_told hr result _
  | drop r =>
    cases he
    unfold Session.drop
    split
    · exact Receives.of_eq rfl
    · rename_i sub hr
      split
      · exact Receives.of_eq rfl
      · refine Receives.set hr ?_ (fun hne => absurd rfl hne) rfl
        rfl
  | maintain =>
    cases he
    exact Receives.of_eq rfl
  | revoke node =>
    cases he
    exact Receives.of_eq rfl
  | closeStream =>
    cases he
    exact Receives.of_eq rfl

end Session

namespace Channel

/-- The node that a future publishes or receives for. -/
def nodeOf (ch : Channel α) : Work α → Option NodeId
  | .send node _ => some node
  | .recv r => ch.subscriptions[r]?.map Subscription.node

/-- What every stream of a fabric keeps to. -/
structure Sound (g : Grants) (ch : Channel α) : Prop where
  capacity : 0 < ch.stream.config.capacity
  classified : (ch.session g).Classified
  waiting : ∀ (f : Nat) (future : Future α) (lease : Lease), ch.future f = some future →
    future.waiter = some lease → ch.nodeOf future.work = some lease.node ∧
      Leased oneWaiter g ch.stream.event lease
  waiters : ch.waiters = ch.waiting.length
  limit : ch.waiters ≤ ch.stream.config.waiters
  allocation : ch.allocation.event = none ∧ ch.allocation.node = Session.root

structure Balanced [Target] (base : NodeId → Option Nat → Resource → Nat) (g : Grants)
    (ch : Channel α) : Prop where
  world : (⟨g, ch.stream⟩ : World α).Balanced base (ch.clients ++ ch.waiting)
  sound : ch.Sound g

/-- What an operation on a stream makes of it. -/
structure Goes [Target] (base : NodeId → Option Nat → Resource → Nat) (g : Grants)
    (ch : Channel α) (g' : Grants) (ch' : Channel α) : Prop where
  balanced : ch'.Balanced base g'
  moves : (⟨g, ch.stream⟩ : World α).Moves ⟨g', ch'.stream⟩
  allocation : ch'.allocation = ch.allocation

theorem Goes.refl [Target] {base : NodeId → Option Nat → Resource → Nat} {g : Grants}
    {ch : Channel α} (h : ch.Balanced base g) : Goes base g ch g ch :=
  ⟨h, World.Moves.refl _, rfl⟩

theorem Goes.trans [Target] {base : NodeId → Option Nat → Resource → Nat} {g g' g'' : Grants}
    {ch ch' ch'' : Channel α} (h : Goes base g ch g' ch') (h' : Goes base g' ch' g'' ch'') :
    Goes base g ch g'' ch'' :=
  ⟨h'.balanced, h.moves.trans h'.moves, h'.allocation.trans h.allocation⟩

namespace Balanced

variable [Target] {base : NodeId → Option Nat → Resource → Nat} {g : Grants} {ch : Channel α}

theorem session (h : ch.Balanced base g) :
    (ch.session g).Balanced
      (fun i event r => base i event r + Grants.held ch.waiting i event r) ch.stream.config where
  config := rfl
  world := World.Balanced.frame.mp h.world
  prepared := fun p prepared hp => (h.sound.classified.prepared p prepared hp).2

/-- The stream and its clients moved on; nothing that waits did. -/
theorem after (h : ch.Balanced base g) {s : Session α}
    (hs : s.Balanced (fun i event r => base i event r + Grants.held ch.waiting i event r)
      ch.stream.config) (hc : s.Classified) (hm : (ch.session g).world.Moves s.world)
    (hn : (ch.session g).Names s) : Goes base g ch s.world.grants (ch.after s) where
  balanced :=
    { world := World.Balanced.frame.mpr hs.world
      sound :=
        { capacity := by
            have hconfig : (ch.after s).stream.config = ch.stream.config := hs.config
            rw [hconfig]
            exact h.sound.capacity
          classified := hc
          waiting := by
            intro f future lease hf hw
            obtain ⟨hnode, hleased⟩ := h.sound.waiting f future lease hf hw
            refine ⟨?_, ?_⟩
            · cases hwork : future.work with
              | send node value =>
                rw [hwork] at hnode
                exact hnode
              | recv r =>
                rw [hwork] at hnode
                exact hn r lease.node hnode
            · have hevent : (ch.after s).stream.event = ch.stream.event := hm.event
              rw [hevent]
              exact hleased.of_authority hm.authority
          waiters := h.sound.waiters
          limit := by
            have hconfig : (ch.after s).stream.config = ch.stream.config := hs.config
            rw [hconfig]
            exact h.sound.limit
          allocation := h.sound.allocation } }
  moves := hm
  allocation := rfl

theorem operate (h : ch.Balanced base g) {op : Op α} (hop : ∀ node, op ≠ .revoke node)
    {result : Channel α × Grants} (he : ch.operate g op = .ok result) :
    Goes base g ch result.2 result.1 := by
  unfold Channel.operate at he
  split at he
  · obtain ⟨s, hs, he⟩ := bind_eq_ok.mp he
    cases he
    obtain ⟨hc, hm⟩ := h.sound.classified.step h.sound.capacity hop hs
    have hafter := h.after (h.session.step h.sound.capacity hs) hc hm (Session.receives_step hs).names
    have hb := hafter.balanced
    exact ⟨⟨hb.world, hb.sound.capacity, hb.sound.classified, hb.sound.waiting, hb.sound.waiters,
      hb.sound.limit, hb.sound.allocation⟩, hafter.moves, rfl⟩
  · cases he
    exact Goes.refl h

/-! ### Futures -/

/-- A new future waits for nothing yet. -/
theorem snoc (h : ch.Balanced base g) (work : Work α) :
    Goes base g ch g { ch with futures := ch.futures ++ [some ⟨work, none, none⟩] } := by
  have hwaiting : Channel.waiting { ch with futures := ch.futures ++ [some ⟨work, none, none⟩] } =
      ch.waiting := by
    simp [Channel.waiting]
  refine ⟨⟨?_, h.sound.capacity, h.sound.classified, ?_, ?_, h.sound.limit, h.sound.allocation⟩,
    World.Moves.refl _, rfl⟩
  · rw [hwaiting]
    exact h.world
  · intro f future lease hf hw
    rcases Handles.getElem?_snoc (Slots.entry_eq_some.mp hf) with ⟨hf, -⟩ | ⟨-, hf⟩
    · exact h.sound.waiting f future lease (Slots.entry_eq_some.mpr hf) hw
    · cases hf
      cases hw
  · rw [hwaiting]
    exact h.sound.waiters

theorem send (h : ch.Balanced base g) (node : NodeId) (value : α) :
    Goes base g ch g (ch.send node value) := by
  unfold Channel.send
  split
  · exact h.snoc _
  · exact Goes.refl h

theorem recv (h : ch.Balanced base g) (r : Nat) : Goes base g ch g (ch.recv r) := by
  unfold Channel.recv
  split
  · exact h.snoc _
  · exact Goes.refl h

/-- The world under the books changed, and with it what is outside. -/
theorem of_world {g' : Grants} {ch' : Channel α}
    (hworld : (⟨g', ch'.stream⟩ : World α).Balanced base (ch'.clients ++ ch'.waiting))
    (h : ch.Balanced base g) (hm : (⟨g, ch.stream⟩ : World α).Moves ⟨g', ch'.stream⟩)
    (hsession : ch' = { ch with stream := ch'.stream, waiters := ch'.waiters, futures := ch'.futures })
    (hwaiting : ∀ (f : Nat) (future : Future α) (lease : Lease), ch'.future f = some future →
      future.waiter = some lease → ch.nodeOf future.work = some lease.node ∧
        Leased oneWaiter g' ch.stream.event lease)
    (hwaiters : ch'.waiters = ch'.waiting.length)
    (hlimit : ch'.waiters ≤ ch.stream.config.waiters) : Goes base g ch g' ch' where
  balanced :=
    { world := hworld
      sound :=
        { capacity := by
            have hconfig : ch'.stream.config = ch.stream.config := hm.config
            rw [hconfig]
            exact h.sound.capacity
          classified := by
            have hc := h.sound.classified.of_world hm
            rw [hsession]
            exact hc
          waiting := by
            intro f future lease hf hw
            obtain ⟨hnode, hleased⟩ := hwaiting f future lease hf hw
            have hevent : ch'.stream.event = ch.stream.event := hm.event
            rw [hevent]
            refine ⟨?_, hleased⟩
            rw [hsession]
            exact hnode
          waiters := hwaiters
          limit := by
            have hconfig : ch'.stream.config = ch.stream.config := hm.config
            rw [hconfig]
            exact hlimit
          allocation := by
            rw [hsession]
            exact h.sound.allocation } }
  moves := hm
  allocation := by rw [hsession]

/-- The others wait as before. -/
theorem waiting_set (h : ch.Balanced base g) {f : Nat} {o : Option (Future α)}
    (ho : ∀ future lease, o = some future → future.waiter = some lease →
      ch.nodeOf future.work = some lease.node ∧ Leased oneWaiter g ch.stream.event lease) :
    ∀ (f' : Nat) (future : Future α) (lease : Lease),
      Slots.entry (ch.futures.set f o) f' = some future → future.waiter = some lease →
        ch.nodeOf future.work = some lease.node ∧ Leased oneWaiter g ch.stream.event lease := by
  intro f' future lease hf hw
  rcases Handles.getElem?_set_cases (Slots.entry_eq_some.mp hf) with ⟨-, hf⟩ | ⟨-, hf⟩
  · exact ho future lease hf.symm hw
  · exact h.sound.waiting f' future lease (Slots.entry_eq_some.mpr hf) hw

/-- A future that ends gives its waiter back. -/
theorem finish (h : ch.Balanced base g) {f : Nat} {future : Future α}
    (hf : ch.future f = some future) :
    Goes base g ch (ch.finish g f future).2 (ch.finish g f future).1 := by
  have hget := Slots.entry_eq_some.mp hf
  unfold Channel.finish
  cases hw : future.waiter with
  | none =>
    have hsame : Channel.waiting { ch with futures := ch.futures.set f none } = ch.waiting :=
      Session.filterMap_set_eq hget (by simp [hw])
    refine of_world ?_ h (World.Moves.refl _) rfl (h.waiting_set (by simp)) ?_ h.sound.limit
    · dsimp only
      rw [hsame]
      exact h.world
    · dsimp only
      rw [hsame]
      exact h.sound.waiters
  | some lease =>
    have hperm : ch.waiting.Perm
        (lease :: Channel.waiting { ch with futures := ch.futures.set f none }) :=
      Session.filterMap_set_perm hget (by simp [hw]) rfl
    have hm := World.Moves.release (⟨g, ch.stream⟩ : World α) lease
    refine of_world ?_ h hm rfl ?_ ?_ ?_
    · exact (h.world.perm ((hperm.append_left _).trans List.perm_middle)).release
    · intro f' future' lease' hf' hw'
      obtain ⟨hnode, hleased⟩ := h.waiting_set (o := none) (by simp) f' future' lease' hf' hw'
      exact ⟨hnode, hleased.of_authority hm.authority⟩
    · have hlen := hperm.length_eq
      have hcount := h.sound.waiters
      rw [List.length_cons] at hlen
      dsimp only
      change ch.waiters - 1 = (Channel.waiting { ch with futures := ch.futures.set f none }).length
      omega
    · exact (Nat.sub_le _ _).trans h.sound.limit

/-- A place among the waiters, or nothing. -/
theorem waiter (h : ch.Balanced base g) (node : NodeId) :
    (∃ error world, ch.waiter g node = (.error error, { ch with stream := world.stream },
        world.grants) ∧ (⟨g, ch.stream⟩ : World α).Moves world ∧
        world.Balanced base (ch.clients ++ ch.waiting)) ∨
    ∃ lease world, ch.waiter g node = (.ok lease, { ch with
        stream := world.stream, waiters := ch.waiters + 1 }, world.grants) ∧
      ch.waiters < ch.stream.config.waiters ∧ (⟨g, ch.stream⟩ : World α).Moves world ∧
      world.Balanced base (lease :: (ch.clients ++ ch.waiting)) ∧ lease.node = node ∧
      Leased oneWaiter world.grants ch.stream.event lease := by
  have hm := World.Moves.tryCharge (⟨g, ch.stream⟩ : World α) node oneWaiter
  unfold Channel.waiter
  cases hc : (⟨g, ch.stream⟩ : World α).tryCharge node oneWaiter with
  | mk result world =>
    rw [hc] at hm
    cases result with
    | error error =>
      refine Or.inl ⟨error, world, rfl, hm, ?_⟩
      rw [World.tryCharge_error hc]
      exact h.world
    | ok lease =>
      obtain ⟨hnode, hleased⟩ := Leased.of_tryCharge hc
      have hb := h.world.tryCharge hc
      have hevent : world.stream.event = ch.stream.event := hm.event
      rw [hevent] at hleased
      dsimp only
      split
      · rename_i hroom
        exact Or.inr ⟨lease, world, rfl, hroom, hm, hb, hnode, hleased⟩
      · exact Or.inl ⟨_, _, rfl, hm.trans (World.Moves.release _ _), hb.release⟩

/-- An iteration that cannot complete gets a waiter, parks, or gives up. -/
theorem block (h : ch.Balanced base g) {node : NodeId} {f : Nat} {future : Future α} (mark : Nat)
    (hf : ch.future f = some future) (hnode : ch.nodeOf future.work = some node) :
    Goes base g ch (ch.block g node f future mark).2 (ch.block g node f future mark).1 := by
  have hget := Slots.entry_eq_some.mp hf
  unfold Channel.block
  cases hw : future.waiter with
  | some held =>
    have hsame : Channel.waiting { ch with
        futures := ch.futures.set f (some { future with parked := some mark }) } = ch.waiting :=
      Session.filterMap_set_eq hget rfl
    dsimp only
    refine of_world ?_ h (World.Moves.refl _) rfl (h.waiting_set ?_) ?_ h.sound.limit
    · dsimp only
      rw [← hw, hsame]
      exact h.world
    · intro future' lease' hfuture hlease
      cases hfuture
      exact h.sound.waiting f future lease' hf (hw.trans hlease)
    · dsimp only
      rw [← hw, hsame]
      exact h.sound.waiters
  | none =>
    dsimp only
    rcases h.waiter node with ⟨error, world, he, hm, hb⟩ |
      ⟨lease, world, he, hroom, hm, hb, hlease, hleased⟩
    · rw [he]
      dsimp only
      have hgone : Goes base g ch world.grants { ch with stream := world.stream } := by
        refine of_world hb h hm rfl ?_ h.sound.waiters h.sound.limit
        intro f' future' lease' hf' hw'
        obtain ⟨hnode', hleased'⟩ := h.sound.waiting f' future' lease' hf' hw'
        exact ⟨hnode', hleased'.of_authority hm.authority⟩
      have hfinish := hgone.balanced.finish (f := f) hf
      exact hgone.trans hfinish
    · rw [he]
      dsimp only
      have hperm : (Channel.waiting { ch with
          futures := ch.futures.set f (some { future with waiter := some lease }) }).Perm
            (lease :: ch.waiting) := by
        have hset : (ch.futures.set f (some { future with waiter := some lease }))[f]? =
            some (some { future with waiter := some lease }) :=
          List.getElem?_set_self (List.getElem?_eq_some_iff.mp hget).1
        have hp := Session.filterMap_set_perm (f := fun o : Option (Future α) =>
          o.bind Future.waiter) (c := lease) (y := some future) hset rfl hw
        rw [List.set_set, Slots.set_getElem? hget] at hp
        exact hp
      refine of_world ?_ h hm rfl ?_ ?_ hroom
      · exact hb.perm (List.perm_middle.symm.trans (hperm.symm.append_left _))
      · intro f' future' lease' hf' hw'
        rcases Handles.getElem?_set_cases (Slots.entry_eq_some.mp hf') with ⟨-, hf'⟩ | ⟨-, hf'⟩
        · cases hf'
          cases hw'
          exact ⟨hnode.trans (congrArg some hlease.symm), hleased⟩
        · obtain ⟨hnode', hleased'⟩ :=
            h.sound.waiting f' future' lease' (Slots.entry_eq_some.mpr hf') hw'
          exact ⟨hnode', hleased'.of_authority hm.authority⟩
      · have hlen := hperm.length_eq
        rw [List.length_cons, ← h.sound.waiters] at hlen
        exact hlen.symm

theorem pollSend (h : ch.Balanced base g) {f : Nat} {future : Future α} {node : NodeId} {value : α}
    (hf : ch.future f = some future) (hwork : future.work = .send node value) :
    Goes base g ch (ch.pollSend g f future node value).2
      (ch.pollSend g f future node value).1 := by
  obtain ⟨hc, hworld⟩ := h.sound.classified.sendNow h.sound.capacity node value
  have hm : (ch.session g).world.Moves ((ch.session g).sendNow node value).world := by
    rw [hworld]
    exact World.Moves.sendNow h.sound.capacity node value
  have hafter := h.after (h.session.sendNow h.sound.capacity node value) hc hm
    (Session.receives_step (show (ch.session g).step (.sendNow node value) = .ok _ from rfl)).names
  have hgrants : ((ch.session g).sendNow node value).world.grants =
      ((⟨g, ch.stream⟩ : World α).sendNow node value).2.grants := congrArg World.grants hworld
  rw [hgrants] at hafter
  unfold Channel.pollSend
  dsimp only
  split
  · have hb := hafter.balanced.block ch.stream.changed hf (by rw [hwork]; rfl)
    exact hafter.trans hb
  · have hb := hafter.balanced.finish hf
    exact hafter.trans hb

theorem pollRecv (h : ch.Balanced base g) {f : Nat} {future : Future α} {r : Nat}
    {sub : Subscription α} {result : Channel α × Grants} (hf : ch.future f = some future)
    (hwork : future.work = .recv r) (hr : ch.subscriptions[r]? = some sub)
    (he : ch.pollRecv g f future r sub = .ok result) : Goes base g ch result.2 result.1 := by
  unfold Channel.pollRecv at he
  dsimp only at he
  obtain ⟨⟨item, world⟩, hrecv, he⟩ := bind_eq_ok.mp he
  have hm : (ch.session g).world.Moves world := World.Moves.recvNow hrecv
  obtain ⟨hc, hworld⟩ := h.sound.classified.told hr (item, world) hm
  have hnames := (Session.receives_told (s := ch.session g) hr (item, world) none).names
  have hbalanced : world.Balanced (fun i event r =>
      base i event r + Grants.held ch.waiting i event r) (ch.session g).outside := by
    obtain ⟨⟨item, w⟩, htry, hmaintain⟩ := bind_eq_ok.mp hrecv
    cases hmaintain
    exact (h.session.world.tryRecv htry).maintain
  have hafter := h.after (h.session.told hr (item, world) hm.toSameStream hbalanced) hc
    (by rw [hworld]; exact hm) hnames
  have hgrants : ((ch.session g).told r sub (item, world)).world.grants = world.grants :=
    congrArg World.grants hworld
  rw [hgrants] at hafter
  have hnode : ((ch.session g).told r sub (item, world)).subscriptions[r]?.map
      Subscription.node = some sub.node :=
    hnames r sub.node (congrArg (Option.map Subscription.node) hr)
  dsimp only at he
  split at he
  · cases he
    have hb := hafter.balanced.block ch.stream.changed hf (by rw [hwork]; exact hnode)
    exact hafter.trans hb
  · cases he
    have hb := hafter.balanced.finish hf
    exact hafter.trans hb

theorem poll (h : ch.Balanced base g) {f : Nat} {result : Channel α × Grants}
    (he : ch.poll g f = .ok result) : Goes base g ch result.2 result.1 := by
  unfold Channel.poll at he
  split at he
  · cases he
    exact Goes.refl h
  · rename_i future hf
    split at he
    · cases he
      exact Goes.refl h
    · split at he
      · rename_i node value hwork
        cases he
        exact h.pollSend hf hwork
      · rename_i r hwork
        split at he
        · cases he
          exact Goes.refl h
        · rename_i sub hr
          exact h.pollRecv hf hwork hr he

theorem cancel (h : ch.Balanced base g) (f : Nat) :
    Goes base g ch (ch.cancel g f).2 (ch.cancel g f).1 := by
  unfold Channel.cancel
  split
  · exact Goes.refl h
  · rename_i future hf
    exact h.finish hf

end Balanced

end Channel

end Hiway.Fabric
