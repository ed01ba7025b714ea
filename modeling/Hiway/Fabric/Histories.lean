import Hiway.Fabric.Latest
import Hiway.Fabric.Ledger
import Hiway.Grant.Live

/-!
# The histories of a fabric

Whatever happens in a fabric, each of its streams retains the end of what it accepted,
and its receivers were told the rest: what a session shows of one stream holds of every
stream of a scope, with its futures, its delegations and the other streams.

* `operate`, `poll`, `cancel`: operations, polls and dropped futures keep what a
  subscription has been told within its history.
* `delegate`, `dropGrant`, `revoke`: so do changes of the tree, which take requirements away
  and bring none back.
* `step`: every operation of a fabric returns, and keeps the histories of all its streams.
-/

namespace Hiway.Fabric

open Exec Target

variable {α : Type}

namespace World.Retains

variable {published : List α} {w : World α}

/-- Another tree in which no required cursor comes back to life. -/
theorem of_revoked (h : Retains published w) {g : Grants}
    (hg : ∀ (i : Nat) (c : Cursor), Slots.entry w.stream.state.subscribers i = some c →
      c.role = .required → g.isRevoked c.grant = false → w.grants.isRevoked c.grant = false) :
    Retains published ⟨g, w.stream⟩ where
  tail := h.tail
  bounded := h.bounded
  capacity := h.capacity
  length := h.length
  entry := h.entry
  next := h.next
  kept i c hc hrole hr := h.kept i c hc hrole (hg i c hc hrole hr)
  closed := h.closed

end World.Retains

namespace Channel

variable {g g' : Grants} {ch ch' : Channel α}

/-- A stream retains the end of its history, and its clients were told the rest. A future
receives for a receiver that is not dropped. -/
structure Historic [Target] (g : Grants) (ch : Channel α) : Prop where
  word : ch.stream.config.capacity ≤ usizeMax
  one : ch.stream.delivery = .latest → ch.stream.config.capacity = 1
  ordered : ch.stream.delivery = .ordered → (ch.session g).Inv ch.stream.config
  latest : ch.stream.delivery = .latest → (ch.session g).Current ch.stream.config
  borrowed : ∀ (f : Nat) (future : Future α) (r : Nat), ch.future f = some future →
    future.work = .recv r → ∃ sub, ch.subscriptions[r]? = some sub ∧ sub.dropped = false

namespace Historic

variable [Target]

theorem retains (h : ch.Historic g) : (⟨g, ch.stream⟩ : World α).Retains ch.published := by
  cases hd : ch.stream.delivery with
  | ordered => exact (h.ordered hd).retains
  | latest => exact (h.latest hd).retains

/-- An operation of the stream. -/
theorem step (h : ch.Historic g) (hcap : 0 < ch.stream.config.capacity) (op : Op α)
    (hdrop : ∀ r, op = .drop r → ch.borrowed r = false) :
    ∃ s, (ch.session g).step op = .ok s ∧ (ch.after s).Historic s.world.grants := by
  have hborrowed : ∀ s, (ch.session g).step op = .ok s → ∀ (f : Nat) (future : Future α) (r : Nat),
      ch.future f = some future → future.work = .recv r →
        ∃ sub, s.subscriptions[r]? = some sub ∧ sub.dropped = false := by
    intro s hs f future r hf hwork
    obtain ⟨sub, hr, hd⟩ := h.borrowed f future r hf hwork
    obtain ⟨sub', hr', -, hsame⟩ := Session.receives_step hs r sub hr
    refine ⟨sub', hr', (hsame ?_).trans hd⟩
    intro heq
    have hop : op = .drop r := by
      cases op <;> cases heq
      rfl
    have hfree := hdrop r hop
    unfold Channel.borrowed at hfree
    rw [List.any_eq_false] at hfree
    refine hfree _ (List.mem_of_getElem? (Slots.entry_eq_some.mp hf)) ?_
    rw [Option.any_some, hwork]
    exact decide_eq_true rfl
  cases hd : ch.stream.delivery with
  | ordered =>
    obtain ⟨s, hs, hinv⟩ := Session.inv_step (h.ordered hd) hcap h.word op
    have hconfig : s.world.stream.config = ch.stream.config := hinv.config
    refine ⟨s, hs, ?_, ?_, ?_, ?_, hborrowed s hs⟩
    · exact hconfig ▸ h.word
    · intro hl
      cases hinv.ordered.symm.trans hl
    · intro _
      exact hconfig ▸ hinv
    · intro hl
      cases hinv.ordered.symm.trans hl
  | latest =>
    obtain ⟨s, hs, hinv⟩ := (h.latest hd).step (h.one hd) op
    have hconfig : s.world.stream.config = ch.stream.config := hinv.config
    refine ⟨s, hs, ?_, ?_, ?_, ?_, hborrowed s hs⟩
    · exact hconfig ▸ h.word
    · intro _
      exact hconfig ▸ h.one hd
    · intro ho
      cases hinv.settled.latest.symm.trans ho
    · intro _
      exact hconfig ▸ hinv

/-- Nothing that a subscription could see has changed, and no receiver is awaited anew. -/
theorem keeps (h : ch.Historic g)
    (hk : World.Keeps (⟨g, ch.stream⟩ : World α) ⟨g', ch'.stream⟩)
    (hsession : ch' =
      { ch with stream := ch'.stream, waiters := ch'.waiters, futures := ch'.futures })
    (hfutures : ∀ (f : Nat) (future : Future α) (r : Nat), ch'.future f = some future →
      future.work = .recv r → ∃ sub, ch.subscriptions[r]? = some sub ∧ sub.dropped = false) :
    ch'.Historic g' := by
  have hconfig : ch'.stream.config = ch.stream.config := hk.config
  have hdelivery : ch'.stream.delivery = ch.stream.delivery := hk.delivery
  have hsame : ch'.session g' = { ch.session g with world := ⟨g', ch'.stream⟩ } := by
    rw [hsession]
    rfl
  refine ⟨hconfig ▸ h.word, ?_, ?_, ?_, ?_⟩
  · rw [hconfig, hdelivery]
    exact h.one
  · rw [hconfig, hdelivery, hsame]
    exact fun hd => (h.ordered hd).trims hk.trims ch.preparations
  · rw [hconfig, hdelivery, hsame]
    exact fun hd => (h.latest hd).keeps hk ch.preparations
  · rw [hsession]
    exact hfutures

/-- Another tree in which no required cursor comes back to life. -/
theorem of_revoked (h : ch.Historic g)
    (hg : ∀ (i : Nat) (c : Cursor), Slots.entry ch.stream.state.subscribers i = some c →
      c.role = .required → g'.isRevoked c.grant = false → g.isRevoked c.grant = false) :
    ch.Historic g' where
  word := h.word
  one := h.one
  ordered hd :=
    have hinv := h.ordered hd
    { config := hinv.config
      ordered := hinv.ordered
      retains := hinv.retains.of_revoked hg
      owns := hinv.owns
      accounts := hinv.accounts
      gapless := hinv.gapless }
  latest hd :=
    have hinv := h.latest hd
    { config := hinv.config
      settled := ⟨hinv.settled.latest, hinv.settled.room⟩
      retains := hinv.retains.of_revoked hg
      newest := hinv.newest
      owns := hinv.owns
      shows := hinv.shows }
  borrowed := h.borrowed

theorem of_authority (h : ch.Historic g) (hs : SameAuthority g g') : ch.Historic g' :=
  h.of_revoked fun _ c _ _ hr => (hs.isRevoked_eq c.grant).symm.trans hr

/-- Notifications, and senders that are gone. -/
theorem notified (h : ch.Historic g) (n : Nat) (senders : List NodeId) :
    Historic g { ch with
      stream := { ch.stream with changed := ch.stream.changed + n }, senders := senders } := by
  have hk : World.Keeps (⟨g, ch.stream⟩ : World α)
      ⟨g, { ch.stream with changed := ch.stream.changed + n }⟩ :=
    World.Keeps.of_state ⟨rfl, rfl, rfl, SameAuthority.refl _, fun _ h => h⟩ rfl
  have hch : Historic g { ch with
      stream := { ch.stream with changed := ch.stream.changed + n } } := h.keeps hk rfl h.borrowed
  exact ⟨hch.word, hch.one, hch.ordered, hch.latest, hch.borrowed⟩

/-! ### The operations of a stream -/

/-- An operation that does not wait returns. -/
theorem operate (h : ch.Historic g) (hcap : 0 < ch.stream.config.capacity) (op : Op α) :
    ∃ result, ch.operate g op = .ok result ∧ result.1.Historic result.2 := by
  unfold Channel.operate
  split
  · rename_i hallows
    obtain ⟨s, hs, hs'⟩ := h.step hcap op (by
      rintro r rfl
      simpa [Channel.allows] using hallows)
    refine ⟨_, by rw [hs]; rfl, ?_⟩
    exact ⟨hs'.word, hs'.one, hs'.ordered, hs'.latest, hs'.borrowed⟩
  · exact ⟨_, rfl, h⟩

/-- A new future. -/
theorem snoc (h : ch.Historic g) (work : Work α)
    (hwork : ∀ r, work = .recv r → ∃ sub, ch.subscriptions[r]? = some sub ∧ sub.dropped = false) :
    Historic g { ch with futures := ch.futures ++ [some ⟨work, none, none⟩] } := by
  refine h.keeps (World.Keeps.refl _) rfl fun f future r hf hr => ?_
  rcases Handles.getElem?_snoc (Slots.entry_eq_some.mp hf) with ⟨hf, -⟩ | ⟨-, hf⟩
  · exact h.borrowed f future r (Slots.entry_eq_some.mpr hf) hr
  · cases hf
    exact hwork r hr

theorem send (h : ch.Historic g) (node : NodeId) (value : α) : (ch.send node value).Historic g := by
  unfold Channel.send
  split
  · exact h.snoc _ nofun
  · exact h

theorem recv (h : ch.Historic g) (r : Nat) : (ch.recv r).Historic g := by
  unfold Channel.recv
  split
  · rename_i hlive
    refine h.snoc _ fun r' hr' => ?_
    cases hr'
    obtain ⟨sub, hr, hd⟩ := (Option.any_eq_true _ _).mp hlive
    exact ⟨sub, hr, by simpa using hd⟩
  · exact h

/-- The futures after one of them has changed, which awaits what it awaited. -/
theorem borrowed_set (h : ch.Historic g) {f : Nat} (future : Future α)
    (hf : ch.future f = some future) {o : Option (Future α)}
    (ho : ∀ future', o = some future' → future'.work = future.work) :
    ∀ (f' : Nat) (future' : Future α) (r : Nat), Slots.entry (ch.futures.set f o) f' = some future' →
      future'.work = .recv r → ∃ sub, ch.subscriptions[r]? = some sub ∧ sub.dropped = false := by
  intro f' future' r hf' hr
  rcases Handles.getElem?_set_cases (Slots.entry_eq_some.mp hf') with ⟨-, heq⟩ | ⟨-, hf'⟩
  · exact h.borrowed f future r hf ((ho future' heq.symm).symm.trans hr)
  · exact h.borrowed f' future' r (Slots.entry_eq_some.mpr hf') hr

theorem finish (h : ch.Historic g) {f : Nat} {future : Future α} (hf : ch.future f = some future) :
    (ch.finish g f future).1.Historic (ch.finish g f future).2 := by
  have hfutures := h.borrowed_set future hf (o := none) nofun
  unfold Channel.finish
  split
  · exact h.keeps (World.Keeps.refl _) rfl hfutures
  · rename_i lease hlease
    exact h.keeps (World.Keeps.release (⟨g, ch.stream⟩ : World α) lease) rfl hfutures

/-- Getting a waiter changes nothing that a subscription could see. -/
theorem waiter (h : ch.Historic g) (node : NodeId) :
    (ch.waiter g node).2.1.Historic (ch.waiter g node).2.2 ∧
      (ch.waiter g node).2.1.futures = ch.futures := by
  have hk := World.Keeps.tryCharge (⟨g, ch.stream⟩ : World α) node
    { StreamLimits.zero with waiters := 1 }
  unfold Channel.waiter
  split
  · rename_i error world hcharge
    rw [hcharge] at hk
    exact ⟨h.keeps hk rfl h.borrowed, rfl⟩
  · rename_i lease world hcharge
    rw [hcharge] at hk
    split
    · exact ⟨h.keeps hk rfl h.borrowed, rfl⟩
    · exact ⟨h.keeps (hk.trans (World.Keeps.release world lease)) rfl h.borrowed, rfl⟩

theorem block (h : ch.Historic g) (node : NodeId) {f : Nat} {future : Future α} (mark : Nat)
    (hf : ch.future f = some future) :
    (ch.block g node f future mark).1.Historic (ch.block g node f future mark).2 := by
  unfold Channel.block
  split
  · refine h.keeps (World.Keeps.refl _) rfl (h.borrowed_set future hf ?_)
    rintro future' heq
    cases heq
    rfl
  · obtain ⟨hwaiter, hfutures⟩ := h.waiter node
    split
    · rename_i lease ch' g' hw
      rw [hw] at hwaiter hfutures
      refine hwaiter.keeps (World.Keeps.refl _) rfl (hwaiter.borrowed_set future ?_ ?_)
      · unfold Channel.future
        rw [hfutures]
        exact hf
      · rintro future' heq
        cases heq
        rfl
    · rename_i error ch' g' hw
      rw [hw] at hwaiter hfutures
      refine hwaiter.finish ?_
      unfold Channel.future
      rw [hfutures]
      exact hf

theorem pollSend (h : ch.Historic g) (hcap : 0 < ch.stream.config.capacity) {f : Nat}
    {future : Future α} (hf : ch.future f = some future) (node : NodeId) (value : α) :
    (ch.pollSend g f future node value).1.Historic (ch.pollSend g f future node value).2 := by
  obtain ⟨s, hs, hs'⟩ := h.step hcap (.sendNow node value) nofun
  cases hs
  have hgrants : ((ch.session g).sendNow node value).world.grants =
      ((⟨g, ch.stream⟩ : World α).sendNow node value).2.grants := by
    unfold Session.sendNow
    split <;> rename_i heq <;> exact congrArg (fun r => r.2.grants) heq.symm
  rw [hgrants] at hs'
  unfold Channel.pollSend
  dsimp only
  split
  · exact hs'.block node ch.stream.changed hf
  · exact hs'.finish hf

theorem pollRecv (h : ch.Historic g) (hcap : 0 < ch.stream.config.capacity) {f : Nat}
    {future : Future α} (hf : ch.future f = some future) {r : Nat} {sub : Subscription α}
    (hr : ch.subscriptions[r]? = some sub) (hd : sub.dropped = false) :
    ∃ result, ch.pollRecv g f future r sub = .ok result ∧ result.1.Historic result.2 := by
  obtain ⟨s, hs, hs'⟩ := h.step hcap (.recvNow r) nofun
  change (ch.session g).recvNow r = .ok s at hs
  unfold Session.recvNow at hs
  have hr' : (ch.session g).subscriptions[r]? = some sub := hr
  rw [hr'] at hs
  simp only [hd, Bool.false_eq_true, if_false] at hs
  obtain ⟨⟨item, world⟩, hrecv, hs⟩ := bind_eq_ok.mp hs
  cases hs
  have hgrants : ((ch.session g).told r sub (item, world)).world.grants = world.grants := by
    unfold Session.told
    split <;> rename_i heq <;> exact congrArg (fun r => r.2.grants) heq.symm
  rw [hgrants] at hs'
  have hrecv : (⟨g, ch.stream⟩ : World α).recvNow sub.node sub.key = .ok (item, world) := hrecv
  unfold Channel.pollRecv
  rw [hrecv]
  simp only [ok_bind, pure_eq]
  split
  · exact ⟨_, rfl, hs'.block sub.node ch.stream.changed hf⟩
  · exact ⟨_, rfl, hs'.finish hf⟩

theorem poll (h : ch.Historic g) (hcap : 0 < ch.stream.config.capacity) (f : Nat) :
    ∃ result, ch.poll g f = .ok result ∧ result.1.Historic result.2 := by
  unfold Channel.poll
  split
  · exact ⟨_, rfl, h⟩
  · rename_i future hf
    split
    · exact ⟨_, rfl, h⟩
    · split
      · exact ⟨_, rfl, h.pollSend hcap hf _ _⟩
      · rename_i r hwork
        obtain ⟨sub, hr, hd⟩ := h.borrowed f future r hf hwork
        rw [hr]
        exact h.pollRecv hcap hf hr hd

theorem cancel (h : ch.Historic g) (f : Nat) : (ch.cancel g f).1.Historic (ch.cancel g f).2 := by
  unfold Channel.cancel
  split
  · exact h
  · rename_i future hf
    exact h.finish hf

/-- A required cursor belongs to a receiver, whose lease lies at its node. -/
theorem lease_of_required (h : ch.Historic g) (hs : ch.Sound g) {i : Nat} {c : Cursor}
    (hc : Slots.entry ch.stream.state.subscribers i = some c) (hrole : c.role = .required) :
    ∃ l ∈ ch.leases, l.node = c.grant := by
  have hopen : ch.stream.state.closed = false := by
    cases hclosed : ch.stream.state.closed with
    | false => rfl
    | true =>
      rw [(h.retains.closed hclosed).2] at hc
      cases hc
  cases hd : ch.stream.delivery with
  | latest =>
    have howns := (h.latest hd).owns hopen
    obtain ⟨r, sub, hr, hlive, rfl, -⟩ := howns.owned i c hc
    obtain ⟨c', hc', -, hwatches⟩ := howns.live r sub hr hlive
    cases Option.some.inj (hc.symm.trans hc')
    cases hwatches.role.symm.trans hrole
  | ordered =>
    have howns := (h.ordered hd).owns hopen
    obtain ⟨r, sub, hr, hlive, rfl, -⟩ := howns.owned i c hc
    obtain ⟨c', hc', -, htold⟩ := howns.live r sub hr hlive
    cases Option.some.inj (hc.symm.trans hc')
    have hdropped : sub.dropped = false := by simpa [handles] using hlive
    have hr : ch.subscriptions[r]? = some sub := hr
    exact ⟨sub.lease, mem_leases_of_receiver hr hdropped,
      (hs.classified.receivers r sub hr hdropped).1.trans htold.grant.symm⟩

end Historic

end Channel

/-! ## The scope -/

namespace DynamicFabric

/-- What a fabric keeps to: its books, and the history of each of its streams. -/
structure Historic [Target] (s : DynamicFabric α) : Prop where
  inv : s.Inv
  idle : s.grants.Idle
  streams : ∀ (k : Nat) (ch : Channel α), s.channels[k]? = some ch → ch.Historic s.grants

namespace Historic

variable [Target] {s : DynamicFabric α}

theorem onChannel (h : s.Historic) (k : Nat) {f : Channel α → Grants → Exec (Channel α × Grants)}
    (hf : ∀ base ch, ch.Balanced base s.grants → ch.Historic s.grants →
      ∃ result, f ch s.grants = .ok result ∧ Channel.Goes base s.grants ch result.2 result.1 ∧
        result.1.Historic result.2) :
    ∃ s', s.onChannel k f = .ok s' ∧ s'.Historic := by
  unfold DynamicFabric.onChannel
  split
  · exact ⟨s, rfl, h⟩
  · rename_i ch hk
    obtain ⟨⟨ch', g⟩, he, hgoes, hch'⟩ := hf _ ch (h.inv.balanced hk) (h.streams k ch hk)
    have hauthority := hgoes.moves.authority
    refine ⟨_, by rw [he]; rfl, h.inv.set hk hgoes, ?_, ?_⟩
    · exact h.idle.of_authority fun i _ _ => hauthority i
    · intro k' other hother
      rcases Handles.getElem?_set_cases hother with ⟨-, rfl⟩ | ⟨-, hother⟩
      · exact hch'
      · exact (h.streams k' other hother).of_authority hauthority

theorem operate (h : s.Historic) (k : Nat) {op : Op α} (hop : ∀ node, op ≠ .revoke node) :
    ∃ s', (s.onChannel k fun ch grants => ch.operate grants op) = .ok s' ∧ s'.Historic := by
  refine h.onChannel k fun base ch hb hch => ?_
  obtain ⟨result, he, hresult⟩ := hch.operate hb.sound.capacity op
  exact ⟨result, he, hb.operate hop he, hresult⟩

theorem createStream (h : s.Historic) (event : EventId) (delivery : Delivery)
    (config : StreamConfig) : (s.createStream event delivery config).2.Historic := by
  have hinv := h.inv.createStream event delivery config
  unfold DynamicFabric.createStream at hinv ⊢
  split
  · exact h
  · rename_i stream hcreate
    rw [hcreate] at hinv
    dsimp only at hinv
    split
    · split <;> exact h
    · rename_i hfresh
      rw [hfresh] at hinv
      dsimp only at hinv
      split
      · rename_i error g hcharge
        rw [Grants.charge_error hcharge]
        exact h
      · rename_i allocation g hcharge
        rw [hcharge] at hinv
        have hsteady := Grants.Steady.charge s.grants Session.root none
          { Limits.zero with
            streams := 1
            retainedItems := config.capacity
            subscriptions := config.subscribers
            waiters := config.waiters }
        rw [show s.grants.charge Session.root none _ = _ from hcharge] at hsteady
        obtain ⟨-, hvalid, hone, rfl⟩ := Session.create_spec hcreate
        refine ⟨hinv, h.idle.of_authority fun i _ _ => hsteady.authority i, ?_⟩
        intro k ch hk
        rcases Handles.getElem?_snoc hk with ⟨hk, -⟩ | ⟨-, rfl⟩
        · exact (h.streams k ch hk).of_authority hsteady.authority
        · refine ⟨hvalid.trans isizeMax_lt_usizeMax.le, hone, ?_, ?_, ?_⟩
          · rintro rfl
            exact Session.inv_begin hcreate g
          · rintro rfl
            exact Session.Current.begin hcreate g
          · intro f future r hf
            cases hf

theorem delegate (h : s.Historic) (node : NodeId) (request : Request) :
    (s.delegate node request).2.Historic := by
  have hinv := h.inv.delegate node request
  unfold DynamicFabric.delegate at hinv ⊢
  split
  · exact h
  · rename_i hroot
    rw [if_neg hroot] at hinv
    obtain ⟨-, -, -, hgrows⟩ := Grants.restrict_grows (i := node) request.perm h.inv.bounded
      h.inv.founded h.inv.books fun l hl => by
        obtain ⟨n, hn⟩ := h.inv.live hl
        exact Slots.lt_of_entry hn
    have hidle := h.idle.restrict node request.permissions request.sorted request.limits
    refine ⟨hinv, hidle, ?_⟩
    intro k ch hk
    unfold DynamicFabric.notify at hk
    rw [List.getElem?_map] at hk
    obtain ⟨ch₀, hk₀, rfl⟩ := Option.map_eq_some_iff.mp hk
    refine ((h.streams k ch₀ hk₀).of_revoked fun i c hc hrole hr => ?_).notified _ ch₀.senders
    obtain ⟨l, hl, hnode⟩ :=
      (h.streams k ch₀ hk₀).lease_of_required (h.inv.sound k ch₀ hk₀) hc hrole
    obtain ⟨n, hn⟩ := (h.inv.sound k ch₀ hk₀).live h.inv.founded.root hl
    rw [hnode] at hn
    exact (hgrows.isRevoked h.inv.founded hn).symm.trans hr

theorem dropGrant (h : s.Historic) (node : NodeId) : (s.dropGrant node).Historic := by
  have hinv := h.inv.dropGrant node
  unfold DynamicFabric.dropGrant at hinv ⊢
  split
  · exact h
  · rename_i hfree
    rw [if_neg hfree] at hinv
    rw [not_or, Bool.not_eq_true, List.any_eq_false] at hfree
    refine ⟨hinv, h.idle.dropNode node, ?_⟩
    intro k ch hk
    unfold DynamicFabric.notify at hk
    rw [List.getElem?_map, List.getElem?_map, Option.map_map] at hk
    obtain ⟨ch₀, hk₀, rfl⟩ := Option.map_eq_some_iff.mp hk
    refine ((h.streams k ch₀ hk₀).of_revoked fun i c hc _ hr => ?_).notified _ _
    have hne : c.grant ≠ node := by
      rintro rfl
      refine hfree.2 ch₀ (List.mem_of_getElem? hk₀) ?_
      unfold Channel.refers
      rw [Bool.or_eq_true, Bool.or_eq_true]
      exact Or.inl (Or.inr (List.any_eq_true.mpr ⟨_,
        List.mem_of_getElem? (Slots.entry_eq_some.mp hc), decide_eq_true rfl⟩))
    exact (Grants.isRevoked_dropNode hne).symm.trans hr

theorem revoke (h : s.Historic) (node : NodeId) : (s.revoke node).Historic := by
  have hinv := h.inv.revoke node
  unfold DynamicFabric.revoke at hinv ⊢
  split
  · exact h
  · rename_i hfirst
    rw [if_neg hfirst] at hinv
    refine ⟨hinv, h.idle.revoke node, ?_⟩
    intro k ch hk
    unfold DynamicFabric.notify at hk
    rw [List.getElem?_map] at hk
    obtain ⟨ch₀, hk₀, rfl⟩ := Option.map_eq_some_iff.mp hk
    refine ((h.streams k ch₀ hk₀).of_revoked fun i c _ _ hr => ?_).notified _ ch₀.senders
    rw [← Bool.not_eq_true] at hr ⊢
    exact fun hrevoked => hr (Grants.isRevoked_revoke node hrevoked)

/-- Every operation returns, and keeps the histories. -/
theorem step (h : s.Historic) (op : FabricOp α) : ∃ s', s.step op = .ok s' ∧ s'.Historic := by
  cases op with
  | createStream event delivery config => exact ⟨_, rfl, h.createStream event delivery config⟩
  | delegate node request => exact ⟨_, rfl, h.delegate node request⟩
  | dropGrant node => exact ⟨_, rfl, h.dropGrant node⟩
  | revoke node => exact ⟨_, rfl, h.revoke node⟩
  | maintain order => exact steps_invariant (fun _ k hs => hs.operate k (by simp)) h order
  | stream k op =>
    cases op with
    | revoke node => exact ⟨_, rfl, h.revoke node⟩
    | _ => exact h.operate k (by simp)
  | send k node value =>
    exact h.onChannel k (f := fun ch grants => .ok (ch.send node value, grants))
      fun _ _ hb hch => ⟨_, rfl, hb.send node value, hch.send node value⟩
  | recv k r =>
    exact h.onChannel k (f := fun ch grants => .ok (ch.recv r, grants))
      fun _ _ hb hch => ⟨_, rfl, hb.recv r, hch.recv r⟩
  | poll k f =>
    refine h.onChannel k (f := fun ch grants => ch.poll grants f) fun base ch hb hch => ?_
    obtain ⟨result, he, hresult⟩ := hch.poll hb.sound.capacity f
    exact ⟨result, he, hb.poll he, hresult⟩
  | cancel k f =>
    exact h.onChannel k (f := fun ch grants => .ok (ch.cancel grants f))
      fun _ _ hb hch => ⟨_, rfl, hb.cancel f, hch.cancel f⟩

theorem start {limits : Limits} (h : withLimits limits = .ok s) : s.Historic := by
  refine ⟨Inv.start h, ?_, ?_⟩
  all_goals
    unfold withLimits at h
    obtain ⟨u, -, h⟩ := except_bind_eq_ok.mp h
    cases h
  · intro i n hn
    cases i with
    | zero =>
      cases hn
      exact Grants.activeCount_pos
    | succ i => simp [Grants.get, Slots.entry, Lineage.root] at hn
  · intro k ch hk
    cases hk

end Historic

end DynamicFabric

end Hiway.Fabric
