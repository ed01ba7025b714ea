import Hiway.Fabric.Refinement
import Hiway.Stream.Latest

/-!
# The newest snapshot of a dynamic stream

On a latest-state stream nothing but a publication touches the one entry: maintenance
retires nothing there and never makes room, and a publisher without allowance is refused.
`Current` says that the entry is the newest snapshot and that each live cursor stands where
its subscription has seen it.

* `maintain`, `reserve`: maintenance and reservations leave the snapshot alone.
* `publish`, `commit`: a publication replaces it, or changes nothing.
* `advance`: a live cursor moves on, and its subscription is told one item.
* `step`, `run`: every operation keeps the stream current, and so does every run.
-/

namespace Hiway.Fabric

open Exec Target

variable {α : Type}

namespace World

/-- A latest-state stream that nobody asked for room. -/
structure Settled (w : World α) : Prop where
  latest : w.stream.delivery = .latest
  room : w.stream.state.needsRoom = false

/-- Nothing that a subscription could see has changed. -/
structure Keeps (w w' : World α) : Prop extends SameStream w w' where
  entries : w'.stream.state.entries = w.stream.state.entries
  subscribers : w'.stream.state.subscribers = w.stream.state.subscribers
  tail : w'.stream.state.tail = w.stream.state.tail
  nextCursor : w'.stream.state.nextCursor = w.stream.state.nextCursor
  closed : w'.stream.state.closed = w.stream.state.closed
  room : w.stream.state.needsRoom = false → w'.stream.state.needsRoom = false

namespace Keeps

variable {w w' w'' : World α}

theorem of_state (h : SameStream w w') (hs : w'.stream.state = w.stream.state) : Keeps w w' :=
  { h with
    entries := by rw [hs]
    subscribers := by rw [hs]
    tail := by rw [hs]
    nextCursor := by rw [hs]
    closed := by rw [hs]
    room := by rw [hs]; exact id }

theorem refl (w : World α) : Keeps w w := of_state (SameStream.refl w) rfl

theorem trans (h : Keeps w w') (h' : Keeps w' w'') : Keeps w w'' where
  toSameStream := h.toSameStream.trans h'.toSameStream
  entries := h'.entries.trans h.entries
  subscribers := h'.subscribers.trans h.subscribers
  tail := h'.tail.trans h.tail
  nextCursor := h'.nextCursor.trans h.nextCursor
  closed := h'.closed.trans h.closed
  room := fun hr => h'.room (h.room hr)

theorem trims (h : Keeps w w') : Trims w w' :=
  { h.toSameStream with
    subscribers := h.subscribers
    tail := h.tail
    nextCursor := h.nextCursor
    closed := h.closed
    entries := ⟨0, by simp [h.entries]⟩ }

theorem settled (h : Keeps w w') (hw : w.Settled) : w'.Settled :=
  ⟨h.delivery.trans hw.latest, h.room hw.room⟩

theorem release (w : World α) (lease : Lease) : Keeps w (w.release lease) :=
  of_state (SameStream.release w lease) (release_state w lease)

theorem bindStream (w : World α) (node : NodeId) (rights : Rights) :
    Keeps w (w.bindStream node rights).2 :=
  of_state (SameStream.bindStream w node rights)
    (congrArg Stream.state (bindStream_stream w node rights))

theorem tryCharge [Target] (w : World α) (node : NodeId) (usage : StreamLimits) :
    Keeps w (w.tryCharge node usage).2 :=
  of_state (SameStream.tryCharge w node usage) rfl

theorem unlock (w : World α) (d n : Bool) : Keeps w (w.unlock w.stream.state d n) :=
  of_state (SameStream.unlock w _ d n) (unlock_state _ _ _ _)

theorem freeRetired (w : World α) : Keeps w w.freeRetired := by
  have hfree : ∀ d, Keeps w (w.unlock { w.stream.state with retired := none } d true) := by
    intro d
    exact
      { SameStream.unlock w _ d true with
        entries := by rw [unlock_state]
        subscribers := by rw [unlock_state]
        tail := by rw [unlock_state]
        nextCursor := by rw [unlock_state]
        closed := by rw [unlock_state]
        room := by rw [unlock_state]; exact id }
  unfold World.freeRetired
  split
  · dsimp only
    split
    · exact hfree _
    · exact (hfree _).trans (release _ _)
  · exact refl w

theorem retireConsumed (hw : w.Settled) : Keeps w w.retireConsumed := by
  unfold World.retireConsumed
  rw [if_pos hw.latest]
  exact refl w

/-- Without a request for room none is made. -/
theorem makeRoom (hw : w.Settled) : Keeps w w.makeRoom := by
  have hsame : { w.stream.state with needsRoom := false } = w.stream.state := by
    rw [← hw.room]
  unfold World.makeRoom
  dsimp only
  rw [hsame]
  split
  · rw [if_neg]
    · exact unlock w _ _
    · rw [hw.room]
      exact fun hn => nomatch hn.1
  · exact unlock w _ _

theorem maintain (hw : w.Settled) : Keeps w w.maintain := by
  have hfree := freeRetired w
  have hretire := retireConsumed (hfree.settled hw)
  have h := (hfree.trans hretire).trans
    (makeRoom (hretire.settled (hfree.settled hw)))
  unfold World.maintain
  dsimp only
  split
  · exact h.trans (of_state (SameStream.mk rfl rfl rfl (SameAuthority.refl _) fun _ h => h) rfl)
  · exact h

/-- A publisher without allowance is refused, whatever it has retained. -/
theorem reserveLoop [Target] (node : NodeId) (value : α) (fuel : Nat) (hw : w.Settled) :
    Keeps w (w.reserveLoop node value fuel).2 := by
  cases fuel with
  | zero => exact refl w
  | succ fuel =>
    have hsame := SameStream.reserveLoop node value (fuel + 1) w
    rcases w.reserveLoop_cases node value fuel with
      ⟨error, w', he, -, hstate, -⟩ | ⟨-, -, -, ⟨lease, w', hcharge, he⟩ |
        ⟨error, own, front, rest, hordered, -⟩⟩
    · rw [he] at hsame ⊢
      exact of_state hsame hstate
    · rw [he]
      have ht := (unlock w false true).trans (tryCharge _ node retainedItem)
      rw [hcharge] at ht
      exact ht
    · rw [hw.latest] at hordered
      cases hordered

theorem reserve [Target] (node : NodeId) (value : α) (hw : w.Settled) :
    Keeps w (w.reserve node value).2 := by
  unfold World.reserve
  split
  · exact refl w
  · exact refl w
  · exact refl w
  · have hm := maintain hw
    dsimp only
    rw [if_pos hw.latest]
    exact hm.trans (reserveLoop node value _ (hm.settled hw))

end Keeps

/-- A refused publication of a latest-state stream leaves no request behind. -/
theorem commit_latest_error [Target] {w : World α} (hw : w.Settled)
    {node : NodeId} {value : α} {lease : Lease} {deferred : Bool}
    {error : TrySendError (α × Lease)} {w' : World α}
    (h : w.commit node value lease deferred = (.error error, w')) : Keeps w w' := by
  unfold commit at h
  split at h
  · cases h
    exact Keeps.refl w
  · cases h
    exact Keeps.refl w
  · cases h
    exact Keeps.refl w
  · dsimp only at h
    rw [if_pos hw.latest] at h
    split at h
    · cases h
      exact Keeps.unlock w _ _
    · split at h
      · cases h
        exact Keeps.unlock w _ _
      · split at h
        · split at h
          · cases h
            exact Keeps.unlock w _ _
          · split at h
            · split at h
              · cases h
                exact Keeps.unlock w _ _
              · cases h
            · cases h
        · cases h

end World

namespace Session

/-- The cursor of a subscription, and the snapshots it has passed. Nothing is required of a
latest-state stream. -/
structure Watches (published : List α) (sub : Subscription α) (c : Cursor) : Prop where
  role : c.role = .observer
  seen : Seen published sub.items c.next

structure Current (config : StreamConfig) (s : Session α) : Prop where
  config : s.world.stream.config = config
  settled : s.world.Settled
  retains : s.world.Retains s.published
  newest : s.world.stream.state.closed = false → s.published ≠ [] →
    s.world.stream.state.entries ≠ []
  owns : s.world.stream.state.closed = false →
    (handles α).Owns s.world.stream.state.subscribers s.world.stream.state.nextCursor
      s.subscriptions (Watches s.published)
  shows : ∀ (r : Nat) (sub : Subscription α), s.subscriptions[r]? = some sub →
    Shows s.published sub.items

namespace Current

variable {config : StreamConfig} {s : Session α}

theorem keeps (h : s.Current config) {w : World α} (hk : s.world.Keeps w)
    (preparations : List (Option (Prepared α))) :
    Current config { s with world := w, preparations := preparations } where
  config := hk.config.trans h.config
  settled := hk.settled h.settled
  retains := h.retains.trims hk.trims
  newest := by
    dsimp only
    rw [hk.closed, hk.entries]
    exact h.newest
  owns := by
    dsimp only
    rw [hk.closed, hk.subscribers, hk.nextCursor]
    exact h.owns
  shows := h.shows

/-- The one entry of an open stream. -/
theorem entry (h : s.Current config) (hone : config.capacity = 1)
    (hopen : s.world.stream.state.closed = false) {a : α} (ha : s.published.getLast? = some a) :
    ∃ lease, s.world.stream.state.entries = [⟨s.published.length - 1, a, lease⟩] := by
  have hne : s.published ≠ [] := by
    intro hnil
    rw [hnil] at ha
    cases ha
  have hcap := h.retains.capacity
  rw [h.config, hone] at hcap
  cases he : s.world.stream.state.entries with
  | nil => exact absurd he (h.newest hopen hne)
  | cons front rest =>
    rw [he, List.length_cons] at hcap
    have hrest : rest = [] := List.eq_nil_of_length_eq_zero (by omega)
    subst hrest
    obtain ⟨hseq, hvalue⟩ := h.retains.entry 0 front (by rw [he]; rfl)
    rw [he, List.length_singleton] at hseq
    have hsequence : front.sequence = s.published.length - 1 := by omega
    rw [hsequence, ← List.getLast?_eq_getElem?, ha] at hvalue
    cases hvalue
    exact ⟨front.lease, by rw [← hsequence]⟩

/-! ## Publication -/

theorem publish (h : s.Current config) {w : World α} {value : α}
    (hsame : s.world.SameStream w) (hroom : w.stream.state.needsRoom = false)
    (hretains : w.Retains (s.published ++ [value])) (hentries : w.stream.state.entries ≠ [])
    (hsubscribers : w.stream.state.subscribers = s.world.stream.state.subscribers)
    (hnext : w.stream.state.nextCursor = s.world.stream.state.nextCursor)
    (hopen : s.world.stream.state.closed = false) (preparations : List (Option (Prepared α))) :
    Current config { s with
      world := w
      preparations := preparations
      published := s.published ++ [value] } where
  config := hsame.config.trans h.config
  settled := ⟨hsame.delivery.trans h.settled.latest, hroom⟩
  retains := hretains
  newest := fun _ _ => hentries
  owns := by
    intro _
    dsimp only
    rw [hsubscribers, hnext]
    exact (h.owns hopen).mono fun r sub c _ _ hw => ⟨hw.role, hw.seen.append value⟩
  shows := fun r sub hr => (h.shows r sub hr).append value

/-- What a publication does to the stream, accepted or not. -/
theorem commit [Target] (h : s.Current config) (hcap : 0 < config.capacity) (node : NodeId)
    (value : α) (lease : Lease) (deferred : Bool) :
    (∃ error w, s.world.commit node value lease deferred = (.error error, w) ∧
      s.world.Keeps w) ∨
    ∃ w, s.world.commit node value lease deferred = (.ok (), w) ∧
      ∀ preparations, Current config { s with
        world := w
        preparations := preparations
        published := s.published ++ [value] } := by
  rcases World.commit_cases (h.config ▸ hcap) node value lease deferred with
    ⟨error, w, he, -⟩ | ⟨-, hopen, hmax, hcommit⟩
  · exact Or.inl ⟨error, w, he, World.commit_latest_error h.settled he⟩
  · refine Or.inr ?_
    have hmax : s.published.length + 1 ≤ u64Max := by
      rw [← h.retains.tail]
      exact hmax
    have hroom := h.settled.room
    rcases hcommit with ⟨hlen, he⟩ | ⟨front, rest, hfront, -, hneed, ⟨rfl, he⟩ | ⟨rfl, -, -, he⟩⟩
    · refine ⟨_, he, h.publish (World.SameStream.unlock _ _ _ _) ?_
        (h.retains.append hmax (Nat.lt_of_le_of_ne h.retains.capacity hlen) hopen value lease _ _)
        ?_ ?_ ?_ hopen⟩
      · simpa [World.append] using hroom
      · simp [World.append]
      · simp [World.append]
      · simp [World.append]
    · refine ⟨_, he, h.publish ((World.SameStream.unlock _ _ _ _).trans
        (World.SameStream.release _ _)) ?_
        ((h.retains.replace hmax hopen hfront hneed s.world.stream.state.retired value lease
          true true).trims (World.Trims.release _ _)) ?_ ?_ ?_ hopen⟩
      · simpa [World.append] using hroom
      · simp [World.append]
      · simp [World.append]
      · simp [World.append]
    · -- the replaced snapshot is kept aside until maintenance
      refine ⟨_, he, h.publish (World.SameStream.unlock _ _ _ _) ?_
        (h.retains.replace hmax hopen hfront hneed (some front) value lease true false)
        ?_ ?_ ?_ hopen⟩
      · simpa [World.append] using hroom
      · simp [World.append]
      · simp [World.append]
      · simp [World.append]

theorem sendNow [Target] (h : s.Current config) (hcap : 0 < config.capacity) (node : NodeId)
    (value : α) : (s.sendNow node value).Current config := by
  have hk := World.Keeps.reserve node value h.settled
  unfold Session.sendNow
  rcases s.world.sendNow_cases node value with
    ⟨error, w, he, hreserve | ⟨lease, w₁, error₁, w₂, hreserve, hcommit, rfl⟩⟩ |
      ⟨lease, w₁, w, hreserve, hcommit, he⟩
  · rw [hreserve] at hk
    rw [he]
    exact h.keeps hk s.preparations
  · rw [hreserve] at hk
    rw [he]
    have h₁ := h.keeps hk s.preparations
    have hk₂ := World.commit_latest_error h₁.settled hcommit
    exact h₁.keeps (hk₂.trans (World.Keeps.release _ _)) s.preparations
  · rw [hreserve] at hk
    rw [he]
    have h₁ := h.keeps hk s.preparations
    rcases h₁.commit hcap node value lease false with ⟨error₃, w₃, hc, -⟩ | ⟨w₃, hc, hpublish⟩
    · rw [hcommit] at hc
      cases hc
    · rw [hcommit] at hc
      cases hc
      exact hpublish s.preparations

theorem prepare [Target] (h : s.Current config) (node : NodeId) (value : α) :
    (s.prepare node value).Current config := by
  have hk := World.Keeps.reserve node value h.settled
  unfold Session.prepare
  split
  · rename_i error w heq
    rw [heq] at hk
    exact h.keeps hk s.preparations
  · rename_i v lease w heq
    rw [heq] at hk
    exact h.keeps hk _

theorem trySend [Target] (h : s.Current config) (hcap : 0 < config.capacity) (p : Nat) :
    (s.trySend p).Current config := by
  unfold Session.trySend
  split
  · exact h
  · rename_i prepared _
    rcases h.commit hcap prepared.node prepared.value prepared.lease true with
      ⟨error, w, he, hk⟩ | ⟨w, he, hpublish⟩
    · rw [he]
      exact h.keeps hk s.preparations
    · rw [he]
      exact hpublish _

theorem cancel (h : s.Current config) (p : Nat) : (s.cancel p).Current config := by
  unfold Session.cancel
  split
  · exact h
  · exact h.keeps (World.Keeps.release _ _) _

/-! ## Subscriptions -/

/-- Cursors are added, moved and removed. -/
theorem table (h : s.Current config) {w : World α} {subscriptions : List (Subscription α)}
    (hsame : s.world.SameStream w)
    (hentries : w.stream.state.entries = s.world.stream.state.entries)
    (htail : w.stream.state.tail = s.world.stream.state.tail)
    (hroom : w.stream.state.needsRoom = s.world.stream.state.needsRoom)
    (hopen : s.world.stream.state.closed = false) (hopen' : w.stream.state.closed = false)
    (howns : (handles α).Owns w.stream.state.subscribers w.stream.state.nextCursor
      subscriptions (Watches s.published))
    (hshows : ∀ (r : Nat) (sub : Subscription α), subscriptions[r]? = some sub →
      Shows s.published sub.items) :
    Current config { s with world := w, subscriptions := subscriptions } where
  config := hsame.config.trans h.config
  settled := ⟨hsame.delivery.trans h.settled.latest, hroom.trans h.settled.room⟩
  retains :=
    { tail := htail.trans h.retains.tail
      bounded := h.retains.bounded
      capacity := by
        dsimp only
        rw [hentries, hsame.config]
        exact h.retains.capacity
      length := by
        dsimp only
        rw [hentries]
        exact h.retains.length
      entry := by
        dsimp only
        rw [hentries]
        exact h.retains.entry
      next := by
        intro i c hc
        obtain ⟨r, sub, -, -, -, hwatches⟩ := howns.owner hc
        exact hwatches.seen.le
      kept := by
        intro i c hc hrole
        obtain ⟨r, sub, -, -, -, hwatches⟩ := howns.owner hc
        rw [hwatches.role] at hrole
        cases hrole
      closed := by
        dsimp only
        rw [hopen']
        exact fun hn => nomatch hn }
  newest := by
    dsimp only
    rw [hentries]
    exact fun _ => h.newest hopen
  owns := fun _ => howns
  shows := hshows

theorem subscribe [Target] (h : s.Current config) (node : NodeId) (role : SubscriptionRole) :
    (s.subscribe node role).Current config := by
  have hbind := World.Keeps.bindStream s.world node (World.roleRights role)
  have hk := hbind.trans (World.Keeps.tryCharge _ node
    { StreamLimits.zero with subscriptions := 1 })
  unfold Session.subscribe
  rcases s.world.subscribe_cases node role with
    ⟨error, w, he, hw⟩ | ⟨w₁, lease, index, hrole, hcharge, -, hopen, hfree, hmax, he⟩
  · rw [he]
    rcases hw with rfl | rfl | ⟨lease, w₁, hcharge, rfl | rfl⟩
    · exact h
    · exact h.keeps hbind s.preparations
    · rw [hcharge] at hk
      exact h.keeps (hk.trans (World.Keeps.release _ _)) s.preparations
    · rw [hcharge] at hk
      exact h.keeps ((hk.trans (World.Keeps.unlock _ _ _)).trans (World.Keeps.release _ _))
        s.preparations
  · rw [hcharge] at hk
    rw [he]
    have h₁ := h.keeps hk s.preparations
    obtain ⟨hi, hempty⟩ := Slots.free_eq_some hfree
    have hobserver : role = .observer := by
      cases role with
      | observer => rfl
      | required => exact absurd ⟨h.settled.latest, rfl⟩ hrole
    have hstart : w₁.startPosition = s.published.length - 1 := by
      unfold World.startPosition
      rw [if_pos h₁.settled.latest, h₁.retains.tail]
    refine h₁.table (World.SameStream.unlock _ _ _ _) ?_ ?_ ?_ hopen ?_ ?_ ?_
    · simp [World.claimed]
    · simp [World.claimed]
    · simp [World.claimed]
    · simpa [World.claimed] using hopen
    · simp only [World.claimed, World.unlock_state]
      refine (h₁.owns hopen).insert
        (x := ⟨node, ⟨index, w₁.stream.state.nextCursor⟩, lease, role,
          s.world.stream.state.tail, [], false⟩) hi hempty rfl rfl rfl ⟨hobserver, ?_⟩
      rw [hstart]
      exact Seen.start s.published
    · intro r sub hr
      rcases Handles.getElem?_snoc hr with ⟨hr, -⟩ | ⟨-, rfl⟩
      · exact h.shows r sub hr
      · exact Shows.nil s.published

/-- A live cursor moves on, and its subscription is told one item. -/
theorem advance (h : s.Current config) {r : Nat} {sub : Subscription α} {c : Cursor}
    (hr : s.subscriptions[r]? = some sub) (hd : sub.dropped = false)
    (hopen : s.world.stream.state.closed = false)
    (hc : Slots.entry s.world.stream.state.subscribers sub.key.index = some c)
    {next : Nat} {item : StreamItem α}
    (hseen : Seen s.published (sub.items ++ [item]) next) :
    Current config (s.told r sub (.ok (some item), s.world.moved sub.key c next)) := by
  have hlive : (handles α).live sub = true := by simp [handles, hd]
  obtain ⟨-, hwatches⟩ := (h.owns hopen).of_entry hr hlive hc
  refine h.table (World.SameStream.unlock _ _ _ _) ?_ ?_ ?_ hopen ?_ ?_ ?_
  · simp [World.moved]
  · simp [World.moved]
  · simp [World.moved]
  · simpa [World.moved] using hopen
  · simp only [World.moved, World.unlock_state]
    exact (h.owns hopen).update (b := { c with next := next })
      (y := { sub with items := sub.items ++ [item] }) hr hlive hc rfl rfl hlive rfl
      ⟨hwatches.role, hseen⟩
  · intro r' sub' hr'
    rcases Handles.getElem?_set_cases hr' with ⟨rfl, rfl⟩ | ⟨-, hr'⟩
    · exact hseen.toShows
    · exact h.shows r' sub' hr'

/-- A reception never panics. If its node may observe an open stream, it answers what is
unread, and otherwise it is refused. -/
theorem receive [Target] (h : s.Current config) (hone : config.capacity = 1) {r : Nat}
    {sub : Subscription α} (hr : s.subscriptions[r]? = some sub) (hd : sub.dropped = false) :
    ∃ result w, s.world.tryRecv sub.node sub.key = .ok (result, w) ∧
      Current config (s.told r sub (result, w)) ∧
      ((∃ error, result = .error error) ∨ result = .ok (unread s.published sub.items)) ∧
      (s.world.grants.enter sub.node s.world.stream.event .observe = .ok () →
        s.world.stream.state.closed = false → result = .ok (unread s.published sub.items)) := by
  have hlive : (handles α).live sub = true := by simp [handles, hd]
  have hkey : s.world.stream.state.closed = false →
      sub.key.index < s.world.stream.state.subscribers.length := by
    intro hopen
    obtain ⟨c, hc, -⟩ := (h.owns hopen).live r sub hr hlive
    exact Slots.lt_of_entry hc
  by_cases hready : s.world.grants.enter sub.node s.world.stream.event .observe = .ok () ∧
      s.world.stream.state.closed = false
  · obtain ⟨henter, hopen⟩ := hready
    obtain ⟨c, hc, hid, hwatches⟩ := (h.owns hopen).live r sub hr hlive
    have htail := h.retains.tail
    have hbounded := h.retains.bounded
    have hseen := hwatches.seen
    have hpos : s.world.position c = max c.next (s.published.length - 1) := by
      unfold World.position
      rw [if_pos h.settled.latest, htail]
    by_cases hbehind : c.next < s.published.length
    · -- the newest snapshot is the one entry, and the cursor has not passed it
      obtain ⟨a, ha⟩ : ∃ a, s.published.getLast? = some a :=
        ⟨_, List.getLast?_eq_getElem?.trans (List.getElem?_eq_getElem (by omega))⟩
      obtain ⟨lease, he⟩ := h.entry hone hopen ha
      have hat : s.world.position c = s.published.length - 1 := by omega
      have hunread : unread s.published sub.items =
          some (.data (s.published.length - 1) a) := by
        rw [hseen.unread_of_lt hbehind]
        exact newest_eq_some.mpr ⟨a, ha, rfl⟩
      have hhead : s.published.length - 1 =
          (s.world.stream.state.entries.head?.map (·.sequence)).getD
            s.world.stream.state.tail := by
        rw [he]
        rfl
      have hnext : s.published.length - 1 + 1 = s.published.length := by omega
      have hadvance := h.advance hr hd hopen hc (hseen.tell hbehind ha)
      rcases World.tryRecv_open henter hopen hc hid hhead with
        ⟨hlt, -⟩ | ⟨-, -, hdata⟩ | ⟨-, hge, -⟩
      · omega
      · have hitem := hdata ⟨s.published.length - 1, a, lease⟩ (by rw [hat, he]; simp)
          (by omega) (by omega)
        rw [hat, hnext] at hitem
        exact ⟨_, _, hitem, hadvance, Or.inr (by rw [hunread]), fun _ _ => by rw [hunread]⟩
      · omega
    · have hend : c.next = s.published.length := by
        have := hseen.le
        omega
      have hunread := hseen.unread_of_eq hend
      have hkeep := h.keeps (World.Keeps.unlock s.world false false) s.preparations
      have hhead : ∀ n, n = (s.world.stream.state.entries.head?.map (·.sequence)).getD
          s.world.stream.state.tail → n ≤ s.published.length := by
        rintro n rfl
        cases he : s.world.stream.state.entries with
        | nil => exact htail.le
        | cons front rest =>
          have := h.retains.head_sequence he
          simp only [List.head?_cons, Option.map_some, Option.getD_some]
          omega
      rcases World.tryRecv_open henter hopen hc hid rfl with
        ⟨hlt, -⟩ | ⟨-, hlt, -⟩ | ⟨-, -, he⟩
      · have := hhead _ rfl
        omega
      · omega
      · exact ⟨_, _, he, hkeep, Or.inr (by rw [hunread]), fun _ _ => by rw [hunread]⟩
  · have hrefused : ∀ error w, s.world.Keeps w →
        Current config (s.told r sub (.error error, w)) := fun _ _ hk => h.keeps hk s.preparations
    rcases s.world.tryRecv_cases sub.node hkey with
      ⟨error, w, he, rfl | rfl⟩ | ⟨c, head, henter, hopen, -⟩
    · exact ⟨_, _, he, hrefused _ _ (World.Keeps.refl _), Or.inl ⟨error, rfl⟩,
        fun henter hopen => absurd ⟨henter, hopen⟩ hready⟩
    · exact ⟨_, _, he, hrefused _ _ (World.Keeps.unlock _ _ _), Or.inl ⟨error, rfl⟩,
        fun henter hopen => absurd ⟨henter, hopen⟩ hready⟩
    · exact absurd ⟨henter, hopen⟩ hready

theorem tryRecv [Target] (h : s.Current config) (hone : config.capacity = 1) (r : Nat) :
    ∃ s', s.tryRecv r = .ok s' ∧ s'.Current config := by
  unfold Session.tryRecv
  cases hr : s.subscriptions[r]? with
  | none => exact ⟨s, rfl, h⟩
  | some sub =>
    dsimp only
    cases hd : sub.dropped with
    | true => exact ⟨s, rfl, h⟩
    | false =>
      obtain ⟨result, w, he, hcurrent, -⟩ := h.receive hone hr hd
      refine ⟨_, ?_, hcurrent⟩
      rw [if_neg (by decide), he, ok_bind, pure_eq]

theorem recvNow [Target] (h : s.Current config) (hone : config.capacity = 1) (r : Nat) :
    ∃ s', s.recvNow r = .ok s' ∧ s'.Current config := by
  unfold Session.recvNow
  cases hr : s.subscriptions[r]? with
  | none => exact ⟨s, rfl, h⟩
  | some sub =>
    dsimp only
    cases hd : sub.dropped with
    | true => exact ⟨s, rfl, h⟩
    | false =>
      obtain ⟨result, w, he, hcurrent, -⟩ := h.receive hone hr hd
      refine ⟨s.told r sub (result, w.maintain), ?_, ?_⟩
      · rw [if_neg (by decide), World.recvNow, he]
        rfl
      · cases result with
        | error e => exact hcurrent.keeps (World.Keeps.maintain hcurrent.settled) s.preparations
        | ok o =>
          cases o with
          | none => exact hcurrent.keeps (World.Keeps.maintain hcurrent.settled) s.preparations
          | some item => exact hcurrent.keeps (World.Keeps.maintain hcurrent.settled) s.preparations

/-- A receiver that is dropped leaves the snapshot to the others. -/
theorem drop (h : s.Current config) (r : Nat) : (s.drop r).Current config := by
  unfold Session.drop
  cases hr : s.subscriptions[r]? with
  | none => exact h
  | some sub =>
    dsimp only
    cases hd : sub.dropped with
    | true => exact h
    | false =>
      rw [if_neg (by decide)]
      have hlive : (handles α).live sub = true := by simp [handles, hd]
      have hshows : ∀ (r' : Nat) (sub' : Subscription α),
          (s.subscriptions.set r { sub with dropped := true })[r']? = some sub' →
            Shows s.published sub'.items := by
        intro r' sub' hr'
        rcases Handles.getElem?_set_cases hr' with ⟨rfl, rfl⟩ | ⟨-, hr'⟩
        · exact h.shows r' sub hr
        · exact h.shows r' sub' hr'
      have hgone : Current config { s with
          world := s.world.unlock { s.world.stream.state with
            subscribers := s.world.stream.state.subscribers.set sub.key.index none } true true
          subscriptions := s.subscriptions.set r { sub with dropped := true } } := by
        cases hclosed : s.world.stream.state.closed with
        | true =>
          -- a closed stream has no cursors any more
          obtain ⟨-, hnil⟩ := h.retains.closed hclosed
          have hk : s.world.Keeps (s.world.unlock { s.world.stream.state with
              subscribers := s.world.stream.state.subscribers.set sub.key.index none }
              true true) :=
            { World.SameStream.unlock _ _ _ _ with
              entries := by simp
              subscribers := by simp [hnil]
              tail := by simp
              nextCursor := by simp
              closed := by simp
              room := by simp }
          have hkept := h.keeps hk s.preparations
          refine { hkept with
            owns := ?_
            shows := hshows }
          intro hopen
          dsimp only at hopen
          rw [World.unlock_state] at hopen
          dsimp only at hopen
          rw [hclosed] at hopen
          cases hopen
        | false =>
          refine h.table (World.SameStream.unlock _ _ _ _) ?_ ?_ ?_ hclosed ?_ ?_ hshows
          · simp
          · simp
          · simp
          · simpa using hclosed
          · rw [World.unlock_state]
            exact (h.owns hclosed).remove hr hlive rfl (by simp [handles])
      exact hgone.keeps ((World.Keeps.retireConsumed hgone.settled).trans
        (World.Keeps.release _ _)) s.preparations

/-! ## Administration -/

theorem revoke (h : s.Current config) (node : NodeId) :
    Current config { s with world := s.world.revoke node } where
  config := h.config
  settled := ⟨h.settled.latest, h.settled.room⟩
  retains := h.retains.revoke node
  newest := h.newest
  owns := h.owns
  shows := h.shows

theorem sender (h : s.Current config) (node : NodeId) :
    Current config { s with world := (s.world.sender node).2 } := by
  have hk := World.Keeps.bindStream s.world node .publish
  unfold World.sender
  split
  · rename_i heq
    rw [heq] at hk
    exact h.keeps hk s.preparations
  · rename_i heq
    rw [heq] at hk
    dsimp only
    split
    · exact h.keeps hk s.preparations
    · exact h.keeps hk s.preparations

theorem releaseAll (entries : List (Entry α)) {w : World α}
    (h : Current config { s with world := w }) :
    Current config { s with world := w.releaseAll entries } := by
  induction entries generalizing w with
  | nil => exact h
  | cons e rest ih => exact ih (h.keeps (World.Keeps.release w e.lease) s.preparations)

theorem closeStream (h : s.Current config) (node : NodeId) :
    Current config { s with world := (s.world.closeStream node).2 } := by
  have hk := World.Keeps.bindStream s.world node .publish
  unfold World.closeStream
  split
  · rename_i heq
    rw [heq] at hk
    exact h.keeps hk s.preparations
  · rename_i w heq
    rw [heq] at hk
    have h₁ := h.keeps hk s.preparations
    dsimp only
    refine releaseAll _
      { config := ?_
        settled := ⟨?_, ?_⟩
        retains := h₁.retains.close true true
        newest := ?_
        owns := ?_
        shows := h.shows }
    · simpa using h₁.config
    · simpa using h₁.settled.latest
    · simpa using h₁.settled.room
    · intro hc
      simp at hc
    · intro hc
      simp at hc

/-! ## Whole sessions -/

theorem step [Target] (h : s.Current config) (hone : config.capacity = 1) (op : Op α) :
    ∃ s', s.step op = .ok s' ∧ s'.Current config := by
  have hcap : 0 < config.capacity := by omega
  cases op with
  | sender node => exact ⟨_, rfl, h.sender node⟩
  | sendNow node value => exact ⟨_, rfl, h.sendNow hcap node value⟩
  | prepare node value => exact ⟨_, rfl, h.prepare node value⟩
  | trySend p => exact ⟨_, rfl, h.trySend hcap p⟩
  | cancel p => exact ⟨_, rfl, h.cancel p⟩
  | subscribe node role => exact ⟨_, rfl, h.subscribe node role⟩
  | tryRecv r => exact h.tryRecv hone r
  | recvNow r => exact h.recvNow hone r
  | drop r => exact ⟨_, rfl, h.drop r⟩
  | maintain => exact ⟨_, rfl, h.keeps (World.Keeps.maintain h.settled) s.preparations⟩
  | revoke node => exact ⟨_, rfl, h.revoke node⟩
  | closeStream => exact ⟨_, rfl, h.closeStream root⟩

theorem begin [Target] {event : EventId} {stream : Stream α}
    (hcreate : Stream.create event .latest config = .ok stream) (grants : Grants) :
    Current config (Session.begin ⟨grants, stream⟩) := by
  obtain ⟨-, -, -, rfl⟩ := create_spec hcreate
  exact
    { config := rfl
      settled := ⟨rfl, rfl⟩
      retains := World.Retains.empty grants event .latest config
      newest := fun _ hne => absurd rfl hne
      owns := fun _ => Handles.Owns.nil
      shows := by simp [Session.begin] }

theorem run [Target] {event : EventId} {stream : Stream α}
    (hcreate : Stream.create event .latest config = .ok stream) (grants : Grants)
    (ops : List (Op α)) : ∃ s, Session.run ⟨grants, stream⟩ ops = .ok s ∧ s.Current config := by
  obtain ⟨-, -, hone, -⟩ := create_spec hcreate
  exact steps_invariant (fun _ op h => step h (hone rfl) op) (begin hcreate grants) ops

end Current

/-- What a session on a latest-state stream shows. -/
structure Latest [Target] (s : Session α) : Prop where
  /-- An open stream retains the newest snapshot, and nothing before the first. -/
  retained : s.world.stream.state.closed = false →
    s.world.stream.state.tail = s.published.length ∧
      (s.published = [] → s.world.stream.state.entries = []) ∧
      ∀ a, s.published.getLast? = some a → ∃ lease,
        s.world.stream.state.entries = [⟨s.world.stream.state.tail - 1, a, lease⟩]
  /-- A reception that is not refused answers what is unread. -/
  answers : s.world.stream.state.closed = false → ∀ (r : Nat) (sub : Subscription α),
    s.subscriptions[r]? = some sub → sub.dropped = false →
      s.world.grants.enter sub.node s.world.stream.event .observe = .ok () →
        (∃ w, s.world.tryRecv sub.node sub.key = .ok (.ok (unread s.published sub.items), w)) ∧
        ∃ w, s.world.recvNow sub.node sub.key = .ok (.ok (unread s.published sub.items), w)
  /-- What any subscription ever returned are snapshots, each newer than the one before. -/
  shows : ∀ (r : Nat) (sub : Subscription α), s.subscriptions[r]? = some sub →
    Shows s.published sub.items

theorem Current.shown [Target] {config : StreamConfig} {s : Session α} (h : s.Current config)
    (hone : config.capacity = 1) : s.Latest where
  retained := by
    intro hopen
    refine ⟨h.retains.tail, ?_, ?_⟩
    · intro hnil
      have hlen := h.retains.length
      rw [hnil] at hlen
      exact List.eq_nil_of_length_eq_zero (Nat.le_zero.mp hlen)
    · intro a ha
      rw [h.retains.tail]
      exact h.entry hone hopen ha
  answers := by
    intro hopen r sub hr hd henter
    obtain ⟨result, w, he, -, -, hready⟩ := h.receive hone hr hd
    rw [hready henter hopen] at he
    exact ⟨⟨w, he⟩, w.maintain, World.recvNow_ok he⟩
  shows := h.shows

end Session

end Hiway.Fabric
