import Hiway.Fabric.Twins

/-!
# Strict publication

A strict publication may drop nothing, so it leaves the making of room to maintenance and
is tried once more after it. What comes of the two attempts is what an ordinary
publication does at once, as far as a subscription can tell.

* `commit_refused`: a publication that is not accepted is refused for the same reason,
  strict or not.
* `maintain_room`: maintenance makes the room that a strict publication asked for.
* `strictSend_accepted`: what an ordinary publication does at once, a strict one does with
  the maintenance that it asks for.
* `run`: whatever the receivers of both do without maintenance, they see the same.
* `Even.run`: with maintenance they do when both or neither were asked for room.
-/

namespace Hiway.Fabric

open Exec Target

variable {α : Type}

namespace World

/-- `PreparedPublication::try_send`, the stream's `maintain` when it is asked for, and
`try_send` again. -/
def strictSend [Target] (w : World α) (node : NodeId) (value : α) (lease : Lease) :
    Except (TrySendError (α × Lease)) Unit × World α :=
  match w.commit node value lease true with
  | (.error (.maintenanceRequired (value, lease)), w) => w.maintain.commit node value lease true
  | answer => answer

/-! ## When a publication is accepted -/

section

variable [Target] {w : World α} {node : NodeId}

/-- What an ordinary publication depends on. -/
structure Accepts (w : World α) (node : NodeId) : Prop where
  entered : w.grants.enter node w.stream.event .publish = .ok ()
  opened : w.stream.state.closed = false
  room : w.stream.state.tail + 1 ≤ u64Max
  free : ¬ w.Blocked

/-- A publication that is not accepted is refused for the same reason, strict or not. -/
theorem commit_refused (h : ¬ w.Accepts node) (value : α) (lease : Lease) :
    ∃ error, (∀ x, error ≠ .maintenanceRequired x) ∧ error.intoInner = (value, lease) ∧
      ∀ deferred, ∃ n, w.commit node value lease deferred = (.error error, w) ∨
        w.commit node value lease deferred = (.error error, w.unlock w.stream.state false n) := by
  unfold commit
  cases henter : w.grants.enter node w.stream.event .publish with
  | error error =>
    cases error with
    | contended => exact ⟨.contended (value, lease), nofun, rfl, fun _ => ⟨true, Or.inl rfl⟩⟩
    | capacity => exact ⟨.contended (value, lease), nofun, rfl, fun _ => ⟨true, Or.inl rfl⟩⟩
    | _ => exact ⟨.revoked (value, lease), nofun, rfl, fun _ => ⟨true, Or.inl rfl⟩⟩
  | ok u =>
    dsimp only
    by_cases hclosed : w.stream.state.closed = true
    · exact ⟨.closed (value, lease), nofun, rfl, fun deferred =>
        ⟨!deferred, Or.inr (if_pos hclosed)⟩⟩
    · by_cases hmax : w.stream.state.tail + 1 > u64Max
      · exact ⟨.sequenceExhausted (value, lease), nofun, rfl, fun deferred =>
          ⟨!deferred, Or.inr ((if_neg hclosed).trans (if_pos hmax))⟩⟩
      · by_cases hblocked : w.Blocked
        · exact ⟨.full (value, lease), nofun, rfl, fun deferred => ⟨!deferred,
            Or.inr ((if_neg hclosed).trans ((if_neg hmax).trans ((if_pos hblocked.1).trans
              (if_pos hblocked.2))))⟩⟩
        · exact absurd ⟨henter, by simpa using hclosed, by omega, hblocked⟩ h

/-- A strict publication in the place of a front needs maintenance first, unless it can
keep the front aside. -/
theorem commit_strict (h : w.Accepts node) (value : α) (lease : Lease) {front : Entry α}
    {rest : List (Entry α)} (hfront : w.stream.state.entries = front :: rest)
    (hfull : w.stream.state.entries.length = w.stream.config.capacity) :
    w.commit node value lease true =
      if w.stream.delivery = .latest then
        if w.stream.state.retired.isSome then
          (.error (.maintenanceRequired (value, lease)), w.unlock w.stream.state false false)
        else (.ok (), w.unlock
          (append { w.stream.state with retired := some front, entries := rest } value lease)
            true false)
      else (.error (.maintenanceRequired (value, lease)),
        w.unlock { w.stream.state with needsRoom := true } false false) := by
  have hneed : ¬ (w.stream.state.entries.head?.any
      fun entry => w.stream.state.requiredNeeds w.grants entry.sequence) = true :=
    fun hn => h.free ⟨hfull, hn⟩
  unfold commit
  rw [h.entered]
  refine (if_neg (by simp [h.opened])).trans ((if_neg (by have := h.room; omega)).trans
    ((if_pos hfull).trans ((if_neg hneed).trans ((if_pos rfl).trans ?_))))
  simp only [hfront, List.head?_cons, List.tail_cons]

/-! ## Maintenance makes the room -/

end

section

variable {w : World α}

/-- Maintenance makes the room that a strict publication asked for. -/
theorem maintain_room (hordered : w.stream.delivery = .ordered)
    (hroom : w.stream.state.needsRoom = true) {front : Entry α} {rest : List (Entry α)}
    (hfront : w.stream.state.entries = front :: rest)
    (hfull : w.stream.state.entries.length = w.stream.config.capacity)
    (hneed : w.stream.state.requiredNeeds w.grants front.sequence = false) :
    ∃ gone kept, rest = gone ++ kept ∧
      (∀ e ∈ gone, w.stream.state.consumed w.grants e.sequence = true) ∧
      w.maintain.stream.state = { w.stream.state with needsRoom := false, entries := kept } := by
  have hfree : w.freeRetired = w := by
    unfold World.freeRetired
    rw [hordered, if_neg (by decide)]
  rw [maintain_stages, hfree]
  have hsame := (Trims.retireConsumed w).toSameStream
  obtain ⟨n, hn, hall, -⟩ := retireConsumed_state w
  cases n with
  | zero =>
    refine ⟨[], rest, rfl, by simp, ?_⟩
    rw [List.drop_zero] at hn
    have hpops : w.retireConsumed.stream.state.needsRoom = true ∧
        w.retireConsumed.stream.state.entries.length = w.retireConsumed.stream.config.capacity ∧
        w.retireConsumed.stream.state.requiredNeeds w.retireConsumed.grants front.sequence =
          false := by
      rw [hn, hsame.config]
      exact ⟨hroom, hfull, (State.requiredNeeds_congr rfl hsame.authority _).trans hneed⟩
    have hentries : w.retireConsumed.stream.state.entries = front :: rest := by rw [hn, hfront]
    unfold World.makeRoom
    dsimp only
    split
    · rename_i e rest' he
      rw [hentries] at he
      cases he
      rw [if_pos hpops, release_state, unlock_state, hn]
    · rename_i he
      rw [hentries] at he
      cases he
  | succ n =>
    refine ⟨rest.take n, rest.drop n, (List.take_append_drop n rest).symm, fun e he => ?_, ?_⟩
    · refine hall e ?_
      rw [hfront, List.take_succ_cons]
      exact List.mem_cons_of_mem _ he
    · rw [hfront, List.drop_succ_cons] at hn
      have hshort : ¬ (rest.drop n).length = w.stream.config.capacity := by
        rw [← hfull, hfront, List.length_cons, List.length_drop]
        omega
      unfold World.makeRoom
      dsimp only
      split
      · rw [if_neg, unlock_state, hn]
        rintro ⟨-, hlen, -⟩
        rw [hn, hsame.config] at hlen
        exact hshort hlen
      · rw [unlock_state, hn]

end

/-! ## Both publications -/

/-- A publication that was accepted ends the queue. -/
structure Ends (w w' : World α) (value : α) (lease : Lease) : Prop where
  tail : w'.stream.state.tail = w.stream.state.tail + 1
  last : w'.stream.state.entries.getLast? = some ⟨w.stream.state.tail, value, lease⟩

section

variable {w v : World α}

/-- An accepted publication adds an item to those that are left. -/
theorem Itemized.appended (hitems : w.Itemized) (value : α) {lease : Lease}
    (hlease : lease.usage = retainedItem.asLimits) {kept : List (Entry α)}
    (hkept : ∀ e ∈ kept, w.stream.state.Holds e) {retired : Option (Entry α)}
    (hretired : ∀ e, retired = some e → w.stream.state.Holds e) {room : Bool}
    (hv : v.stream.state = { append { w.stream.state with entries := kept } value lease with
      needsRoom := room, retired := retired }) : v.Itemized := by
  intro e he
  rw [hv] at he
  rcases he with he | he
  · rcases List.mem_append.mp he with he | he
    · exact hitems e (hkept e he)
    · rw [List.mem_singleton.mp he]
      exact hlease
  · exact hitems e (hretired e he)

/-- What an ordinary publication and a strict one have made of a stream. -/
structure Publishes (w w₁ w₂ : World α) (value : α) (lease : Lease) : Prop where
  twins : w₁.Twins w₂
  ends : w.Ends w₁ value lease ∧ w.Ends w₂ value lease
  items : lease.usage = retainedItem.asLimits → w₁.Itemized ∧ w₂.Itemized
  room : w.stream.state.needsRoom = false ∨
    w.stream.state.entries.length ≠ w.stream.config.capacity →
      w₂.stream.state.needsRoom = w₁.stream.state.needsRoom

/-- An ordinary publication in the place of the front, and a strict one that has let go
of more. -/
theorem Publishes.replaced {front : Entry α} {rest gone kept : List (Entry α)} {value : α}
    {lease : Lease} {room : Bool} {retired : Option (Entry α)} (hitems : w.Itemized)
    (hfront : w.stream.state.entries = front :: rest)
    (hfull : w.stream.state.entries.length = w.stream.config.capacity)
    (hsame : w.SameStream v) (hgrants : w.grants.Alike v.grants) (hrest : rest = gone ++ kept)
    (hgone : ∀ e ∈ gone, w.stream.state.consumed w.grants e.sequence = true)
    (hlatest : w.stream.delivery = .latest → gone = [])
    (hretired : ∀ e, retired = some e → w.stream.state.Holds e)
    (hroom : w.stream.state.needsRoom = false → room = false)
    (hv : v.stream.state = { append { w.stream.state with entries := kept } value lease with
      needsRoom := room, retired := retired }) :
    w.Publishes ((w.unlock (append { w.stream.state with entries := rest } value lease) true
      true).release front.lease) v value lease := by
  have hlease := hitems front (Or.inl (by rw [hfront]; exact List.mem_cons_self))
  have hreleased := Grants.Alike.release w.grants hlease
  have hrestHolds : ∀ e ∈ rest, w.stream.state.Holds e := by
    intro e he
    exact Or.inl (by rw [hfront]; exact List.mem_cons_of_mem _ he)
  have hplain : ((w.unlock (append { w.stream.state with entries := rest } value lease) true
      true).release front.lease).stream.state =
        { append { w.stream.state with entries := rest } value lease with
          needsRoom := w.stream.state.needsRoom, retired := w.stream.state.retired } := by
    rw [release_state, unlock_state]
    rfl
  refine ⟨⟨?_, ?_, ?_, ?_, ?_, ?_, ?_, hreleased.symm.trans hgrants, ⟨gone, ?_, ?_⟩, ?_⟩,
    ⟨⟨?_, ?_⟩, ⟨?_, ?_⟩⟩, fun hnew => ⟨?_, ?_⟩, fun hquiet => ?_⟩
  · rw [release_event, unlock_event]
    exact hsame.event
  · rw [release_config, unlock_config]
    exact hsame.config
  · rw [release_delivery, unlock_delivery]
    exact hsame.delivery
  · rw [hplain, hv]
    rfl
  · rw [hplain, hv]
    rfl
  · rw [hplain, hv]
    rfl
  · rw [hplain, hv]
    rfl
  · rw [hplain, hv]
    show rest ++ _ = gone ++ (kept ++ _)
    rw [hrest, List.append_assoc]
  · intro e he
    rw [hplain]
    exact (State.consumed_congr rfl hreleased.authority _).trans (hgone e he)
  · intro hd
    rw [release_delivery, unlock_delivery] at hd
    rw [hplain, hv]
    show kept ++ _ = rest ++ _
    rw [hrest, hlatest hd, List.nil_append]
  · rw [hplain]
    rfl
  · rw [hplain]
    exact List.getLast?_concat
  · rw [hv]
    rfl
  · rw [hv]
    exact List.getLast?_concat
  · exact Itemized.appended hitems value hnew hrestHolds (fun e he => Or.inr he) hplain
  · refine Itemized.appended hitems value hnew (fun e he => hrestHolds e ?_) hretired hv
    rw [hrest]
    exact List.mem_append_right _ he
  · have hquiet := hquiet.resolve_right (not_not.mpr hfull)
    rw [hplain, hv]
    show room = w.stream.state.needsRoom
    rw [hquiet, hroom hquiet]

end

section

variable [Target] {w w' : World α} {node : NodeId}

theorem Accepts.trims (h : w.Accepts node) (ht : w.Trims w')
    (hfree : ¬ w'.Blocked) : w'.Accepts node where
  entered := by
    rw [ht.event, ht.authority.enter_eq]
    exact h.entered
  opened := ht.closed.trans h.opened
  room := by
    rw [ht.tail]
    exact h.room
  free := hfree

/-- A latest-state stream keeps the snapshot aside, and frees the one before first. -/
theorem strictSend_latest (h : w.Accepts node) (hitems : w.Itemized)
    (hlatest : w.stream.delivery = .latest) (hroom : w.stream.state.needsRoom = false)
    {front : Entry α} {rest : List (Entry α)} (hfront : w.stream.state.entries = front :: rest)
    (hfull : w.stream.state.entries.length = w.stream.config.capacity)
    (hneed : w.stream.state.requiredNeeds w.grants front.sequence = false)
    (value : α) (lease : Lease) :
    ∃ w₂, w.strictSend node value lease = (.ok (), w₂) ∧
      w.Publishes ((w.unlock (append { w.stream.state with entries := rest } value lease) true
        true).release front.lease) w₂ value lease := by
  have hheld : ∀ e, some front = some e → w.stream.state.Holds e := by
    rintro e he
    cases he
    exact Or.inl (by rw [hfront]; exact List.mem_cons_self)
  have hstrict := commit_strict h value lease hfront hfull
  rw [if_pos hlatest] at hstrict
  by_cases hretired : w.stream.state.retired.isSome = true
  · rw [if_pos hretired] at hstrict
    have hfrees := Frees.unlock hitems (s := w.stream.state) false false fun _ he => he
    have hmaintain := hfrees.trans (Frees.maintain hfrees.itemized)
    have hseen := Trims.of_state (SameStream.unlock w w.stream.state false false)
      (unlock_state _ _ _ _)
    have ht := hseen.trans (Trims.maintain _)
    have hstate := maintain_latest (w := w.unlock w.stream.state false false)
      (by rw [unlock_delivery]; exact hlatest) (by rw [unlock_state]; exact hroom)
    rw [unlock_state] at hstate
    have hfree : ¬ (w.unlock w.stream.state false false).maintain.Blocked := by
      rintro ⟨-, hn⟩
      rw [hstate] at hn
      simp only [hfront, List.head?_cons, Option.any_some] at hn
      have hneeded := (State.requiredNeeds_congr (s := w.stream.state) rfl ht.authority
        front.sequence).symm.trans hn
      rw [hneed] at hneeded
      cases hneeded
    have hsecond := commit_strict (h.trims ht hfree) value lease
      (by rw [hstate]; exact hfront) (by rw [hstate, ht.config]; exact hfull)
    rw [if_pos (ht.delivery.trans hlatest), if_neg (by simp [hstate])] at hsecond
    refine ⟨_, by rw [strictSend, hstrict]; exact hsecond, ?_⟩
    refine Publishes.replaced hitems hfront hfull (ht.toSameStream.trans (SameStream.unlock _ _ _ _))
      hmaintain.alike (List.nil_append rest).symm (by simp) (fun _ => rfl) hheld id ?_
    rw [unlock_state, hstate]
    rfl
  · rw [if_neg hretired] at hstrict
    refine ⟨_, by rw [strictSend, hstrict], ?_⟩
    exact Publishes.replaced hitems hfront hfull (SameStream.unlock _ _ _ _) (Grants.Alike.refl _)
      (List.nil_append rest).symm (by simp) (fun _ => rfl) hheld id (unlock_state _ _ _ _)

/-- The room that the first attempt asked for is there for the second. -/
theorem strictSend_ordered (h : w.Accepts node) (hitems : w.Itemized)
    (hordered : w.stream.delivery = .ordered) {front : Entry α} {rest : List (Entry α)}
    (hfront : w.stream.state.entries = front :: rest)
    (hfull : w.stream.state.entries.length = w.stream.config.capacity)
    (hneed : w.stream.state.requiredNeeds w.grants front.sequence = false)
    (value : α) (lease : Lease) :
    ∃ w₂, w.strictSend node value lease = (.ok (), w₂) ∧
      w.Publishes ((w.unlock (append { w.stream.state with entries := rest } value lease) true
        true).release front.lease) w₂ value lease := by
  have hstrict := commit_strict h value lease hfront hfull
  rw [if_neg (by simp [hordered])] at hstrict
  have hfrees := Frees.unlock hitems (s := { w.stream.state with needsRoom := true })
    false false fun _ he => he
  have hmaintain := hfrees.trans (Frees.maintain hfrees.itemized)
  have hseen := Trims.unlock w true w.stream.state.retired false false
  have ht := hseen.trans (Trims.maintain _)
  obtain ⟨gone, kept, hrest, hgone, hstate⟩ := maintain_room
    (w := w.unlock { w.stream.state with needsRoom := true } false false)
    (by rw [unlock_delivery]; exact hordered) (by rw [unlock_state])
    (by rw [unlock_state]; exact hfront) (by rw [unlock_state, unlock_config]; exact hfull)
    (by rw [unlock_state, unlock_grants]; exact hneed)
  rw [unlock_state, unlock_grants] at hgone
  rw [unlock_state] at hstate
  have hshort : ¬ kept.length = w.stream.config.capacity := by
    rw [← hfull, hfront, hrest, List.length_cons, List.length_append]
    omega
  have haccepts := h.trims ht (fun hb => hshort (by
    have hlen := hb.1
    rw [hstate, ht.config] at hlen
    exact hlen))
  have hsecond := commit_append value lease true haccepts.entered haccepts.opened
    haccepts.room (by rw [hstate, ht.config]; exact hshort)
  refine ⟨_, by rw [strictSend, hstrict]; exact hsecond, ?_⟩
  refine Publishes.replaced hitems hfront hfull (ht.toSameStream.trans (SameStream.unlock _ _ _ _))
    hmaintain.alike hrest hgone (fun hd => ?_) (fun e he => Or.inr he) (fun _ => Eq.refl false) ?_
  · cases hordered.symm.trans hd
  · rw [unlock_state, hstate]
    rfl

/-- What an ordinary publication does at once, a strict one does with the maintenance
that it asks for. -/
theorem strictSend_accepted (h : w.Accepts node) (hitems : w.Itemized)
    (hcap : 0 < w.stream.config.capacity)
    (hroom : w.stream.delivery = .latest → w.stream.state.needsRoom = false)
    (value : α) (lease : Lease) :
    ∃ w₁ w₂, w.commit node value lease false = (.ok (), w₁) ∧
      w.strictSend node value lease = (.ok (), w₂) ∧ w.Publishes w₁ w₂ value lease := by
  by_cases hfull : w.stream.state.entries.length = w.stream.config.capacity
  · cases hfront : w.stream.state.entries with
    | nil =>
      rw [hfront, List.length_nil] at hfull
      omega
    | cons front rest =>
      have hneed : w.stream.state.requiredNeeds w.grants front.sequence = false := by
        rw [← Bool.not_eq_true]
        exact fun hn => h.free ⟨hfull, by rw [hfront]; exact hn⟩
      have hplain := commit_replace value lease h.entered h.opened h.room hfront hfull h.free
      cases hd : w.stream.delivery with
      | latest =>
        obtain ⟨w₂, hstrict, hpublishes⟩ :=
          strictSend_latest h hitems hd (hroom hd) hfront hfull hneed value lease
        exact ⟨_, w₂, hplain, hstrict, hpublishes⟩
      | ordered =>
        obtain ⟨w₂, hstrict, hpublishes⟩ :=
          strictSend_ordered h hitems hd hfront hfull hneed value lease
        exact ⟨_, w₂, hplain, hstrict, hpublishes⟩
  · have hplain := commit_append value lease false h.entered h.opened h.room hfull
    have hstrict := commit_append value lease true h.entered h.opened h.room hfull
    have hadded : ∀ n, lease.usage = retainedItem.asLimits →
        (w.unlock (append w.stream.state value lease) true n).Itemized := by
      intro n hnew
      exact Itemized.appended hitems value hnew (fun e he => Or.inl he) (fun e he => Or.inr he)
        (unlock_state _ _ _ _)
    refine ⟨_, w.unlock (append w.stream.state value lease) true false, hplain, ?_, ⟨?_, ⟨?_, ?_⟩,
      fun hnew => ⟨hadded _ hnew, hadded _ hnew⟩, fun _ => ?_⟩⟩
    · rw [strictSend, hstrict]
      rfl
    · refine ⟨?_, ?_, ?_, ?_, ?_, ?_, ?_, Grants.Alike.refl _,
        ⟨[], ?_, fun _ hl => by cases hl⟩, fun _ => ?_⟩
      all_goals simp
    · exact ⟨by simp [append], by simp [append]⟩
    · exact ⟨by simp [append], by simp [append]⟩
    · simp only [unlock_state]

end

end World

/-! ## Subscriptions after a publication -/

/-- Whatever receivers do without maintenance. -/
def Op.receives : Op α → Bool
  | .subscribe _ _ | .tryRecv _ | .drop _ => true
  | _ => false

/-- Whatever else receivers do, and maintenance. -/
def Op.attends : Op α → Bool
  | .subscribe _ _ | .tryRecv _ | .recvNow _ | .drop _ | .maintain => true
  | _ => false

namespace Session

/-- A session that keeps to the history of its stream. -/
structure Valid [Target] (config : StreamConfig) (s : Session α) : Prop where
  word : config.capacity ≤ usizeMax
  capacity : 0 < config.capacity
  history : s.Inv config ∨ config.capacity = 1 ∧ s.Current config

namespace Valid

variable [Target] {config : StreamConfig} {s : Session α}

theorem step (h : s.Valid config) (op : Op α) : ∃ s', s.step op = .ok s' ∧ s'.Valid config := by
  rcases h.history with hinv | ⟨hone, hcurrent⟩
  · obtain ⟨s', hs', hinv'⟩ := inv_step hinv h.capacity h.word op
    exact ⟨s', hs', h.word, h.capacity, Or.inl hinv'⟩
  · obtain ⟨s', hs', hcurrent'⟩ := hcurrent.step hone op
    exact ⟨s', hs', h.word, h.capacity, Or.inr ⟨hone, hcurrent'⟩⟩

theorem config_eq (h : s.Valid config) : s.world.stream.config = config := by
  rcases h.history with hinv | ⟨-, hcurrent⟩
  · exact hinv.config
  · exact hcurrent.config

theorem retains (h : s.Valid config) : s.world.Retains s.published := by
  rcases h.history with hinv | ⟨-, hcurrent⟩
  · exact hinv.retains
  · exact hcurrent.retains

/-- The cursor of a receiver that was not dropped. -/
theorem cursor (h : s.Valid config) {r : Nat} {sub : Subscription α}
    (hr : s.subscriptions[r]? = some sub) (hd : sub.dropped = false)
    (hopen : s.world.stream.state.closed = false) :
    ∃ c, Slots.entry s.world.stream.state.subscribers sub.key.index = some c ∧
      c.id = sub.key.id ∧ (s.world.stream.delivery = .ordered → c.grant = sub.node) := by
  have hlive : (handles α).live sub = true := by simp [handles, hd]
  rcases h.history with hinv | ⟨-, hcurrent⟩
  · obtain ⟨c, hc, hid, htold⟩ := (hinv.owns hopen).live r sub hr hlive
    exact ⟨c, hc, hid, fun _ => htold.grant⟩
  · obtain ⟨c, hc, hid, -⟩ := (hcurrent.owns hopen).live r sub hr hlive
    refine ⟨c, hc, hid, fun hordered => ?_⟩
    cases hcurrent.settled.latest.symm.trans hordered

end Valid

/-- Two sessions whose receivers have seen and will see the same. -/
structure Alike [Target] (config : StreamConfig) (s s' : Session α) : Prop where
  valid : s.Valid config
  valid' : s'.Valid config
  world : s.world.Twins s'.world
  items : s.world.Itemized
  items' : s'.world.Itemized
  published : s'.published = s.published
  subscriptions : s'.subscriptions = s.subscriptions

namespace Alike

variable [Target] {config : StreamConfig} {s s' : Session α}

theorem retains' (h : Alike config s s') : s'.world.Retains s.published := by
  rw [← h.published]
  exact h.valid'.retains

theorem tryRecv (h : Alike config s s') {r : Nat} {sub : Subscription α}
    (hr : s.subscriptions[r]? = some sub) (hd : sub.dropped = false) :
    ∃ result u u', s.world.tryRecv sub.node sub.key = .ok (result, u) ∧
      s'.world.tryRecv sub.node sub.key = .ok (result, u') ∧ u.Twins u' :=
  h.world.tryRecv h.valid.retains h.retains'
    (by rw [h.valid.config_eq]; exact h.valid.word) (h.valid.cursor hr hd)

/-- What is told in both. -/
theorem told (h : Alike config s s') (r : Nat) (sub : Subscription α)
    (result : Except ReceiveError (Option (StreamItem α))) (u u' : World α) :
    (s'.told r sub (result, u')).subscriptions = (s.told r sub (result, u)).subscriptions ∧
      (s.told r sub (result, u)).world = u ∧ (s'.told r sub (result, u')).world = u' ∧
      (s'.told r sub (result, u')).published = (s.told r sub (result, u)).published := by
  cases result with
  | error error => exact ⟨h.subscriptions, rfl, rfl, h.published⟩
  | ok o =>
    cases o with
    | none => exact ⟨h.subscriptions, rfl, rfl, h.published⟩
    | some item =>
      refine ⟨?_, rfl, rfl, h.published⟩
      change s'.subscriptions.set r _ = s.subscriptions.set r _
      rw [h.subscriptions]

/-- Both have done the same, and asked for room as before. -/
structure Follows (config : StreamConfig) (s s' t t' : Session α) : Prop
    extends Alike config t t' where
  leaves : s.world.Leaves t.world
  leaves' : s'.world.Leaves t'.world

theorem Follows.refl (h : Alike config s s') : Follows config s s' s s' :=
  ⟨h, .refl _, .refl _⟩

/-- An operation on which both give the same answer. -/
theorem of_step (h : Alike config s s') (op : Op α) {t t' : Session α}
    (ht : s.step op = .ok t) (ht' : s'.step op = .ok t') (hworld : t.world.Twins t'.world)
    (hleaves : s.world.Leaves t.world) (hleaves' : s'.world.Leaves t'.world)
    (hpublished : t'.published = t.published)
    (hsubscriptions : t'.subscriptions = t.subscriptions) : Follows config s s' t t' := by
  obtain ⟨u, hu, hvalid⟩ := h.valid.step op
  obtain ⟨u', hu', hvalid'⟩ := h.valid'.step op
  cases ht.symm.trans hu
  cases ht'.symm.trans hu'
  exact ⟨⟨hvalid, hvalid', hworld, hleaves.itemized h.items, hleaves'.itemized h.items',
    hpublished, hsubscriptions⟩, hleaves, hleaves'⟩

theorem subscribe (h : Alike config s s') (node : NodeId) (role : SubscriptionRole) :
    Follows config s s' (s.subscribe node role) (s'.subscribe node role) := by
  obtain ⟨hsame, htwins⟩ := h.world.subscribe h.valid.retains node role
  have hleaves := World.Leaves.subscribe s.world node role
  have hleaves' := World.Leaves.subscribe s'.world node role
  obtain ⟨hworld, hleft, hleft', hpublished, hsubscriptions⟩ :
      (s.subscribe node role).world.Twins (s'.subscribe node role).world ∧
      s.world.Leaves (s.subscribe node role).world ∧
      s'.world.Leaves (s'.subscribe node role).world ∧
      (s'.subscribe node role).published = (s.subscribe node role).published ∧
      (s'.subscribe node role).subscriptions = (s.subscribe node role).subscriptions := by
    unfold Session.subscribe
    cases hb : s.world.subscribe node role with
    | mk result u =>
      cases hb' : s'.world.subscribe node role with
      | mk result' u' =>
        rw [hb, hb'] at hsame htwins
        rw [hb] at hleaves
        rw [hb'] at hleaves'
        dsimp only at hsame htwins hleaves hleaves'
        subst hsame
        cases result' with
        | error error => exact ⟨htwins, hleaves, hleaves', h.published, h.subscriptions⟩
        | ok made =>
          refine ⟨htwins, hleaves, hleaves', h.published, ?_⟩
          dsimp only
          rw [h.subscriptions, h.world.tail]
  exact h.of_step (.subscribe node role) rfl rfl hworld hleft hleft' hpublished hsubscriptions

/-- What a live receiver is told in the one, it is told in the other. -/
theorem receive (h : Alike config s s') (r : Nat) :
    ∃ t t', s.tryRecv r = .ok t ∧ s'.tryRecv r = .ok t' ∧ Follows config s s' t t' := by
  unfold Session.tryRecv
  rw [h.subscriptions]
  cases hr : s.subscriptions[r]? with
  | none => exact ⟨s, s', rfl, rfl, .refl h⟩
  | some sub =>
    dsimp only
    cases hd : sub.dropped with
    | true => exact ⟨s, s', rfl, rfl, .refl h⟩
    | false =>
      obtain ⟨result, u, u', hu, hu', htwins⟩ := h.tryRecv hr hd
      obtain ⟨hsubscriptions, hw, hw', hpublished⟩ := h.told r sub result u u'
      rw [if_neg (by decide), if_neg (by decide), hu, hu']
      refine ⟨_, _, rfl, rfl,
        h.of_step (.tryRecv r) ?_ ?_ ?_ ?_ ?_ hpublished hsubscriptions⟩
      · change s.tryRecv r = _
        unfold Session.tryRecv
        rw [hr]
        dsimp only
        rw [hd, if_neg (by decide), hu]
        rfl
      · change s'.tryRecv r = _
        unfold Session.tryRecv
        rw [h.subscriptions, hr]
        dsimp only
        rw [hd, if_neg (by decide), hu']
        rfl
      · rw [hw, hw']
        exact htwins
      · rw [hw]
        exact World.Leaves.tryRecv hu
      · rw [hw']
        exact World.Leaves.tryRecv hu'

theorem drop (h : Alike config s s') (r : Nat) :
    Follows config s s' (s.drop r) (s'.drop r) := by
  have hstep := h.of_step (.drop r) rfl rfl
  unfold Session.drop at hstep ⊢
  rw [h.subscriptions] at hstep ⊢
  cases hr : s.subscriptions[r]? with
  | none => exact .refl h
  | some sub =>
    rw [hr] at hstep
    dsimp only at hstep ⊢
    split
    · exact .refl h
    · rename_i hlive
      rw [if_neg hlive, if_neg hlive] at hstep
      exact hstep (h.world.dropReceiver h.items h.items' h.valid.retains h.retains' sub.key
        sub.lease) (World.Leaves.dropReceiver _ _ _) (World.Leaves.dropReceiver _ _ _) h.published
        rfl

theorem receives (h : Alike config s s') {op : Op α} (hop : op.receives = true) :
    ∃ t t', s.step op = .ok t ∧ s'.step op = .ok t' ∧ Follows config s s' t t' := by
  cases op with
  | subscribe node role => exact ⟨_, _, rfl, rfl, h.subscribe node role⟩
  | tryRecv r => exact h.receive r
  | drop r => exact ⟨_, _, rfl, rfl, h.drop r⟩
  | _ => cases hop

/-! ### With maintenance -/

/-- Both were asked for room, or neither was. -/
structure Even (config : StreamConfig) (s s' : Session α) : Prop extends Alike config s s' where
  room : s'.world.stream.state.needsRoom = s.world.stream.state.needsRoom

theorem Follows.even {t t' : Session α} (h : Follows config s s' t t')
    (hroom : s'.world.stream.state.needsRoom = s.world.stream.state.needsRoom) :
    Even config t t' :=
  ⟨h.toAlike, h.leaves'.room.trans (hroom.trans h.leaves.room.symm)⟩

theorem Even.maintain (h : Even config s s') :
    Even config { s with world := s.world.maintain } { s' with world := s'.world.maintain } := by
  obtain ⟨t, ht, hvalid⟩ := h.valid.step .maintain
  obtain ⟨t', ht', hvalid'⟩ := h.valid'.step .maintain
  cases ht
  cases ht'
  refine ⟨⟨hvalid, hvalid', ?_, ?_, ?_, h.published, h.subscriptions⟩, ?_⟩
  · exact h.world.maintain h.items h.items' h.room h.valid.retains h.retains'
  · exact (World.Frees.maintain h.items).itemized
  · exact (World.Frees.maintain h.items').itemized
  · exact (World.maintain_needsRoom _ h.retains'.capacity).trans
      (World.maintain_needsRoom _ h.valid.retains.capacity).symm

theorem recvNow_eq {r : Nat} {sub : Subscription α} (hr : s.subscriptions[r]? = some sub)
    (hd : sub.dropped = false) {t : Session α} (ht : s.tryRecv r = .ok t) :
    s.recvNow r = .ok { t with world := t.world.maintain } := by
  unfold Session.tryRecv at ht
  unfold Session.recvNow
  rw [hr] at ht ⊢
  dsimp only at ht ⊢
  rw [hd, if_neg (by decide)] at ht ⊢
  obtain ⟨⟨result, u⟩, hu, ht⟩ := bind_eq_ok.mp ht
  cases ht
  rw [World.recvNow_ok hu]
  cases result with
  | error error => rfl
  | ok o => cases o <;> rfl

theorem Even.recvNow (h : Even config s s') (r : Nat) :
    ∃ t t', s.recvNow r = .ok t ∧ s'.recvNow r = .ok t' ∧ Even config t t' := by
  obtain ⟨t, t', ht, ht', hfollows⟩ := h.toAlike.receive r
  have hdone := (hfollows.even h.room).maintain
  cases hr : s.subscriptions[r]? with
  | none =>
    refine ⟨s, s', ?_, ?_, h⟩
    · unfold Session.recvNow
      rw [hr]
    · unfold Session.recvNow
      rw [h.subscriptions, hr]
  | some sub =>
    cases hd : sub.dropped with
    | true =>
      refine ⟨s, s', ?_, ?_, h⟩
      · unfold Session.recvNow
        rw [hr]
        exact if_pos hd
      · unfold Session.recvNow
        rw [h.subscriptions, hr]
        exact if_pos hd
    | false =>
      exact ⟨_, _, recvNow_eq hr hd ht,
        recvNow_eq (by rw [h.subscriptions]; exact hr) hd ht', hdone⟩

theorem Even.attends (h : Even config s s') {op : Op α} (hop : op.attends = true) :
    ∃ t t', s.step op = .ok t ∧ s'.step op = .ok t' ∧ Even config t t' := by
  cases op with
  | subscribe node role => exact ⟨_, _, rfl, rfl, (h.toAlike.subscribe node role).even h.room⟩
  | tryRecv r =>
    obtain ⟨t, t', ht, ht', hfollows⟩ := h.toAlike.receive r
    exact ⟨t, t', ht, ht', hfollows.even h.room⟩
  | recvNow r => exact h.recvNow r
  | drop r => exact ⟨_, _, rfl, rfl, (h.toAlike.drop r).even h.room⟩
  | maintain => exact ⟨_, _, rfl, rfl, h.maintain⟩
  | _ => cases hop

/-! ### Runs -/

/-- Whatever the receivers of both do without maintenance, they see the same. -/
theorem run (h : Alike config s s') {ops : List (Op α)} (hops : ∀ op ∈ ops, op.receives = true) :
    ∃ t t', steps Session.step s ops = .ok t ∧ steps Session.step s' ops = .ok t' ∧
      t'.subscriptions = t.subscriptions := by
  induction ops generalizing s s' with
  | nil => exact ⟨s, s', rfl, rfl, h.subscriptions⟩
  | cons op rest ih =>
    obtain ⟨t, t', ht, ht', hfollows⟩ := h.receives (hops op List.mem_cons_self)
    obtain ⟨u, u', hu, hu', hsame⟩ :=
      ih hfollows.toAlike fun o ho => hops o (List.mem_cons_of_mem _ ho)
    exact ⟨u, u', by simp only [steps, ht, ok_bind, hu], by simp only [steps, ht', ok_bind, hu'],
      hsame⟩

/-- With maintenance they do when both or neither were asked for room. -/
theorem Even.run (h : Even config s s') {ops : List (Op α)}
    (hops : ∀ op ∈ ops, op.attends = true) :
    ∃ t t', steps Session.step s ops = .ok t ∧ steps Session.step s' ops = .ok t' ∧
      t'.subscriptions = t.subscriptions := by
  induction ops generalizing s s' with
  | nil => exact ⟨s, s', rfl, rfl, h.subscriptions⟩
  | cons op rest ih =>
    obtain ⟨t, t', ht, ht', heven⟩ := h.attends (hops op List.mem_cons_self)
    obtain ⟨u, u', hu, hu', hsame⟩ := ih heven fun o ho => hops o (List.mem_cons_of_mem _ ho)
    exact ⟨u, u', by simp only [steps, ht, ok_bind, hu], by simp only [steps, ht', ok_bind, hu'],
      hsame⟩

end Alike

end Session

end Hiway.Fabric
