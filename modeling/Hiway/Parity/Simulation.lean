import Hiway.Parity.Credit

/-!
# Both backends give the same answers

The static ring and the dynamic queue mirror each other: the queue holds the end of the
ring from the first item on that some live cursor has not passed, and all of it on a
latest-state stream. What the queue has given up earlier than the ring is never read
again, so every operation answers the same.

* `full_iff`: the ring is full exactly when the queue is blocked.
* `push`, `claim`, `recv`: a publication, a subscription and a reception on both sides.
* `step`: one operation answers the same and keeps the streams related.
* `outcomes_eq`: so all answers of a script are the same.
-/

namespace Hiway.Parity

open Exec Target
open Hiway.Fabric (World Entry)

variable {α : Type} {cap : Nat}

/-- A cursor as the static stream keeps it. -/
def view (c : Fabric.Cursor) : Local.Cursor := ⟨c.id, c.next, c.role⟩

/-- The receiver of the static stream that stands for a dynamic one. -/
def DynamicReceiver.static (r : DynamicReceiver) : StaticReceiver :=
  ⟨⟨r.key.index, r.key.id⟩, r.dropped⟩

/-- The ring and the queue after `published` was accepted. -/
structure Mirrors (published : List α) (l : Local.State α cap) (w : World α) : Prop where
  delivery : l.delivery = w.stream.delivery
  capacity : w.stream.config.capacity = cap
  latest : w.stream.delivery = .latest → cap = 1
  retains : w.Retains published
  tail : l.tail = w.stream.state.tail
  ids : l.nextGeneration = w.stream.state.nextCursor
  closed : l.closed = if w.stream.state.closed then some .closed else none
  room : w.stream.state.needsRoom = false
  cursors : w.stream.state.closed = false →
    l.cursors = w.stream.state.subscribers.map (Option.map view)
  awake : ∀ (i : Nat) (c : Fabric.Cursor),
    Slots.entry w.stream.state.subscribers i = some c → w.grants.isRevoked c.grant = false
  ring : ∀ e ∈ w.stream.state.entries, l.values[e.sequence % cap]? = some (some e.value)
  head : ∀ (i : Nat) (c : Fabric.Cursor), Slots.entry w.stream.state.subscribers i = some c →
    published.length ≤ max (published.length - cap) c.next + w.stream.state.entries.length
  newest : w.stream.delivery = .latest → w.stream.state.closed = false →
    0 < published.length → w.stream.state.entries ≠ []

namespace Mirrors

variable {published : List α} {l : Local.State α cap} {w w' : World α}

theorem opened (h : Mirrors published l w) (hopen : w.stream.state.closed = false) :
    l.closed = none := by
  rw [h.closed, hopen]
  rfl

theorem length_le (h : Mirrors published l w) : w.stream.state.entries.length ≤ cap := by
  rw [← h.capacity]
  exact h.retains.capacity

/-- Only what the ring has overwritten or every cursor has passed is given up. -/
theorem trims (h : Mirrors published l w) (ht : w.Trims w') {n : Nat}
    (hstate : w'.stream.state =
      { w.stream.state with entries := w.stream.state.entries.drop n })
    (hconsumed : ∀ e ∈ w.stream.state.entries.take n,
      w.stream.state.consumed w.grants e.sequence = true)
    (hlatest : w.stream.delivery = .latest → n = 0) : Mirrors published l w' where
  delivery := h.delivery.trans ht.delivery.symm
  capacity := by
    rw [ht.config]
    exact h.capacity
  latest := by
    rw [ht.delivery]
    exact h.latest
  retains := h.retains.trims ht
  tail := h.tail.trans ht.tail.symm
  ids := h.ids.trans ht.nextCursor.symm
  closed := by
    rw [ht.closed]
    exact h.closed
  room := by
    rw [hstate]
    exact h.room
  cursors := by
    rw [ht.closed, ht.subscribers]
    exact h.cursors
  awake := by
    intro i c hc
    rw [ht.subscribers] at hc
    rw [ht.authority.isRevoked_eq]
    exact h.awake i c hc
  ring := by
    rw [hstate]
    exact fun e he => h.ring e (List.mem_of_mem_drop he)
  head := by
    intro i c hc
    rw [ht.subscribers] at hc
    have hhead := h.head i c hc
    rw [hstate]
    simp only [List.length_drop]
    -- the last entry that is gone was passed by this cursor
    by_cases hzero : min n w.stream.state.entries.length = 0
    · omega
    · have hpos : min n w.stream.state.entries.length - 1 < w.stream.state.entries.length := by
        omega
      have hget := List.getElem?_eq_getElem hpos
      have hmem : w.stream.state.entries[min n w.stream.state.entries.length - 1] ∈
          w.stream.state.entries.take n := by
        rw [List.mem_take_iff_getElem]
        exact ⟨_, by omega, rfl⟩
      have hseq := h.retains.sequence hget
      rcases Fabric.State.consumed_iff.mp (hconsumed _ hmem) i c hc with hlt | hr
      · omega
      · rw [h.awake i c hc] at hr
        cases hr
  newest := by
    intro hl hopen hpos
    rw [ht.delivery] at hl
    rw [ht.closed] at hopen
    rw [hstate, hlatest hl, List.drop_zero]
    exact h.newest hl hopen hpos

/-- Nothing but the notifications and the grants changed. -/
theorem of_state (h : Mirrors published l w) (hsame : w.SameStream w')
    (hstate : w'.stream.state = w.stream.state) : Mirrors published l w' := by
  refine h.trims (n := 0) (World.Trims.of_state hsame hstate) ?_ (by simp) fun _ => rfl
  rw [hstate, List.drop_zero]

theorem maintain (h : Mirrors published l w) (hretired : w.stream.state.retired = none) :
    Mirrors published l w.maintain := by
  obtain ⟨n, hstate, hconsumed, hlatest⟩ := World.maintain_state h.room hretired
  exact h.trims (World.Trims.maintain w) hstate hconsumed hlatest

/-! ## Publication -/

theorem requires_iff (h : Mirrors published l w) (hopen : w.stream.state.closed = false) (n : Nat) :
    l.requires n = true ↔ w.stream.state.requiredNeeds w.grants n = true := by
  unfold Local.State.requires
  rw [Fabric.State.requiredNeeds_iff, h.cursors hopen, Slots.any_iff]
  constructor
  · rintro ⟨i, b, hb, hp⟩
    rw [Slots.entry_map, Option.map_eq_some_iff] at hb
    obtain ⟨c, hc, rfl⟩ := hb
    obtain ⟨hrole, hle⟩ : c.role = .required ∧ c.next ≤ n := of_decide_eq_true hp
    exact ⟨i, c, hc, hrole, hle, h.awake i c hc⟩
  · rintro ⟨i, c, hc, hrole, hle, -⟩
    refine ⟨i, view c, by rw [Slots.entry_map, hc, Option.map_some], ?_⟩
    simp [view, hrole, hle]

/-- The ring is full exactly when the queue is blocked: a cursor that still needs the
oldest item of the ring keeps it in the queue. -/
theorem full_iff (h : Mirrors published l w) (hcap : 0 < cap)
    (hopen : w.stream.state.closed = false) : l.Full ↔ w.Blocked := by
  have htail := h.tail.trans h.retains.tail
  have hlen := h.length_le
  have hle := h.retains.length
  unfold Local.State.Full World.Blocked
  rw [h.requires_iff hopen, h.capacity]
  constructor
  · rintro ⟨hge, hneed⟩
    obtain ⟨i, c, hc, hrole, hnext, hr⟩ := Fabric.State.requiredNeeds_iff.mp hneed
    have hhead := h.head i c hc
    have hfull : w.stream.state.entries.length = cap := by omega
    refine ⟨hfull, ?_⟩
    cases hfront : w.stream.state.entries with
    | nil =>
      rw [hfront, List.length_nil] at hfull
      omega
    | cons e rest =>
      have hseq := h.retains.head_sequence hfront
      rw [List.head?_cons, Option.any_some]
      have : e.sequence = l.tail - cap := by omega
      rw [this]
      exact hneed
  · rintro ⟨hfull, hneed⟩
    cases hfront : w.stream.state.entries with
    | nil =>
      rw [hfront] at hneed
      cases hneed
    | cons e rest =>
      rw [hfront, List.head?_cons, Option.any_some] at hneed
      have hseq := h.retains.head_sequence hfront
      have : e.sequence = l.tail - cap := by omega
      rw [this] at hneed
      exact ⟨by omega, hneed⟩

/-- Two sequences of one turn of the ring have different slots. -/
theorem slot_ne {m n : Nat} (hlt : m < n) (hturn : n < m + cap) : m % cap ≠ n % cap := by
  intro heq
  have hdvd : cap ∣ n - m := (Nat.modEq_iff_dvd' hlt.le).mp heq
  have := Nat.le_of_dvd (by omega) hdvd
  omega

/-- The queue after a publication that is not refused. -/
theorem retains_push (h : w.Retains published) (hopen : w.stream.state.closed = false)
    (hmax : published.length + 1 ≤ u64Max) (hcap : 0 < w.stream.config.capacity)
    (hfree : ¬ w.Blocked) {value : α} {lease : Lease} (hsame : w.SameStream w')
    (hstate : w'.stream.state =
      World.append { w.stream.state with entries := roomFor w } value lease) :
    w'.Retains (published ++ [value]) := by
  have hle := h.capacity
  unfold roomFor at hstate
  by_cases hfull : w.stream.state.entries.length = w.stream.config.capacity
  · rw [if_pos hfull] at hstate
    cases hfront : w.stream.state.entries with
    | nil =>
      rw [hfront, List.length_nil] at hfull
      omega
    | cons front rest =>
      have hneed : w.stream.state.requiredNeeds w.grants front.sequence = false := by
        rw [← Bool.not_eq_true]
        intro hn
        exact hfree ⟨hfull, by rw [hfront]; exact hn⟩
      have hreplaced := h.replace hmax hopen hfront hneed w.stream.state.retired value lease true true
      refine hreplaced.of_state (hsame.of_unlock _ _ _) ?_
      rw [hstate, World.unlock_state, hfront, List.tail_cons]
  · rw [if_neg hfull] at hstate
    have happended := h.append hmax (by omega) hopen value lease true true
    refine happended.of_state (hsame.of_unlock _ _ _) ?_
    rw [hstate, World.unlock_state]

theorem mem_roomFor (h : Mirrors published l w) {e : Entry α} (he : e ∈ roomFor w) :
    e ∈ w.stream.state.entries ∧ e.sequence < published.length ∧
      published.length < e.sequence + cap := by
  have hlen := h.length_le
  have hcapacity := h.capacity
  unfold roomFor at he
  split at he
  · rename_i hfull
    obtain ⟨k, hk⟩ := List.getElem?_of_mem he
    rw [List.getElem?_tail] at hk
    have hseq := h.retains.sequence hk
    have hlt := (List.getElem?_eq_some_iff.mp hk).1
    exact ⟨List.mem_of_mem_tail he, by omega, by omega⟩
  · obtain ⟨k, hk⟩ := List.getElem?_of_mem he
    have hseq := h.retains.sequence hk
    have hlt := (List.getElem?_eq_some_iff.mp hk).1
    exact ⟨he, by omega, by omega⟩

/-- The value is in the ring and at the end of the queue. -/
theorem push (h : Mirrors published l w) (hcap : 0 < cap) {value : α} {lease : Lease}
    (hsame : w.SameStream w')
    (hstate : w'.stream.state =
      World.append { w.stream.state with entries := roomFor w } value lease)
    (hretains : w'.Retains (published ++ [value])) :
    Mirrors (published ++ [value]) (l.push hcap value) w' where
  delivery := h.delivery.trans hsame.delivery.symm
  capacity := by
    rw [hsame.config]
    exact h.capacity
  latest := by
    rw [hsame.delivery]
    exact h.latest
  retains := hretains
  tail := by
    rw [hstate]
    exact congrArg (· + 1) h.tail
  ids := by
    rw [hstate]
    exact h.ids
  closed := by
    rw [hstate]
    exact h.closed
  room := by
    rw [hstate]
    exact h.room
  cursors := by
    rw [hstate]
    exact h.cursors
  awake := by
    intro i c hc
    rw [hstate] at hc
    rw [hsame.authority.isRevoked_eq]
    exact h.awake i c hc
  ring := by
    have htail := h.tail.trans h.retains.tail
    intro e he
    rw [hstate, World.append] at he
    simp only [Local.State.push]
    rcases List.mem_append.mp he with he | he
    · obtain ⟨hmem, hlt, hturn⟩ := h.mem_roomFor he
      have hne : l.tail % cap ≠ e.sequence % cap := by
        rw [htail]
        exact (slot_ne hlt hturn).symm
      rw [Vector.getElem?_set_ne _ hne]
      exact h.ring e hmem
    · obtain rfl := List.mem_singleton.mp he
      simp only [← h.tail]
      rw [Vector.getElem?_set_self]
  head := by
    intro i c hc
    rw [hstate] at hc ⊢
    have hhead := h.head i c hc
    have hlen := h.length_le
    have hcapacity := h.capacity
    simp only [World.append, List.length_append, List.length_singleton, roomFor]
    split
    · rename_i hfull
      rw [List.length_tail]
      omega
    · omega
  newest := by
    intro _ _ _
    rw [hstate]
    simp [World.append]

/-! ## Subscription -/

/-- A change of the tables and of nothing else. -/
theorem table (h : Mirrors published l w) {l' : Local.State α cap} (hsame : w.SameStream w')
    (hstatic : l' = { l with
      cursors := l'.cursors, nextGeneration := l'.nextGeneration, changed := l'.changed })
    (hstate : w'.stream.state = { w.stream.state with
      subscribers := w'.stream.state.subscribers, nextCursor := w'.stream.state.nextCursor })
    (hids : l'.nextGeneration = w'.stream.state.nextCursor)
    (hopen : w.stream.state.closed = false)
    (hcursors : l'.cursors = w'.stream.state.subscribers.map (Option.map view))
    (hcursor : ∀ (i : Nat) (c : Fabric.Cursor),
      Slots.entry w'.stream.state.subscribers i = some c →
      Slots.entry w.stream.state.subscribers i = some c ∨
        w.grants.isRevoked c.grant = false ∧ c.next ≤ published.length ∧
          published.length ≤ max (published.length - cap) c.next + w.stream.state.entries.length ∧
          (c.role = .required → published.length ≤ c.next + w.stream.state.entries.length)) :
    Mirrors published l' w' where
  delivery := by
    rw [hstatic, hsame.delivery]
    exact h.delivery
  capacity := by
    rw [hsame.config]
    exact h.capacity
  latest := by
    rw [hsame.delivery]
    exact h.latest
  retains := by
    refine h.retains.table hsame (by rw [hstate]) (by rw [hstate]) (by rw [hstate]; exact hopen) ?_
    intro i c hc
    rcases hcursor i c hc with hc | ⟨-, hle, -, hkept⟩
    · exact Or.inl hc
    · exact Or.inr ⟨hle, fun hrole _ => hkept hrole⟩
  tail := by
    rw [hstatic, hstate]
    exact h.tail
  ids := hids
  closed := by
    rw [hstatic, hstate]
    exact h.closed
  room := by
    rw [hstate]
    exact h.room
  cursors := fun _ => hcursors
  awake := by
    intro i c hc
    rw [hsame.authority.isRevoked_eq]
    rcases hcursor i c hc with hc | ⟨hr, -⟩
    · exact h.awake i c hc
    · exact hr
  ring := by
    rw [hstatic, hstate]
    exact h.ring
  head := by
    intro i c hc
    rw [hstate]
    rcases hcursor i c hc with hc | ⟨-, -, hle, -⟩
    · exact h.head i c hc
    · exact hle
  newest := by
    rw [hsame.delivery, hstate]
    exact h.newest

/-- A new cursor has passed what the queue has given up. -/
theorem start (h : Mirrors published l w) (hopen : w.stream.state.closed = false)
    {role : SubscriptionRole} (hrole : ¬ (w.stream.delivery = .latest ∧ role = .required)) :
    w.startPosition ≤ published.length ∧
      published.length ≤ max (published.length - cap) w.startPosition +
        w.stream.state.entries.length ∧
      (role = .required → published.length ≤ w.startPosition + w.stream.state.entries.length) := by
  have htail := h.retains.tail
  unfold World.startPosition
  by_cases hl : w.stream.delivery = .latest
  · rw [if_pos hl]
    refine ⟨by omega, ?_, fun hr => absurd ⟨hl, hr⟩ hrole⟩
    rcases Nat.eq_zero_or_pos published.length with hzero | hpos
    · omega
    · have hne := List.length_pos_iff.mpr (h.newest hl hopen hpos)
      omega
  · rw [if_neg hl]
    exact ⟨by omega, by omega, fun _ => by omega⟩

/-- The same slot is claimed on both sides. -/
theorem claim (h : Mirrors published l w) (hopen : w.stream.state.closed = false) {index : Nat}
    (hi : index < w.stream.state.subscribers.length) {node : NodeId} {role : SubscriptionRole}
    (hrole : ¬ (w.stream.delivery = .latest ∧ role = .required))
    (hrevoked : w.grants.isRevoked node = false) (hsame : w.SameStream w')
    (hstate : w'.stream.state = { w.stream.state with
      nextCursor := w.stream.state.nextCursor + 1
      subscribers := w.stream.state.subscribers.set index
        (some ⟨w.stream.state.nextCursor, w.startPosition, role, node⟩) }) :
    Mirrors published { l with
      nextGeneration := l.nextGeneration + 1
      cursors := l.cursors.set index
        (some ⟨l.nextGeneration, if l.delivery = .latest then l.tail - 1 else l.tail, role⟩) } w' := by
  refine h.table hsame rfl (by rw [hstate]) (by rw [hstate, h.ids]) hopen ?_ ?_
  · rw [hstate, h.cursors hopen, h.ids, h.delivery, h.tail]
    exact (Slots.map_set view w.stream.state.subscribers index
      (some ⟨w.stream.state.nextCursor, w.startPosition, role, node⟩)).symm
  · intro i c hc
    rw [hstate] at hc
    by_cases hk : index = i
    · subst hk
      rw [Slots.entry_set_self hi] at hc
      cases hc
      exact Or.inr ⟨hrevoked, h.start hopen hrole⟩
    · rw [Slots.entry_set_of_ne hk] at hc
      exact Or.inl hc

/-! ## Reception -/

theorem position_eq (h : Mirrors published l w) (c : Fabric.Cursor) :
    l.position (view c) = w.position c := by
  unfold Local.State.position World.position
  rw [h.delivery, h.tail]
  rfl

/-- Where a reception starts is not behind what the queue holds, unless it is behind what
the ring holds as well. -/
theorem head_position (h : Mirrors published l w) (hopen : w.stream.state.closed = false)
    {i : Nat} {c : Fabric.Cursor} (hc : Slots.entry w.stream.state.subscribers i = some c) :
    w.position c ≤ published.length ∧
      published.length ≤ max (published.length - cap) (w.position c) +
        w.stream.state.entries.length ∧ c.next ≤ w.position c := by
  have hnext := h.retains.next i c hc
  have hhead := h.head i c hc
  have htail := h.retains.tail
  unfold World.position
  by_cases hl : w.stream.delivery = .latest
  · rw [if_pos hl]
    have hcap := h.latest hl
    refine ⟨by omega, ?_, by omega⟩
    rcases Nat.eq_zero_or_pos published.length with hzero | hpos
    · omega
    · have hne := List.length_pos_iff.mpr (h.newest hl hopen hpos)
      omega
  · rw [if_neg hl]
    exact ⟨hnext, hhead, le_refl _⟩

/-- The first sequence that the queue holds. -/
theorem front_sequence (h : w.Retains published) :
    (w.stream.state.entries.head?.map (·.sequence)).getD w.stream.state.tail +
      w.stream.state.entries.length = published.length := by
  cases he : w.stream.state.entries with
  | nil => simp [h.tail]
  | cons front rest =>
    have := h.head_sequence he
    rw [he] at this
    simpa using this

theorem cursor_eq (h : Mirrors published l w) (hopen : w.stream.state.closed = false)
    {key : Fabric.CursorKey} {c : Fabric.Cursor}
    (hc : Slots.entry w.stream.state.subscribers key.index = some c) (hid : c.id = key.id) :
    l.cursor ⟨key.index, key.id⟩ = some (view c) := by
  unfold Local.State.cursor
  rw [h.cursors hopen, Slots.entry_map, hc]
  simp [view, Option.filter, hid]

/-- The cursor moves on both sides. -/
theorem moved (h : Mirrors published l w) (hopen : w.stream.state.closed = false)
    {key : Fabric.CursorKey} {c : Fabric.Cursor}
    (hc : Slots.entry w.stream.state.subscribers key.index = some c) {next : Nat}
    (hge : c.next ≤ next) (hle : next ≤ published.length) {l' : Local.State α cap}
    (hstatic : l' = { l.seek ⟨key.index, key.id⟩ (view c) next with changed := l'.changed }) :
    Mirrors published l' (w.moved key c next) := by
  have hi := Slots.lt_of_entry hc
  have hstate : (w.moved key c next).stream.state = { w.stream.state with
      subscribers := w.stream.state.subscribers.set key.index (some { c with next := next }) } := by
    rw [World.moved, World.unlock_state]
  refine h.table (World.SameStream.unlock _ _ _ _) (by rw [hstatic]; rfl) (by rw [hstate]) ?_
    hopen ?_ ?_
  · rw [hstate, hstatic]
    exact h.ids
  · rw [hstate, hstatic, Local.State.seek]
    dsimp only
    rw [h.cursors hopen]
    exact (Slots.map_set view w.stream.state.subscribers key.index
      (some { c with next := next })).symm
  · intro i c' hc'
    rw [hstate] at hc'
    by_cases hk : key.index = i
    · subst hk
      rw [Slots.entry_set_self hi] at hc'
      cases hc'
      have hhead := h.head _ c hc
      refine Or.inr ⟨h.awake _ c hc, hle, ?_, fun hrole => ?_⟩
      · dsimp only
        omega
      · have := h.retains.kept _ c hc hrole (h.awake _ c hc)
        dsimp only
        omega
    · rw [Slots.entry_set_of_ne hk] at hc'
      exact Or.inl hc'

/-- A reception by a live cursor answers the same, and moves it the same way. -/
theorem recv [Target] (h : Mirrors published l w) (hcap : 0 < cap) (hword : cap ≤ usizeMax)
    (hopen : w.stream.state.closed = false) {node : NodeId} {key : Fabric.CursorKey}
    {c : Fabric.Cursor} (henter : w.grants.enter node w.stream.event .observe = .ok ())
    (hc : Slots.entry w.stream.state.subscribers key.index = some c) (hid : c.id = key.id) :
    ∃ result l' w', l.recvNow ⟨key.index, key.id⟩ = .ok (result, l') ∧
      w.tryRecv node key = .ok (result, w') ∧ Mirrors published l' w' ∧
      ∃ next, w'.stream.state = { w.stream.state with
        subscribers := w.stream.state.subscribers.set key.index (some { c with next := next }) } := by
  obtain ⟨hpos, hhead, hnext⟩ := h.head_position hopen hc
  have hbound := h.retains.bounded
  have htail := h.retains.tail
  have hlen := h.length_le
  have hfront := front_sequence h.retains
  have hset : w.stream.state.subscribers.set key.index (some c) = w.stream.state.subscribers :=
    Slots.set_entry hc
  -- the queue holds the value that the ring does
  have hget : ∀ k, k < w.stream.state.entries.length → ∃ e, w.stream.state.entries[k]? = some e ∧
      e.sequence + w.stream.state.entries.length = published.length + k ∧
        l.values[e.sequence % cap]? = some (some e.value) := by
    intro k hk
    have he := List.getElem?_eq_getElem hk
    exact ⟨_, he, h.retains.sequence he, h.ring _ (List.mem_of_getElem? he)⟩
  have hvalue : l.tail - cap ≤ l.position (view c) → l.position (view c) < l.tail →
      ∃ value, l.values[l.position (view c) % cap]? = some (some value) := by
    rw [h.position_eq, h.tail, htail]
    intro hge hlt
    obtain ⟨e, -, hseq, hv⟩ := hget (w.position c -
      (published.length - w.stream.state.entries.length)) (by omega)
    refine ⟨e.value, ?_⟩
    rw [← hv]
    congr 2
    omega
  have hstatic := Local.State.recvNow_eq hcap hword (h.opened hopen) (h.cursor_eq hopen hc hid)
    (by rw [h.tail, htail]; exact hbound) (by rw [h.position_eq, h.tail, htail]; exact hpos) hvalue
  have hdynamic := World.tryRecv_open henter hopen hc hid rfl
  rw [h.position_eq, h.tail, htail] at hstatic
  rw [htail] at hdynamic hfront
  rcases hdynamic with ⟨hlt, he⟩ | ⟨hge, hlt, hdata⟩ | ⟨hge, hlt, he⟩
  · -- a gap of the queue is a gap of the ring, to the same sequence
    rcases hstatic with ⟨hgap, hs⟩ | ⟨hend, -⟩ | ⟨hin, -⟩
    · have holdest : (w.stream.state.entries.head?.map (·.sequence)).getD published.length =
          published.length - cap := by omega
      rw [holdest] at he
      refine ⟨_, _, _, hs, he, h.moved hopen hc (by omega) (by omega) rfl,
        published.length - cap, ?_⟩
      rw [World.moved, World.unlock_state]
    · omega
    · omega
  · rcases hstatic with ⟨hgap, -⟩ | ⟨hend, -⟩ | ⟨-, -, value, hv, hs⟩
    · omega
    · omega
    · obtain ⟨e, hk, hseq, hring⟩ := hget (w.position c -
        (w.stream.state.entries.head?.map (·.sequence)).getD published.length) (by omega)
      have he := hdata e hk (by omega) (by omega)
      have hsame : e.sequence = w.position c := by omega
      rw [hsame, hv] at hring
      cases hring
      refine ⟨_, _, _, hs, he, h.moved hopen hc (by omega) (by omega) rfl,
        w.position c + 1, ?_⟩
      rw [World.moved, World.unlock_state]
  · rcases hstatic with ⟨hgap, -⟩ | ⟨hend, hs⟩ | ⟨-, hin, -⟩
    · omega
    · have hstay : c.next = published.length := by
        unfold World.position at hend hpos
        split at hend <;> omega
      have hseek : l.seek ⟨key.index, key.id⟩ (view c) published.length = l := by
        have hview : Slots.entry l.cursors key.index = some (view c) := by
          rw [h.cursors hopen, Slots.entry_map, hc, Option.map_some]
        rw [Local.State.seek, ← hstay]
        exact congrArg (fun t => { l with cursors := t }) (Slots.set_entry hview)
      rw [hseek] at hs
      have hsame := World.SameStream.unlock w w.stream.state false false
      refine ⟨_, _, _, hs, he, h.of_state hsame (World.unlock_state _ _ _ _), c.next, ?_⟩
      rw [World.unlock_state, hset]
    · omega

/-! ## Drop and closure -/

/-- The slot is free on both sides. -/
theorem vacated (h : Mirrors published l w) (hopen : w.stream.state.closed = false)
    {key : Fabric.CursorKey} {c : Fabric.Cursor}
    (hc : Slots.entry w.stream.state.subscribers key.index = some c) {l' : Local.State α cap}
    (hstatic : l' = { l with cursors := l.cursors.set key.index none, changed := l'.changed })
    (d n : Bool) :
    Mirrors published l' (w.unlock { w.stream.state with
      subscribers := w.stream.state.subscribers.set key.index none } d n) := by
  have hi := Slots.lt_of_entry hc
  refine h.table (World.SameStream.unlock _ _ _ _) (by rw [hstatic]) (by rw [World.unlock_state])
    ?_ hopen ?_ ?_
  · rw [World.unlock_state, hstatic]
    exact h.ids
  · rw [World.unlock_state, hstatic]
    dsimp only
    rw [h.cursors hopen]
    exact (Slots.map_set view w.stream.state.subscribers key.index none).symm
  · intro i c' hc'
    rw [World.unlock_state] at hc'
    by_cases hk : key.index = i
    · subst hk
      rw [Slots.entry_set_self hi] at hc'
      cases hc'
    · rw [Slots.entry_set_of_ne hk] at hc'
      exact Or.inl hc'

/-- After the closure the table of the static stream does not matter any more. -/
theorem of_closed (h : Mirrors published l w) (hclosed : w.stream.state.closed = true)
    {l' : Local.State α cap}
    (hstatic : l' = { l with cursors := l'.cursors, changed := l'.changed }) :
    Mirrors published l' w where
  delivery := by
    rw [hstatic]
    exact h.delivery
  capacity := h.capacity
  latest := h.latest
  retains := h.retains
  tail := by
    rw [hstatic]
    exact h.tail
  ids := by
    rw [hstatic]
    exact h.ids
  closed := by
    rw [hstatic]
    exact h.closed
  room := h.room
  cursors := by
    intro hopen
    rw [hclosed] at hopen
    cases hopen
  awake := h.awake
  ring := by
    rw [hstatic]
    exact h.ring
  head := h.head
  newest := h.newest

theorem close (h : Mirrors published l w) (hsame : w.SameStream w')
    (hstate : w'.stream.state = { w.stream.state with
      closed := true, entries := [], subscribers := [], retired := none }) :
    Mirrors published (l.close .closed) w' where
  delivery := h.delivery.trans hsame.delivery.symm
  capacity := by
    rw [hsame.config]
    exact h.capacity
  latest := by
    rw [hsame.delivery]
    exact h.latest
  retains := by
    refine (h.retains.close true true).of_state (hsame.of_unlock _ _ _) ?_
    rw [hstate, World.unlock_state]
  tail := by
    rw [hstate]
    exact h.tail
  ids := by
    rw [hstate]
    exact h.ids
  closed := by
    rw [hstate, Local.State.close, h.closed]
    cases w.stream.state.closed <;> rfl
  room := by
    rw [hstate]
    exact h.room
  cursors := by
    rw [hstate]
    intro hopen
    cases hopen
  awake := by
    rw [hstate]
    simp [Slots.entry]
  ring := by
    rw [hstate]
    simp
  head := by
    rw [hstate]
    simp [Slots.entry]
  newest := by
    rw [hstate]
    intro _ hopen
    cases hopen

end Mirrors

/-! ## One step -/

/-- How the receivers of a dynamic stream name their cursors. -/
def handles : Handles Fabric.Cursor DynamicReceiver where
  ident := Fabric.Cursor.id
  index := fun r => r.key.index
  id := fun r => r.key.id
  live := fun r => !r.dropped

/-- Both backends after the same operations. -/
structure Related [Target] (c : Clients) (roles : SubscriptionRole → Prop) (g : Grants)
    (s : Static α cap) (d : Dynamic α) : Prop where
  mirrors : ∃ published, Mirrors published s.state d.world
  funded : Funded c roles g d.world d.receivers
  receivers : s.receivers = d.receivers.map DynamicReceiver.static
  size : s.state.cursors.length = d.world.stream.config.subscribers
  index : ∀ r ∈ d.receivers, r.key.index < d.world.stream.config.subscribers
  owns : d.world.stream.state.closed = false →
    handles.Owns d.world.stream.state.subscribers d.world.stream.state.nextCursor d.receivers
      fun r cursor => cursor.grant = r.node

namespace Related

variable [Target] {c : Clients} {roles : SubscriptionRole → Prop} {g : Grants}
  {s : Static α cap} {d : Dynamic α}

theorem sendNow (h : Related c roles g s d) (hcap : 0 < cap) (hword : cap ≤ usizeMax) (value : α) :
    ∃ o s' d', s.sendNow value = .ok (o, s') ∧ d.sendNow c value = (o, d') ∧
      Related c roles g s' d' := by
  obtain ⟨published, hm⟩ := h.mirrors
  have hcapacity := hm.capacity
  have hmax := hm.retains.bounded
  have htail := hm.retains.tail
  have heq := s.state.sendNow_eq hcap hword value
  -- a refusal is the same on both sides and changes nothing
  have hrefused : ∀ error, refusal d.world value = some error →
      s.state.sendNow value = .ok (.error error, s.state) →
      ∃ o s' d', s.sendNow value = .ok (o, s') ∧ d.sendNow c value = (o, d') ∧
        Related c roles g s' d' := by
    intro error he hstatic
    obtain ⟨w', hdynamic, hstate, hsame, hfunded⟩ := h.funded.sendNow_refused hm.room he
    refine ⟨.sent (.error error), s, { d with world := w' }, ?_, ?_, ?_⟩
    · simp only [Static.sendNow, hstatic, ok_bind, pure_eq]
    · simp only [Dynamic.sendNow, hdynamic]
    · exact
        { mirrors := ⟨published, hm.of_state hsame hstate⟩
          funded := hfunded
          receivers := h.receivers
          size := by rw [hsame.config]; exact h.size
          index := by rw [hsame.config]; exact h.index
          owns := by rw [hstate]; exact h.owns }
  cases hopen : d.world.stream.state.closed with
  | true =>
    have hclosed : s.state.closed = some .closed := by
      rw [hm.closed, hopen]
      rfl
    refine hrefused (.closed value) (by rw [refusal, if_pos hopen]) ?_
    rw [heq, hclosed]
    rfl
  | false =>
    rw [hm.opened hopen] at heq
    by_cases hexhausted : d.world.stream.state.tail = u64Max
    · refine hrefused (.sequenceExhausted value) ?_ ?_
      · rw [refusal, if_neg (by simp [hopen]), if_pos hexhausted]
      · rw [heq]
        dsimp only
        rw [hm.tail, if_pos (by omega)]
    · by_cases hblocked : d.world.Blocked
      · refine hrefused (.full value) ?_ ?_
        · rw [refusal, if_neg (by simp [hopen]), if_neg hexhausted, if_pos hblocked]
        · rw [heq]
          dsimp only
          rw [hm.tail, if_neg (by omega), if_pos ((hm.full_iff hcap hopen).mpr hblocked)]
      · have hpos : 0 < d.world.stream.config.capacity := by omega
        have hnone : refusal d.world value = none := by
          rw [refusal, if_neg (by simp [hopen]), if_neg hexhausted, if_neg hblocked]
        obtain ⟨lease, w', hdynamic, hnode, hstate⟩ := h.funded.sendNow_accepted hm.retains hpos
          (fun hl => hcapacity.trans (hm.latest hl)) hm.room hnone
        have hsame := World.SameStream.sendNow hpos c.publisher value
        rw [hdynamic] at hsame
        have hretains := Mirrors.retains_push hm.retains hopen (by omega) hpos hblocked hsame hstate
        refine ⟨.sent (.ok ()), { s with state := s.state.push hcap value },
          { d with world := w' }, ?_, ?_, ?_⟩
        · have hstatic : s.state.sendNow value = .ok (.ok (), s.state.push hcap value) := by
            rw [heq]
            dsimp only
            rw [hm.tail, if_neg (by omega), if_neg fun hf => hblocked ((hm.full_iff hcap hopen).mp hf)]
          simp only [Static.sendNow, hstatic, ok_bind, pure_eq]
        · simp only [Dynamic.sendNow, hdynamic]
        · exact
            { mirrors := ⟨_, hm.push hcap hsame hstate hretains⟩
              funded := h.funded.sendNow hpos hdynamic hnode hstate
              receivers := h.receivers
              size := by rw [hsame.config]; exact h.size
              index := by rw [hsame.config]; exact h.index
              owns := by rw [hstate]; exact h.owns }

/-! ### Subscription -/

omit [Target] in
theorem static_subscribe_ok {role : SubscriptionRole} {key : Local.SubscriberKey}
    {l : Local.State α cap} (h : s.state.subscribe role = (.ok key, l)) :
    s.subscribe role = (.subscribed (.ok ()), ⟨l, s.receivers ++ [⟨key, false⟩]⟩) := by
  simp only [Static.subscribe, h]

theorem dynamic_subscribe_ok {role : SubscriptionRole} {key : Fabric.CursorKey} {lease : Lease}
    {w : World α} (h : d.world.subscribe (c.reader role) role = (.ok (key, lease), w)) :
    d.subscribe c role =
      (.subscribed (.ok ()), ⟨w, d.receivers ++ [⟨c.reader role, key, lease, false⟩]⟩) := by
  simp only [Dynamic.subscribe, h]

omit [Target] in
theorem outside_length (rs : List DynamicReceiver) :
    (outside rs).length = (rs.filter handles.live).length := by
  induction rs with
  | nil => rfl
  | cons r rest ih =>
    unfold outside at ih ⊢
    cases hd : r.dropped with
    | true => simp [handles, hd] at ih ⊢; exact ih
    | false => simp [handles, hd] at ih ⊢; exact ih

/-- A refused subscription is refused on both sides and takes no slot. -/
theorem refused (h : Related c roles g s d) {role : SubscriptionRole} {error : TopicError}
    {w' : World α} (hstatic : s.state.subscribe role = (.error error, s.state))
    (hdynamic : d.world.subscribe (c.reader role) role = (.error error, w'))
    (hstate : w'.stream.state = d.world.stream.state) :
    ∃ o s' d', s.subscribe role = (o, s') ∧ d.subscribe c role = (o, d') ∧
      Related c roles g s' d' := by
  obtain ⟨published, hm⟩ := h.mirrors
  have hsame := World.SameStream.subscribe d.world (c.reader role) role
  rw [hdynamic] at hsame
  refine ⟨.subscribed (.error error), s, { d with world := w' }, ?_, ?_, ?_⟩
  · simp only [Static.subscribe, hstatic]
  · simp only [Dynamic.subscribe, hdynamic]
  · exact
      { mirrors := ⟨published, hm.of_state hsame hstate⟩
        funded := h.funded.refused hdynamic hstate
        receivers := h.receivers
        size := by rw [hsame.config]; exact h.size
        index := by rw [hsame.config]; exact h.index
        owns := by rw [hstate]; exact h.owns }

theorem subscribe (h : Related c roles g s d) {role : SubscriptionRole} (hrole : roles role)
    (hlatest : ¬ (d.world.stream.delivery = .latest ∧ role = .required)) :
    ∃ o s' d', s.subscribe role = (o, s') ∧ d.subscribe c role = (o, d') ∧
      Related c roles g s' d' := by
  obtain ⟨published, hm⟩ := h.mirrors
  obtain ⟨lease, w₁, hstream, hlease, heq⟩ := h.funded.subscribe_eq hrole hlatest
  have hlatest' : ¬ (s.state.delivery = .latest ∧ role = .required) := by
    rw [hm.delivery]
    exact hlatest
  have hunchanged : ((w₁.unlock w₁.stream.state false true).release lease).stream.state =
      d.world.stream.state := by
    rw [World.release_state, World.unlock_state, hstream]
  cases hopen : d.world.stream.state.closed with
  | true =>
    have hclosed : s.state.closed = some .closed := by
      rw [hm.closed, hopen]
      rfl
    rw [World.claim_closed _ _ (by rw [hstream]; exact hopen)] at heq
    exact h.refused (Local.State.subscribe_closed hclosed) heq hunchanged
  | false =>
    have hfree : Slots.free s.state.cursors = Slots.free d.world.stream.state.subscribers := by
      rw [hm.cursors hopen, Slots.free_map]
    by_cases hfull : Slots.free d.world.stream.state.subscribers = none ∨
        d.world.stream.state.nextCursor + 1 > u64Max
    · rw [World.claim_full _ _ (by rw [hstream]; exact hopen) (by rw [hstream]; exact hfull)] at heq
      refine h.refused (Local.State.subscribe_full (hm.opened hopen) hlatest' ?_) heq hunchanged
      rw [hfree, hm.ids]
      exact hfull
    · push Not at hfull
      obtain ⟨hsome, hmax⟩ := hfull
      obtain ⟨index, hslot⟩ := Option.ne_none_iff_exists'.mp hsome
      have hstatic := Local.State.subscribe_ok (hm.opened hopen) hlatest'
        (hfree.trans hslot) (by rw [hm.ids]; exact Nat.not_lt.mpr hmax)
      rw [World.claim_ok _ _ (by rw [hstream]; exact hopen) (by rw [hstream]; exact hslot)
        (by rw [hstream]; exact Nat.not_lt.mpr hmax)] at heq
      dsimp only at heq
      have hsame := World.SameStream.subscribe d.world (c.reader role) role
      rw [heq] at hsame
      obtain ⟨hi, hempty⟩ := Slots.free_eq_some hslot
      have hsize : d.world.stream.state.subscribers.length = d.world.stream.config.subscribers := by
        rw [← h.size, hm.cursors hopen, List.length_map]
      have hstate : (w₁.claimed index (c.reader role) role).stream.state =
          { d.world.stream.state with
            nextCursor := d.world.stream.state.nextCursor + 1
            subscribers := d.world.stream.state.subscribers.set index
              (some ⟨d.world.stream.state.nextCursor, d.world.startPosition, role,
                c.reader role⟩) } := by
        unfold World.claimed World.startPosition
        rw [World.unlock_state, hstream]
      have howns := (h.owns hopen).insert
        (x := ⟨c.reader role, ⟨index, d.world.stream.state.nextCursor⟩, lease, false⟩)
        (c := ⟨d.world.stream.state.nextCursor, d.world.startPosition, role, c.reader role⟩)
        hi hempty rfl rfl rfl rfl
      have hcount : (outside d.receivers).length + 1 ≤ d.world.stream.config.subscribers := by
        have hle := howns.live_le
        rw [← outside_length, outside_snoc _ rfl, List.length_append, List.length_set,
          hsize] at hle
        exact hle
      have hrevoked : d.world.grants.isRevoked (c.reader role) = false := by
        rw [h.funded.authority.isRevoked_eq]
        exact Grants.not_revoked_of_enter (h.funded.sufficient.subscribe role hrole).1
      rw [hstream] at heq
      refine ⟨_, _, _, static_subscribe_ok hstatic, dynamic_subscribe_ok heq, ?_⟩
      exact
        { mirrors := ⟨published, hm.claim hopen hi hlatest hrevoked hsame hstate⟩
          funded := h.funded.subscribed hrole heq hlease (by rw [hstate]) (by rw [hstate]) hcount
          receivers := by
            rw [List.map_append, h.receivers, hm.ids]
            rfl
          size := by
            rw [hsame.config, List.length_set]
            exact h.size
          index := by
            rw [hsame.config]
            intro r hr
            rcases List.mem_append.mp hr with hr | hr
            · exact h.index r hr
            · rw [List.mem_singleton.mp hr, ← hsize]
              exact hi
          owns := by
            intro _
            rw [hstate]
            exact howns }

/-! ### Reception -/

theorem getElem?_receivers (h : Related c roles g s d) (r : Nat) :
    s.receivers[r]? = (d.receivers[r]?).map DynamicReceiver.static := by
  rw [h.receivers, List.getElem?_map]

theorem recvNow (h : Related c roles g s d) (hcap : 0 < cap) (hword : cap ≤ usizeMax) (r : Nat) :
    ∃ o s' d', s.recvNow r = .ok (o, s') ∧ d.recvNow r = .ok (o, d') ∧
      Related c roles g s' d' := by
  unfold Static.recvNow Dynamic.recvNow
  rw [h.getElem?_receivers]
  cases hr : d.receivers[r]? with
  | none => exact ⟨_, _, _, rfl, rfl, h⟩
  | some receiver =>
    dsimp only [Option.map_some, DynamicReceiver.static]
    cases hd : receiver.dropped with
    | true => exact ⟨_, _, _, rfl, rfl, h⟩
    | false =>
      obtain ⟨published, hm⟩ := h.mirrors
      have henter := h.funded.reads (List.mem_of_getElem? hr)
      rw [if_neg (by decide), if_neg (by decide)]
      cases hopen : d.world.stream.state.closed with
      | true =>
        have hclosed : s.state.closed = some .closed := by
          rw [hm.closed, hopen]
          rfl
        have hdynamic := @World.tryRecv_closed _ _ d.world _ receiver.key henter hopen
        have hsame := World.SameStream.tryRecv hdynamic
        have hm' := hm.of_state hsame (World.unlock_state _ _ _ _)
        have hretired : (d.world.unlock d.world.stream.state false false).stream.state.retired =
            none := by
          rw [World.unlock_state]
          exact h.funded.retired
        have hsame' := hsame.trans (World.Trims.maintain _).toSameStream
        refine ⟨_, _, _, by rw [Local.State.recvNow_closed hclosed, ok_bind, pure_eq],
          by rw [World.recvNow_ok hdynamic, ok_bind, pure_eq], ?_⟩
        exact
          { mirrors := ⟨published, hm'.maintain hretired⟩
            funded := h.funded.received hm.room hdynamic
            receivers := h.receivers
            size := by rw [hsame'.config]; exact h.size
            index := by rw [hsame'.config]; exact h.index
            owns := by
              intro ho
              rw [(World.Trims.maintain _).closed, World.unlock_state, hopen] at ho
              cases ho }
      | false =>
        have hlive : handles.live receiver = true := by simp [handles, hd]
        obtain ⟨cursor, hc, hid, hgrant⟩ := (h.owns hopen).live r receiver hr hlive
        obtain ⟨result, l', w', hstatic, hdynamic, hm', next, hstate⟩ :=
          hm.recv hcap hword hopen henter hc hid
        have hsame := World.SameStream.tryRecv hdynamic
        have hretired : w'.stream.state.retired = none := by
          rw [hstate]
          exact h.funded.retired
        have ht := World.Trims.maintain w'
        have hsame' := hsame.trans ht.toSameStream
        refine ⟨.received result, { s with state := l' }, { d with world := w'.maintain },
          by rw [hstatic, ok_bind, pure_eq],
          by rw [World.recvNow_ok hdynamic, ok_bind, pure_eq], ?_⟩
        have hopen' : w'.stream.state.closed = false := by
          rw [hstate]
          exact hopen
        have howns := (h.owns hopen).update (b := { cursor with next := next }) (y := receiver)
          hr hlive hc rfl rfl hlive rfl hgrant
        exact
          { mirrors := ⟨published, hm'.maintain hretired⟩
            funded := h.funded.received hm.room hdynamic
            receivers := h.receivers
            size := by
              rw [hsame'.config, ← h.size, hm.cursors hopen, hm'.cursors hopen', hstate]
              simp
            index := by rw [hsame'.config]; exact h.index
            owns := by
              intro _
              rw [ht.subscribers, ht.nextCursor, hstate]
              rw [Slots.set_getElem? hr] at howns
              exact howns }

/-! ### Drop and closure -/

theorem drop (h : Related c roles g s d) (r : Nat) :
    ∃ o s' d', s.drop r = .ok (o, s') ∧ d.drop r = (o, d') ∧ Related c roles g s' d' := by
  unfold Static.drop Dynamic.drop
  rw [h.getElem?_receivers]
  cases hr : d.receivers[r]? with
  | none => exact ⟨_, _, _, rfl, rfl, h⟩
  | some receiver =>
    dsimp only [Option.map_some, DynamicReceiver.static]
    cases hd : receiver.dropped with
    | true => exact ⟨_, _, _, rfl, rfl, h⟩
    | false =>
      obtain ⟨published, hm⟩ := h.mirrors
      have hlive : handles.live receiver = true := by simp [handles, hd]
      have hindex : receiver.key.index < s.state.cursors.length := by
        rw [h.size]
        exact h.index receiver (List.mem_of_getElem? hr)
      have hlive' : (⟨receiver.key.index, receiver.key.id⟩ : Local.SubscriberKey).index <
          s.state.cursors.length := hindex
      have hstatic := Local.State.drop_eq hlive'
      obtain ⟨l', hl'⟩ : ∃ l', l' = if (s.state.cursor ⟨receiver.key.index, receiver.key.id⟩).isSome
          then { s.state with
            cursors := s.state.cursors.set receiver.key.index none
            changed := s.state.changed ||| Local.Interest.send.bits }
          else s.state := ⟨_, rfl⟩
      rw [← hl'] at hstatic
      -- first without its cursor, then trimmed
      have hgone : Mirrors published l' (d.world.unlock { d.world.stream.state with
          subscribers := d.world.stream.state.subscribers.set receiver.key.index none } true true) := by
        cases hopen : d.world.stream.state.closed with
        | true =>
          obtain ⟨-, hnil⟩ := hm.retains.closed hopen
          refine (hm.of_closed hopen ?_).of_state (World.SameStream.unlock _ _ _ _) ?_
          · rw [hl']
            split <;> rfl
          · rw [World.unlock_state, hnil, List.set_nil]
            simp [← hnil]
        | false =>
          obtain ⟨cursor, hc, hid, -⟩ := (h.owns hopen).live r receiver hr hlive
          rw [hm.cursor_eq hopen hc hid, Option.isSome_some, if_pos rfl] at hl'
          exact hm.vacated hopen hc (by rw [hl']) true true
      obtain ⟨n, hstate, hconsumed, hlatest⟩ := World.retireConsumed_state
        (d.world.unlock { d.world.stream.state with
          subscribers := d.world.stream.state.subscribers.set receiver.key.index none } true true)
      have ht := (World.Trims.retireConsumed (d.world.unlock { d.world.stream.state with
        subscribers := d.world.stream.state.subscribers.set receiver.key.index none } true
          true))
      have hm' := (hgone.trims ht hstate hconsumed hlatest).of_state
        (World.SameStream.release _ receiver.lease) (World.release_state _ _)
      have hfinal : (d.world.dropReceiver receiver.key receiver.lease).stream.state =
          { d.world.stream.state with
            subscribers := d.world.stream.state.subscribers.set receiver.key.index none
            entries := d.world.stream.state.entries.drop n } := by
        rw [World.unlock_state] at hstate
        exact (World.release_state _ _).trans hstate
      have hsame := World.SameStream.dropReceiver d.world receiver.key receiver.lease
      refine ⟨.silent, _, _, by rw [if_neg (by decide), hstatic, ok_bind, pure_eq],
        if_neg (by decide), ?_⟩
      exact
        { mirrors := ⟨published, hm'⟩
          funded := h.funded.dropped hr hd (by rw [hfinal]) (by rw [hfinal])
          receivers := by
            rw [List.map_set, h.receivers]
            rfl
          size := by
            rw [hsame.config, ← h.size, hl']
            split <;> simp
          index := by
            rw [hsame.config]
            intro r' hr'
            rcases List.mem_or_eq_of_mem_set hr' with hr' | rfl
            · exact h.index r' hr'
            · exact h.index receiver (List.mem_of_getElem? hr)
          owns := by
            rw [hfinal]
            intro hopen
            exact (h.owns hopen).remove hr hlive rfl (by simp [handles]) }

theorem close (h : Related c roles g s d) :
    Related c roles g { s with state := s.state.close .closed }
      { d with world := (d.world.closeStream Fabric.Session.root).2 } := by
  obtain ⟨published, hm⟩ := h.mirrors
  obtain ⟨w', he, hstate, hsame, hfunded⟩ := h.funded.closeStream
  rw [he]
  exact
    { mirrors := ⟨published, hm.close hsame hstate⟩
      funded := hfunded
      receivers := h.receivers
      size := by
        rw [hsame.config]
        exact h.size
      index := by
        rw [hsame.config]
        exact h.index
      owns := by
        rw [hstate]
        intro hopen
        cases hopen }

/-- One operation, on both sides. -/
theorem step (h : Related c roles g s d) (hcap : 0 < cap) (hword : cap ≤ usizeMax) (op : Op α)
    (hop : ∀ role, op = .subscribe role → roles role) :
    ∃ o s' d', s.step op = .ok (o, s') ∧ d.step c op = .ok (o, d') ∧ Related c roles g s' d' := by
  cases op with
  | subscribe role =>
    have hrole := hop role rfl
    have hlatest : ¬ (d.world.stream.delivery = .latest ∧ role = .required) := by
      rintro ⟨hl, rfl⟩
      exact h.funded.sufficient.ordered hl hrole
    obtain ⟨o, s', d', hs, hd, h'⟩ := h.subscribe hrole hlatest
    exact ⟨o, s', d', congrArg _ hs, congrArg _ hd, h'⟩
  | sendNow value =>
    obtain ⟨o, s', d', hs, hd, h'⟩ := h.sendNow hcap hword value
    exact ⟨o, s', d', hs, congrArg _ hd, h'⟩
  | recvNow r => exact h.recvNow hcap hword r
  | drop r =>
    obtain ⟨o, s', d', hs, hd, h'⟩ := h.drop r
    exact ⟨o, s', d', hs, congrArg _ hd, h'⟩
  | close => exact ⟨_, _, _, rfl, rfl, h.close⟩

end Related

/-! ## Whole scripts -/

/-- New streams are related. -/
theorem related_begin [Target] {c : Clients} {roles : SubscriptionRole → Prop} {g : Grants}
    {event : EventId} {delivery : Delivery} {config : Fabric.StreamConfig}
    {stream : Fabric.Stream α} (hcreate : Fabric.Stream.create event delivery config = .ok stream)
    (h : Sufficient c roles event delivery config g) :
    Related c roles g (⟨Local.State.new delivery config.subscribers, []⟩ : Static α config.capacity)
      ⟨⟨g, stream⟩, []⟩ := by
  obtain ⟨hcap, -, hlatest, rfl⟩ := Fabric.Session.create_spec hcreate
  have hnone : ∀ (i : Nat) (c : Fabric.Cursor),
      Slots.entry (List.replicate config.subscribers none) i ≠ some c := by
    intro i c hc
    rw [Slots.entry_replicate] at hc
    cases hc
  exact
    { mirrors := ⟨[],
        { delivery := rfl
          capacity := rfl
          latest := hlatest
          retains := World.Retains.empty g event delivery config
          tail := rfl
          ids := rfl
          closed := rfl
          room := rfl
          cursors := by
            intro _
            simp [Local.State.new, Fabric.Stream.empty]
          awake := fun i c hc => absurd hc (hnone i c)
          ring := by simp [Fabric.Stream.empty]
          head := fun i c hc => absurd hc (hnone i c)
          newest := by simp }⟩
      funded :=
        { sufficient := h
          authority := SameAuthority.refl g
          registers := fun _ hi => hi
          balanced := (Fabric.Session.balanced_begin h.bounded rfl rfl).world
          retired := rfl
          own := by simp [Fabric.Stream.empty]
          lease := by simp
          reader := by simp
          count := Nat.zero_le _ }
      receivers := rfl
      size := by simp [Local.State.new, Fabric.Stream.empty]
      index := by simp
      owns := fun _ => Handles.Owns.nil }

/-- A static and a dynamic stream of the same capacity, subscriber bound and delivery mode
give the same answers to every script, if allowances are no obstacle. -/
theorem outcomes_eq [Target] {c : Clients} {roles : SubscriptionRole → Prop} {g : Grants}
    {event : EventId} {delivery : Delivery} {config : Fabric.StreamConfig}
    {stream : Fabric.Stream α} (hcreate : Fabric.Stream.create event delivery config = .ok stream)
    (h : Sufficient c roles event delivery config g) (ops : List (Op α))
    (hops : ∀ role, Op.subscribe role ∈ ops → roles role) :
    ∃ os, @Static.outcomes α config.capacity _ delivery config.subscribers ops = .ok os ∧
      Dynamic.outcomes c g stream ops = .ok os := by
  obtain ⟨hcap, hvalid, hlatest, -⟩ := Fabric.Session.create_spec hcreate
  have hword : config.capacity ≤ usizeMax := hvalid.trans isizeMax_lt_usizeMax.le
  obtain ⟨os, hs, hd⟩ := trace_eq (fun s d op hr => hr.step hcap hword op)
    (related_begin hcreate h)
    fun op hop role heq => hops role (by rw [← heq]; exact hop)
  refine ⟨os, ?_, hd⟩
  have hlock : (Local.State.withLock delivery config.subscribers :
      Exec (Local.State α config.capacity)) = .ok (Local.State.new delivery config.subscribers) := by
    unfold Local.State.withLock Exec.assert
    rw [if_pos hcap, if_pos (Decidable.not_or_of_imp hlatest)]
    rfl
  unfold Static.outcomes
  rw [hlock]
  exact hs

/-- One publisher and one reader, which may do everything with the event. -/
def twoClients : Clients := ⟨1, fun _ => 2⟩

/-- A lagging observer, a required receiver that is dropped, and a closure. -/
theorem outcomes_eq_lagging :
    let _ := Target.x64
    let ops : List (Op Nat) := [.subscribe .observer, .sendNow 5, .subscribe .required, .sendNow 6,
      .sendNow 7, .recvNow 1, .recvNow 0, .sendNow 8, .sendNow 9, .drop 1, .sendNow 9, .close,
      .recvNow 0]
    ∃ stream, Fabric.Stream.create ⟨1⟩ .ordered ⟨2, 2, 0⟩ = .ok stream ∧
      ∃ os, @Static.outcomes Nat 2 _ .ordered 2 ops = .ok os ∧
        Dynamic.outcomes twoClients (Fabric.Session.granted ⟨1⟩ [⟨2, 0, 0⟩, ⟨0, 3, 0⟩]) stream
          ops = .ok os := by
  intro _ ops
  refine ⟨_, rfl, @outcomes_eq Nat _ twoClients (fun _ => True) _ ⟨1⟩ .ordered ⟨2, 2, 0⟩ _ rfl
    ⟨?_, by decide, ⟨0, _, rfl, rfl, by decide⟩, ?_, ⟨by decide, _, rfl, by decide⟩, by simp⟩ ops
    fun _ _ => trivial⟩
  · refine Fabric.Session.granted_bounded _ (fun r => ?_) (fun l hl r => ?_) (fun r => ?_)
    · cases r <;> decide
    · fin_cases hl <;> cases r <;> decide
    · cases r <;> decide
  · intro role _
    cases role <;>
      exact ⟨by decide, by decide, ⟨_, rfl, by decide⟩, 0, _, rfl, rfl, by decide⟩

end Hiway.Parity
