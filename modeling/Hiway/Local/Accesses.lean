import Hiway.Local.Tasks
import Hiway.Local.Refinement
import Hiway.Stream.Latest

/-!
# What one access does to the state

Every access of a static stream leaves its state as it was, appends a value, or moves,
adds or removes one cursor, or closes the stream. `Sound` ties the state to what was
admitted and told, and `Blocks` says when an attempt has to wait; an access that takes
a reason to wait away leaves the bit of that interest behind.

* `send`: an attempt to publish is full exactly if it has to wait, and changes nothing
  unless it is accepted.
* `receive`: an attempt to receive answers nothing exactly if it has to wait, and then
  changes nothing.
* `announced`: the notification bits do not matter to what is true of the state.
-/

namespace Hiway.Local

open Exec Target

variable {α : Type} {cap : Nat}

/-- How cursors and subscriptions are named. -/
def handles (α : Type) : Handles Cursor (Subscription α) where
  ident := Cursor.generation
  index sub := sub.key.index
  id sub := sub.key.generation
  live sub := !sub.dropped

namespace State

/-! ## Waiting -/

/-- What a future waits for. -/
inductive Wait where
  | send
  | receive (key : SubscriberKey)

def Wait.interest : Wait → Interest
  | .send => .send
  | .receive _ => .receive

/-- The attempt of a future has to be repeated later. -/
def Blocks (s : State α cap) : Wait → Prop
  | .send => s.closed = none ∧ s.tail + 1 ≤ u64Max ∧ s.Full
  | .receive key => s.closed = none ∧ ∃ c, s.cursor key = some c ∧ s.position c = s.tail

/-- The next notification concerns this interest. -/
def Announces (s : State α cap) (interest : Interest) : Prop := s.changed &&& interest.bits ≠ 0

theorem or_and_self (a b : UInt8) : (a ||| b) &&& b = b := by
  apply UInt8.toBitVec_inj.mp
  apply BitVec.eq_of_getElem_eq
  intro i hi
  simp only [UInt8.toBitVec_and, UInt8.toBitVec_or, BitVec.getElem_and, BitVec.getElem_or]
  cases a.toBitVec[i] <;> cases b.toBitVec[i] <;> rfl

theorem and_of_or {a b c : UInt8} (h : (a ||| b) &&& c = 0) : a &&& c = 0 := by
  apply UInt8.toBitVec_inj.mp
  have hv := UInt8.toBitVec_inj.mpr h
  apply BitVec.eq_of_getElem_eq
  intro i hi
  have hb := congrArg (fun v : BitVec 8 => v[i]) hv
  simp only [UInt8.toBitVec_and, UInt8.toBitVec_or, BitVec.getElem_and, BitVec.getElem_or] at hb ⊢
  revert hb
  cases a.toBitVec[i] <;> cases c.toBitVec[i] <;> cases b.toBitVec[i] <;> simp

theorem Interest.bits_ne (interest : Interest) : interest.bits ≠ 0 := by
  cases interest <;> decide

theorem announces_or (s : State α cap) {st : State α cap} {interest : Interest}
    (h : st.changed = s.changed ||| interest.bits) : st.Announces interest := by
  unfold Announces
  rw [h, or_and_self]
  exact Interest.bits_ne interest

theorem announces_mono {s st : State α cap} {interest : Interest} {bits : UInt8}
    (h : st.changed = s.changed ||| bits) (ha : s.Announces interest) : st.Announces interest := by
  unfold Announces at ha ⊢
  rw [h]
  exact fun hz => ha (and_of_or hz)

/-- From `s` to `st` no reason to wait for `k` disappears silently. -/
structure Heard (s st : State α cap) (k : Wait) : Prop where
  blocks : s.Blocks k → st.Blocks k ∨ st.Announces k.interest
  announces : s.Announces k.interest → st.Announces k.interest

theorem Heard.refl (s : State α cap) (k : Wait) : Heard s s k := ⟨Or.inl, id⟩

theorem heard_push (s : State α cap) (hcap : 0 < cap) (value : α) (hfull : ¬ s.Full) (k : Wait) :
    Heard s (s.push hcap value) k where
  blocks := by
    intro h
    cases k with
    | send => exact absurd h.2.2 hfull
    | receive key => exact Or.inr (announces_or s rfl)
  announces := announces_mono rfl

theorem heard_close (s : State α cap) (reason : CloseReason) (k : Wait) :
    Heard s (s.close reason) k := by
  have h : (s.close reason).Announces k.interest := by
    change (0xFF : UInt8) &&& k.interest.bits ≠ 0
    cases k with
    | send => decide
    | receive key => exact (by decide : (0xFF : UInt8) &&& Interest.receive.bits ≠ 0)
  exact ⟨fun _ => Or.inr h, fun _ => h⟩

theorem cursor_set_of_ne {s : State α cap} {key key' : SubscriberKey} {o : Option Cursor}
    (hne : key.index ≠ key'.index) :
    { s with cursors := s.cursors.set key.index o }.cursor key' = s.cursor key' := by
  unfold cursor
  rw [Slots.entry_set_of_ne hne]

/-- A cursor that moves was not at the tail. -/
theorem heard_moved {s : State α cap} {key : SubscriberKey} {c : Cursor} (next : Nat)
    (hk : s.cursor key = some c) (hpos : s.position c ≠ s.tail) (k : Wait) :
    Heard s (s.moved key c next) k where
  blocks := by
    intro h
    cases k with
    | send => exact Or.inr (announces_or s rfl)
    | receive key' =>
      obtain ⟨hopen, c', hk', hpos'⟩ := h
      refine Or.inl ⟨hopen, c', ?_, hpos'⟩
      have hne : key.index ≠ key'.index := by
        intro heq
        -- both keys would name the one cursor
        have he := (cursor_eq_some.mp hk).1
        have he' := (cursor_eq_some.mp hk').1
        rw [heq, he'] at he
        cases he
        exact hpos hpos'
      exact (cursor_set_of_ne (s := s) hne).trans hk'
  announces := announces_mono rfl

/-- A new cursor takes a slot that nobody reads. -/
theorem heard_subscribed {s : State α cap} {index : Nat} (hfree : Slots.free s.cursors = some index)
    (generation : Nat) (c : Cursor) (k : Wait) :
    Heard s { s with nextGeneration := generation, cursors := s.cursors.set index (some c) } k where
  blocks := by
    obtain ⟨hi, hempty⟩ := Slots.free_eq_some hfree
    intro h
    refine Or.inl ?_
    cases k with
    | send =>
      obtain ⟨hopen, htail, hge, hneed⟩ := h
      refine ⟨hopen, htail, hge, ?_⟩
      unfold requires at hneed ⊢
      rw [Slots.any_iff] at hneed ⊢
      obtain ⟨i, c', hc', hp⟩ := hneed
      refine ⟨i, c', ?_, hp⟩
      rw [Slots.entry_set_of_ne]
      · exact hc'
      · rintro rfl
        rw [hempty] at hc'
        cases hc'
    | receive key =>
      obtain ⟨hopen, c', hk, hpos⟩ := h
      refine ⟨hopen, c', ?_, hpos⟩
      obtain ⟨he, hg⟩ := cursor_eq_some.mp hk
      refine cursor_eq_some.mpr ⟨?_, hg⟩
      rw [Slots.entry_set_of_ne]
      · exact he
      · rintro rfl
        rw [hempty] at he
        cases he
  announces := id

/-- A removed cursor is nobody else's. -/
theorem heard_dropped {s : State α cap} {key : SubscriberKey} (k : Wait)
    (hk : ∀ key', k = .receive key' → key.index = key'.index →
      s.cursor key' = none) :
    Heard s { s with
      cursors := s.cursors.set key.index none
      changed := s.changed ||| Interest.send.bits } k where
  blocks := by
    intro h
    cases k with
    | send => exact Or.inr (announces_or s rfl)
    | receive key' =>
      obtain ⟨hopen, c', hk', hpos⟩ := h
      refine Or.inl ⟨hopen, c', ?_, hpos⟩
      have hne : key.index ≠ key'.index := by
        intro heq
        rw [hk key' rfl heq] at hk'
        cases hk'
      exact (cursor_set_of_ne (s := s) hne).trans hk'
  announces := announces_mono rfl

/-! ## Soundness -/

/-- The state holds the end of what was admitted, and each live cursor stands where its
subscription has been told. -/
structure Sound (published : List α) (subscriptions : List (Subscription α))
    (s : State α cap) : Prop where
  capacity : s.delivery = .latest → cap = 1
  tail : s.tail = published.length
  bounded : s.tail ≤ u64Max
  ring : s.closed = none → ∀ n, s.tail - cap ≤ n → n < s.tail →
    s.values[n % cap]? = some published[n]?
  next : ∀ (i : Nat) (c : Cursor), Slots.entry s.cursors i = some c → c.next ≤ s.tail
  owns : (handles α).Owns s.cursors s.nextGeneration subscriptions fun sub c =>
    s.delivery = .latest → Seen published sub.items c.next
  shows : s.delivery = .latest → ∀ (r : Nat) (sub : Subscription α),
    subscriptions[r]? = some sub → Shows published sub.items

namespace Sound

variable {published : List α} {subscriptions : List (Subscription α)} {s : State α cap}

/-- The notification bits do not matter. -/
theorem announced (h : Sound published subscriptions s) (changed : UInt8) :
    Sound published subscriptions { s with changed := changed } :=
  { capacity := h.capacity
    tail := h.tail
    bounded := h.bounded
    ring := h.ring
    next := h.next
    owns := h.owns
    shows := h.shows }

/-- A live subscription has its cursor. -/
theorem cursor (h : Sound published subscriptions s) {r : Nat} {sub : Subscription α}
    (hr : subscriptions[r]? = some sub) (hd : sub.dropped = false) :
    ∃ c, s.cursor sub.key = some c ∧ c.next ≤ s.tail ∧
      (s.delivery = .latest → Seen published sub.items c.next) := by
  obtain ⟨c, hc, hid, hp⟩ := h.owns.live r sub hr (by simp [handles, hd])
  exact ⟨c, State.cursor_eq_some.mpr ⟨hc, hid⟩, h.next _ c hc, hp⟩

theorem position_le (h : Sound published subscriptions s) {key : SubscriberKey} {c : Cursor}
    (hk : s.cursor key = some c) : s.position c ≤ s.tail := by
  have hle := h.next _ c (State.cursor_eq_some.mp hk).1
  unfold State.position
  split
  · exact max_le hle (Nat.sub_le _ _)
  · exact hle

/-- The newest snapshot is in the ring of one. -/
theorem newest (h : Sound published subscriptions s) (hopen : s.closed = none)
    (hlatest : s.delivery = .latest) {a : α} (ha : published.getLast? = some a) :
    s.values[(s.tail - 1) % cap]? = some (some a) := by
  have hpos : 0 < published.length := by
    cases published with
    | nil => cases ha
    | cons b rest => simp
  have hcap := h.capacity hlatest
  have htail := h.tail
  rw [h.ring hopen (s.tail - 1) (by omega) (by omega), htail, ← List.getLast?_eq_getElem?, ha]

/-- What a reception by a live cursor of an open stream answers. -/
theorem recvNow [Target] (h : Sound published subscriptions s) (hcap : 0 < cap)
    (hword : cap ≤ usizeMax) {key : SubscriberKey} {c : Cursor} (hopen : s.closed = none)
    (hk : s.cursor key = some c) :
    (s.delivery = .ordered ∧ s.position c < s.tail - cap ∧
      s.recvNow key = .ok (.ok (some (.gap (s.position c) (s.tail - cap))),
        s.moved key c (s.tail - cap))) ∨
    (s.position c = s.tail ∧ s.recvNow key = .ok (.ok none, s)) ∨
    (s.position c < s.tail ∧ ∃ value, published[s.position c]? = some value ∧
        s.recvNow key = .ok (.ok (some (.data (s.position c) value)),
          s.moved key c (s.position c + 1))) := by
  have hvalue : ∀ n, s.tail - cap ≤ n → n < s.tail →
      ∃ value, s.values[n % cap]? = some (some value) ∧ published[n]? = some value := by
    intro n hge hlt
    have htail := h.tail
    have hget := List.getElem?_eq_getElem (show n < published.length by omega)
    exact ⟨_, (h.ring hopen n hge hlt).trans (congrArg some hget), hget⟩
  rcases State.recvNow_eq hcap hword hopen hk h.bounded (h.position_le hk) (fun hge hlt =>
      (hvalue _ hge hlt).imp fun _ hv => hv.1) with
    ⟨hgap, he⟩ | ⟨hend, he⟩ | ⟨hge, hlt, value, hv, he⟩
  · refine Or.inl ⟨?_, hgap, he⟩
    cases hd : s.delivery with
    | ordered => rfl
    | latest =>
      have hone := h.capacity hd
      simp only [State.position, hd, if_true] at hgap
      omega
  · refine Or.inr (Or.inl ⟨hend, ?_⟩)
    -- the cursor is at the tail already, so writing it back changes nothing
    have hnext : c.next = s.tail := by
      have hle := h.next _ c (State.cursor_eq_some.mp hk).1
      unfold State.position at hend
      split at hend
      · omega
      · exact hend
    have hset : s.cursors.set key.index (some c) = s.cursors :=
      Slots.set_entry (State.cursor_eq_some.mp hk).1
    have hseek : s.seek key c c.next = s :=
      congrArg (fun cursors => { s with cursors := cursors }) hset
    rw [he, ← hnext, hseek]
  · obtain ⟨value', hv', hpub⟩ := hvalue _ hge hlt
    rw [hv] at hv'
    cases hv'
    exact Or.inr (Or.inr ⟨hlt, value, hpub, he⟩)

/-! ### Each change keeps it -/

theorem push (h : Sound published subscriptions s) (hcap : 0 < cap) (hmax : s.tail + 1 ≤ u64Max)
    (value : α) : Sound (published ++ [value]) subscriptions (s.push hcap value) where
  capacity := h.capacity
  tail := by
    change s.tail + 1 = _
    rw [h.tail, List.length_append, List.length_singleton]
  bounded := hmax
  ring := by
    intro hopen n hge hlt
    change s.tail + 1 - cap ≤ n at hge
    change n < s.tail + 1 at hlt
    change (s.values.set (s.tail % cap) (some value) (Nat.mod_lt _ hcap))[n % cap]? = _
    by_cases hn : n = s.tail
    · subst hn
      rw [Vector.getElem?_set_self, h.tail]
      simp
    · have hne := State.slot_ne (m := n) (n := s.tail) (by omega)
        (show s.tail < n + cap by omega)
      have htail := h.tail
      rw [Vector.getElem?_set_ne _ (Ne.symm hne), h.ring hopen n (by omega) (by omega),
        List.getElem?_append_left (by omega)]
  next := fun i c hc => (h.next i c hc).trans (Nat.le_succ _)
  owns := h.owns.mono fun r sub c _ _ hseen hlatest => (hseen hlatest).append value
  shows := fun hlatest r sub hr => (h.shows hlatest r sub hr).append value

theorem close (h : Sound published subscriptions s) (reason : CloseReason) :
    Sound published subscriptions (s.close reason) where
  capacity := h.capacity
  tail := h.tail
  bounded := h.bounded
  ring := by
    intro hopen
    simp [State.close] at hopen
  next := h.next
  owns := h.owns
  shows := h.shows

/-- A cursor moves, and its subscription has been told what it passed. -/
theorem moved (h : Sound published subscriptions s) {r : Nat} {sub : Subscription α} {c : Cursor}
    (hr : subscriptions[r]? = some sub) (hd : sub.dropped = false)
    (hk : s.cursor sub.key = some c) {next : Nat} (hle : next ≤ s.tail)
    (items : List (StreamItem α)) (hseen : s.delivery = .latest → Seen published items next) :
    Sound published (subscriptions.set r { sub with items := items }) (s.moved sub.key c next) where
  capacity := h.capacity
  tail := h.tail
  bounded := h.bounded
  ring := h.ring
  next := by
    have hi := Slots.lt_of_entry (State.cursor_eq_some.mp hk).1
    intro i c' hc'
    change Slots.entry (s.cursors.set sub.key.index (some { c with next := next })) i = some c'
      at hc'
    by_cases heq : sub.key.index = i
    · subst heq
      rw [Slots.entry_set_self hi] at hc'
      cases hc'
      exact hle
    · rw [Slots.entry_set_of_ne heq] at hc'
      exact h.next i c' hc'
  owns := h.owns.update (b := { c with next := next }) (y := { sub with items := items }) hr
    (by simp [handles, hd]) (State.cursor_eq_some.mp hk).1 rfl rfl (by simp [handles, hd]) rfl
    hseen
  shows := by
    intro hlatest r' sub' hr'
    rcases Handles.getElem?_set_cases hr' with ⟨rfl, rfl⟩ | ⟨-, hr'⟩
    · exact (hseen hlatest).toShows
    · exact h.shows hlatest r' sub' hr'

theorem subscribed (h : Sound published subscriptions s) (role : SubscriptionRole) {index : Nat}
    (hfree : Slots.free s.cursors = some index) :
    Sound published
      (subscriptions ++ [⟨⟨index, s.nextGeneration⟩, role, s.tail, [], false⟩])
      { s with
        nextGeneration := s.nextGeneration + 1
        cursors := s.cursors.set index (some ⟨s.nextGeneration,
          if s.delivery = .latest then s.tail - 1 else s.tail, role⟩) } where
  capacity := h.capacity
  tail := h.tail
  bounded := h.bounded
  ring := h.ring
  next := by
    have hi := (Slots.free_eq_some hfree).1
    intro i c hc
    change Slots.entry (s.cursors.set index _) i = some c at hc
    by_cases heq : index = i
    · subst heq
      rw [Slots.entry_set_self hi] at hc
      cases hc
      change (if s.delivery = .latest then s.tail - 1 else s.tail) ≤ s.tail
      split
      · exact Nat.sub_le _ _
      · exact le_refl _
    · rw [Slots.entry_set_of_ne heq] at hc
      exact h.next i c hc
  owns := by
    obtain ⟨hi, hempty⟩ := Slots.free_eq_some hfree
    refine h.owns.insert
      (x := ⟨⟨index, s.nextGeneration⟩, role, s.tail, [], false⟩) hi hempty rfl rfl rfl ?_
    intro hlatest
    change Seen published [] (if s.delivery = .latest then s.tail - 1 else s.tail)
    have hlatest : s.delivery = .latest := hlatest
    rw [if_pos hlatest, h.tail]
    exact Seen.start published
  shows := by
    intro hlatest r sub hr
    rcases Handles.getElem?_snoc hr with ⟨hr, -⟩ | ⟨-, rfl⟩
    · exact h.shows hlatest r sub hr
    · exact Shows.nil published

theorem dropped (h : Sound published subscriptions s) {r : Nat} {sub : Subscription α}
    (hr : subscriptions[r]? = some sub) (hd : sub.dropped = false) (changed : UInt8) :
    Sound published (subscriptions.set r { sub with dropped := true })
      { s with cursors := s.cursors.set sub.key.index none, changed := changed } where
  capacity := h.capacity
  tail := h.tail
  bounded := h.bounded
  ring := h.ring
  next := by
    intro i c hc
    change Slots.entry (s.cursors.set sub.key.index none) i = some c at hc
    obtain ⟨c₀, hk, -⟩ := h.cursor hr hd
    have hi := Slots.lt_of_entry (State.cursor_eq_some.mp hk).1
    by_cases heq : sub.key.index = i
    · subst heq
      rw [Slots.entry_set_self hi] at hc
      cases hc
    · rw [Slots.entry_set_of_ne heq] at hc
      exact h.next i c hc
  owns := h.owns.remove hr (by simp [handles, hd]) rfl (by simp [handles])
  shows := by
    intro hlatest r' sub' hr'
    rcases Handles.getElem?_set_cases hr' with ⟨rfl, rfl⟩ | ⟨-, hr'⟩
    · exact h.shows hlatest r' sub hr
    · exact h.shows hlatest r' sub' hr'

/-! ### Attempts -/

/-- An attempt to publish is full exactly if it has to wait, and changes nothing unless
it is accepted. -/
theorem send [Target] (h : Sound published subscriptions s) (hcap : 0 < cap)
    (hword : cap ≤ usizeMax) (value : α) :
    ∃ result state, s.sendNow value = .ok (result, state) ∧
      Sound (if result.isOk then published ++ [value] else published) subscriptions state ∧
      state.delivery = s.delivery ∧ (∀ k, State.Heard s state k) ∧
      ((result = .error (.full value) ∧ s.Blocks .send ∧ state = s) ∨
        ¬ s.Blocks .send ∧ ∀ v, result ≠ .error (.full v)) := by
  rw [State.sendNow_eq hcap hword]
  cases hc : s.closed with
  | some reason =>
    refine ⟨_, _, rfl, h, rfl, State.Heard.refl s, Or.inr ⟨?_, ?_⟩⟩
    · rintro ⟨hopen, -⟩
      rw [hc] at hopen
      cases hopen
    · intro v
      split <;> simp
  | none =>
    dsimp only
    by_cases hx : s.tail + 1 > u64Max
    · rw [if_pos hx]
      refine ⟨_, _, rfl, h, rfl, State.Heard.refl s, Or.inr ⟨?_, by simp⟩⟩
      rintro ⟨-, hle, -⟩
      omega
    · rw [if_neg hx]
      by_cases hf : s.Full
      · rw [if_pos hf]
        exact ⟨_, _, rfl, h, rfl, State.Heard.refl s, Or.inl ⟨rfl, ⟨hc, by omega, hf⟩, rfl⟩⟩
      · rw [if_neg hf]
        refine ⟨_, _, rfl, h.push hcap (by omega) value, rfl,
          State.heard_push s hcap value hf, Or.inr ⟨?_, by simp⟩⟩
        rintro ⟨-, -, hfull⟩
        exact hf hfull

/-- An attempt to receive answers nothing exactly if it has to wait, and then changes
nothing. On a latest-state stream it answers what is unread. -/
theorem receive [Target] (h : Sound published subscriptions s) (hcap : 0 < cap)
    (hword : cap ≤ usizeMax) {r : Nat} {sub : Subscription α}
    (hr : subscriptions[r]? = some sub) (hd : sub.dropped = false) :
    ∃ result state, s.recvNow sub.key = .ok (result, state) ∧
      Sound published (subscriptions.set r
        { sub with items := sub.items ++ result.toOption.join.toList }) state ∧
      state.delivery = s.delivery ∧ (∀ k, State.Heard s state k) ∧
      ((result = .ok none ∧ s.Blocks (.receive sub.key) ∧ state = s) ∨
        ¬ s.Blocks (.receive sub.key) ∧ result ≠ .ok none) ∧
      (s.delivery = .latest → s.closed = none →
        result = .ok (unread published sub.items)) := by
  obtain ⟨c, hk, hle, hseen⟩ := h.cursor hr hd
  have hsame : Sound published (subscriptions.set r { sub with items := sub.items ++ [] }) s := by
    rw [List.append_nil, Slots.set_getElem? hr]
    exact h
  cases hopen : s.closed with
  | some reason =>
    refine ⟨_, _, State.recvNow_closed hopen, hsame, rfl, State.Heard.refl s,
      Or.inr ⟨?_, by simp⟩, by simp⟩
    rintro ⟨hnone, -⟩
    rw [hopen] at hnone
    cases hnone
  | none =>
    have hblocks : s.Blocks (.receive sub.key) ↔ s.position c = s.tail := by
      refine ⟨?_, fun hpos => ⟨hopen, c, hk, hpos⟩⟩
      rintro ⟨-, c', hk', hpos⟩
      rw [hk] at hk'
      cases hk'
      exact hpos
    have hgap : s.delivery = .latest → s.tail - 1 ≤ s.position c := by
      intro hlatest
      unfold State.position
      rw [if_pos hlatest]
      exact le_max_right _ _
    have hpos := h.position_le hk
    rcases h.recvNow hcap hword hopen hk with ⟨hordered, hlt, he⟩ | ⟨hend, he⟩ | ⟨hlt, a, ha, he⟩
    · have hne : s.position c ≠ s.tail := by omega
      refine ⟨_, _, he, h.moved hr hd hk (Nat.sub_le _ _) _ ?_, rfl,
        State.heard_moved _ hk hne, Or.inr ⟨hblocks.not.mpr hne, by simp⟩, ?_⟩
      · rw [hordered]
        simp
      · rw [hordered]
        simp
    · refine ⟨_, _, he, hsame, rfl, State.Heard.refl s,
        Or.inl ⟨rfl, hblocks.mpr hend, rfl⟩, ?_⟩
      intro hlatest _
      have hnext : c.next = published.length := by
        have htail := h.tail
        unfold State.position at hend
        rw [if_pos hlatest] at hend
        omega
      rw [(hseen hlatest).unread_of_eq hnext]
    · have hne : s.position c ≠ s.tail := by omega
      -- a latest-state position below the tail is the newest sequence
      have hnewest : s.delivery = .latest →
          s.position c = published.length - 1 ∧ published.getLast? = some a ∧
            c.next < published.length := by
        intro hlatest
        have htail := h.tail
        have hge := hgap hlatest
        have heq : s.position c = published.length - 1 := by omega
        refine ⟨heq, ?_, ?_⟩
        · rw [List.getLast?_eq_getElem?, ← heq]
          exact ha
        · unfold State.position at hlt
          rw [if_pos hlatest] at hlt
          omega
      refine ⟨_, _, he, h.moved hr hd hk hlt _ ?_, rfl, State.heard_moved _ hk hne,
        Or.inr ⟨hblocks.not.mpr hne, by simp⟩, ?_⟩
      · intro hlatest
        obtain ⟨heq, hlast, hbehind⟩ := hnewest hlatest
        have htell := (hseen hlatest).tell hbehind hlast
        have hsucc : s.position c + 1 = published.length := by omega
        change Seen published (sub.items ++ [.data (s.position c) a]) (s.position c + 1)
        rw [hsucc, heq]
        exact htell
      · intro hlatest _
        obtain ⟨heq, hlast, hbehind⟩ := hnewest hlatest
        rw [(hseen hlatest).unread_of_lt hbehind, newest_eq_some.mpr ⟨a, hlast, rfl⟩, heq]

/-- A new stream. -/
theorem new (delivery : Delivery) (subs : Nat) (hcap : delivery = .latest → cap = 1) :
    Sound ([] : List α) [] (State.new delivery subs : State α cap) where
  capacity := hcap
  tail := rfl
  bounded := Nat.zero_le _
  ring := by
    intro _ n _ hlt
    cases hlt
  next := by
    intro i c hc
    change Slots.entry (List.replicate subs none) i = some c at hc
    rw [Slots.entry_replicate] at hc
    cases hc
  owns := Handles.Owns.nil
  shows := by simp

end Sound

end State

end Hiway.Local
