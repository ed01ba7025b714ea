import Hiway.Local.Session

/-!
# The static stream refines an unbounded history

`Inv` ties a session to the history that starts where the stream starts: the ring is
the last `cap` values of it, each live cursor stands at the end of what its
subscription has been told, and no required cursor is behind the ring.

* `inv_step`: every operation succeeds and keeps the invariant.
* `Inv.advance`: a reception moves a cursor, and the items of its subscription grow by one.
* `run_refines`: what is done to an ordered stream, from any tail and ring on, refines a
  history of which each subscription is told an account.
* `ring_cleared_by_close`: a closed stream has cleared its ring.
-/

namespace Hiway.Local

open Exec Target

variable {α : Type} {cap : Nat}

namespace State

/-- What the ring of a state holds for a sequence. -/
def held (s : State α cap) (n : Nat) : Option α := s.values[n % cap]?.join

theorem cursor_eq_some {s : State α cap} {key : SubscriberKey} {c : Cursor} :
    s.cursor key = some c ↔
      Slots.entry s.cursors key.index = some c ∧ c.generation = key.generation := by
  unfold cursor
  rw [Option.filter_eq_some_iff]
  simp

theorem cursor_eq_none {s : State α cap} {key : SubscriberKey} :
    s.cursor key = none ↔
      ∀ c, Slots.entry s.cursors key.index = some c → c.generation ≠ key.generation := by
  unfold cursor
  rw [Option.filter_eq_none_iff]
  simp

/-- Sequences closer than the size of the ring have different slots. -/
theorem slot_ne {m n : Nat} (h : m < n) (hcap : n < m + cap) : m % cap ≠ n % cap := by
  intro heq
  have hz := Nat.sub_mod_eq_zero_of_mod_eq heq.symm
  have hlt : n - m < cap := by omega
  rw [Nat.mod_eq_of_lt hlt] at hz
  omega

end State

namespace Session

/-- The history of a session whose stream started as `first`. -/
def history (first : State α cap) (s : Session α cap) : Nat → Option α :=
  Hiway.history first.tail first.held s.published

/-- The cursor of a subscription that has not been dropped. -/
structure Live (history : Nat → Option α) (first s : State α cap) (sub : Subscription α)
    (c : Cursor) : Prop where
  cursor : s.cursor sub.key = some c
  role : c.role = sub.role
  accounts : Accounts history sub.start sub.items c.next
  ge : first.tail ≤ c.next
  le : c.next ≤ s.tail
  kept : sub.role = .required → s.tail - cap ≤ c.next

structure Inv (first : State α cap) (s : Session α cap) : Prop where
  ordered : s.state.delivery = .ordered
  tail : s.state.tail = first.tail + s.published.length
  bounded : s.state.tail ≤ u64Max
  ring : s.state.closed = none → ∀ n, s.state.tail - cap ≤ n → n < s.state.tail →
    s.state.values[n % cap]? = some (s.history first n)
  owned : ∀ i c, Slots.entry s.state.cursors i = some c →
    ∃ (r : Nat) (sub : Subscription α), s.subscriptions[r]? = some sub ∧
      sub.dropped = false ∧ sub.key = ⟨i, c.generation⟩
  issued : ∀ (r : Nat) (sub : Subscription α), s.subscriptions[r]? = some sub →
    sub.key.index < s.state.cursors.length ∧ sub.key.generation < s.state.nextGeneration
  distinct : ∀ (r r' : Nat) (sub sub' : Subscription α), s.subscriptions[r]? = some sub →
    s.subscriptions[r']? = some sub' →
    sub.key.generation = sub'.key.generation → r = r'
  live : ∀ (r : Nat) (sub : Subscription α), s.subscriptions[r]? = some sub → sub.dropped = false →
    ∃ c, Live (s.history first) first s.state sub c
  dead : ∀ (r : Nat) (sub : Subscription α), s.subscriptions[r]? = some sub → sub.dropped = true →
    s.state.cursor sub.key = none
  gapless : ∀ (r : Nat) (sub : Subscription α), s.subscriptions[r]? = some sub →
    sub.role = .required →
    ∀ item ∈ sub.items, item.isGap = false

variable {first : State α cap} {s : Session α cap}

/-- Two live subscriptions never share a slot. -/
theorem Inv.slots_ne (h : s.Inv first) {r r' : Nat} {sub sub' : Subscription α} {c c' : Cursor}
    (hr : s.subscriptions[r]? = some sub) (hr' : s.subscriptions[r']? = some sub')
    (hc : s.state.cursor sub.key = some c) (hc' : s.state.cursor sub'.key = some c')
    (hne : r' ≠ r) : sub'.key.index ≠ sub.key.index := by
  intro heq
  obtain ⟨he, hg⟩ := State.cursor_eq_some.mp hc
  obtain ⟨he', hg'⟩ := State.cursor_eq_some.mp hc'
  rw [heq, he] at he'
  cases he'
  exact hne (h.distinct r' r sub' sub hr' hr (hg'.symm.trans hg))

/-! ## Closing -/

theorem inv_close (h : s.Inv first) (reason : CloseReason) :
    Inv first { s with state := s.state.close reason } := by
  refine { h with
    ring := ?_
    live := ?_ }
  · intro hc
    simp [State.close] at hc
  · intro r sub hr hd
    obtain ⟨c, hl⟩ := h.live r sub hr hd
    exact ⟨c, hl.cursor, hl.role, hl.accounts, hl.ge, hl.le, hl.kept⟩

/-! ## Subscribing -/

theorem getElem?_snoc {β : Type} {l : List β} {b x : β} {r : Nat} (h : (l ++ [b])[r]? = some x) :
    (l[r]? = some x ∧ r < l.length) ∨ (r = l.length ∧ x = b) := by
  rcases Nat.lt_trichotomy r l.length with hlt | heq | hgt
  · rw [List.getElem?_append_left hlt] at h
    exact Or.inl ⟨h, hlt⟩
  · subst heq
    simp at h
    exact Or.inr ⟨rfl, h.symm⟩
  · rw [List.getElem?_append_right hgt.le, List.getElem?_eq_none (by simp; omega)] at h
    cases h

theorem inv_subscribe (h : s.Inv first) (role : SubscriptionRole) :
    Inv first (s.subscribe role) := by
  unfold subscribe
  rcases s.state.subscribe_spec role with ⟨error, he⟩ | ⟨index, -, -, hfree, -, he⟩
  · rw [he]
    exact h
  · rw [he]
    obtain ⟨hi, hempty⟩ := Slots.free_eq_some hfree
    have hstart : (if s.state.delivery = .latest then s.state.tail - 1 else s.state.tail) =
        s.state.tail := by simp [h.ordered]
    simp only [hstart]
    have hold : ∀ key : SubscriberKey, key.generation < s.state.nextGeneration →
        State.cursor { s.state with
          nextGeneration := s.state.nextGeneration + 1
          cursors := s.state.cursors.set index
            (some ⟨s.state.nextGeneration, s.state.tail, role⟩) } key = s.state.cursor key := by
      intro key hlt
      unfold State.cursor
      dsimp only
      by_cases hk : index = key.index
      · subst hk
        rw [Slots.entry_set_self hi, hempty]
        simp
        omega
      · rw [Slots.entry_set_of_ne hk]
    refine
      { ordered := h.ordered
        tail := h.tail
        bounded := h.bounded
        ring := h.ring
        owned := ?_
        issued := ?_
        distinct := ?_
        live := ?_
        dead := ?_
        gapless := ?_ }
    · intro i c hc
      dsimp only at hc ⊢
      by_cases hk : index = i
      · subst hk
        rw [Slots.entry_set_self hi] at hc
        cases hc
        exact ⟨s.subscriptions.length,
          ⟨⟨index, s.state.nextGeneration⟩, role, s.state.tail, [], false⟩, by simp, rfl, rfl⟩
      · rw [Slots.entry_set_of_ne hk] at hc
        obtain ⟨r, sub, hr, hd, hkey⟩ := h.owned i c hc
        have hlt := (List.getElem?_eq_some_iff.mp hr).1
        exact ⟨r, sub, by rw [List.getElem?_append_left hlt]; exact hr, hd, hkey⟩
    · intro r sub hr
      dsimp only at hr ⊢
      rw [List.length_set]
      rcases getElem?_snoc hr with ⟨hr, -⟩ | ⟨-, rfl⟩
      · obtain ⟨h1, h2⟩ := h.issued r sub hr
        exact ⟨h1, by omega⟩
      · exact ⟨hi, Nat.lt_succ_self _⟩
    · intro r r' sub sub' hr hr' hg
      dsimp only at hr hr'
      rcases getElem?_snoc hr with ⟨hr, -⟩ | ⟨rfl, rfl⟩
      · rcases getElem?_snoc hr' with ⟨hr', -⟩ | ⟨rfl, rfl⟩
        · exact h.distinct r r' sub sub' hr hr' hg
        · have := (h.issued r sub hr).2
          simp only at hg
          omega
      · rcases getElem?_snoc hr' with ⟨hr', -⟩ | ⟨rfl, rfl⟩
        · have := (h.issued r' sub' hr').2
          simp only at hg
          omega
        · rfl
    · intro r sub hr hd
      dsimp only at hr
      rcases getElem?_snoc hr with ⟨hr, -⟩ | ⟨-, rfl⟩
      · obtain ⟨c, hl⟩ := h.live r sub hr hd
        exact ⟨c, (hold sub.key (h.issued r sub hr).2).trans hl.cursor, hl.role, hl.accounts,
          hl.ge, hl.le, hl.kept⟩
      · refine ⟨⟨s.state.nextGeneration, s.state.tail, role⟩, ?_, rfl, Accounts.nil _, ?_, le_refl _,
          fun _ => Nat.sub_le _ _⟩
        · exact State.cursor_eq_some.mpr ⟨Slots.entry_set_self hi, rfl⟩
        · change first.tail ≤ s.state.tail
          rw [h.tail]
          exact Nat.le_add_right _ _
    · intro r sub hr hd
      dsimp only at hr
      rcases getElem?_snoc hr with ⟨hr, -⟩ | ⟨-, rfl⟩
      · exact (hold sub.key (h.issued r sub hr).2).trans (h.dead r sub hr hd)
      · cases hd
    · intro r sub hr hrole
      dsimp only at hr
      rcases getElem?_snoc hr with ⟨hr, -⟩ | ⟨-, rfl⟩
      · exact h.gapless r sub hr hrole
      · simp

/-! ## Sending -/

theorem inv_push (hcap : 0 < cap) (h : s.Inv first) (hmax : s.state.tail + 1 ≤ u64Max)
    (hfull : ¬ s.state.Full) (value : α) :
    Inv first { s with
      state := s.state.push hcap value
      published := s.published ++ [value] } := by
  have hhist : ∀ n a, s.history first n = some a →
      history first { s with
        state := s.state.push hcap value, published := s.published ++ [value] } n = some a :=
    fun n a hn => history_append hn
  refine
    { ordered := h.ordered
      tail := ?_
      bounded := hmax
      ring := ?_
      owned := h.owned
      issued := h.issued
      distinct := h.distinct
      live := ?_
      dead := h.dead
      gapless := h.gapless }
  · change s.state.tail + 1 = first.tail + (s.published ++ [value]).length
    rw [h.tail, List.length_append, List.length_singleton, Nat.add_assoc]
  · intro hc n hlo hhi
    change s.state.tail + 1 - cap ≤ n at hlo
    change n < s.state.tail + 1 at hhi
    change (s.state.values.set (s.state.tail % cap) (some value) (Nat.mod_lt _ hcap))[n % cap]? = _
    by_cases hn : n = s.state.tail
    · subst hn
      rw [Vector.getElem?_set_self]
      simp only [history]
      rw [h.tail, history_append_self]
    · have hne := State.slot_ne (m := n) (n := s.state.tail) (by omega)
        (show s.state.tail < n + cap by omega)
      rw [Vector.getElem?_set_ne _ (Ne.symm hne), h.ring hc n (by omega) (by omega)]
      simp only [history]
      rw [history_append_of_lt]
      rw [← h.tail]
      omega
  · intro r sub hr hd
    obtain ⟨c, hl⟩ := h.live r sub hr hd
    refine ⟨c, hl.cursor, hl.role, hl.accounts.mono hhist, hl.ge, hl.le.trans (Nat.le_succ _), ?_⟩
    intro hrole
    change s.state.tail + 1 - cap ≤ c.next
    have hkept := hl.kept hrole
    by_cases hge : s.state.tail ≥ cap
    · -- the overwritten sequence is not needed by this cursor
      have hnot : ¬ s.state.requires (s.state.tail - cap) = true := fun hn => hfull ⟨hge, hn⟩
      unfold State.requires at hnot
      rw [Slots.any_iff] at hnot
      push Not at hnot
      have := hnot sub.key.index c (State.cursor_eq_some.mp hl.cursor).1
      simp only [hl.role, hrole, true_and, ne_eq, decide_eq_true_eq] at this
      omega
    · omega

theorem inv_sendNow [Target] (hcap : 0 < cap) (hword : cap ≤ usizeMax) (h : s.Inv first)
    (value : α) : ∃ s', s.sendNow value = .ok s' ∧ s'.Inv first := by
  unfold sendNow
  rw [State.sendNow_eq hcap hword, ok_bind]
  cases hc : s.state.closed with
  | some reason => exact ⟨s, rfl, h⟩
  | none =>
    dsimp only
    by_cases hx : s.state.tail + 1 > u64Max
    · rw [if_pos hx]
      exact ⟨s, rfl, h⟩
    · rw [if_neg hx]
      by_cases hf : s.state.Full
      · rw [if_pos hf]
        exact ⟨s, rfl, h⟩
      · rw [if_neg hf]
        exact ⟨_, rfl, inv_push hcap h (by omega) hf value⟩

/-! ## Receiving -/

theorem getElem?_set_cases {β : Type} {l : List β} {b x : β} {r r' : Nat}
    (h : (l.set r b)[r']? = some x) : (r' = r ∧ x = b) ∨ (r' ≠ r ∧ l[r']? = some x) := by
  by_cases hr : r = r'
  · subst hr
    obtain ⟨hlt, hx⟩ := List.getElem?_eq_some_iff.mp h
    rw [List.getElem_set_self] at hx
    exact Or.inl ⟨rfl, hx.symm⟩
  · rw [List.getElem?_set_ne hr] at h
    exact Or.inr ⟨Ne.symm hr, h⟩

/-- A live subscription's cursor moves, and its items grow, by one reception. -/
theorem Inv.advance (h : s.Inv first) {r : Nat} {sub : Subscription α} {c : Cursor}
    (hr : s.subscriptions[r]? = some sub) (hd : sub.dropped = false)
    (hl : Live (s.history first) first s.state sub c) {next : Nat} {item : StreamItem α}
    (hacc : Accounts (s.history first) sub.start (sub.items ++ [item]) next)
    (hge : c.next ≤ next) (hle : next ≤ s.state.tail)
    (hgap : sub.role = .required → item.isGap = false) :
    Inv first { s with
      state := s.state.moved sub.key c next
      subscriptions := s.subscriptions.set r { sub with items := sub.items ++ [item] } } := by
  obtain ⟨hentry, hgen⟩ := State.cursor_eq_some.mp hl.cursor
  have hi := Slots.lt_of_entry hentry
  have hlt := (List.getElem?_eq_some_iff.mp hr).1
  have hself : (s.state.moved sub.key c next).cursor sub.key = some { c with next := next } :=
    State.cursor_eq_some.mpr ⟨Slots.entry_set_self hi, hgen⟩
  have hother : ∀ key : SubscriberKey, key.index ≠ sub.key.index →
      (s.state.moved sub.key c next).cursor key = s.state.cursor key := by
    intro key hk
    simp only [State.cursor, State.moved, State.seek, Slots.entry_set_of_ne hk.symm]
  refine
    { ordered := h.ordered
      tail := h.tail
      bounded := h.bounded
      ring := h.ring
      owned := ?_
      issued := ?_
      distinct := ?_
      live := ?_
      dead := ?_
      gapless := ?_ }
  · intro i c' hc'
    have hfind : ∃ c₀, Slots.entry s.state.cursors i = some c₀ ∧ c₀.generation = c'.generation := by
      simp only [State.moved, State.seek] at hc'
      by_cases hk : sub.key.index = i
      · subst hk
        rw [Slots.entry_set_self hi] at hc'
        cases hc'
        exact ⟨c, hentry, rfl⟩
      · rw [Slots.entry_set_of_ne hk] at hc'
        exact ⟨c', hc', rfl⟩
    obtain ⟨c₀, hc₀, hg⟩ := hfind
    obtain ⟨r', sub', hr', hd', hkey⟩ := h.owned i c₀ hc₀
    by_cases hrr : r = r'
    · subst hrr
      rw [hr] at hr'
      cases hr'
      exact ⟨r, { sub with items := sub.items ++ [item] }, by simp [hlt], hd, hg ▸ hkey⟩
    · exact ⟨r', sub', by rw [List.getElem?_set_ne hrr]; exact hr', hd', hg ▸ hkey⟩
  · intro r' sub' hr'
    dsimp only at hr'
    simp only [State.moved, State.seek, List.length_set]
    rcases getElem?_set_cases hr' with ⟨rfl, rfl⟩ | ⟨-, hr'⟩
    · exact h.issued r' sub hr
    · exact h.issued r' sub' hr'
  · intro r₁ r₂ sub₁ sub₂ h₁ h₂ hg
    dsimp only at h₁ h₂
    rcases getElem?_set_cases h₁ with ⟨rfl, rfl⟩ | ⟨-, k₁⟩
    · rcases getElem?_set_cases h₂ with ⟨rfl, rfl⟩ | ⟨-, k₂⟩
      · rfl
      · exact h.distinct r₁ r₂ sub sub₂ hr k₂ hg
    · rcases getElem?_set_cases h₂ with ⟨rfl, rfl⟩ | ⟨-, k₂⟩
      · exact h.distinct r₁ r₂ sub₁ sub k₁ hr hg
      · exact h.distinct r₁ r₂ sub₁ sub₂ k₁ k₂ hg
  · intro r' sub' hr' hd'
    dsimp only at hr'
    rcases getElem?_set_cases hr' with ⟨rfl, rfl⟩ | ⟨hne, hr'⟩
    · exact ⟨{ c with next := next }, hself, hl.role, hacc, hl.ge.trans hge, hle,
        fun hrole => (hl.kept hrole).trans hge⟩
    · obtain ⟨c', hl'⟩ := h.live r' sub' hr' hd'
      have hk := h.slots_ne hr hr' hl.cursor hl'.cursor hne
      exact ⟨c', (hother sub'.key hk).trans hl'.cursor, hl'.role, hl'.accounts, hl'.ge, hl'.le,
        hl'.kept⟩
  · intro r' sub' hr' hd'
    dsimp only at hr'
    rcases getElem?_set_cases hr' with ⟨rfl, rfl⟩ | ⟨hne, hr'⟩
    · rw [hd] at hd'
      cases hd'
    · have hdead := h.dead r' sub' hr' hd'
      by_cases hk : sub'.key.index = sub.key.index
      · rw [State.cursor_eq_none] at hdead ⊢
        intro c' hc'
        simp only [State.moved, State.seek, hk, Slots.entry_set_self hi, Option.some.injEq] at hc'
        subst hc'
        exact hdead c (by rw [hk]; exact hentry)
      · exact (hother sub'.key hk).trans hdead
  · intro r' sub' hr' hrole x hx
    dsimp only at hr'
    rcases getElem?_set_cases hr' with ⟨rfl, rfl⟩ | ⟨-, hr'⟩
    · rcases List.mem_append.mp hx with hx | hx
      · exact h.gapless r' sub hr hrole x hx
      · rw [List.mem_singleton.mp hx]
        exact hgap hrole
    · exact h.gapless r' sub' hr' hrole x hx

theorem inv_recvNow [Target] (hcap : 0 < cap) (hword : cap ≤ usizeMax) (h : s.Inv first)
    (r : Nat) : ∃ s', s.recvNow r = .ok s' ∧ s'.Inv first := by
  unfold recvNow
  cases hr : s.subscriptions[r]? with
  | none => exact ⟨s, rfl, h⟩
  | some sub =>
    dsimp only
    by_cases hd : sub.dropped = true
    · rw [State.recvNow_unknown (h.dead r sub hr hd), ok_bind]
      exact ⟨s, rfl, h⟩
    · have hd : sub.dropped = false := by simpa using hd
      cases hc : s.state.closed with
      | some reason =>
        rw [State.recvNow_closed hc, ok_bind]
        exact ⟨s, rfl, h⟩
      | none =>
        obtain ⟨c, hl⟩ := h.live r sub hr hd
        have hpos : s.state.position c = c.next := by simp [State.position, h.ordered]
        have hle := hl.le
        have hvalue : s.state.tail - cap ≤ s.state.position c → s.state.position c < s.state.tail →
            ∃ value, s.state.values[s.state.position c % cap]? = some (some value) := by
          rw [hpos]
          intro hlo hhi
          obtain ⟨a, ha⟩ : ∃ a, s.history first c.next = some a := by
            refine history_isSome hl.ge ?_
            rw [← h.tail]
            exact hhi
          exact ⟨a, by rw [h.ring hc c.next hlo hhi, ha]⟩
        rcases State.recvNow_eq hcap hword hc hl.cursor h.bounded (hpos ▸ hle) hvalue with
          ⟨hlt, he⟩ | ⟨heq, he⟩ | ⟨hlo, hhi, value, hv, he⟩
        · rw [he, ok_bind, hpos]
          rw [hpos] at hlt
          refine ⟨_, rfl, h.advance hr hd hl (hl.accounts.gap hlt) hlt.le (Nat.sub_le _ _) ?_⟩
          intro hrole
          have := hl.kept hrole
          omega
        · rw [he, ok_bind]
          rw [hpos] at heq
          have hsame : s.state.seek sub.key c s.state.tail = s.state := by
            obtain ⟨hentry, -⟩ := State.cursor_eq_some.mp hl.cursor
            have hi := Slots.lt_of_entry hentry
            rw [Slots.entry_eq_some, List.getElem?_eq_getElem hi, Option.some.injEq] at hentry
            rw [← heq]
            unfold State.seek
            have hset : s.state.cursors.set sub.key.index (some c) = s.state.cursors := by
              rw [← hentry, List.set_getElem_self]
            exact congrArg (fun cursors => { s.state with cursors := cursors }) hset
          rw [hsame]
          exact ⟨s, rfl, h⟩
        · rw [he, ok_bind, hpos]
          rw [hpos] at hv hlo hhi
          have hhist : s.history first c.next = some value := by
            have := h.ring hc c.next hlo hhi
            rw [hv] at this
            exact (Option.some.inj this).symm
          exact ⟨_, rfl, h.advance hr hd hl (hl.accounts.data hhist) (Nat.le_succ _) hhi
            fun _ => rfl⟩

/-! ## Dropping -/

theorem inv_drop (h : s.Inv first) (r : Nat) : ∃ s', s.drop r = .ok s' ∧ s'.Inv first := by
  unfold drop
  cases hr : s.subscriptions[r]? with
  | none => exact ⟨s, rfl, h⟩
  | some sub =>
    have hi := (h.issued r sub hr).1
    have hlt := (List.getElem?_eq_some_iff.mp hr).1
    dsimp only
    rw [State.drop_eq hi, ok_bind]
    refine ⟨_, rfl, ?_⟩
    -- the table after the drop, which changes it only for a live cursor
    obtain ⟨state, hstate⟩ : ∃ state, (if (s.state.cursor sub.key).isSome then
        { s.state with
          cursors := s.state.cursors.set sub.key.index none
          changed := s.state.changed ||| Interest.send.bits }
      else s.state) = state := ⟨_, rfl⟩
    rw [hstate]
    have hgone : state.cursor sub.key = none := by
      rw [← hstate]
      split
      · simp [State.cursor, Slots.entry_set_self hi]
      · rename_i hnone
        simpa using hnone
    have hkeep : ∀ key : SubscriberKey,
        ((s.state.cursor sub.key).isSome → key.index ≠ sub.key.index) →
        state.cursor key = s.state.cursor key := by
      intro key hk
      rw [← hstate]
      split
      · rename_i hsome
        simp only [State.cursor, Slots.entry_set_of_ne (hk hsome).symm]
      · rfl
    have hless : ∀ i c, Slots.entry state.cursors i = some c →
        Slots.entry s.state.cursors i = some c ∧
          ¬ (i = sub.key.index ∧ c.generation = sub.key.generation) := by
      intro i c hc
      rw [← hstate] at hc
      split at hc
      · by_cases hk : sub.key.index = i
        · subst hk
          rw [Slots.entry_set_self hi] at hc
          cases hc
        · rw [Slots.entry_set_of_ne hk] at hc
          exact ⟨hc, fun hx => hk hx.1.symm⟩
      · rename_i hnone
        refine ⟨hc, ?_⟩
        rintro ⟨hx, hg⟩
        apply hnone
        subst hx
        rw [State.cursor_eq_some.mpr ⟨hc, hg⟩]
        rfl
    have hsame : state.delivery = s.state.delivery ∧ state.tail = s.state.tail ∧
        state.values = s.state.values ∧ state.closed = s.state.closed ∧
        state.nextGeneration = s.state.nextGeneration ∧
        state.cursors.length = s.state.cursors.length := by
      rw [← hstate]
      split <;> simp
    obtain ⟨hdel, htail, hvalues, hclosed, hgen, hlen⟩ := hsame
    refine
      { ordered := hdel.trans h.ordered
        tail := htail.trans h.tail
        bounded := htail.trans_le h.bounded
        ring := ?_
        owned := ?_
        issued := ?_
        distinct := ?_
        live := ?_
        dead := ?_
        gapless := ?_ }
    · intro hc n hlo hhi
      dsimp only at hc hlo hhi ⊢
      rw [hclosed] at hc
      rw [htail] at hlo hhi
      rw [hvalues]
      exact h.ring hc n hlo hhi
    · intro i c hc
      obtain ⟨hc, hne⟩ := hless i c hc
      obtain ⟨r', sub', hr', hd', hkey⟩ := h.owned i c hc
      refine ⟨r', sub', ?_, hd', hkey⟩
      have hrr : r ≠ r' := by
        rintro rfl
        rw [hr] at hr'
        cases hr'
        exact hne ⟨by rw [hkey], by rw [hkey]⟩
      dsimp only
      rw [List.getElem?_set_ne hrr]
      exact hr'
    · intro r' sub' hr'
      dsimp only at hr' ⊢
      rw [hlen, hgen]
      rcases getElem?_set_cases hr' with ⟨rfl, rfl⟩ | ⟨-, hr'⟩
      · exact h.issued r' sub hr
      · exact h.issued r' sub' hr'
    · intro r₁ r₂ sub₁ sub₂ h₁ h₂ hg
      dsimp only at h₁ h₂
      rcases getElem?_set_cases h₁ with ⟨rfl, rfl⟩ | ⟨-, k₁⟩
      · rcases getElem?_set_cases h₂ with ⟨rfl, rfl⟩ | ⟨-, k₂⟩
        · rfl
        · exact h.distinct r₁ r₂ sub sub₂ hr k₂ hg
      · rcases getElem?_set_cases h₂ with ⟨rfl, rfl⟩ | ⟨-, k₂⟩
        · exact h.distinct r₁ r₂ sub₁ sub k₁ hr hg
        · exact h.distinct r₁ r₂ sub₁ sub₂ k₁ k₂ hg
    · intro r' sub' hr' hd'
      dsimp only at hr'
      rcases getElem?_set_cases hr' with ⟨rfl, rfl⟩ | ⟨hne, hr'⟩
      · cases hd'
      · obtain ⟨c, hl⟩ := h.live r' sub' hr' hd'
        have hcur : state.cursor sub'.key = s.state.cursor sub'.key := by
          refine hkeep sub'.key fun hsome => ?_
          obtain ⟨c₀, hc₀⟩ := Option.isSome_iff_exists.mp hsome
          exact h.slots_ne hr hr' hc₀ hl.cursor hne
        refine ⟨c, hcur.trans hl.cursor, hl.role, hl.accounts, hl.ge, htail ▸ hl.le, fun hrole => ?_⟩
        dsimp only
        rw [htail]
        exact hl.kept hrole
    · intro r' sub' hr' hd'
      dsimp only at hr'
      rcases getElem?_set_cases hr' with ⟨rfl, rfl⟩ | ⟨-, hr'⟩
      · exact hgone
      · have hdead := h.dead r' sub' hr' hd'
        rw [State.cursor_eq_none] at hdead ⊢
        exact fun c hc => hdead c (hless sub'.key.index c hc).1
    · intro r' sub' hr' hrole
      dsimp only at hr'
      rcases getElem?_set_cases hr' with ⟨rfl, rfl⟩ | ⟨-, hr'⟩
      · exact h.gapless r' sub hr hrole
      · exact h.gapless r' sub' hr' hrole

/-! ## Whole sessions -/

theorem inv_step [Target] (hcap : 0 < cap) (hword : cap ≤ usizeMax) (h : s.Inv first)
    (op : Op α) : ∃ s', s.step op = .ok s' ∧ s'.Inv first := by
  cases op with
  | subscribe role => exact ⟨_, rfl, inv_subscribe h role⟩
  | sendNow value => exact inv_sendNow hcap hword h value
  | recvNow r => exact inv_recvNow hcap hword h r
  | drop r => exact inv_drop h r
  | close reason => exact ⟨_, rfl, inv_close h reason⟩

theorem inv_begin {values : Vector (Option α) cap} {tail subs generation : Nat} (hcap : 0 < cap)
    (htail : tail ≤ u64Max) :
    Inv (State.startingAt values tail subs generation)
      (begin (State.startingAt values tail subs generation)) := by
  have hnone : ∀ i, Slots.entry (List.replicate subs (none : Option Cursor)) i = none := by
    intro i
    unfold Slots.entry
    by_cases hi : i < subs <;> simp [hi]
  refine
    { ordered := rfl
      tail := rfl
      bounded := htail
      ring := ?_
      owned := ?_
      issued := ?_
      distinct := ?_
      live := ?_
      dead := ?_
      gapless := ?_ }
  · intro _ n _ hhi
    have hlt := Nat.mod_lt n hcap
    have hhi : n < tail := hhi
    simp [begin, State.startingAt, history, Hiway.history, State.held, hhi, hlt]
  · intro i c hc
    have := hnone i
    simp only [begin, State.startingAt, State.new] at hc
    rw [this] at hc
    cases hc
  all_goals
    intro r
    simp [begin]

theorem inv_run [Target] (hcap : 0 < cap) (hword : cap ≤ usizeMax)
    {values : Vector (Option α) cap} {tail subs generation : Nat} (htail : tail ≤ u64Max)
    (ops : List (Op α)) : ∃ s, run (State.startingAt values tail subs generation) ops = .ok s ∧
      s.Inv (State.startingAt values tail subs generation) :=
  steps_invariant (fun _ op hs => inv_step hcap hword hs op) (inv_begin hcap htail) ops

/-- A live required subscription of the session still needs `sequence`. -/
def Needed (s : Session α cap) (sequence : Nat) : Prop :=
  ∃ (r : Nat) (sub : Subscription α) (c : Cursor), s.subscriptions[r]? = some sub ∧
    sub.dropped = false ∧ sub.role = .required ∧ s.state.cursor sub.key = some c ∧
    c.next ≤ sequence

theorem Inv.requires_iff (h : s.Inv first) (n : Nat) :
    s.state.requires n = true ↔ s.Needed n := by
  unfold State.requires
  rw [Slots.any_iff]
  constructor
  · rintro ⟨i, c, hc, hp⟩
    obtain ⟨r, sub, hr, hd, hkey⟩ := h.owned i c hc
    have hcur : s.state.cursor sub.key = some c := by
      rw [State.cursor_eq_some, hkey]
      exact ⟨hc, rfl⟩
    obtain ⟨c', hl⟩ := h.live r sub hr hd
    have hcc := hl.cursor
    rw [hcur] at hcc
    cases hcc
    simp only [decide_eq_true_eq] at hp
    exact ⟨r, sub, c, hr, hd, hl.role.symm.trans hp.1, hcur, hp.2⟩
  · rintro ⟨r, sub, c, hr, hd, hrole, hcur, hle⟩
    obtain ⟨c', hl⟩ := h.live r sub hr hd
    have hcc := hl.cursor
    rw [hcur] at hcc
    cases hcc
    refine ⟨sub.key.index, c, (State.cursor_eq_some.mp hcur).1, ?_⟩
    simp [hl.role, hrole, hle]

/-- What a session shows of the history of its stream. -/
structure Refines [Target] (first : State α cap) (s : Session α cap) : Prop where
  /-- Accepted values have consecutive sequences, from the first tail on. -/
  consecutive : s.state.tail = first.tail + s.published.length
  bounded : s.state.tail ≤ u64Max
  /-- While the stream is open its ring holds the end of the history. -/
  ring : s.state.closed = none → ∀ n, s.state.tail - cap ≤ n → n < s.state.tail →
    s.state.values[n % cap]? = some (s.history first n)
  /-- What a live subscription returned accounts for all sequences up to its cursor. -/
  accounts : ∀ (r : Nat) (sub : Subscription α), s.subscriptions[r]? = some sub →
    sub.dropped = false → ∃ c, s.state.cursor sub.key = some c ∧
      Accounts (s.history first) sub.start sub.items c.next
  gapless : ∀ (r : Nat) (sub : Subscription α), s.subscriptions[r]? = some sub →
    sub.role = .required → ∀ item ∈ sub.items, item.isGap = false
  /-- An open stream refuses a value exactly for these two reasons. -/
  send : s.state.closed = none → ∀ value, ∃ result state,
    s.state.sendNow value = .ok (result, state) ∧
    (result = .error (.sequenceExhausted value) ↔ s.state.tail = u64Max) ∧
    (result = .error (.full value) ↔ s.state.tail < u64Max ∧ cap ≤ s.state.tail ∧
      s.Needed (s.state.tail - cap)) ∧
    (result = .ok () ∨ result = .error (.full value) ∨
      result = .error (.sequenceExhausted value)) ∧
    (result ≠ .ok () → state = s.state)
  /-- The key of a dropped subscription reads nothing and moves no cursor. -/
  dropped : ∀ (r : Nat) (sub : Subscription α), s.subscriptions[r]? = some sub →
    sub.dropped = true →
      s.state.recvNow sub.key = .ok (.error (.closed (s.state.closed.getD .closed)), s.state)

theorem Inv.send [Target] (hcap : 0 < cap) (hword : cap ≤ usizeMax) (h : s.Inv first)
    (hc : s.state.closed = none) (value : α) : ∃ result state,
    s.state.sendNow value = .ok (result, state) ∧
    (result = .error (.sequenceExhausted value) ↔ s.state.tail = u64Max) ∧
    (result = .error (.full value) ↔ s.state.tail < u64Max ∧ cap ≤ s.state.tail ∧
      s.Needed (s.state.tail - cap)) ∧
    (result = .ok () ∨ result = .error (.full value) ∨
      result = .error (.sequenceExhausted value)) ∧
    (result ≠ .ok () → state = s.state) := by
  have hmax := h.bounded
  rw [State.sendNow_eq hcap hword]
  simp only [hc]
  by_cases hx : s.state.tail + 1 > u64Max
  · rw [if_pos hx]
    refine ⟨_, _, rfl, ?_, ?_, Or.inr (Or.inr rfl), fun _ => rfl⟩
    · simp
      omega
    · simp
      omega
  · rw [if_neg hx]
    by_cases hf : s.state.Full
    · rw [if_pos hf]
      refine ⟨_, _, rfl, ?_, ?_, Or.inr (Or.inl rfl), fun _ => rfl⟩
      · simp
        omega
      · simp only [true_iff]
        exact ⟨by omega, hf.1, (h.requires_iff _).mp hf.2⟩
    · rw [if_neg hf]
      refine ⟨_, _, rfl, ?_, ?_, Or.inl rfl, fun hn => absurd rfl hn⟩
      · simp
        omega
      · simp only [reduceCtorEq, false_iff]
        rintro ⟨-, hge, hn⟩
        exact hf ⟨hge, (h.requires_iff _).mpr hn⟩

/-- **Refinement.** Whatever is done to an ordered stream, from any tail and ring on,
nothing panics and the session shows exactly the history of the stream. -/
theorem run_refines [Target] (hcap : 1 ≤ cap) (hword : cap ≤ usizeMax)
    (values : Vector (Option α) cap) {tail : Nat} (htail : tail ≤ u64Max)
    (subs generation : Nat) (ops : List (Op α)) :
    ∃ s, run (State.startingAt values tail subs generation) ops = .ok s ∧
      s.Refines (State.startingAt values tail subs generation) := by
  obtain ⟨s, hs, h⟩ := @inv_run _ _ _ hcap hword values tail subs generation htail ops
  refine ⟨s, hs,
    { consecutive := h.tail
      bounded := h.bounded
      ring := h.ring
      accounts := ?_
      gapless := h.gapless
      send := h.send hcap hword
      dropped := fun r sub hr hd => State.recvNow_unknown (h.dead r sub hr hd) }⟩
  intro r sub hr hd
  obtain ⟨c, hl⟩ := h.live r sub hr hd
  exact ⟨c, hl.cursor, hl.accounts⟩

/-- A slot that is reused after its required receiver was dropped. -/
theorem run_refines_reuse :
    let _ := Target.x64
    ∃ s, run (State.startingAt (#v[none, none] : Vector (Option Nat) 2) 3 1 0)
        [.subscribe .required, .sendNow 7, .drop 0, .subscribe .observer, .recvNow 0] = .ok s ∧
      s.Refines (State.startingAt #v[none, none] 3 1 0) := by
  intro _
  exact run_refines (by decide) (by decide) _ (by decide) 1 0 _

/-- Closing clears the ring, so the last value of the history is no longer in it, and a
closed stream refuses a value as closed even where a required cursor still needs the
sequence that the value would have overwritten. -/
theorem ring_cleared_by_close :
    let _ := Target.x64
    let first : State Nat 1 := State.startingAt #v[none] 0 1 0
    ∃ s, run first [.subscribe .required, .sendNow 7, .close .closed] = .ok s ∧
      s.state.tail = 1 ∧ s.history first 0 = some 7 ∧ s.state.values[0 % 1]? = some none ∧
      s.Needed (s.state.tail - 1) ∧
      (s.state.sendNow 8).map Prod.fst = .ok (.error (.closed 8)) := by
  intro _ first
  refine ⟨_, rfl, rfl, rfl, rfl, ?_, rfl⟩
  exact ⟨0, _, _, rfl, rfl, rfl, rfl, le_refl 0⟩

end Session

end Hiway.Local
