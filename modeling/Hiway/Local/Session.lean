import Hiway.Local.State
import Hiway.Stream.History

/-!
# Sessions over a static stream

A session is a stream together with what happened to it: the accepted values in order
and, for each subscription ever made, its key and the items it has returned. An
operation names a subscription by its position in that list, so every key that was
ever issued can be used at any later time. Each operation of the stream is stated
once here, as what it answers and what it changes.

* `Session`, `Op`: a stream with what has happened to it, and what can be done to it.
* `subscribe_spec`, `sendNow_eq`, `recvNow_eq`, `drop_eq`: what each operation answers and
  changes.
* `recvNow_unknown`: a key without a cursor reads nothing and moves nothing.
-/

namespace Hiway.Local

open Exec Target

namespace State

variable {α : Type} {cap : Nat} {s : State α cap}

theorem subscribe_spec (role : SubscriptionRole) :
    (∃ error, s.subscribe role = (.error error, s)) ∨
    ∃ index, s.closed = none ∧ ¬(s.delivery = .latest ∧ role = .required) ∧
      Slots.free s.cursors = some index ∧ s.nextGeneration + 1 ≤ u64Max ∧
      s.subscribe role = (.ok ⟨index, s.nextGeneration⟩,
        { s with
          nextGeneration := s.nextGeneration + 1
          cursors := s.cursors.set index (some ⟨s.nextGeneration,
            if s.delivery = .latest then s.tail - 1 else s.tail, role⟩) }) := by
  unfold subscribe
  split
  · exact Or.inl ⟨_, rfl⟩
  · rename_i hc
    split
    · exact Or.inl ⟨_, rfl⟩
    · rename_i hrole
      split
      · exact Or.inl ⟨_, rfl⟩
      · rename_i index hfree
        dsimp only
        split
        · exact Or.inl ⟨_, rfl⟩
        · rename_i hgen
          exact Or.inr ⟨index, hc, hrole, hfree, by omega, rfl⟩

theorem subscribe_closed {role : SubscriptionRole} (hc : s.closed = some .closed) :
    s.subscribe role = (.error .denied, s) := by
  unfold subscribe
  rw [hc]
  rfl

theorem subscribe_full {role : SubscriptionRole} (hc : s.closed = none)
    (hrole : ¬(s.delivery = .latest ∧ role = .required))
    (hfull : Slots.free s.cursors = none ∨ s.nextGeneration + 1 > u64Max) :
    s.subscribe role = (.error .capacity, s) := by
  unfold subscribe
  rw [hc]
  dsimp only
  rw [if_neg hrole]
  cases hfree : Slots.free s.cursors with
  | none => rfl
  | some index =>
    rcases hfull with hfull | hfull
    · rw [hfree] at hfull
      cases hfull
    · exact if_pos hfull

theorem subscribe_ok {role : SubscriptionRole} (hc : s.closed = none)
    (hrole : ¬(s.delivery = .latest ∧ role = .required)) {index : Nat}
    (hfree : Slots.free s.cursors = some index) (hgen : ¬ s.nextGeneration + 1 > u64Max) :
    s.subscribe role = (.ok ⟨index, s.nextGeneration⟩,
      { s with
        nextGeneration := s.nextGeneration + 1
        cursors := s.cursors.set index (some ⟨s.nextGeneration,
          if s.delivery = .latest then s.tail - 1 else s.tail, role⟩) }) := by
  unfold subscribe
  split
  · rename_i heq
    rw [hc] at heq
    cases heq
  · rw [if_neg hrole, hfree]
    exact if_neg hgen

theorem slot_eq [Target] (hcap : 0 < cap) (hword : cap ≤ usizeMax) (n : Nat) :
    slot cap n = .ok (n % cap) := by
  have hlt := Nat.mod_lt n hcap
  have hle : n % cap ≤ usizeMax := by omega
  simp only [slot, rem_of_pos hcap, ok_bind, if_pos hle, unwrap_some]

/-- The value is in the ring and its sequence is the tail. -/
def push (s : State α cap) (hcap : 0 < cap) (value : α) : State α cap :=
  { s with
    values := s.values.set (s.tail % cap) (some value) (Nat.mod_lt _ hcap)
    tail := s.tail + 1
    changed := s.changed ||| Interest.receive.bits }

/-- A send overwrites nothing that a live required subscription still needs. -/
def Full (s : State α cap) : Prop := s.tail ≥ cap ∧ s.requires (s.tail - cap) = true

instance : Decidable s.Full := inferInstanceAs (Decidable (_ ∧ _))

theorem sendNow_eq [Target] (hcap : 0 < cap) (hword : cap ≤ usizeMax) (value : α) :
    s.sendNow value = .ok (match s.closed with
      | some reason => (.error (if reason = .revoked then .revoked value else .closed value), s)
      | none =>
        if s.tail + 1 > u64Max then (.error (.sequenceExhausted value), s)
        else if s.Full then (.error (.full value), s)
        else (.ok (), s.push hcap value)) := by
  have hlt := Nat.mod_lt s.tail hcap
  unfold sendNow
  cases hc : s.closed with
  | some reason => rfl
  | none =>
    dsimp only
    by_cases hx : s.tail + 1 > u64Max
    · rw [if_pos hx, if_pos hx]
    · rw [if_neg hx, if_neg hx]
      by_cases hf : s.Full
      · rw [if_pos hf, if_pos (show s.tail ≥ cap ∧ s.requires (s.tail - cap) = true from hf)]
      · rw [if_neg hf, if_neg (show ¬(s.tail ≥ cap ∧ s.requires (s.tail - cap) = true) from hf)]
        simp only [store, slot_eq hcap hword, ok_bind, dif_pos hlt, pure_eq]
        simp only [push, hc]

/-- Where a reception of a cursor starts: a latest-state cursor skips what is stale. -/
def position (s : State α cap) (cursor : Cursor) : Nat :=
  if s.delivery = .latest then max cursor.next (s.tail - 1) else cursor.next

/-- The receiver's cursor has moved and senders may have room. -/
def moved (s : State α cap) (key : SubscriberKey) (cursor : Cursor) (next : Nat) : State α cap :=
  { s.seek key cursor next with changed := s.changed ||| Interest.send.bits }

/-- A reception by a live cursor of an open stream, given the value at its position. -/
theorem recvNow_eq [Target] (hcap : 0 < cap) (hword : cap ≤ usizeMax) {key : SubscriberKey}
    {cursor : Cursor} (hc : s.closed = none) (hk : s.cursor key = some cursor)
    (hle : s.tail ≤ u64Max) (hpos : s.position cursor ≤ s.tail)
    (hvalue : s.tail - cap ≤ s.position cursor → s.position cursor < s.tail →
      ∃ value, s.values[s.position cursor % cap]? = some (some value)) :
    (s.position cursor < s.tail - cap ∧
      s.recvNow key = .ok (.ok (some (.gap (s.position cursor) (s.tail - cap))),
        s.moved key cursor (s.tail - cap))) ∨
    (s.position cursor = s.tail ∧
      s.recvNow key = .ok (.ok none, s.seek key cursor s.tail)) ∨
    (s.tail - cap ≤ s.position cursor ∧ s.position cursor < s.tail ∧
      ∃ value, s.values[s.position cursor % cap]? = some (some value) ∧
        s.recvNow key = .ok (.ok (some (.data (s.position cursor) value)),
          s.moved key cursor (s.position cursor + 1))) := by
  by_cases hgap : s.position cursor < s.tail - cap
  · refine Or.inl ⟨hgap, ?_⟩
    have hgap' : (if s.delivery = .latest then max cursor.next (s.tail - 1) else cursor.next) <
        s.tail - cap := hgap
    simp only [recvNow, hc, hk, if_pos hgap']
    rfl
  · have hgap' : ¬ (if s.delivery = .latest then max cursor.next (s.tail - 1) else cursor.next) <
        s.tail - cap := hgap
    by_cases hend : s.position cursor = s.tail
    · refine Or.inr (Or.inl ⟨hend, ?_⟩)
      have hend' : (if s.delivery = .latest then max cursor.next (s.tail - 1) else cursor.next) =
          s.tail := hend
      simp only [recvNow, hc, hk, if_neg hgap', if_pos hend']
      rw [hend']
    · have hend' : ¬ (if s.delivery = .latest then max cursor.next (s.tail - 1)
          else cursor.next) = s.tail := hend
      obtain ⟨value, hv⟩ := hvalue (by omega) (by omega)
      obtain ⟨hlt, hget⟩ := Vector.getElem?_eq_some_iff.mp hv
      refine Or.inr (Or.inr ⟨by omega, by omega, value, hv, ?_⟩)
      have hnext : s.position cursor + 1 ≤ u64Max := by omega
      have hload : s.load (s.position cursor) = .ok value := by
        simp only [load, slot_eq hcap hword, ok_bind, dif_pos hlt, hget, unwrap_some]
      simp only [position] at hload hnext ⊢
      simp only [recvNow, hc, hk, if_neg hgap', if_neg hend', hload, ok_bind,
        addU64_of_le hnext, pure_eq]
      rfl

theorem recvNow_closed [Target] {key : SubscriberKey} {reason : CloseReason}
    (hc : s.closed = some reason) : s.recvNow key = .ok (.error (.closed reason), s) := by
  simp only [recvNow, hc]

/-- A key without a cursor reads nothing and moves nothing. -/
theorem recvNow_unknown [Target] {key : SubscriberKey} (hk : s.cursor key = none) :
    s.recvNow key = .ok (.error (.closed (s.closed.getD .closed)), s) := by
  cases hc : s.closed with
  | some reason => simp only [recvNow, hc, Option.getD_some]
  | none => simp only [recvNow, hc, hk, Option.getD_none]

theorem drop_eq {key : SubscriberKey} (hi : key.index < s.cursors.length) :
    s.drop key = .ok (if (s.cursor key).isSome then
        { s with
          cursors := s.cursors.set key.index none
          changed := s.changed ||| Interest.send.bits }
      else s) := by
  have hget : s.cursors[key.index]? = some s.cursors[key.index] := List.getElem?_eq_getElem hi
  have hentry : Slots.entry s.cursors key.index = s.cursors[key.index] := by
    simp [Slots.entry, hget]
  simp only [drop, index_of_getElem? hget, ok_bind, cursor, hentry]
  cases s.cursors[key.index] with
  | none => rfl
  | some c =>
    by_cases hg : c.generation = key.generation <;> simp [hg]

/-- An open ordered stream without subscriptions, at any tail and with any ring. -/
def startingAt (values : Vector (Option α) cap) (tail subs generation : Nat) : State α cap :=
  { (new .ordered subs : State α cap) with
    values := values
    tail := tail
    nextGeneration := generation }

end State

/-! ## Sessions -/

structure Subscription (α : Type) where
  key : SubscriberKey
  role : SubscriptionRole
  start : Nat
  items : List (StreamItem α)
  dropped : Bool

structure Session (α : Type) (cap : Nat) where
  state : State α cap
  published : List α
  subscriptions : List (Subscription α)

inductive Op (α : Type) where
  | subscribe (role : SubscriptionRole)
  | sendNow (value : α)
  | recvNow (receiver : Nat)
  | drop (receiver : Nat)
  | close (reason : CloseReason)

namespace Session

variable {α : Type} {cap : Nat}

def begin (state : State α cap) : Session α cap := ⟨state, [], []⟩

def subscribe (s : Session α cap) (role : SubscriptionRole) : Session α cap :=
  match s.state.subscribe role with
  | (.error _, state) => { s with state := state }
  | (.ok key, state) =>
    { s with
      state := state
      subscriptions := s.subscriptions ++ [⟨key, role, s.state.tail, [], false⟩] }

def sendNow [Target] (s : Session α cap) (value : α) : Exec (Session α cap) := do
  match ← s.state.sendNow value with
  | (.error _, state) => return { s with state := state }
  | (.ok (), state) => return { s with state := state, published := s.published ++ [value] }

def recvNow [Target] (s : Session α cap) (receiver : Nat) : Exec (Session α cap) :=
  match s.subscriptions[receiver]? with
  | none => .ok s
  | some sub => do
    match ← s.state.recvNow sub.key with
    | (.ok (some item), state) =>
      return { s with
        state := state
        subscriptions := s.subscriptions.set receiver { sub with items := sub.items ++ [item] } }
    | (_, state) => return { s with state := state }

def drop (s : Session α cap) (receiver : Nat) : Exec (Session α cap) :=
  match s.subscriptions[receiver]? with
  | none => .ok s
  | some sub => do
    let state ← s.state.drop sub.key
    return { s with
      state := state
      subscriptions := s.subscriptions.set receiver { sub with dropped := true } }

def step [Target] (s : Session α cap) : Op α → Exec (Session α cap)
  | .subscribe role => .ok (s.subscribe role)
  | .sendNow value => s.sendNow value
  | .recvNow receiver => s.recvNow receiver
  | .drop receiver => s.drop receiver
  | .close reason => .ok { s with state := s.state.close reason }

/-- What happens to a stream that starts in `state`. -/
def run [Target] (state : State α cap) (ops : List (Op α)) : Exec (Session α cap) :=
  steps step (begin state) ops

end Session

end Hiway.Local
