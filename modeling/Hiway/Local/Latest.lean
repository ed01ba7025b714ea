import Hiway.Local.Waiting

/-!
# The newest snapshot of a static stream

A latest-state stream has a ring of one slot, and a cursor on it is never further behind
than the newest sequence.

* `Inv.latest`: a cursor of a latest-state stream has one snapshot to read, or none.
-/

namespace Hiway.Local

open Exec Target

variable {α : Type} {cap : Nat}

namespace Tasks

/-- What tasks on a latest-state stream are shown. -/
structure Latest [Target] (t : Tasks α cap) : Prop where
  single : cap = 1
  /-- An open stream retains the newest snapshot in its one slot. -/
  retained : t.stream.state.closed = none → t.stream.state.tail = t.published.length ∧
    ∀ a, t.published.getLast? = some a → t.stream.state.values[0]? = some (some a)
  /-- A reception answers what is unread. -/
  answers : t.stream.state.closed = none → ∀ (r : Nat) (sub : Subscription α),
    t.receiver r = some sub →
      (∃ stream, t.stream.tryRecv sub.key = .ok (.ok (unread t.published sub.items), stream)) ∧
      ∃ stream, t.stream.recvNow sub.key = .ok (.ok (unread t.published sub.items), stream)
  /-- What any subscription ever returned are snapshots, each newer than the one before. -/
  shows : ∀ (r : Nat) (sub : Subscription α), t.subscriptions[r]? = some sub →
    Shows t.published sub.items

theorem Inv.latest [Target] {t : Tasks α cap} (h : t.Inv .latest) (hcap : 0 < cap)
    (hword : cap ≤ usizeMax) : t.Latest where
  single := h.sound.capacity h.delivery
  retained := by
    intro hopen
    refine ⟨h.sound.tail, fun a ha => ?_⟩
    have hone := h.sound.capacity h.delivery
    have hslot := h.sound.newest hopen h.delivery ha
    have hzero : ∀ n, n % cap = 0 := by
      intro n
      rw [hone]
      exact Nat.mod_one n
    rwa [hzero] at hslot
  answers := by
    intro hopen r sub hr
    obtain ⟨hget, hd⟩ := receiver_eq_some.mp hr
    obtain ⟨result, state, he, -, -, -, -, hanswer⟩ := h.sound.receive hcap hword hget hd
    rw [hanswer h.delivery hopen] at he
    refine ⟨⟨{ t.stream with state := state }, ?_⟩, t.stream.flush state, ?_⟩
    · simp only [StaticStream.tryRecv, StaticStream.tryLock, he, ok_bind, pure_eq]
    · simp only [StaticStream.recvNow, StaticStream.withState, he, ok_bind, pure_eq]
  shows := h.sound.shows h.delivery

end Tasks

end Hiway.Local
