import Hiway.Fabric.Latest
import Hiway.Local.Latest

/-!
# Latest-state streams on both backends

The static stream and the dynamic stream are the same register: each subscription is
shown the newest snapshot, once.

* `runs_show_newest`: on either backend nothing panics, and each subscription is shown the
  newest snapshot, once.
-/

namespace Hiway.Parity

open Target

variable {α : Type}

/-- **Latest state.** Whatever is done to a new latest-state stream of either backend,
nothing panics, an open stream retains the newest admitted snapshot, and a subscription is
told that snapshot unless it has been told it. -/
theorem runs_show_newest [Target] :
    (∀ {cap subs waiters : Nat} {stream : Local.StaticStream α cap},
      Local.StaticStream.withLock .latest subs waiters = .ok stream → cap ≤ usizeMax →
        ∀ ops, ∃ t, Local.Tasks.run stream ops = .ok t ∧ t.Latest) ∧
    ∀ {event : EventId} {config : Fabric.StreamConfig} {stream : Fabric.Stream α},
      Fabric.Stream.create event .latest config = .ok stream →
        ∀ (grants : Grants) (ops), ∃ s, Fabric.Session.run ⟨grants, stream⟩ ops = .ok s ∧
          s.Latest := by
  constructor
  · intro cap subs waiters stream hstart hword ops
    obtain ⟨t, ht, hinv⟩ := Local.Tasks.inv_run hstart hword ops
    exact ⟨t, ht, hinv.latest (Local.Tasks.inv_begin hstart).1 hword⟩
  · intro event config stream hcreate grants ops
    obtain ⟨s, hs, hcurrent⟩ := Fabric.Session.Current.run hcreate grants ops
    obtain ⟨-, -, hone, -⟩ := Fabric.Session.create_spec hcreate
    exact ⟨s, hs, hcurrent.shown (hone rfl)⟩

/-- A late subscription and a replaced snapshot, on both backends. -/
theorem runs_show_newest_late :
    let _ := Target.x64
    (∃ stream : Local.StaticStream Nat 1,
      Local.StaticStream.withLock .latest 1 0 = .ok stream ∧
        ∃ t, Local.Tasks.run stream [.sendNow 7, .trySend 8, .subscribe .observer, .tryRecv 0,
          .recvNow 0] = .ok t ∧ t.Latest) ∧
    ∃ stream : Fabric.Stream Nat, Fabric.Stream.create ⟨1⟩ .latest ⟨1, 1, 0⟩ = .ok stream ∧
      ∃ s, Fabric.Session.run ⟨Fabric.Session.granted ⟨1⟩ [⟨2, 1, 0⟩], stream⟩
        [.sendNow 1 7, .prepare 1 8, .trySend 0, .subscribe 1 .observer, .tryRecv 0,
          .recvNow 0] = .ok s ∧ s.Latest := by
  intro _
  exact ⟨⟨_, rfl, (@runs_show_newest Nat _).1 rfl (by decide) _⟩,
    _, rfl, (@runs_show_newest Nat _).2
      (show Fabric.Stream.create ⟨1⟩ .latest ⟨1, 1, 0⟩ = _ from rfl) _ _⟩

example :
    let _ := Target.x64
    ((Fabric.Stream.create ⟨1⟩ .latest ⟨1, 1, 0⟩ : Except TopicError (Fabric.Stream Nat)).toOption.map
      fun stream =>
        (Fabric.Session.run ⟨Fabric.Session.granted ⟨1⟩ [⟨2, 1, 0⟩], stream⟩
          [.sendNow 1 7, .prepare 1 8, .trySend 0, .subscribe 1 .observer, .tryRecv 0,
            .recvNow 0]).toOption.map
              fun s => (s.published, s.subscriptions.map Fabric.Subscription.items)) =
      some (some ([7, 8], [[.data 1 8]])) := by
  decide +kernel

end Hiway.Parity
