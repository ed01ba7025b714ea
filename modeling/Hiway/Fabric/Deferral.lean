import Hiway.Fabric.Senders
import Hiway.Fabric.Strict

/-!
# Deferred publication in a fabric

In every state of a stream of a fabric, a preparation that is published strictly, with the
maintenance that it asks for, is accepted when an ordinary publication is, with the same
sequence, and the receivers cannot tell which of the two it was. Maintenance may tell when
the queue is full and an earlier strict publication asked for room that nobody has made.

* `commit_rejected`: a refusal hands back what it was given and changes nothing but the
  request for room.
* `Valid.agrees`: both kinds of publication agree in a session that keeps to its history.
* `run_trySend_agrees`: they agree in every state that a fabric reaches.
* `run_trySend_stale`: a pending request for room, in a full queue, that receivers see.
-/

namespace Hiway.Fabric

open Exec Target

variable {α : Type}

namespace World

/-- A refusal hands back what it was given and changes nothing but the request for room. -/
theorem commit_rejected [Target] {w w' : World α} {node : NodeId} {value : α} {lease : Lease}
    {deferred : Bool} {error : TrySendError (α × Lease)}
    (h : w.commit node value lease deferred = (.error error, w')) :
    error.intoInner = (value, lease) ∧ w'.grants = w.grants ∧
      w'.stream.state = { w.stream.state with needsRoom := w'.stream.state.needsRoom } := by
  unfold commit at h
  split at h
  · cases h
    exact ⟨rfl, rfl, rfl⟩
  · cases h
    exact ⟨rfl, rfl, rfl⟩
  · cases h
    exact ⟨rfl, rfl, rfl⟩
  · dsimp only at h
    split at h
    · cases h
      exact ⟨rfl, rfl, by rw [unlock_state]⟩
    · split at h
      · cases h
        exact ⟨rfl, rfl, by rw [unlock_state]⟩
      · split at h
        · split at h
          · cases h
            exact ⟨rfl, rfl, by rw [unlock_state]⟩
          · split at h
            · split at h
              · split at h
                · cases h
                  exact ⟨rfl, rfl, by rw [unlock_state]⟩
                · cases h
              · cases h
                exact ⟨rfl, rfl, by rw [unlock_state]⟩
            · split at h <;> cases h
        · cases h

end World

namespace Session

/-- A preparation was published, and the world is what it has become. -/
def accepted (s : Session α) (p : Nat) (value : α) (w : World α) : Session α :=
  { s with
    world := w
    preparations := s.preparations.set p none
    published := s.published ++ [value] }

namespace Valid

variable [Target] {config : StreamConfig} {s : Session α} {node : NodeId} {value : α}
  {lease : Lease} {w : World α}

theorem refused (h : s.Valid config) {deferred : Bool} {error : TrySendError (α × Lease)}
    (he : s.world.commit node value lease deferred = (.error error, w)) :
    Valid config { s with world := w } := by
  refine ⟨h.word, h.capacity, ?_⟩
  rcases h.history with hinv | ⟨hone, hcurrent⟩
  · rcases hinv.commit h.capacity node value lease deferred with ⟨e, w', hw', ht⟩ | ⟨w', hw', -⟩
    · cases he.symm.trans hw'
      exact Or.inl (hinv.trims ht s.preparations)
    · cases he.symm.trans hw'
  · rcases hcurrent.commit h.capacity node value lease deferred with
      ⟨e, w', hw', hk⟩ | ⟨w', hw', -⟩
    · cases he.symm.trans hw'
      exact Or.inr ⟨hone, hcurrent.keeps hk s.preparations⟩
    · cases he.symm.trans hw'

theorem commit (h : s.Valid config) {deferred : Bool}
    (he : s.world.commit node value lease deferred = (.ok (), w)) (p : Nat) :
    (s.accepted p value w).Valid config := by
  refine ⟨h.word, h.capacity, ?_⟩
  rcases h.history with hinv | ⟨hone, hcurrent⟩
  · rcases hinv.commit h.capacity node value lease deferred with ⟨e, w', hw', -⟩ |
      ⟨w', hw', hopen, hsame, hretains, hsubscribers, hnext⟩
    · cases he.symm.trans hw'
    · cases he.symm.trans hw'
      exact Or.inl (hinv.publish hsame hretains hsubscribers hnext hopen _)
  · rcases hcurrent.commit h.capacity node value lease deferred with
      ⟨e, w', hw', -⟩ | ⟨w', hw', hcurrent'⟩
    · cases he.symm.trans hw'
    · cases he.symm.trans hw'
      exact Or.inr ⟨hone, hcurrent' _⟩

theorem strictSend (h : s.Valid config)
    (he : s.world.strictSend node value lease = (.ok (), w)) (p : Nat) :
    (s.accepted p value w).Valid config := by
  unfold World.strictSend at he
  cases hfirst : s.world.commit node value lease true with
  | mk answer w₁ =>
    rw [hfirst] at he
    cases answer with
    | ok u =>
      cases he
      exact h.commit hfirst p
    | error error =>
      cases error with
      | maintenanceRequired back =>
        obtain ⟨hback, -⟩ := World.commit_rejected hfirst
        change back = (value, lease) at hback
        subst hback
        obtain ⟨s', hs', hvalid⟩ := (h.refused hfirst).step .maintain
        cases hs'
        exact hvalid.commit he p
      | _ => cases he

end Valid

/-- What a preparation that is published strictly has in common with one that is published
at once: the answer, the sequence, and all that a receiver is told. -/
structure Agrees [Target] (s : Session α) (p : Nat) (prepared : Prepared α) : Prop where
  settles : ∀ back,
    (s.world.strictSend prepared.node prepared.value prepared.lease).1 ≠
      .error (.maintenanceRequired back)
  accepts : (s.world.strictSend prepared.node prepared.value prepared.lease).1 = .ok () ↔
    (s.world.commit prepared.node prepared.value prepared.lease false).1 = .ok ()
  ends : ∀ w₁ w₂, s.world.commit prepared.node prepared.value prepared.lease false = (.ok (), w₁) →
    s.world.strictSend prepared.node prepared.value prepared.lease = (.ok (), w₂) →
      s.world.Ends w₁ prepared.value prepared.lease ∧
        s.world.Ends w₂ prepared.value prepared.lease
  receives : ∀ w₁ w₂,
    s.world.commit prepared.node prepared.value prepared.lease false = (.ok (), w₁) →
    s.world.strictSend prepared.node prepared.value prepared.lease = (.ok (), w₂) →
    ∀ ops : List (Op α),
      (∀ op ∈ ops, op.receives = true) ∨
        (s.world.stream.state.needsRoom = false ∨
          s.world.stream.state.entries.length ≠ s.world.stream.config.capacity) ∧
        (∀ op ∈ ops, op.attends = true) →
      ∃ t₁ t₂, steps step (s.accepted p prepared.value w₁) ops = .ok t₁ ∧
        steps step (s.accepted p prepared.value w₂) ops = .ok t₂ ∧
        t₂.subscriptions = t₁.subscriptions
  rejects : ∀ error w,
    s.world.commit prepared.node prepared.value prepared.lease true = (.error error, w) →
      error.intoInner = (prepared.value, prepared.lease) ∧ w.grants = s.world.grants ∧
        w.stream.state = { s.world.stream.state with needsRoom := w.stream.state.needsRoom }

/-- Both kinds of publication agree in a session that keeps to its history. -/
theorem Valid.agrees [Target] {config : StreamConfig} {s : Session α} (h : s.Valid config)
    (hitems : s.world.Itemized)
    (hroom : s.world.stream.delivery = .latest → s.world.stream.state.needsRoom = false)
    (p : Nat) {prepared : Prepared α}
    (hlease : prepared.lease.usage = World.retainedItem.asLimits) : s.Agrees p prepared := by
  by_cases haccepts : s.world.Accepts prepared.node
  · obtain ⟨w₁, w₂, hplain, hstrict, hpublishes⟩ :=
      World.strictSend_accepted haccepts hitems (h.config_eq ▸ h.capacity) hroom prepared.value
        prepared.lease
    refine ⟨?_, ?_, ?_, ?_, fun error w he => World.commit_rejected he⟩
    · intro back hback
      rw [hstrict] at hback
      cases hback
    · rw [hstrict, hplain]
    · intro w₁' w₂' he₁ he₂
      cases hplain.symm.trans he₁
      cases hstrict.symm.trans he₂
      exact hpublishes.ends
    · intro w₁' w₂' he₁ he₂ ops hops
      cases hplain.symm.trans he₁
      cases hstrict.symm.trans he₂
      obtain ⟨hitems₁, hitems₂⟩ := hpublishes.items hlease
      have halike : Alike config (s.accepted p prepared.value w₁)
          (s.accepted p prepared.value w₂) :=
        ⟨h.commit hplain p, h.strictSend hstrict p, hpublishes.twins, hitems₁, hitems₂, rfl, rfl⟩
      rcases hops with hops | ⟨hquiet, hops⟩
      · exact halike.run hops
      · exact Alike.Even.run ⟨halike, hpublishes.room hquiet⟩ hops
  · obtain ⟨error, hsettles, -, hrefused⟩ :=
      World.commit_refused haccepts prepared.value prepared.lease
    have hplain : (s.world.commit prepared.node prepared.value prepared.lease false).1 =
        .error error := by
      obtain ⟨n, he | he⟩ := hrefused false <;> rw [he]
    have hstrict : (s.world.strictSend prepared.node prepared.value prepared.lease).1 =
        .error error := by
      unfold World.strictSend
      obtain ⟨n, he | he⟩ := hrefused true
      all_goals
        rw [he]
        cases error with
        | maintenanceRequired back => exact absurd rfl (hsettles back)
        | _ => rfl
    refine ⟨?_, ?_, ?_, ?_, fun error w he => World.commit_rejected he⟩
    · intro back hback
      rw [hstrict] at hback
      cases hback
      exact hsettles back rfl
    · rw [hstrict, hplain]
    · intro w₁ w₂ he
      rw [he] at hplain
      cases hplain
    · intro w₁ w₂ he
      rw [he] at hplain
      cases hplain

end Session

namespace Channel

/-- A stream that retains its history has a session that keeps to it. -/
theorem Historic.valid [Target] {g : Grants} {ch : Channel α} (h : ch.Historic g)
    (hcap : 0 < ch.stream.config.capacity) : (ch.session g).Valid ch.stream.config where
  word := h.word
  capacity := hcap
  history := by
    cases hd : ch.stream.delivery with
    | ordered => exact Or.inl (h.ordered hd)
    | latest => exact Or.inr ⟨h.one hd, h.latest hd⟩

end Channel

namespace DynamicFabric

/-- **Strict publication.** In every state that a fabric reaches, publishing a preparation
strictly agrees with publishing it at once. -/
theorem run_trySend_agrees [Target] {limits : Limits} {s₀ : DynamicFabric α}
    (h₀ : withLimits limits = .ok s₀) (ops : List (FabricOp α)) :
    ∃ s, s₀.run ops = .ok s ∧ ∀ (k : Nat) (ch : Channel α), s.channels[k]? = some ch →
      ∀ (p : Nat) (prepared : Prepared α), Slots.entry ch.preparations p = some prepared →
        (ch.session s.grants).Agrees p prepared := by
  obtain ⟨s, hs, hhistoric, -⟩ := Served.run h₀ ops
  refine ⟨s, hs, fun k ch hk p prepared hp => ?_⟩
  have hch := hhistoric.streams k ch hk
  have hsound := (hhistoric.inv.balanced hk).sound
  refine (hch.valid hsound.capacity).agrees ?_ ?_ p
    (hsound.classified.prepared p prepared hp).2.1
  · exact fun e he => (hsound.classified.holds e he).1
  · exact fun hd => (hch.latest hd).settled.room

/-- A value in a stream of two items, and another that is prepared. -/
def preparedStream : List (FabricOp Nat) :=
  [.createStream ⟨1⟩ .ordered ⟨2, 2, 0⟩,
    .delegate 0 ⟨[⟨⟨1⟩, ⟨7⟩, ⟨4, 2, 0⟩⟩], [⟨⟨1⟩, ⟨7⟩, ⟨4, 2, 0⟩⟩],
      { Limits.zero with streams := 1, retainedItems := 4, subscriptions := 2 },
      .refl _, by simp [Ordered]⟩,
    .stream 0 (.sender 1), .stream 0 (.subscribe 1 .observer),
    .stream 0 (.subscribe 1 .observer), .stream 0 (.sendNow 1 10), .stream 0 (.sendNow 1 11),
    .stream 0 (.prepare 1 12)]

theorem run_trySend_agrees_prepared :
    let _ := Target.x64
    ∃ s₀ s : DynamicFabric Nat, withLimits Limits.default = .ok s₀ ∧
      s₀.run preparedStream = .ok s ∧ ∃ ch prepared, s.channels[0]? = some ch ∧
        Slots.entry ch.preparations 0 = some prepared ∧
        (ch.session s.grants).Agrees 0 prepared := by
  intro _
  have h₀ : (withLimits Limits.default : Except TopicError (DynamicFabric Nat)) =
      .ok ⟨(Lineage.root Limits.default).grants, []⟩ := by
    have hvalid : Limits.default.validate = .ok () := if_neg (by decide)
    simp only [withLimits, hvalid]
    rfl
  obtain ⟨s, hs, hall⟩ := run_trySend_agrees h₀ preparedStream
  obtain ⟨s', hs', htest⟩ : ∃ s : DynamicFabric Nat,
      DynamicFabric.run ⟨(Lineage.root Limits.default).grants, []⟩ preparedStream = .ok s ∧
        (s.channels[0]?.any fun ch : Channel Nat =>
          (Slots.entry ch.preparations 0).any fun _ => true) = true :=
    Exec.of_any (by decide +kernel)
  cases hs.symm.trans hs'
  obtain ⟨ch, hk, htest⟩ := (Option.any_eq_true _ _).mp htest
  obtain ⟨prepared, hp, -⟩ := (Option.any_eq_true _ _).mp htest
  exact ⟨_, s, h₀, hs, ch, prepared, hk, hp, hall 0 ch hk 0 prepared hp⟩

/-- The same, with two preparations, of which the first asked for room. -/
def staleStream : List (FabricOp Nat) :=
  preparedStream ++ [.stream 0 (.prepare 1 13), .stream 0 (.trySend 0)]

/-- The room that was asked for before is made when the receivers attend to the stream, if
the second preparation was published at once; published strictly, it has used the room. -/
theorem run_trySend_stale :
    let _ := Target.x64
    ∃ s₀ s : DynamicFabric Nat, withLimits Limits.default = .ok s₀ ∧
      s₀.run staleStream = .ok s ∧ ∃ ch prepared, s.channels[0]? = some ch ∧
        Slots.entry ch.preparations 1 = some prepared ∧ ∃ w₁ w₂ t₁ t₂,
          World.commit ⟨s.grants, ch.stream⟩ prepared.node prepared.value prepared.lease false =
            (.ok (), w₁) ∧
          World.strictSend ⟨s.grants, ch.stream⟩ prepared.node prepared.value prepared.lease =
            (.ok (), w₂) ∧
          steps Session.step ((ch.session s.grants).accepted 1 prepared.value w₁)
            [.recvNow 0, .recvNow 1] = .ok t₁ ∧
          steps Session.step ((ch.session s.grants).accepted 1 prepared.value w₂)
            [.recvNow 0, .recvNow 1] = .ok t₂ ∧
          t₂.subscriptions.map (·.items) ≠ t₁.subscriptions.map (·.items) := by
  intro _
  have h₀ : (withLimits Limits.default : Except TopicError (DynamicFabric Nat)) =
      .ok ⟨(Lineage.root Limits.default).grants, []⟩ := by
    have hvalid : Limits.default.validate = .ok () := if_neg (by decide)
    simp only [withLimits, hvalid]
    rfl
  obtain ⟨s, hs, htest⟩ : ∃ s : DynamicFabric Nat,
      DynamicFabric.run ⟨(Lineage.root Limits.default).grants, []⟩ staleStream = .ok s ∧
        (s.channels[0]?.any fun ch : Channel Nat =>
          (Slots.entry ch.preparations 1).any fun prepared =>
            let plain := World.commit ⟨s.grants, ch.stream⟩ prepared.node prepared.value
              prepared.lease false
            let strict := World.strictSend ⟨s.grants, ch.stream⟩ prepared.node prepared.value
              prepared.lease
            decide (plain.1 = .ok () ∧ strict.1 = .ok ()) &&
              (steps Session.step ((ch.session s.grants).accepted 1 prepared.value plain.2)
                [.recvNow 0, .recvNow 1]).toOption.any fun t₁ =>
              (steps Session.step ((ch.session s.grants).accepted 1 prepared.value strict.2)
                [.recvNow 0, .recvNow 1]).toOption.any fun t₂ =>
              decide (t₂.subscriptions.map (·.items) ≠ t₁.subscriptions.map (·.items))) = true :=
    Exec.of_any (by decide +kernel)
  obtain ⟨ch, hk, htest⟩ := (Option.any_eq_true _ _).mp htest
  obtain ⟨prepared, hp, htest⟩ := (Option.any_eq_true _ _).mp htest
  obtain ⟨hanswers, htest⟩ := Bool.and_eq_true_iff.mp htest
  obtain ⟨hplain, hstrict⟩ := of_decide_eq_true hanswers
  obtain ⟨t₁, ht₁, htest⟩ := Exec.of_any htest
  obtain ⟨t₂, ht₂, htest⟩ := Exec.of_any htest
  exact ⟨_, s, h₀, hs, ch, prepared, hk, hp, _, _, t₁, t₂, Prod.ext hplain rfl,
    Prod.ext hstrict rfl, ht₁, ht₂, of_decide_eq_true htest⟩

end DynamicFabric

end Hiway.Fabric
