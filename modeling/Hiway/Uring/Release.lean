import Hiway.Uring.Dispatch
import Hiway.Uring.Teardown

/-!
# After a drop

A driver that has drained the kernel detaches its links and dispatches them once. From then
on each callback of a link and each drop of its handle ends with a cleanup, so that a link
gives back what it owns when the last of them that is under way has ended. A driver whose
ring is broken detaches nothing, and keeps what the kernel may still use.

* `dispatchSlot_settles`, `cleanup_settles`, `drop_settles`: what reclaims a slot, or sees
  to it that it will be.
* `steps_settle`: whatever happens, what is settled stays so.
* `Winding.detach`: detaching settles every link.
* `run_drop_releases`: after a drop that has drained the kernel every link gives back what
  it owns as soon as no call for it is under way.
-/

namespace Hiway.Uring

open Exec Target Transport

/-- The links of a driver that is gone. `notices` counts the calls of `maintain` under way
that borrow the reservation of a link; `leaving` marks a link whose handle is being dropped
and has not come to its cleanup. -/
structure Remnant (G : Type) (links : Nat) where
  shared : Shared G links
  notices : Fin links → Nat
  leaving : Fin links → Bool

/-- What can still happen to the links. The host's code runs in between, so that the pieces
of different callbacks come in any order. -/
inductive Late (links : Nat) where
  | act (a : Act links)
  /-- The last call of `Handle::drop`. -/
  | cleaned (index : Fin links)
  | enter (index : Fin links)
  | exit (index : Fin links)
  /-- The end of a call of `maintain` by `dispatch_slot`. -/
  | noted (index : Fin links)

namespace Remnant

variable {G : Type} {links : Nat}

/-- `reservations[index].try_borrow_mut()` fails. -/
def withheld (m : Remnant G links) (index : Fin links) : Bool :=
  m.shared.borrows index ≠ 0 || m.notices index ≠ 0

/-- `dispatch_slot` up to its first callback, which borrows the reservation if it is the
call of `maintain` for a link that is not reclaimed. -/
def dispatchSlot (m : Remnant G links) (index : Fin links) (work : Work) : Remnant G links :=
  if (work.reclaim || work.notifyAuthority) && m.withheld index then
    { m with shared := (m.shared.take index ⟨work.wake, false, false⟩).2 }
  else
    let taken := m.shared.take index work
    { m with
      shared := taken.2
      notices :=
        if work.notifyAuthority && !taken.1.reclaim then
          Function.update m.notices index (m.notices index + 1)
        else m.notices }

def cleanupDetachedSlot (m : Remnant G links) (index : Fin links) : Remnant G links :=
  if m.shared.detached && (m.shared.slots index).idle && (m.shared.slots index).isClosed then
    m.dispatchSlot index (m.shared.slots index).work
  else m

/-- `count` borrows of a reservation by polls. -/
def borrow (m : Remnant G links) (index : Fin links) (count : Nat) : Remnant G links :=
  { m with shared := { m.shared with borrows := Function.update m.shared.borrows index count } }

variable [Target] [NeZero links]

def step (m : Remnant G links) : Late links → Exec (Remnant G links)
  | .act a => do
    let s ← m.shared.act a
    return { m with
      shared := s
      leaving := match a with
        | .drop index =>
          if (m.shared.slots index).alive && m.shared.borrows index = 0 then
            Function.update m.leaving index true
          else m.leaving
        | _ => m.leaving }
  | .cleaned index =>
    .ok ({ m with leaving := Function.update m.leaving index false }.cleanupDetachedSlot index)
  | .enter index =>
    if (m.shared.slots index).alive then .ok (m.borrow index (m.shared.borrows index + 1))
    else .ok m
  | .exit index =>
    if m.shared.borrows index = 0 then .ok m
    else .ok ((m.borrow index (m.shared.borrows index - 1)).cleanupDetachedSlot index)
  | .noted index =>
    if m.notices index = 0 then .ok m
    else .ok ({ m with
      notices := Function.update m.notices index (m.notices index - 1) }.cleanupDetachedSlot index)

/-- `dispatch_with_budget` with a budget for every link. `during` is what happens during the
callbacks for each link that is dispatched. -/
def dispatchEach (pending : Fin links → Work) :
    List (Fin links) → List (List (Late links)) → Remnant G links → Exec (Remnant G links)
  | [], _, m => .ok m
  | index :: rest, during, m =>
    if (pending index).isEmpty then dispatchEach pending rest during m
    else do
      let m ← steps step (m.dispatchSlot index (pending index)) (during.headD [])
      dispatchEach pending rest during.tail m

end Remnant

namespace Driver

variable {G : Type} {links : Nat}

/-- A driver whose ring is broken leaves everything where it is. -/
def abandon (d : Driver G links) : Remnant G links := ⟨d.shared, fun _ => 0, fun _ => false⟩

/-- The end of `drop` once the kernel is drained. -/
def detach [Target] [NeZero links] (d : Driver G links) (during : List (List (Late links))) :
    Exec (Remnant G links) :=
  let s := (List.finRange links).foldl Shared.refresh { d.shared with detached := true }
  Remnant.dispatchEach s.pendingWork (Shared.around d.dispatchCursor links) during
    ⟨s, fun _ => 0, fun _ => false⟩

end Driver

/-! ## Slots -/

namespace Slot

variable {a b c : Slot}

/-- Slots that own the same and are to be reclaimed alike. -/
structure Steady (a b : Slot) : Prop where
  sockets : b.sockets = a.sockets
  protocol : b.protocol = none ↔ a.protocol = none
  alive : b.alive = a.alive
  reclaim : b.work.reclaim = a.work.reclaim

theorem Steady.refl (a : Slot) : Steady a a := ⟨rfl, Iff.rfl, rfl, rfl⟩

theorem Steady.trans (h : Steady a b) (h' : Steady b c) : Steady a c :=
  ⟨h'.sockets.trans h.sockets, h'.protocol.trans h.protocol, h'.alive.trans h.alive,
    h'.reclaim.trans h.reclaim⟩

/-- What a closed slot still has to give back is marked. -/
def Tidy (s : Slot) : Prop :=
  s.protocol ≠ none → s.work.reclaim = true ∨ (s.sockets = none ∧ s.alive = true)

/-- Nothing is left to reclaim. -/
def Clean (s : Slot) : Prop := s.protocol ≠ none → s.work.reclaim = false

theorem Steady.tidy (h : Steady a b) (htidy : a.Tidy) : b.Tidy := by
  intro hprotocol
  rw [h.reclaim, h.sockets, h.alive]
  exact htidy fun hnone => hprotocol (h.protocol.mpr hnone)

theorem Steady.clean (h : Steady a b) (hclean : a.Clean) : b.Clean := by
  intro hprotocol
  rw [h.reclaim]
  exact hclean fun hnone => hprotocol (h.protocol.mpr hnone)

theorem isClosed_of_not_open {s : Slot} (h : s.isOpen = false) (hp : s.protocol ≠ none) :
    s.isClosed = true := by
  obtain ⟨p, hp⟩ := Option.ne_none_iff_exists'.mp hp
  rw [isClosed_iff hp, Option.isSome_iff_ne_none]
  intro hnone
  rw [← Bool.not_eq_true, isOpen_iff hp] at h
  exact h hnone

end Slot

namespace Shared

variable {G : Type} {links : Nat} {s t : Shared G links} {index other : Fin links}

/-- A change of one slot that leaves it steady. -/
theorem steady_update {f : Slot → Slot} (index : Fin links)
    (h : (s.slots index).Steady (f (s.slots index))) (other : Fin links) :
    (s.slots other).Steady ((s.update index f).slots other) := by
  by_cases heq : other = index
  · subst heq
    rw [update_self]
    exact h
  · rw [update_of_ne heq]
    exact .refl _

/-! ## What `dispatch_slot` takes -/

/-- Without a reclamation only flags change. -/
theorem take_steady (s : Shared G links) (index : Fin links) {work : Work}
    (hreclaim : work.reclaim = false) (other : Fin links) :
    (s.slots other).Steady ((s.take index work).2.slots other) := by
  unfold take
  dsimp only
  split
  · exact .refl _
  · split
    · exact steady_update (f := fun slot =>
        { slot with
          work := { slot.work with wake := slot.work.wake && !work.wake }
          waker := if work.wake then none else slot.waker }) index ⟨rfl, Iff.rfl, rfl, rfl⟩ other
    · simp only [hreclaim, Bool.false_and, Bool.false_eq_true, if_false]
      refine steady_update index ⟨rfl, Iff.rfl, rfl, ?_⟩ other
      unfold Work.without
      rw [hreclaim, Bool.not_false, Bool.and_true]

/-- A reclamation gives back the sockets, and the machine of a link whose future is gone. -/
theorem take_self (s : Shared G links) {work : Work} (hb : s.borrows index = 0)
    (hreclaim : work.reclaim = true) (hidle : (s.slots index).idle = true)
    (hopen : (s.slots index).isOpen = false) :
    ((s.take index work).2.slots index).Tidy ∧ ((s.take index work).2.slots index).Clean := by
  have hempty : work.isEmpty = false := by
    rw [Work.isEmpty_eq_false]
    exact Or.inr (Or.inl hreclaim)
  have hslot : (s.take index work).2.slots index =
      { s.slots index with
        work := (s.slots index).work.without work
        waker := if work.wake then none else (s.slots index).waker
        sockets := if (s.slots index).isClosed then none else (s.slots index).sockets
        protocol :=
          if (s.slots index).isClosed && !(s.slots index).alive then none
          else (s.slots index).protocol } := by
    unfold take
    simp only [hempty, hreclaim, hb, hidle, Bool.false_eq_true, if_false, Bool.true_or, ne_eq,
      not_true_eq_false, decide_false, Bool.and_false, Bool.true_and]
    split <;> exact Function.update_self index _ _
  rw [hslot]
  refine ⟨fun hprotocol => Or.inr ?_, fun _ => ?_⟩
  · dsimp only at hprotocol ⊢
    split at hprotocol
    · exact absurd rfl hprotocol
    · rename_i hkept
      have hclosed := Slot.isClosed_of_not_open hopen hprotocol
      rw [hclosed] at hkept ⊢
      refine ⟨if_pos rfl, ?_⟩
      cases halive : (s.slots index).alive with
      | true => rfl
      | false => exact absurd (by rw [halive]; rfl) hkept
  · dsimp only
    unfold Work.without
    rw [hreclaim, Bool.not_true, Bool.and_false]

/-! ## What futures do -/

/-- The slots stay steady, and the borrows are those they were. -/
structure Rests (s t : Shared G links) : Prop where
  borrows : t.borrows = s.borrows
  steady : ∀ index, (s.slots index).Steady (t.slots index)

theorem Rests.refl (s : Shared G links) : s.Rests s := ⟨rfl, fun _ => .refl _⟩

theorem Rests.trans {u : Shared G links} (h : s.Rests t) (h' : t.Rests u) : s.Rests u :=
  ⟨h'.borrows.trans h.borrows, fun index => (h.steady index).trans (h'.steady index)⟩

theorem Rests.update {f : Slot → Slot} (index : Fin links)
    (h : (s.slots index).Steady (f (s.slots index))) : s.Rests (s.update index f) :=
  ⟨rfl, steady_update index h⟩

variable [Target]

theorem Rests.input {p q : Protocol} {i : Input} {result : Except Error Unit}
    (hp : (s.slots index).protocol = some p) (h : s.input index p i = .ok (q, result, t)) :
    s.Rests t := by
  obtain ⟨-, rfl⟩ := input_eq.mp h
  have hsteady : (s.slots index).Steady { s.slots index with protocol := some q } :=
    ⟨rfl, ⟨fun hnone => absurd hnone (Option.some_ne_none q), fun hnone => by
      rw [hp] at hnone
      cases hnone⟩, rfl, rfl⟩
  exact ⟨rfl, steady_update (f := fun slot => { slot with protocol := some q }) index hsteady⟩

variable [NeZero links]

theorem Rests.close {error : Error} (h : s.close index error = .ok t) : s.Rests t := by
  unfold Shared.close at h
  split at h
  · rename_i p hp
    obtain ⟨⟨q, result, u⟩, hinput, h⟩ := bind_eq_ok.mp h
    cases h
    have hwake : s.Rests (s.update index (·.wakeIf p.closed.isNone)) :=
      .update index ⟨rfl, Iff.rfl, rfl, rfl⟩
    have hp' : ((s.update index (·.wakeIf p.closed.isNone)).slots index).protocol = some p := by
      rw [update_self]
      exact hp
    have hcontended : u.Rests (u.update index fun slot => { slot with contended := false }) :=
      .update (f := fun slot => { slot with contended := false }) index ⟨rfl, Iff.rfl, rfl, rfl⟩
    exact (hwake.trans (Rests.input hp' hinput)).trans ⟨rfl, hcontended.steady⟩
  · cases h
    exact .refl s

theorem Rests.supply {i : Input} (h : s.supply index i = .ok t) : s.Rests t := by
  unfold Shared.supply at h
  split at h
  · rename_i p hp
    split at h
    · cases h
      exact .refl s
    · obtain ⟨⟨q, result, u⟩, hinput, h⟩ := bind_eq_ok.mp h
      have hrests := Rests.input hp hinput
      cases result with
      | ok _ =>
        cases h
        exact ⟨hrests.borrows, hrests.steady⟩
      | error _ =>
        cases h
        exact hrests
  · cases h
    exact .refl s

/-- What a future does, unless it is dropped. -/
theorem Rests.act {a : Act links} (hact : ∀ index, a ≠ .drop index) (h : s.act a = .ok t) :
    s.Rests t := by
  unfold Shared.act at h
  split at h
  · cases a with
    | revoked index =>
      change s.revoke index = .ok t at h
      unfold revoke at h
      split at h
      · rename_i p hp
        split at h
        · obtain ⟨⟨q, result, u⟩, hinput, h⟩ := bind_eq_ok.mp h
          cases h
          exact .input hp hinput
        · cases h
          exact .refl s
      · cases h
        exact .refl s
    | register index waker =>
      cases h
      exact .update (f := fun slot => { slot with waker := some waker }) index
        ⟨rfl, Iff.rfl, rfl, rfl⟩
    | observed index contract sequence =>
      change s.observe index contract sequence = .ok t at h
      unfold observe at h
      split at h
      · rename_i p hp
        split at h
        · cases h
          exact .refl s
        · obtain ⟨effect, -, h⟩ := bind_eq_ok.mp h
          split at h
          · cases h
            exact .refl s
          · cases h
            refine .update (f := fun slot =>
              { slot with protocol := some (p.observeSequence sequence) }) index
              ⟨rfl, ⟨fun hnone => absurd hnone (Option.some_ne_none _), fun hnone => ?_⟩, rfl, rfl⟩
            rw [hp] at hnone
            cases hnone
      · cases h
        exact .refl s
    | provided index sequence length => exact .supply h
    | admitted index => exact .supply h
    | close index error => exact .close h
    | drop index => exact absurd rfl (hact index)
  · cases h
    exact .refl s

/-- A handle that is dropped marks its slot for reclamation, once the links are detached. -/
theorem dropHandle_slots (h : s.dropHandle index = .ok t) :
    t.borrows = s.borrows ∧ (∀ other, other ≠ index → (s.slots other).Steady (t.slots other)) ∧
      (t.slots index).alive = false ∧
      (t.detached = true → (t.slots index).idle = true → (t.slots index).isClosed = true →
        (t.slots index).work.reclaim = true) := by
  unfold dropHandle at h
  obtain ⟨u, hclose, h⟩ := bind_eq_ok.mp h
  cases h
  have hrests := Rests.close hclose
  refine ⟨hrests.borrows, fun other hne => ?_, ?_, fun hdetached hidle hclosed => ?_⟩
  · rw [update_of_ne hne]
    exact hrests.steady other
  · rw [update_self]
  · rw [update_self] at hidle hclosed ⊢
    change u.detached = true at hdetached
    change (u.slots index).idle = true at hidle
    change (u.slots index).isClosed = true at hclosed
    dsimp only
    rw [hdetached, hidle, hclosed]
    exact Bool.or_true _

/-! ## What moves leave alone -/

/-- A slot that is idle stays so. -/
theorem Move.idle (h : s.Move t) (hidle : (s.slots index).idle = true) :
    (t.slots index).idle = true := by
  rw [Slot.idle_iff] at hidle ⊢
  intro lane
  rcases h.operation index lane with heq | heq
  · rw [heq]
    exact hidle lane
  · rw [heq, Operation.close_available (hidle lane)]
    exact hidle lane

theorem Reaches.idle (h : s.Reaches t) (hidle : (s.slots index).idle = true) :
    (t.slots index).idle = true := by
  induction h with
  | refl => exact hidle
  | tail _ hmove ih => exact hmove.idle ih

theorem Reaches.closed (h : s.Reaches t) (hclosed : (s.slots index).isOpen = false) :
    (t.slots index).isOpen = false := by
  induction h with
  | refl => exact hclosed
  | tail _ hmove ih => exact hmove.closed ih

end Shared

/-! ## One event -/

namespace Remnant

variable {G : Type} {links : Nat} {m m' : Remnant G links}

/-- A call is under way that ends with a cleanup of the slot. -/
def Pending (m : Remnant G links) (index : Fin links) : Prop :=
  m.shared.borrows index ≠ 0 ∨ m.notices index ≠ 0 ∨ m.leaving index = true

/-- The slot has been reclaimed, or will be. -/
def Settled (m : Remnant G links) (index : Fin links) : Prop :=
  (m.shared.slots index).Clean ∨ m.Pending index

/-- Nothing but flags changes, and the calls under way are the same. -/
theorem Settled.rests {index : Fin links} (h : m.Settled index)
    (hrests : m.shared.Rests m'.shared) (hnotices : m'.notices = m.notices)
    (hleaving : m'.leaving = m.leaving) : m'.Settled index := by
  unfold Settled Pending
  rw [hrests.borrows, hnotices, hleaving]
  exact h.imp_left (hrests.steady index).clean

theorem withheld_eq_false {index : Fin links} (h : m.withheld index = false) :
    m.shared.borrows index = 0 := by
  unfold withheld at h
  rw [Bool.or_eq_false_iff] at h
  simpa using h.1

theorem Pending.of_withheld {index : Fin links} (h : m.withheld index = true) :
    m.Pending index := by
  unfold withheld at h
  rw [Bool.or_eq_true] at h
  unfold Pending
  simpa using h.imp_right Or.inl

variable [Target] [NeZero links]

theorem dispatchSlot_reaches (m : Remnant G links) (index : Fin links) (work : Work) :
    m.shared.Reaches (m.dispatchSlot index work).shared := by
  unfold dispatchSlot
  split <;> exact Shared.take_reaches _ _ _

theorem cleanup_reaches (m : Remnant G links) (index : Fin links) :
    m.shared.Reaches (m.cleanupDetachedSlot index).shared := by
  unfold cleanupDetachedSlot
  split
  · exact dispatchSlot_reaches _ _ _
  · exact .refl

theorem borrow_reaches {index : Fin links} {count : Nat}
    (h : count ≠ 0 → (m.shared.slots index).alive = true) :
    m.shared.Reaches (m.borrow index count).shared :=
  .single (.borrow index count h)

/-- An event returns, and what it does is a chain of moves. -/
theorem step_reaches (hm : m.shared.Inv) (e : Late links) :
    ∃ m', m.step e = .ok m' ∧ m.shared.Reaches m'.shared := by
  cases e with
  | act a =>
    obtain ⟨s, hs, hreaches⟩ := Shared.act_returns hm a
    unfold step
    dsimp only
    rw [hs, ok_bind]
    exact ⟨_, rfl, hreaches⟩
  | cleaned index =>
    exact ⟨_, rfl, cleanup_reaches
      { m with leaving := Function.update m.leaving index false } index⟩
  | enter index =>
    unfold step
    dsimp only
    split
    · rename_i halive
      exact ⟨_, rfl, borrow_reaches fun _ => halive⟩
    · exact ⟨_, rfl, .refl⟩
  | exit index =>
    unfold step
    dsimp only
    split
    · exact ⟨_, rfl, .refl⟩
    · rename_i hb
      exact ⟨_, rfl, (borrow_reaches fun _ => hm.borrowed index hb).trans (cleanup_reaches _ index)⟩
  | noted index =>
    unfold step
    dsimp only
    split
    · exact ⟨_, rfl, .refl⟩
    · exact ⟨_, rfl, cleanup_reaches
        { m with notices := Function.update m.notices index (m.notices index - 1) } index⟩

/-- Links without a driver: they are closed and idle, and marked for what they own. -/
structure Detached (m : Remnant G links) : Prop where
  inv : m.shared.Inv
  owned : m.shared.Owned
  detached : m.shared.detached = true
  idle : ∀ index, (m.shared.slots index).idle = true
  closed : ∀ index, (m.shared.slots index).isOpen = false
  tidy : ∀ index, (m.shared.slots index).Tidy

theorem Detached.reaches (h : m.Detached) (hreaches : m.shared.Reaches m'.shared)
    (htidy : ∀ index, (m'.shared.slots index).Tidy) : m'.Detached where
  inv := hreaches.inv h.inv
  owned := hreaches.owned h.owned
  detached := hreaches.detached.trans h.detached
  idle index := hreaches.idle (h.idle index)
  closed index := hreaches.closed (h.closed index)
  tidy := htidy

/-- A dispatch keeps what is settled, and settles a slot that it was told to reclaim. -/
theorem dispatchSlot_settles (h : m.Detached) (index : Fin links) (work : Work) :
    (m.dispatchSlot index work).Detached ∧
      (∀ other, m.Settled other → (m.dispatchSlot index work).Settled other) ∧
      (work.reclaim = true → (m.dispatchSlot index work).Settled index) := by
  have hreaches := dispatchSlot_reaches m index work
  unfold dispatchSlot at hreaches ⊢
  split at hreaches
  · rename_i hheld
    rw [if_pos hheld]
    have hrests : m.shared.Rests (m.shared.take index ⟨work.wake, false, false⟩).2 :=
      ⟨Shared.take_borrows _ _ _, Shared.take_steady _ _ rfl⟩
    refine ⟨h.reaches hreaches fun other => (hrests.steady other).tidy (h.tidy other),
      fun other hother => hother.rests hrests rfl rfl, fun _ => Or.inr ?_⟩
    rw [Bool.and_eq_true] at hheld
    have hpending := Pending.of_withheld hheld.2
    unfold Pending at hpending ⊢
    rw [hrests.borrows]
    exact hpending
  · rename_i hfree
    rw [if_neg hfree]
    dsimp only at hreaches ⊢
    -- More calls of `maintain` leave more slots pending.
    have hkeep : ∀ other, ((m.shared.slots other).Clean →
        ((m.shared.take index work).2.slots other).Clean) → m.Settled other →
          ({ m with
            shared := (m.shared.take index work).2
            notices :=
              if work.notifyAuthority && !(m.shared.take index work).1.reclaim then
                Function.update m.notices index (m.notices index + 1)
              else m.notices } : Remnant G links).Settled other := by
      intro other hclean hsettled
      refine hsettled.imp hclean fun hpending => ?_
      unfold Pending at hpending ⊢
      dsimp only
      rw [Shared.take_borrows]
      refine hpending.imp_right (Or.imp_left fun hnotices => ?_)
      split
      · by_cases heq : other = index
        · subst heq
          rw [Function.update_self]
          exact Nat.succ_ne_zero _
        · rw [Function.update_of_ne heq]
          exact hnotices
      · exact hnotices
    cases hreclaim : work.reclaim with
    | false =>
      have hsteady := Shared.take_steady m.shared index hreclaim
      exact ⟨h.reaches hreaches fun other => (hsteady other).tidy (h.tidy other),
        fun other => hkeep other (hsteady other).clean,
        fun heq => by cases heq⟩
    | true =>
      have hb : m.shared.borrows index = 0 := by
        rw [hreclaim, Bool.true_or, Bool.true_and, Bool.not_eq_true] at hfree
        exact withheld_eq_false hfree
      obtain ⟨htidy, hclean⟩ := m.shared.take_self hb hreclaim (h.idle index) (h.closed index)
      refine ⟨h.reaches hreaches fun other => ?_, fun other => hkeep other fun hother => ?_,
        fun _ => Or.inl hclean⟩
      all_goals by_cases heq : other = index
      · subst heq
        exact htidy
      · dsimp only
        rw [Shared.take_of_ne _ heq]
        exact h.tidy other
      · subst heq
        exact hclean
      · rw [Shared.take_of_ne _ heq]
        exact hother

/-- After a cleanup the slot is settled, whatever it was before. -/
theorem cleanup_settles (h : m.Detached) (index : Fin links) :
    (m.cleanupDetachedSlot index).Detached ∧
      (∀ other, m.Settled other → (m.cleanupDetachedSlot index).Settled other) ∧
      (m.cleanupDetachedSlot index).Settled index := by
  unfold cleanupDetachedSlot
  rw [h.detached, h.idle, Bool.true_and, Bool.true_and]
  split
  · obtain ⟨hdetached, hothers, hself⟩ :=
      dispatchSlot_settles h index (m.shared.slots index).work
    refine ⟨hdetached, hothers, ?_⟩
    cases hreclaim : (m.shared.slots index).work.reclaim with
    | true => exact hself hreclaim
    | false => exact hothers index (Or.inl fun _ => hreclaim)
  · rename_i hclosed
    refine ⟨h, fun _ hother => hother, Or.inl fun hprotocol => ?_⟩
    exact absurd (Slot.isClosed_of_not_open (h.closed index) hprotocol) hclosed

/-- A call ends: the slots are the same, and only this one may no longer be pending. -/
theorem cleanup_of_ends (h : m.Detached) {index : Fin links} (hreaches : m.shared.Reaches m'.shared)
    (hslots : m'.shared.slots = m.shared.slots)
    (hpending : ∀ other, other ≠ index → m.Pending other → m'.Pending other) :
    (m'.cleanupDetachedSlot index).Detached ∧
      ∀ other, m.Settled other → (m'.cleanupDetachedSlot index).Settled other := by
  have hm' : m'.Detached := h.reaches hreaches fun other => by
    rw [hslots]
    exact h.tidy other
  obtain ⟨hdetached, hothers, hself⟩ := cleanup_settles hm' index
  refine ⟨hdetached, fun other hother => ?_⟩
  by_cases heq : other = index
  · rw [heq]
    exact hself
  · refine hothers other (hother.imp (fun hclean => ?_) (hpending other heq))
    rw [hslots]
    exact hclean

/-- A handle is dropped. -/
theorem drop_settles (h : m.Detached) {index : Fin links}
    (hstep : m.step (.act (.drop index)) = .ok m') :
    m'.Detached ∧ ∀ other, m.Settled other → m'.Settled other := by
  obtain ⟨m'', hm'', hreaches⟩ := step_reaches h.inv (.act (.drop index))
  rw [hstep] at hm''
  cases hm''
  unfold step at hstep
  obtain ⟨s, hact, hstep⟩ := bind_eq_ok.mp hstep
  cases hstep
  dsimp only at hreaches ⊢
  by_cases hguard : ((m.shared.slots index).alive && decide (m.shared.borrows index = 0)) = true
  · rw [if_pos hguard]
    rw [Bool.and_eq_true, decide_eq_true_eq] at hguard
    have hdrop : m.shared.dropHandle index = .ok s := by
      change (if (m.shared.slots index).alive then
        (if m.shared.borrows index = 0 then m.shared.dropHandle index else .ok m.shared)
        else .ok m.shared) = .ok s at hact
      rw [if_pos hguard.1, if_pos hguard.2] at hact
      exact hact
    obtain ⟨hborrows, hothers, halive, hmarked⟩ := Shared.dropHandle_slots hdrop
    refine ⟨h.reaches hreaches fun other => ?_, fun other hother => ?_⟩
    all_goals by_cases heq : other = index
    · subst heq
      intro hprotocol
      have hclosed := Slot.isClosed_of_not_open (hreaches.closed (h.closed other)) hprotocol
      exact Or.inl (hmarked (hreaches.detached.trans h.detached) (hreaches.idle (h.idle other))
        hclosed)
    · exact (hothers other heq).tidy (h.tidy other)
    · subst heq
      exact Or.inr (Or.inr (Or.inr (Function.update_self ..)))
    · refine hother.imp (hothers other heq).clean fun hpending => ?_
      unfold Pending at hpending ⊢
      dsimp only
      rw [hborrows, Function.update_of_ne heq]
      exact hpending
  · rw [if_neg hguard]
    have hsame : s = m.shared := by
      change (if (m.shared.slots index).alive then
        (if m.shared.borrows index = 0 then m.shared.dropHandle index else .ok m.shared)
        else .ok m.shared) = .ok s at hact
      split at hact
      · rename_i halive
        split at hact
        · rename_i hb
          exact absurd (by rw [halive, hb]; rfl) hguard
        · cases hact
          rfl
      · cases hact
        rfl
    rw [hsame]
    exact ⟨h, fun _ hother => hother⟩

/-- No event takes away that a slot has been reclaimed, or will be. -/
theorem step_settles (h : m.Detached) {e : Late links} (hstep : m.step e = .ok m') :
    m'.Detached ∧ ∀ index, m.Settled index → m'.Settled index := by
  obtain ⟨m'', hm'', hreaches⟩ := step_reaches h.inv e
  rw [hstep] at hm''
  cases hm''
  cases e with
  | act a =>
    by_cases hdrop : ∃ index, a = .drop index
    · obtain ⟨index, rfl⟩ := hdrop
      exact drop_settles h hstep
    · rw [not_exists] at hdrop
      obtain ⟨s, hact, hstep⟩ := bind_eq_ok.mp hstep
      cases hstep
      have hrests := Shared.Rests.act hdrop hact
      refine ⟨h.reaches hreaches fun index => (hrests.steady index).tidy (h.tidy index),
        fun index hindex => hindex.rests hrests rfl ?_⟩
      cases a with
      | drop index => exact absurd rfl (hdrop index)
      | _ => rfl
  | cleaned index =>
    cases hstep
    refine cleanup_of_ends h .refl rfl fun other hne hpending => ?_
    unfold Pending at hpending ⊢
    dsimp only
    rw [Function.update_of_ne hne]
    exact hpending
  | enter index =>
    unfold step at hstep
    dsimp only at hstep
    split at hstep
    · cases hstep
      refine ⟨h.reaches hreaches h.tidy, fun other hother => hother.imp_right ?_⟩
      refine fun hpending => hpending.imp_left fun hb => ?_
      unfold borrow
      dsimp only
      by_cases heq : other = index
      · subst heq
        rw [Function.update_self]
        exact Nat.succ_ne_zero _
      · rw [Function.update_of_ne heq]
        exact hb
    · cases hstep
      exact ⟨h, fun _ hother => hother⟩
  | exit index =>
    unfold step at hstep
    dsimp only at hstep
    split at hstep
    · cases hstep
      exact ⟨h, fun _ hother => hother⟩
    · rename_i hb
      cases hstep
      refine cleanup_of_ends h (borrow_reaches fun _ => h.inv.borrowed index hb) rfl
        fun other hne hpending => ?_
      unfold Pending at hpending ⊢
      unfold borrow
      dsimp only
      rw [Function.update_of_ne hne]
      exact hpending
  | noted index =>
    unfold step at hstep
    dsimp only at hstep
    split at hstep
    · cases hstep
      exact ⟨h, fun _ hother => hother⟩
    · cases hstep
      refine cleanup_of_ends h .refl rfl fun other hne hpending => ?_
      unfold Pending at hpending ⊢
      dsimp only
      rw [Function.update_of_ne hne]
      exact hpending

/-! ## Runs -/

/-- Whatever happens, what is settled stays so. -/
theorem steps_settle (h : m.Detached) (es : List (Late links)) :
    ∃ m', steps step m es = .ok m' ∧ m'.Detached ∧ ∀ index, m.Settled index → m'.Settled index := by
  refine steps_invariant (P := fun m' : Remnant G links =>
    m'.Detached ∧ ∀ index, m.Settled index → m'.Settled index) (fun m' e hm' => ?_)
    ⟨h, fun _ hindex => hindex⟩ es
  obtain ⟨m'', hm'', -⟩ := step_reaches hm'.1.inv e
  obtain ⟨hdetached, hsettled⟩ := step_settles hm'.1 hm''
  exact ⟨m'', hm'', hdetached, fun index hindex => hsettled index (hm'.2 index hindex)⟩

/-- Dispatching settles the slots that it goes to with a mark. -/
theorem dispatchEach_settles (h : m.Detached) (pending : Fin links → Work)
    (indices : List (Fin links)) (during : List (List (Late links))) :
    ∃ m', dispatchEach pending indices during m = .ok m' ∧ m'.Detached ∧
      (∀ index, m.Settled index → m'.Settled index) ∧
      ∀ index ∈ indices, (pending index).reclaim = true → m'.Settled index := by
  induction indices generalizing m during with
  | nil =>
    exact ⟨m, rfl, h, fun _ hindex => hindex, fun _ hindex => absurd hindex List.not_mem_nil⟩
  | cons first rest ih =>
    unfold dispatchEach
    cases hempty : (pending first).isEmpty with
    | true =>
      obtain ⟨m', hm', hdetached, hkept, hreclaimed⟩ := ih h during
      rw [if_pos rfl]
      refine ⟨m', hm', hdetached, hkept, fun index hindex hreclaim => ?_⟩
      rcases List.mem_cons.mp hindex with rfl | hindex
      · have hwork : (pending index).isEmpty = false :=
          Work.isEmpty_eq_false.mpr (Or.inr (Or.inl hreclaim))
        rw [hempty] at hwork
        cases hwork
      · exact hreclaimed index hindex hreclaim
    | false =>
      obtain ⟨hdispatched, hothers, hself⟩ := dispatchSlot_settles h first (pending first)
      obtain ⟨m₁, hm₁, hdetached₁, hkept₁⟩ := steps_settle hdispatched (during.headD [])
      obtain ⟨m', hm', hdetached, hkept, hreclaimed⟩ := ih hdetached₁ during.tail
      rw [if_neg Bool.false_ne_true, hm₁, ok_bind]
      refine ⟨m', hm', hdetached, fun index hindex => hkept index (hkept₁ index (hothers index
        hindex)), fun index hindex hreclaim => ?_⟩
      rcases List.mem_cons.mp hindex with rfl | hindex
      · exact hkept index (hkept₁ index (hself hreclaim))
      · exact hreclaimed index hindex hreclaim

/-- No call that ends with a cleanup of the slot is under way. -/
def Quiet (m : Remnant G links) (index : Fin links) : Prop :=
  m.shared.borrows index = 0 ∧ m.notices index = 0 ∧ m.leaving index = false

/-- A link has given back its sockets and its reservation, and its machine too if its future
is gone. -/
structure Released (m : Remnant G links) (index : Fin links) : Prop where
  sockets : (m.shared.slots index).sockets = none
  reservation : m.shared.reservations index = none
  machine : (m.shared.slots index).alive = false → (m.shared.slots index).protocol = none

theorem Detached.released (h : m.Detached) {index : Fin links} (hsettled : m.Settled index)
    (hquiet : m.Quiet index) : m.Released index := by
  obtain ⟨hborrows, hnotices, hleaving⟩ := hquiet
  have hclean : (m.shared.slots index).Clean := by
    refine hsettled.resolve_right fun hpending => ?_
    unfold Pending at hpending
    rw [hborrows, hnotices, hleaving] at hpending
    simp at hpending
  have howned : (m.shared.slots index).protocol ≠ none →
      (m.shared.slots index).sockets = none ∧ (m.shared.slots index).alive = true := by
    intro hprotocol
    refine (h.tidy index hprotocol).resolve_left fun hreclaim => ?_
    rw [hclean hprotocol] at hreclaim
    cases hreclaim
  have hsockets : (m.shared.slots index).sockets = none := by
    by_cases hprotocol : (m.shared.slots index).protocol = none
    · exact h.owned.vacant index hprotocol
    · exact (howned hprotocol).1
  refine ⟨hsockets, ?_, fun halive => ?_⟩
  · have hpaired := h.owned.paired index
    rw [hsockets] at hpaired
    exact Option.isNone_iff_eq_none.mp (Option.isSome_eq_false_iff.mp hpaired.symm)
  · by_contra hprotocol
    rw [(howned hprotocol).2] at halive
    cases halive

/-- A link that the kernel may still use has kept what it had when the driver went. -/
structure Keeps (d : Driver G links) (m : Remnant G links) (index : Fin links) : Prop where
  sockets : (m.shared.slots index).sockets = (d.slot index).sockets
  reservation : m.shared.reservations index = d.shared.reservations index
  owned : (d.slot index).sockets.isSome = true ∧ (d.shared.reservations index).isSome = true

end Remnant

/-- A refresh marks what a closed and idle slot has to give back. -/
theorem Slot.refresh_tidy {s : Slot} (hidle : s.idle = true) (hopen : s.isOpen = false) :
    s.refresh.Tidy := by
  intro hprotocol
  have hcancelled : s.cancelOperations.idle = true := by
    rw [Slot.idle_iff] at hidle ⊢
    intro lane
    rw [Slot.cancelOperations_get, Operation.close_available (hidle lane)]
    exact hidle lane
  unfold Slot.refresh at hprotocol ⊢
  split at hprotocol
  · rename_i hclosed
    rw [if_pos hclosed]
    dsimp only
    rw [hcancelled]
    change (_ || (true && (s.sockets.isSome || !s.alive))) = true ∨
      (s.sockets = none ∧ s.alive = true)
    cases hsockets : s.sockets with
    | some sockets => exact Or.inl (Bool.or_true _)
    | none =>
      cases halive : s.alive with
      | true => exact Or.inr ⟨rfl, rfl⟩
      | false => exact Or.inl (Bool.or_true _)
  · rename_i hclosed
    exact absurd (Slot.isClosed_of_not_open hopen hprotocol) hclosed

namespace Driver

variable [Target] {G : Type} {links bytes : Nat} [NeZero links] {d : Driver G links}

/-- Refreshing every slot. -/
theorem refreshAll_tidy {s : Shared G links} (hidle : ∀ index, (s.slots index).idle = true)
    (hclosed : ∀ index, (s.slots index).isOpen = false) (indices : List (Fin links)) :
    s.Reaches (indices.foldl Shared.refresh s) ∧
      ∀ index, index ∈ indices ∨ (s.slots index).Tidy →
        ((indices.foldl Shared.refresh s).slots index).Tidy := by
  induction indices generalizing s with
  | nil => exact ⟨.refl, fun index hindex => hindex.resolve_left List.not_mem_nil⟩
  | cons first rest ih =>
    have hmove : s.Reaches (s.refresh first) := .single (.refresh first)
    obtain ⟨hreaches, htidy⟩ := ih (fun index => hmove.idle (hidle index))
      fun index => hmove.closed (hclosed index)
    have hself : ((s.refresh first).slots first).Tidy := by
      unfold Shared.refresh
      rw [Shared.update_self]
      exact Slot.refresh_tidy (hidle first) (hclosed first)
    rw [List.foldl_cons]
    refine ⟨hmove.trans hreaches, fun index hindex => htidy index ?_⟩
    by_cases heq : index = first
    · rw [heq]
      exact Or.inr hself
    · have hother : (s.refresh first).slots index = s.slots index := by
        unfold Shared.refresh
        exact Shared.update_of_ne heq
      rw [hother]
      exact hindex.imp_left fun hmem => (List.mem_cons.mp hmem).resolve_left heq

/-- Detaching settles every link. -/
theorem Winding.detach (h : d.Winding) (hdrained : d.kernelDrained = true)
    (during : List (List (Late links))) :
    ∃ m, d.detach during = .ok m ∧ m.Detached ∧ ∀ index, m.Settled index := by
  unfold kernelDrained at hdrained
  rw [Bool.and_eq_true, List.all_eq_true] at hdrained
  have hidle : ∀ index, (d.slot index).idle = true :=
    fun index => hdrained.2 index (List.mem_finRange index)
  obtain ⟨hreaches, htidy⟩ := refreshAll_tidy (s := { d.shared with detached := true }) hidle
    h.closing.closed (List.finRange links)
  have hinv : ({ d.shared with detached := true } : Shared G links).Inv :=
    ⟨h.inv.shared.slot, h.inv.shared.ready, h.inv.shared.borrowed⟩
  have hstart : (⟨(List.finRange links).foldl Shared.refresh { d.shared with detached := true },
      fun _ => 0, fun _ => false⟩ : Remnant G links).Detached := {
    inv := hreaches.inv hinv
    owned := hreaches.owned (h.whole.owned.congr rfl rfl)
    detached := hreaches.detached
    idle := fun index => hreaches.idle (hidle index)
    closed := fun index => hreaches.closed (h.closing.closed index)
    tidy := fun index => htidy index (Or.inl (List.mem_finRange index)) }
  obtain ⟨m, hm, hdetached, hkept, hreclaimed⟩ := Remnant.dispatchEach_settles hstart
    ((List.finRange links).foldl Shared.refresh { d.shared with detached := true }).pendingWork
    (Shared.around d.dispatchCursor links) during
  refine ⟨m, hm, hdetached, fun index => ?_⟩
  cases hreclaim : (((List.finRange links).foldl Shared.refresh
      { d.shared with detached := true }).pendingWork index).reclaim with
  | true => exact hreclaimed index (Shared.mem_around d.dispatchCursor index) hreclaim
  | false => exact hkept index (Or.inl fun _ => hreclaim)

/-- A driver that was given up keeps what its requests need. -/
theorem abandon_keeps (hf : Fits links bytes) (hinv : d.Inv) (es : List (Late links)) :
    ∃ m, steps Remnant.step d.abandon es = .ok m ∧ ∀ index, d.Busy index → m.Keeps d index := by
  obtain ⟨m, hm, hreaches⟩ := steps_invariant
    (P := fun m : Remnant G links => d.shared.Reaches m.shared) (fun m e hm => by
      obtain ⟨m', hm', hreaches⟩ := Remnant.step_reaches (hm.inv hinv.shared) e
      exact ⟨m', hm', hm.trans hreaches⟩) (show d.shared.Reaches d.abandon.shared from .refl) es
  refine ⟨m, hm, fun index hbusy => ?_⟩
  have hmoved : d.Reaches (d.withShared m.shared) := Reaches.shared hreaches
  obtain ⟨hsockets, hreserved, -⟩ := (hinv.inFlight hf).held index hbusy
  obtain ⟨hsockets', hreserved', -⟩ := ((Reaches.inv hf hinv hmoved).inFlight hf).held index hbusy
  have hkept := Reaches.held hmoved
  refine ⟨(hkept.sockets index).resolve_right fun hnone => ?_,
    (hkept.reservation index).resolve_right fun hnone => ?_, hsockets, hreserved⟩
  · change (((d.withShared m.shared).shared.slots index).sockets).isSome = true at hsockets'
    rw [hnone] at hsockets'
    cases hsockets'
  · rw [hnone] at hreserved'
    cases hreserved'

end Driver

namespace Host

variable [Target] {G : Type} {links bytes : Nat} [NeZero links]

/-- Once a drop has drained the kernel, every link gives back what it owns as soon as no call
for it is under way, whatever its future does; with a broken ring, a link that the kernel may
still use keeps it for good. -/
theorem run_drop_releases (hf : Fits links bytes) (capacity cqEntries : Nat)
    (hcq : cqEntries ≠ 0) (room : 2 ≤ capacity) (events : List (Event G links))
    (is : List (Interlude links)) :
    ∃ h r, run bytes capacity cqEntries room events = .ok h ∧ h.driver.shutdown is = .ok r ∧
      (r.ending = some .drained → ∀ during late, ∃ m m', r.driver.detach during = .ok m ∧
        steps Remnant.step m late = .ok m' ∧ ∀ index, m'.Quiet index → m'.Released index) ∧
      (r.ending = some .broken → ∀ late, ∃ m, steps Remnant.step r.driver.abandon late = .ok m ∧
        ∀ index, r.driver.Busy index → m.Keeps r.driver index) := by
  obtain ⟨h, hrun, hh⟩ := run_droppable (G := G) hf capacity cqEntries hcq room events
  obtain ⟨e, r, hr, -, -, -, hspun⟩ := Driver.shutdown_winding hf hh.inv hh.whole hh.cqEntries is
  refine ⟨h, r, hrun, hr, fun hending during late => ?_, fun _ late => ?_⟩
  · obtain ⟨m, hm, hdetached, hsettled⟩ := hspun.winding.detach (hspun.drained hending) during
    obtain ⟨m', hm', hdetached', hkept⟩ := Remnant.steps_settle hdetached late
    exact ⟨m, m', hm, hm', fun index hquiet =>
      hdetached'.released (hkept index (hsettled index)) hquiet⟩
  · exact Driver.abandon_keeps hf hspun.winding.inv late

end Host

namespace Host

/-- The future of a link is in a callback when its driver is dropped. -/
def borrowing : List (Event Unit 2) := submitted ++ [.enter ⟨0, Nat.two_pos⟩]

/-- The callback ends, and then the future is dropped. -/
def parting : List (Late 2) :=
  [.exit ⟨0, Nat.two_pos⟩, .act (.drop ⟨0, Nat.two_pos⟩), .cleaned ⟨0, Nat.two_pos⟩]

theorem run_drop_releases_borrowing : let _ := Target.x64
    ∃ (h : Host Unit 2) (r : Driver.Drain Unit 2) (m m' : Remnant Unit 2),
      run 64 4 16 (by decide) borrowing = .ok h ∧ h.driver.shutdown interrupted = .ok r ∧
        r.driver.detach [] = .ok m ∧ m.shared.reservations 0 = some () ∧
        steps Remnant.step m parting = .ok m' ∧ m'.Released 0 := by
  intro _
  have hf : Fits 2 64 := ⟨by decide, by decide, by decide, by decide, by decide⟩
  obtain ⟨h, r, hrun, hr, hdrained, -⟩ := run_drop_releases (G := Unit) hf 4 16 (by decide)
    (by decide) borrowing interrupted
  have hends : (run 64 4 16 (by decide) borrowing >>= fun h =>
      h.driver.shutdown interrupted).map (fun r => r.ending) = .ok (some .drained) := by
    decide +kernel
  rw [hrun, ok_bind, hr] at hends
  obtain ⟨m, m', hm, hm', hreleased⟩ := hdrained (Except.ok.inj hends) [] parting
  have hheld : ((run 64 4 16 (by decide) borrowing >>= fun h =>
      h.driver.shutdown interrupted) >>= fun r => r.driver.detach []).map
        (fun m => m.shared.reservations 0) = .ok (some ()) := by
    decide +kernel
  have hquiet : (((run 64 4 16 (by decide) borrowing >>= fun h =>
      h.driver.shutdown interrupted) >>= fun r => r.driver.detach []) >>= fun m =>
        steps Remnant.step m parting).map
          (fun m => decide (m.shared.borrows 0 = 0 ∧ m.notices 0 = 0 ∧ m.leaving 0 = false)) =
        .ok true := by
    decide +kernel
  rw [hrun, ok_bind, hr, ok_bind, hm] at hheld hquiet
  rw [ok_bind, hm'] at hquiet
  have hquiet' : m'.shared.borrows 0 = 0 ∧ m'.notices 0 = 0 ∧ m'.leaving 0 = false :=
    of_decide_eq_true (Except.ok.inj hquiet)
  exact ⟨h, r, m, m', hrun, hr, hm, Except.ok.inj hheld, hm', hreleased 0 hquiet'⟩

end Host

end Hiway.Uring
