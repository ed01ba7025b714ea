import Hiway.Fabric.Stream

/-!
# What one operation can do

Each operation of a stream is opened once, here: its outcomes, the guards that lead to
each of them and the world it leaves behind. Nothing after this module looks into the
operations again.

* `reserveLoop_cases`: one iteration of `reserve` gives up, is charged, or evicts the front.
* `commit_cases`, `sendNow_cases`: a publication is rejected, appended, or takes the place
  of the front.
* `subscribe_cases`: a failed subscription gives back what it charged.
* `tryRecv_cases`, `tryRecv_moves`: a reception moves at most a cursor, and defers the
  announcement.
-/

namespace Hiway.Fabric

open Exec Target

variable {α : Type}

namespace World

@[simp] theorem unlock_grants (w : World α) (s : State α) (d n : Bool) :
    (w.unlock s d n).grants = w.grants := rfl

@[simp] theorem unlock_state (w : World α) (s : State α) (d n : Bool) :
    (w.unlock s d n).stream.state = s := by
  unfold unlock
  cases n <;> rfl

@[simp] theorem unlock_event (w : World α) (s : State α) (d n : Bool) :
    (w.unlock s d n).stream.event = w.stream.event := by
  unfold unlock
  cases n <;> rfl

@[simp] theorem unlock_config (w : World α) (s : State α) (d n : Bool) :
    (w.unlock s d n).stream.config = w.stream.config := by
  unfold unlock
  cases n <;> rfl

@[simp] theorem unlock_delivery (w : World α) (s : State α) (d n : Bool) :
    (w.unlock s d n).stream.delivery = w.stream.delivery := by
  unfold unlock
  cases n <;> rfl

/-- A second look at the state notifies nobody. -/
@[simp] theorem unlock_unlock (w : World α) (s : State α) :
    (w.unlock s false true).unlock s false true = w.unlock s false true := rfl

@[simp] theorem release_state (w : World α) (lease : Lease) :
    (w.release lease).stream.state = w.stream.state := by
  unfold release
  dsimp only
  split <;> rfl

@[simp] theorem release_event (w : World α) (lease : Lease) :
    (w.release lease).stream.event = w.stream.event := by
  unfold release
  dsimp only
  split <;> rfl

@[simp] theorem release_config (w : World α) (lease : Lease) :
    (w.release lease).stream.config = w.stream.config := by
  unfold release
  dsimp only
  split <;> rfl

@[simp] theorem release_delivery (w : World α) (lease : Lease) :
    (w.release lease).stream.delivery = w.stream.delivery := by
  unfold release
  dsimp only
  split <;> rfl

@[simp] theorem release_grants (w : World α) (lease : Lease) :
    (w.release lease).grants = w.grants.release lease := rfl

@[simp] theorem tryCharge_stream [Target] (w : World α) (node : NodeId) (usage : StreamLimits) :
    (w.tryCharge node usage).2.stream = w.stream := rfl

theorem bindStream_stream (w : World α) (node : NodeId) (rights : Rights) :
    (w.bindStream node rights).2.stream = w.stream := by
  unfold bindStream
  split <;> rfl

/-! ## Reservation -/

/-- The charge of one retained item. -/
abbrev retainedItem : StreamLimits := { StreamLimits.zero with retainedItems := 1 }

/-- A charge that fails leaves the world as it is. -/
theorem tryCharge_error [Target] {w w' : World α} {node : NodeId} {usage : StreamLimits}
    {error : TopicError} (h : w.tryCharge node usage = (.error error, w')) : w' = w := by
  unfold tryCharge at h
  cases hc : w.grants.tryChargeStream node w.stream.event usage with
  | mk result g =>
    rw [hc] at h
    cases h
    rw [Grants.tryChargeStream_error hc]

/-- The front has made room for a publisher. -/
def evicted (w : World α) (front : Entry α) (rest : List (Entry α)) : World α :=
  ((w.unlock w.stream.state false true).unlock
    { w.stream.state with entries := rest } true true).release front.lease

/-- One iteration of `reserve` gives up without a change, is charged, or evicts the front
because the publisher has an entry that no live required cursor needs. -/
theorem reserveLoop_cases [Target] (w : World α) (node : NodeId) (value : α) (fuel : Nat) :
    (∃ error w', w.reserveLoop node value (fuel + 1) = (.error error, w') ∧
      w'.grants = w.grants ∧ w'.stream.state = w.stream.state ∧
      w'.stream.event = w.stream.event ∧ w'.stream.config = w.stream.config ∧
      w'.stream.delivery = w.stream.delivery ∧
      (w' = w ∨ w' = w.unlock w.stream.state false true)) ∨
    (w.grants.isRevoked node = false ∧ w.stream.state.closed = false ∧
      w.stream.state.tail ≠ u64Max ∧
      ((∃ lease w', (w.unlock w.stream.state false true).tryCharge node retainedItem =
          (.ok lease, w') ∧
        w.reserveLoop node value (fuel + 1) = (.ok (value, lease), w')) ∨
      ∃ error own front rest, w.stream.delivery = .ordered ∧
        (w.unlock w.stream.state false true).tryCharge node retainedItem =
          (.error error, w.unlock w.stream.state false true) ∧
        w.stream.state.entries.find? (fun entry => entry.lease.belongsTo node) = some own ∧
        w.stream.state.requiredNeeds w.grants own.sequence = false ∧
        w.stream.state.entries = front :: rest ∧
        w.reserveLoop node value (fuel + 1) =
          (w.evicted front rest).reserveLoop node value fuel)) := by
  obtain ⟨r, hr⟩ : ∃ r, w.reserveLoop node value (fuel + 1) = r := ⟨_, rfl⟩
  rw [hr]
  rw [reserveLoop] at hr
  split at hr
  · exact Or.inl ⟨_, _, hr.symm, rfl, rfl, rfl, rfl, rfl, Or.inl rfl⟩
  · rename_i hrevoked
    dsimp only at hr
    split at hr
    · exact Or.inl ⟨_, _, hr.symm, by simp⟩
    · rename_i hopen
      split at hr
      · exact Or.inl ⟨_, _, hr.symm, by simp⟩
      · rename_i hmax
        split at hr
        · exact Or.inl ⟨_, _, hr.symm, by simp⟩
        · split at hr
          · rename_i lease w₁ hcharge
            exact Or.inr ⟨by simpa using hrevoked, by simpa using hopen, hmax,
              Or.inl ⟨lease, w₁, hcharge, hr.symm⟩⟩
          · rename_i w₁ hcharge
            rw [tryCharge_error hcharge] at hr
            exact Or.inl ⟨_, _, hr.symm, by simp⟩
          · rename_i error w₁ hne hcharge
            have hsame := tryCharge_error hcharge
            subst hsame
            split at hr
            · exact Or.inl ⟨_, _, hr.symm, by simp⟩
            · rename_i hlatest
              rw [unlock_state] at hr
              split at hr
              · exact Or.inl ⟨_, _, hr.symm, by simp⟩
              · split at hr
                · exact Or.inl ⟨_, _, hr.symm, by simp⟩
                · rename_i hfind
                  rw [Option.all_eq_true] at hfind
                  push Not at hfind
                  obtain ⟨own, hown, hneed⟩ := hfind
                  have hdelivery : w.stream.delivery = .ordered := by
                    rw [unlock_delivery] at hlatest
                    cases hd : w.stream.delivery with
                    | ordered => rfl
                    | latest => exact absurd hd hlatest
                  split at hr
                  · rename_i hnil
                    rw [hnil] at hown
                    cases hown
                  · rename_i front rest he
                    exact Or.inr ⟨by simpa using hrevoked, by simpa using hopen, hmax,
                      Or.inr ⟨error, own, front, rest, hdelivery, hcharge, hown,
                        by simpa using hneed, he, hr.symm⟩⟩

/-! ### When a reservation does what -/

section

variable [Target] {w : World α} {node : NodeId} (value : α) (fuel : Nat)

theorem reserveLoop_closed (hrevoked : w.grants.isRevoked node = false)
    (hclosed : w.stream.state.closed = true) :
    w.reserveLoop node value (fuel + 1) =
      (.error (.closed value), w.unlock w.stream.state false true) := by
  rw [reserveLoop, hrevoked, if_neg (by decide)]
  exact if_pos hclosed

theorem reserveLoop_exhausted (hrevoked : w.grants.isRevoked node = false)
    (hopen : w.stream.state.closed = false) (htail : w.stream.state.tail = u64Max) :
    w.reserveLoop node value (fuel + 1) =
      (.error (.sequenceExhausted value), w.unlock w.stream.state false true) := by
  rw [reserveLoop, hrevoked, if_neg (by decide)]
  exact (if_neg (by simp [hopen])).trans (if_pos htail)

/-- The queue is at capacity and its front is still needed. -/
def Blocked (w : World α) : Prop :=
  w.stream.state.entries.length = w.stream.config.capacity ∧
    w.stream.state.entries.head?.any
      (fun entry => w.stream.state.requiredNeeds w.grants entry.sequence) = true

instance (w : World α) : Decidable w.Blocked := inferInstanceAs (Decidable (_ ∧ _))

theorem reserveLoop_blocked (hrevoked : w.grants.isRevoked node = false)
    (hopen : w.stream.state.closed = false) (htail : w.stream.state.tail ≠ u64Max)
    (hblocked : w.Blocked) :
    w.reserveLoop node value (fuel + 1) =
      (.error (.full value), w.unlock w.stream.state false true) := by
  rw [reserveLoop, hrevoked, if_neg (by decide)]
  exact (if_neg (by simp [hopen])).trans ((if_neg htail).trans (if_pos hblocked))

theorem reserveLoop_charged (hrevoked : w.grants.isRevoked node = false)
    (hopen : w.stream.state.closed = false) (htail : w.stream.state.tail ≠ u64Max)
    (hfree : ¬ w.Blocked) {lease : Lease} {w' : World α}
    (hcharge : (w.unlock w.stream.state false true).tryCharge node retainedItem =
      (.ok lease, w')) :
    w.reserveLoop node value (fuel + 1) = (.ok (value, lease), w') := by
  rw [reserveLoop, hrevoked, if_neg (by decide)]
  refine (if_neg (by simp [hopen])).trans ((if_neg htail).trans ((if_neg hfree).trans ?_))
  rw [hcharge]

/-- A node without allowance that has an entry nobody needs evicts the front. -/
theorem reserveLoop_evicts (hrevoked : w.grants.isRevoked node = false)
    (hopen : w.stream.state.closed = false) (htail : w.stream.state.tail ≠ u64Max)
    (hfree : ¬ w.Blocked)
    (hcharge : (w.unlock w.stream.state false true).tryCharge node retainedItem =
      (.error .capacity, w.unlock w.stream.state false true))
    (hdelivery : w.stream.delivery = .ordered) {own front : Entry α} {rest : List (Entry α)}
    (hown : w.stream.state.entries.find? (fun entry => entry.lease.belongsTo node) = some own)
    (hneed : w.stream.state.requiredNeeds w.grants own.sequence = false)
    (hfront : w.stream.state.entries = front :: rest) :
    w.reserveLoop node value (fuel + 1) = (w.evicted front rest).reserveLoop node value fuel := by
  have hopen' : ¬ w.stream.state.closed = true := by simp [hopen]
  have hfind : ¬ (w.stream.state.entries.find? fun entry => entry.lease.belongsTo node).all
      (fun entry => w.stream.state.requiredNeeds w.grants entry.sequence) = true := by
    rw [hown, Option.all_some, hneed]
    decide
  rw [reserveLoop, hrevoked, if_neg (by decide)]
  refine (if_neg hopen').trans ((if_neg htail).trans ((if_neg hfree).trans ?_))
  rw [hcharge]
  dsimp only
  rw [unlock_delivery, unlock_state, hdelivery, if_neg (by decide), if_neg hopen', unlock_grants,
    if_neg hfind]
  split
  · rename_i hnil
    rw [hfront] at hnil
    cases hnil
  · rename_i front' rest' he
    rw [hfront] at he
    cases he
    rfl

end

/-- A reservation hands the value on, with the lease of a charge that came last. -/
theorem reserveLoop_ok [Target] {node : NodeId} {value v : α} {lease : Lease} (fuel : Nat)
    {w w' : World α} (h : w.reserveLoop node value fuel = (.ok (v, lease), w')) :
    v = value ∧ ∃ w₁ : World α, w₁.tryCharge node retainedItem = (.ok lease, w') := by
  induction fuel generalizing w with
  | zero => cases h
  | succ fuel ih =>
    rcases w.reserveLoop_cases node value fuel with
      ⟨error, w₁, he, -⟩ | ⟨-, -, -, ⟨lease₁, w₁, hcharge, he⟩ |
        ⟨error, own, front, rest, -, -, -, -, -, he⟩⟩
    · rw [he] at h
      cases h
    · rw [he] at h
      cases h
      exact ⟨rfl, _, hcharge⟩
    · rw [he] at h
      exact ih h

theorem reserve_ok [Target] {node : NodeId} {value v : α} {lease : Lease} {w w' : World α}
    (h : w.reserve node value = (.ok (v, lease), w')) :
    v = value ∧ ∃ w₁ : World α, w₁.tryCharge node retainedItem = (.ok lease, w') := by
  unfold reserve at h
  split at h
  · cases h
  · cases h
  · cases h
  · exact reserveLoop_ok _ h

/-! ## Publication -/

/-- A publication is rejected and changes at most the request for room of an ordered
stream, or it is appended: into free room, in the place of the front, or, strictly, in the
place of a front that is kept aside. -/
theorem commit_cases [Target] {w : World α} (hcap : 0 < w.stream.config.capacity)
    (node : NodeId) (value : α) (lease : Lease) (deferred : Bool) :
    (∃ error w', w.commit node value lease deferred = (.error error, w') ∧
      (w' = w ∨ ∃ room n, (w.stream.delivery = .latest → room = w.stream.state.needsRoom) ∧
        w' = w.unlock { w.stream.state with needsRoom := room } false n)) ∨
    (w.grants.enter node w.stream.event .publish = .ok () ∧ w.stream.state.closed = false ∧
      w.stream.state.tail + 1 ≤ u64Max ∧
      ((w.stream.state.entries.length ≠ w.stream.config.capacity ∧
        w.commit node value lease deferred =
          (.ok (), w.unlock (append w.stream.state value lease) true (!deferred))) ∨
      ∃ front rest, w.stream.state.entries = front :: rest ∧
        (front :: rest).length = w.stream.config.capacity ∧
        w.stream.state.requiredNeeds w.grants front.sequence = false ∧
        ((deferred = false ∧ w.commit node value lease deferred = (.ok (),
          (w.unlock (append { w.stream.state with entries := rest } value lease)
            true true).release front.lease)) ∨
        (deferred = true ∧ w.stream.delivery = .latest ∧ w.stream.state.retired = none ∧
          w.commit node value lease deferred = (.ok (),
            w.unlock (append { w.stream.state with retired := some front, entries := rest }
              value lease) true false))))) := by
  unfold commit
  split
  · exact Or.inl ⟨_, _, rfl, Or.inl rfl⟩
  · exact Or.inl ⟨_, _, rfl, Or.inl rfl⟩
  · exact Or.inl ⟨_, _, rfl, Or.inl rfl⟩
  · rename_i henter
    dsimp only
    split
    · exact Or.inl ⟨_, _, rfl, Or.inr ⟨_, _, fun _ => rfl, rfl⟩⟩
    · rename_i hopen
      have hopen : w.stream.state.closed = false := by simpa using hopen
      split
      · exact Or.inl ⟨_, _, rfl, Or.inr ⟨_, _, fun _ => rfl, rfl⟩⟩
      · rename_i hmax
        split
        · rename_i hlen
          cases he : w.stream.state.entries with
          | nil =>
            rw [he, List.length_nil] at hlen
            omega
          | cons front rest =>
            simp only [he] at hlen ⊢
            split
            · exact Or.inl ⟨_, _, rfl, Or.inr
                ⟨w.stream.state.needsRoom, _, fun _ => rfl, by rw [← he]⟩⟩
            · rename_i hneed
              have hneed : w.stream.state.requiredNeeds w.grants front.sequence = false := by
                simpa using hneed
              split
              · rename_i hdeferred
                split
                · rename_i hlatest
                  split
                  · exact Or.inl ⟨_, _, rfl, Or.inr
                ⟨w.stream.state.needsRoom, _, fun _ => rfl, by rw [← he]⟩⟩
                  · rename_i hretired
                    exact Or.inr ⟨henter, hopen, by omega, Or.inr ⟨front, rest, rfl, hlen, hneed,
                      Or.inr ⟨hdeferred, hlatest, by simpa using hretired, rfl⟩⟩⟩
                · rename_i hordered
                  exact Or.inl ⟨_, _, rfl, Or.inr ⟨_, _, fun h => absurd h hordered, rfl⟩⟩
              · rename_i hdeferred
                exact Or.inr ⟨henter, hopen, by omega, Or.inr ⟨front, rest, rfl, hlen, hneed,
                  Or.inl ⟨by simpa using hdeferred, rfl⟩⟩⟩
        · rename_i hlen
          exact Or.inr ⟨henter, hopen, by omega, Or.inl ⟨hlen, rfl⟩⟩

/-- A publication into free room. -/
theorem commit_append [Target] {w : World α} {node : NodeId} (value : α) (lease : Lease)
    (deferred : Bool) (henter : w.grants.enter node w.stream.event .publish = .ok ())
    (hopen : w.stream.state.closed = false) (htail : w.stream.state.tail + 1 ≤ u64Max)
    (hroom : w.stream.state.entries.length ≠ w.stream.config.capacity) :
    w.commit node value lease deferred =
      (.ok (), w.unlock (append w.stream.state value lease) true (!deferred)) := by
  unfold commit
  rw [henter]
  exact (if_neg (by simp [hopen])).trans ((if_neg (by omega)).trans (if_neg hroom))

/-- A publication that takes the place of the front. -/
theorem commit_replace [Target] {w : World α} {node : NodeId} (value : α) (lease : Lease)
    (henter : w.grants.enter node w.stream.event .publish = .ok ())
    (hopen : w.stream.state.closed = false) (htail : w.stream.state.tail + 1 ≤ u64Max)
    {front : Entry α} {rest : List (Entry α)} (hfront : w.stream.state.entries = front :: rest)
    (hfull : w.stream.state.entries.length = w.stream.config.capacity) (hfree : ¬ w.Blocked) :
    w.commit node value lease false =
      (.ok (), (w.unlock (append { w.stream.state with entries := rest } value lease)
        true true).release front.lease) := by
  have hneed : ¬ (w.stream.state.entries.head?.any
      fun entry => w.stream.state.requiredNeeds w.grants entry.sequence) = true :=
    fun h => hfree ⟨hfull, h⟩
  unfold commit
  rw [henter]
  refine (if_neg (by simp [hopen])).trans ((if_neg (by omega)).trans ((if_pos hfull).trans
    ((if_neg hneed).trans ((if_neg (by decide)).trans ?_))))
  rw [hfront]
  rfl

/-- A refused reservation refuses the publication. -/
theorem sendNow_error [Target] {w w' : World α} {node : NodeId} {value : α}
    {error : TrySendError α} (h : w.reserve node value = (.error error, w')) :
    w.sendNow node value = (.error error, w') := by
  unfold sendNow
  rw [h]

theorem sendNow_ok [Target] {w w₁ w' : World α} {node : NodeId} {value : α} {lease : Lease}
    (h : w.reserve node value = (.ok (value, lease), w₁))
    (hcommit : w₁.commit node value lease false = (.ok (), w')) :
    w.sendNow node value = (.ok (), w') := by
  unfold sendNow
  rw [h]
  dsimp only
  rw [hcommit]

/-- A publication with the value it was reserved for. -/
theorem sendNow_cases [Target] (w : World α) (node : NodeId) (value : α) :
    (∃ error w', w.sendNow node value = (.error error, w') ∧
      (w.reserve node value = (.error error, w') ∨
        ∃ lease w₁ error₂ w₂, w.reserve node value = (.ok (value, lease), w₁) ∧
          w₁.commit node value lease false = (.error error₂, w₂) ∧ w' = w₂.release lease)) ∨
    ∃ lease w₁ w', w.reserve node value = (.ok (value, lease), w₁) ∧
      w₁.commit node value lease false = (.ok (), w') ∧ w.sendNow node value = (.ok (), w') := by
  obtain ⟨r, hr⟩ : ∃ r, w.sendNow node value = r := ⟨_, rfl⟩
  rw [hr]
  unfold sendNow at hr
  split at hr
  · rename_i error w₁ hreserve
    exact Or.inl ⟨error, w₁, hr.symm, Or.inl hreserve⟩
  · rename_i v lease w₁ hreserve
    obtain ⟨rfl, -⟩ := reserve_ok hreserve
    split at hr
    · rename_i error w₂ hcommit
      exact Or.inl ⟨_, _, hr.symm, Or.inr ⟨lease, w₁, error, w₂, hreserve, hcommit, rfl⟩⟩
    · rename_i w₂ hcommit
      exact Or.inr ⟨lease, w₁, w₂, hreserve, hcommit, hr.symm⟩

/-! ## Subscriptions -/

/-- The position at which a new subscription starts. -/
def startPosition (w : World α) : Nat :=
  if w.stream.delivery = .latest then w.stream.state.tail - 1 else w.stream.state.tail

/-- The world in which a slot was claimed. -/
def claimed (w : World α) (index : Nat) (node : NodeId) (role : SubscriptionRole) : World α :=
  w.unlock
    { w.stream.state with
      nextCursor := w.stream.state.nextCursor + 1
      subscribers := w.stream.state.subscribers.set index
        (some ⟨w.stream.state.nextCursor, w.startPosition, role, node⟩) } true true

theorem claim_cases (w : World α) (node : NodeId) (role : SubscriptionRole) :
    (∃ error, w.claim node role = (.error error, w.unlock w.stream.state false true)) ∨
    ∃ index, w.stream.state.closed = false ∧ Slots.free w.stream.state.subscribers = some index ∧
      w.stream.state.nextCursor + 1 ≤ u64Max ∧
      w.claim node role = (.ok ⟨index, w.stream.state.nextCursor⟩, w.claimed index node role) := by
  unfold claim
  dsimp only
  split
  · exact Or.inl ⟨_, rfl⟩
  · rename_i hopen
    split
    · exact Or.inl ⟨_, rfl⟩
    · rename_i index hfree
      split
      · exact Or.inl ⟨_, rfl⟩
      · rename_i hmax
        exact Or.inr ⟨index, by simpa using hopen, hfree, by omega, rfl⟩

theorem claim_closed {w : World α} (node : NodeId) (role : SubscriptionRole)
    (hclosed : w.stream.state.closed = true) :
    w.claim node role = (.error .denied, w.unlock w.stream.state false true) :=
  if_pos hclosed

theorem claim_full {w : World α} (node : NodeId) (role : SubscriptionRole)
    (hopen : w.stream.state.closed = false)
    (hfull : Slots.free w.stream.state.subscribers = none ∨
      w.stream.state.nextCursor + 1 > u64Max) :
    w.claim node role = (.error .capacity, w.unlock w.stream.state false true) := by
  refine (if_neg (by simp [hopen])).trans ?_
  cases hfree : Slots.free w.stream.state.subscribers with
  | none => rfl
  | some index =>
    rcases hfull with hfull | hfull
    · rw [hfree] at hfull
      cases hfull
    · exact if_pos hfull

theorem claim_ok {w : World α} (node : NodeId) (role : SubscriptionRole)
    (hopen : w.stream.state.closed = false) {index : Nat}
    (hfree : Slots.free w.stream.state.subscribers = some index)
    (hmax : ¬ w.stream.state.nextCursor + 1 > u64Max) :
    w.claim node role =
      (.ok ⟨index, w.stream.state.nextCursor⟩, w.claimed index node role) := by
  refine (if_neg (by simp [hopen])).trans ?_
  rw [hfree]
  exact if_neg hmax

/-- A failed subscription gives back what it charged; a successful one claims a slot for
its node. -/
theorem subscribe_cases [Target] (w : World α) (node : NodeId) (role : SubscriptionRole) :
    (∃ error w', w.subscribe node role = (.error error, w') ∧
      (w' = w ∨ w' = (w.bindStream node (roleRights role)).2 ∨
        ∃ lease w₁, (w.bindStream node (roleRights role)).2.tryCharge node
            { StreamLimits.zero with subscriptions := 1 } = (.ok lease, w₁) ∧
          (w' = w₁.release lease ∨
            w' = (w₁.unlock w₁.stream.state false true).release lease))) ∨
    ∃ w₁ lease index,
      ¬(w.stream.delivery = .latest ∧ role = .required) ∧
      (w.bindStream node (roleRights role)).2.tryCharge node
        { StreamLimits.zero with subscriptions := 1 } = (.ok lease, w₁) ∧
      w₁.grants.enter node w₁.stream.event (roleRights role) = .ok () ∧
      w₁.stream.state.closed = false ∧ Slots.free w₁.stream.state.subscribers = some index ∧
      w₁.stream.state.nextCursor + 1 ≤ u64Max ∧
      w.subscribe node role =
        (.ok (⟨index, w₁.stream.state.nextCursor⟩, lease), w₁.claimed index node role) := by
  unfold subscribe
  split
  · exact Or.inl ⟨_, _, rfl, Or.inl rfl⟩
  · rename_i hrole
    split
    · rename_i error w₀ hbind
      exact Or.inl ⟨_, _, rfl, Or.inr (Or.inl (by rw [hbind]))⟩
    · rename_i w₀ hbind
      rw [hbind]
      split
      · rename_i error w₁ hcharge
        exact Or.inl ⟨_, _, rfl, Or.inr (Or.inl (tryCharge_error hcharge))⟩
      · rename_i lease w₁ hcharge
        split
        · exact Or.inl ⟨_, _, rfl, Or.inr (Or.inr ⟨lease, w₁, hcharge, Or.inl rfl⟩)⟩
        · rename_i henter
          rcases w₁.claim_cases node role with ⟨error, he⟩ | ⟨index, hopen, hfree, hmax, he⟩
          · rw [he]
            exact Or.inl ⟨_, _, rfl, Or.inr (Or.inr ⟨lease, w₁, hcharge, Or.inr rfl⟩)⟩
          · rw [he]
            exact Or.inr ⟨w₁, lease, index, hrole, hcharge, henter, hopen, hfree, hmax, rfl⟩

/-! ## Reception -/

/-- Where a reception of a cursor starts: a latest-state cursor skips what is stale. -/
def position (w : World α) (cursor : Cursor) : Nat :=
  if w.stream.delivery = .latest then max cursor.next (w.stream.state.tail - 1) else cursor.next

/-- The receiver's cursor has moved. -/
def moved (w : World α) (key : CursorKey) (cursor : Cursor) (next : Nat) : World α :=
  w.unlock { w.stream.state with
    subscribers := w.stream.state.subscribers.set key.index (some { cursor with next := next }) }
    true false

theorem tryRecv_closed [Target] {w : World α} {node : NodeId} {key : CursorKey}
    (henter : w.grants.enter node w.stream.event .observe = .ok ())
    (hclosed : w.stream.state.closed = true) :
    w.tryRecv node key = .ok (.error (.closed .closed), w.unlock w.stream.state false false) := by
  unfold tryRecv
  rw [henter]
  exact if_pos hclosed

/-- A reception at the position of a live cursor. -/
theorem tryRecv_open [Target] {w : World α} {node : NodeId} {key : CursorKey} {cursor : Cursor}
    (henter : w.grants.enter node w.stream.event .observe = .ok ())
    (hopen : w.stream.state.closed = false)
    (hcursor : Slots.entry w.stream.state.subscribers key.index = some cursor)
    (hid : cursor.id = key.id) {head : Nat}
    (hhead : head = (w.stream.state.entries.head?.map (·.sequence)).getD w.stream.state.tail) :
    (w.position cursor < head ∧ w.tryRecv node key =
      .ok (.ok (some (.gap (w.position cursor) head)), w.moved key cursor head)) ∨
    (head ≤ w.position cursor ∧ w.position cursor < w.stream.state.tail ∧
      ∀ entry, w.stream.state.entries[w.position cursor - head]? = some entry →
        w.position cursor - head ≤ usizeMax → w.position cursor + 1 ≤ u64Max →
        w.tryRecv node key =
          .ok (.ok (some (.data (w.position cursor) entry.value)),
            w.moved key cursor (w.position cursor + 1))) ∨
    (head ≤ w.position cursor ∧ w.stream.state.tail ≤ w.position cursor ∧
      w.tryRecv node key = .ok (.ok none, w.unlock w.stream.state false false)) := by
  subst hhead
  have hget := Slots.entry_eq_some.mp hcursor
  have hfilter : (some cursor).filter (fun c => decide (c.id = key.id)) = some cursor :=
    by simp [Option.filter, hid]
  have hopen' : ¬ w.stream.state.closed = true := by simp [hopen]
  unfold tryRecv
  rw [henter]
  dsimp only
  rw [if_neg hopen', index_of_getElem? hget, ok_bind, hfilter]
  by_cases hgap : w.position cursor <
      (w.stream.state.entries.head?.map (·.sequence)).getD w.stream.state.tail
  · refine Or.inl ⟨hgap, ?_⟩
    exact if_pos hgap
  · have hge := Nat.not_lt.mp hgap
    refine Or.inr ?_
    by_cases hdata : w.position cursor < w.stream.state.tail
    · refine Or.inl ⟨hge, hdata, ?_⟩
      intro entry hitem hword hbound
      refine (if_neg hgap).trans ((if_pos hdata).trans ?_)
      have hsub := sub_of_le hge
      simp only [position] at hsub hword hitem hbound ⊢
      simp only [hsub, ok_bind, if_pos hword, unwrap_some, index_of_getElem? hitem,
        addU64_of_le hbound, pure_eq]
      rfl
    · refine Or.inr ⟨hge, Nat.not_lt.mp hdata, ?_⟩
      exact (if_neg hgap).trans (if_neg hdata)

/-- A reception that finds no cursor of its own is refused; otherwise it is a reception
at the position of that cursor. -/
theorem tryRecv_cases [Target] (w : World α) (node : NodeId) {key : CursorKey}
    (hkey : w.stream.state.closed = false → key.index < w.stream.state.subscribers.length) :
    (∃ error w', w.tryRecv node key = .ok (.error error, w') ∧
      (w' = w ∨ w' = w.unlock w.stream.state false false)) ∨
    ∃ cursor head, w.grants.enter node w.stream.event .observe = .ok () ∧
      w.stream.state.closed = false ∧
      Slots.entry w.stream.state.subscribers key.index = some cursor ∧ cursor.id = key.id ∧
      head = (w.stream.state.entries.head?.map (·.sequence)).getD w.stream.state.tail ∧
      ((w.position cursor < head ∧ w.tryRecv node key =
        .ok (.ok (some (.gap (w.position cursor) head)), w.moved key cursor head)) ∨
      (head ≤ w.position cursor ∧ w.position cursor < w.stream.state.tail ∧
        ∀ entry, w.stream.state.entries[w.position cursor - head]? = some entry →
          w.position cursor - head ≤ usizeMax → w.position cursor + 1 ≤ u64Max →
          w.tryRecv node key =
            .ok (.ok (some (.data (w.position cursor) entry.value)),
              w.moved key cursor (w.position cursor + 1))) ∨
      (head ≤ w.position cursor ∧ w.stream.state.tail ≤ w.position cursor ∧
        w.tryRecv node key = .ok (.ok none, w.unlock w.stream.state false false))) := by
  obtain ⟨r, hr⟩ : ∃ r, w.tryRecv node key = r := ⟨_, rfl⟩
  have heq := hr
  unfold tryRecv at hr
  split at hr
  · exact Or.inl ⟨_, _, heq.trans hr.symm, Or.inl rfl⟩
  · exact Or.inl ⟨_, _, heq.trans hr.symm, Or.inl rfl⟩
  · exact Or.inl ⟨_, _, heq.trans hr.symm, Or.inl rfl⟩
  · rename_i henter
    dsimp only at hr
    split at hr
    · exact Or.inl ⟨_, _, heq.trans hr.symm, Or.inr rfl⟩
    · rename_i hopen
      have hopen : w.stream.state.closed = false := by simpa using hopen
      have hget := List.getElem?_eq_getElem (hkey hopen)
      rw [index_of_getElem? hget, ok_bind] at hr
      split at hr
      · exact Or.inl ⟨_, _, heq.trans hr.symm, Or.inr rfl⟩
      · rename_i cursor hcursor
        obtain ⟨hoccupant, hid⟩ := Option.filter_eq_some_iff.mp hcursor
        have hentry : Slots.entry w.stream.state.subscribers key.index = some cursor := by
          rw [Slots.entry_eq_some, hget, hoccupant]
        have hid : cursor.id = key.id := by simpa using hid
        exact Or.inr ⟨cursor, _, henter, hopen, hentry, hid, rfl,
          tryRecv_open henter hopen hentry hid rfl⟩

/-- Whatever a reception answers, it moves at most a cursor, and defers that. -/
theorem tryRecv_moves [Target] {w w' : World α} {node : NodeId} {key : CursorKey}
    {result : Except ReceiveError (Option (StreamItem α))}
    (h : w.tryRecv node key = .ok (result, w')) :
    w' = w ∨ w' = w.unlock w.stream.state false false ∨ ∃ subscribers,
      w' = w.unlock { w.stream.state with subscribers := subscribers } true false := by
  unfold tryRecv at h
  split at h
  · cases h
    exact Or.inl rfl
  · cases h
    exact Or.inl rfl
  · cases h
    exact Or.inl rfl
  · dsimp only at h
    split at h
    · cases h
      exact Or.inr (Or.inl rfl)
    · obtain ⟨occupant, -, h⟩ := bind_eq_ok.mp h
      split at h
      · cases h
        exact Or.inr (Or.inl rfl)
      · generalize (if w.stream.delivery = .latest then _ else _) = next at h
        split at h
        · cases h
          exact Or.inr (Or.inr ⟨_, rfl⟩)
        · split at h
          · obtain ⟨_, -, h⟩ := bind_eq_ok.mp h
            obtain ⟨_, -, h⟩ := bind_eq_ok.mp h
            obtain ⟨_, -, h⟩ := bind_eq_ok.mp h
            obtain ⟨_, -, h⟩ := bind_eq_ok.mp h
            cases h
            exact Or.inr (Or.inr ⟨_, rfl⟩)
          · cases h
            exact Or.inr (Or.inl rfl)

theorem tryRecv_world [Target] {w w' : World α} {node : NodeId} {key : CursorKey}
    {result : Except ReceiveError (Option (StreamItem α))}
    (h : w.tryRecv node key = .ok (result, w')) :
    w' = w ∨ ∃ subscribers d,
      w' = w.unlock { w.stream.state with subscribers := subscribers } d false := by
  rcases tryRecv_moves h with rfl | rfl | ⟨s, rfl⟩
  · exact Or.inl rfl
  · exact Or.inr ⟨w.stream.state.subscribers, false, rfl⟩
  · exact Or.inr ⟨s, true, rfl⟩

theorem recvNow_ok [Target] {w w' : World α} {node : NodeId} {key : CursorKey}
    {result : Except ReceiveError (Option (StreamItem α))}
    (h : w.tryRecv node key = .ok (result, w')) :
    w.recvNow node key = .ok (result, w'.maintain) := by
  unfold recvNow
  rw [h]
  rfl

end World

end Hiway.Fabric
