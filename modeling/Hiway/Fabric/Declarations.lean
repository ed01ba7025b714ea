import Mathlib.Data.List.AList
import Hiway.Fabric.Stream
import Hiway.Grant.Attenuation
import Hiway.Grant.Books

/-!
# Declaring and closing streams at the same time

`create_stream` looks the event up, charges the root, allocates, looks it up again and
inserts, and it lets go of the registry in between. `close_stream` resolves the stream and
closes it. Here every one of these steps is a step of its own, and any number of calls are
under way. A reservation of memory may fail whenever it is made.

* `Creates.keeps`, `Closes.keeps`: one step of a call, as the registry and the leases see
  it.
* `keeps_step`, `keeps_run`: a binding stays, with its declaration, and with its end once it
  has one.
* `accepted_run`: a call is accepted if some step of the run accepted it.
* `declarations_write_once`: all of it for any number of calls that take turns: which calls
  return `Ok`, and what the root is charged with once none is under way.
-/

namespace Hiway.Fabric

open Target

/-- What a type that implements `EventSpec` declares, and its payload type. -/
structure Declaration (τ : Type) where
  id : EventId
  payload : τ
  wireMajor : WireMajor
  delivery : Delivery
  deriving DecidableEq, Repr

/-- A `Stream` as far as its declaration goes: `Arc<dyn Maintenance>` knows its type. -/
structure StreamObject (τ : Type) where
  payload : τ
  config : StreamConfig
  wireMajor : WireMajor
  delivery : Delivery
  closed : Bool
  allocation : Lease
  deriving DecidableEq, Repr

/-- What a stream takes from the root. -/
def StreamConfig.allowance (config : StreamConfig) : Limits :=
  { Limits.zero with
    streams := 1
    retainedItems := config.capacity
    subscriptions := config.subscribers
    waiters := config.waiters }

/-- Where a call of `create_stream` is. The lease is the one of the allocation it holds. -/
inductive Create where
  | validate
  | lookup
  | charge
  | allocate (allocation : Lease)
  /-- The second lookup. -/
  | relookup (allocation : Lease)
  /-- The registry is locked, and the event is not in it. -/
  | insert (allocation : Lease)
  /-- `check_existing`. -/
  | check (existing : Nat) (allocation : Option Lease)
  /-- The result is known, and what the call still holds is dropped. -/
  | leave (result : Except TopicError Unit) (allocation : Option Lease)
  | done (result : Except TopicError Unit)

/-- Where a call of `close_stream` is. -/
inductive Close where
  | check
  | lookup
  | downcast (existing : Nat)
  | register (existing : Nat)
  | shut (existing : Nat)
  | done (result : Except TopicError Unit)

inductive Call (τ : Type) where
  | create (event : Declaration τ) (config : StreamConfig) (phase : Create)
  | close (event : Declaration τ) (phase : Close)

/-- The root's grants, every stream that was allocated, and the registry with the call that
holds its mutex from one step to the next. -/
structure Scope (τ : Type) where
  grants : Grants
  heap : List (StreamObject τ)
  streams : AList fun _ : EventId => Nat
  holder : Option Nat

namespace StreamObject

variable {τ : Type}

/-- The stream that the call would declare. -/
def Identical (x : StreamObject τ) (event : Declaration τ) (config : StreamConfig) : Prop :=
  x.payload = event.payload ∧ x.config = config ∧ x.wireMajor = event.wireMajor ∧
    x.delivery = event.delivery

/-- The same declaration, and closed if it was closed. -/
def Continues (x y : StreamObject τ) : Prop :=
  y.payload = x.payload ∧ y.config = x.config ∧ y.wireMajor = x.wireMajor ∧
    y.delivery = x.delivery ∧ y.allocation = x.allocation ∧ (x.closed = true → y.closed = true)

theorem Continues.refl (x : StreamObject τ) : x.Continues x := ⟨rfl, rfl, rfl, rfl, rfl, id⟩

theorem Continues.trans {x y z : StreamObject τ} (h : x.Continues y) (h' : y.Continues z) :
    x.Continues z := by
  obtain ⟨h₁, h₂, h₃, h₄, h₅, h₆⟩ := h
  obtain ⟨h₁', h₂', h₃', h₄', h₅', h₆'⟩ := h'
  exact ⟨h₁'.trans h₁, h₂'.trans h₂, h₃'.trans h₃, h₄'.trans h₄, h₅'.trans h₅, h₆' ∘ h₆⟩

end StreamObject

namespace Scope

variable {τ : Type}

/-- The streams of the registry. -/
def registered (s : Scope τ) : List (StreamObject τ) :=
  s.streams.entries.filterMap fun entry => s.heap[entry.2]?

variable [DecidableEq τ]

/-- `check_existing`. -/
def checkExisting (s : Scope τ) (event : Declaration τ) (config : StreamConfig)
    (existing : Nat) : Except TopicError Unit :=
  match s.heap[existing]? with
  | none => .error .denied -- a reference names a stream that was allocated
  | some stream =>
    if stream.payload ≠ event.payload then .error (.typeMismatch event.id)
    else if stream.config = config ∧ stream.wireMajor = event.wireMajor ∧
        stream.delivery = event.delivery ∧ stream.closed = false then .ok ()
    else .error .invalidConfig

/-- One step of the call `c` of `create_stream`. `fails` says that a reservation of memory
made in this step fails. A lookup waits while another call holds the mutex. -/
def create [Target] (s : Scope τ) (c : Nat) (fails : Bool) (event : Declaration τ)
    (config : StreamConfig) : Create → Scope τ × Create
  | .validate =>
    match config.allowance.validate with
    | .error error => (s, .done (.error error))
    | .ok () =>
      if config.capacity = 0 ∨ (event.delivery = .latest ∧ config.capacity ≠ 1) then
        (s, .done (.error .invalidConfig))
      else (s, .lookup)
  | .lookup =>
    if s.holder.isSome then (s, .lookup)
    else match s.streams.lookup event.id with
      | some existing => (s, .check existing none)
      | none => (s, .charge)
  | .charge =>
    match s.grants.tryCharge 0 config.allowance with
    | (.error error, grants) => ({ s with grants := grants }, .done (.error error))
    | (.ok allocation, grants) => ({ s with grants := grants }, .allocate allocation)
  | .allocate allocation =>
    if fails then (s, .leave (.error .capacity) (some allocation)) else (s, .relookup allocation)
  | .relookup allocation =>
    if s.holder.isSome then (s, .relookup allocation)
    else match s.streams.lookup event.id with
      | some existing => (s, .check existing (some allocation))
      | none => ({ s with holder := some c }, .insert allocation)
  | .insert allocation =>
    if fails then ({ s with holder := none }, .leave (.error .capacity) (some allocation))
    else
      ({ s with
          heap := s.heap ++
            [⟨event.payload, config, event.wireMajor, event.delivery, false, allocation⟩]
          streams := s.streams.insert event.id s.heap.length
          holder := none },
        .leave (.ok ()) none)
  | .check existing allocation => (s, .leave (s.checkExisting event config existing) allocation)
  | .leave result none => (s, .done result)
  | .leave result (some allocation) =>
    ({ s with grants := s.grants.release allocation }, .done result)
  | .done result => (s, .done result)

/-- One step of a call of `close_stream`. -/
def close (s : Scope τ) (event : Declaration τ) : Close → Scope τ × Close
  | .check =>
    match s.grants.check 0 event.id .publish with
    | .error error => (s, .done (.error error))
    | .ok () => (s, .lookup)
  | .lookup =>
    if s.holder.isSome then (s, .lookup)
    else match s.streams.lookup event.id with
      | some existing => (s, .downcast existing)
      | none => (s, .done (.error .denied))
  | .downcast existing =>
    match s.heap[existing]? with
    | none => (s, .done (.error .denied))
    | some stream =>
      if stream.payload ≠ event.payload then (s, .done (.error (.typeMismatch event.id)))
      else if stream.wireMajor ≠ event.wireMajor ∨ stream.delivery ≠ event.delivery then
        (s, .done (.error .invalidConfig))
      else (s, .register existing)
  | .register existing =>
    match s.grants.registerStream 0 event.id with
    | (.error error, grants) => ({ s with grants := grants }, .done (.error error))
    | (.ok (), grants) => ({ s with grants := grants }, .shut existing)
  | .shut existing =>
    ({ s with heap := s.heap.modify existing fun stream => { stream with closed := true } },
      .done (.ok ()))
  | .done result => (s, .done result)

end Scope

/-- A fabric with the calls of `create_stream` and `close_stream` that were made of it. -/
structure Administration (τ : Type) where
  scope : Scope τ
  calls : List (Call τ)

inductive Action (τ : Type) where
  | create (event : Declaration τ) (config : StreamConfig)
  | close (event : Declaration τ)
  /-- The next step of a call. -/
  | step (call : Nat) (fails : Bool)

namespace Administration

variable {τ : Type}

def start (limits : Limits) : Administration τ := ⟨⟨(Lineage.root limits).grants, [], ∅, none⟩, []⟩

variable [DecidableEq τ] [Target]

def step (s : Administration τ) : Action τ → Administration τ
  | .create event config => { s with calls := s.calls ++ [.create event config .validate] }
  | .close event => { s with calls := s.calls ++ [.close event .check] }
  | .step c fails =>
    match s.calls[c]? with
    | none => s
    | some (.create event config phase) =>
      let (scope, phase) := s.scope.create c fails event config phase
      ⟨scope, s.calls.set c (.create event config phase)⟩
    | some (.close event phase) =>
      let (scope, phase) := s.scope.close event phase
      ⟨scope, s.calls.set c (.close event phase)⟩

def run (limits : Limits) (actions : List (Action τ)) : Administration τ :=
  actions.foldl step (start limits)

end Administration

/-! ## What a step does -/

namespace Create

/-- The lease that the call holds. -/
def lease : Create → Option Lease
  | .allocate allocation => some allocation
  | .relookup allocation => some allocation
  | .insert allocation => some allocation
  | .check _ allocation => allocation
  | .leave _ allocation => allocation
  | _ => none

/-- The call returns `Ok`, or has. -/
def accepted : Create → Bool
  | .leave (.ok ()) _ => true
  | .done (.ok ()) => true
  | _ => false

/-- The call is neither inserting nor looking at an existing stream. -/
def plain : Create → Bool
  | .insert _ => false
  | .check _ _ => false
  | _ => true

end Create

namespace Call

variable {τ : Type}

def lease : Call τ → Option Lease
  | .create _ _ phase => phase.lease
  | .close _ _ => none

/-- A call of `create_stream` that has not returned. -/
def creating : Call τ → Bool
  | .create _ _ (.done _) => false
  | .create _ _ _ => true
  | .close _ _ => false

theorem lease_of_not_creating {call : Call τ} (h : call.creating = false) : call.lease = none := by
  cases call with
  | close => rfl
  | create event config phase =>
    cases phase with
    | done => rfl
    | _ => cases h

end Call

namespace Scope

variable {τ : Type}

/-! ### Nothing is taken back -/

/-- What was bound stays bound to the same stream, and a stream only ever closes. -/
structure Keeps (s t : Scope τ) : Prop where
  bound : ∀ event o, s.streams.lookup event = some o → t.streams.lookup event = some o
  object : ∀ (o : Nat) (x : StreamObject τ), s.heap[o]? = some x →
    ∃ y : StreamObject τ, t.heap[o]? = some y ∧ x.Continues y

namespace Keeps

variable {s t u : Scope τ}

theorem refl (s : Scope τ) : s.Keeps s := ⟨fun _ _ h => h, fun _ x h => ⟨x, h, .refl x⟩⟩

theorem trans (h : s.Keeps t) (h' : t.Keeps u) : s.Keeps u where
  bound := fun event o hb => h'.bound event o (h.bound event o hb)
  object := fun o x hx => by
    obtain ⟨y, hy, hxy⟩ := h.object o x hx
    obtain ⟨z, hz, hyz⟩ := h'.object o y hy
    exact ⟨z, hz, hxy.trans hyz⟩

/-- Only the registry and the heap matter. -/
theorem of_eq (hstreams : t.streams = s.streams) (hheap : t.heap = s.heap) : s.Keeps t where
  bound := fun _ _ h => hstreams ▸ h
  object := fun _ x h => ⟨x, hheap ▸ h, .refl x⟩

end Keeps

theorem getElem?_modify_closed (heap : List (StreamObject τ)) (existing o : Nat) :
    (heap.modify existing fun stream => { stream with closed := true })[o]? =
      heap[o]?.map fun x => if existing = o then { x with closed := true } else x := by
  rw [List.getElem?_modify]
  rfl

/-! ### The registered streams -/

/-- What is read off the registered streams does not change when they close. -/
theorem map_registered {β : Type} {s t : Scope τ} (f : StreamObject τ → β)
    (hstreams : t.streams = s.streams)
    (hheap : ∀ o : Nat, t.heap[o]?.map f = s.heap[o]?.map f) :
    t.registered.map f = s.registered.map f := by
  unfold registered
  rw [List.map_filterMap, List.map_filterMap, hstreams]
  simp only [hheap]

/-- The stream that is inserted, and those that were there. -/
theorem registered_insert {s : Scope τ} {event : EventId} (x : StreamObject τ)
    (holder : Option Nat) (hfree : s.streams.lookup event = none)
    (hbound : ∀ event o, s.streams.lookup event = some o → o < s.heap.length) :
    registered { s with
        heap := s.heap ++ [x]
        streams := s.streams.insert event s.heap.length
        holder := holder } = x :: s.registered := by
  unfold registered
  dsimp only
  rw [AList.entries_insert_of_notMem (AList.lookup_eq_none.mp hfree), List.filterMap_cons]
  dsimp only
  rw [List.getElem?_concat_length]
  dsimp only
  congr 1
  refine List.filterMap_congr fun entry hentry => ?_
  have hlookup : s.streams.lookup entry.1 = some entry.2 := AList.mem_lookup_iff.mpr hentry
  exact List.getElem?_append_left (hbound _ _ hlookup)

/-! ### The steps of a call -/

/-- What a step of `close_stream` can do. -/
inductive Closes (s : Scope τ) (event : Declaration τ) : Scope τ → Prop
  | quiet : Closes s event s
  | registered : Closes s event { s with grants := (s.grants.registerStream 0 event.id).2 }
  | shut (existing : Nat) : Closes s event
      { s with heap := s.heap.modify existing fun stream => { stream with closed := true } }

theorem Closes.keeps {s t : Scope τ} {event : Declaration τ} (h : s.Closes event t) :
    s.Keeps t := by
  cases h with
  | quiet => exact .refl s
  | registered => exact .of_eq rfl rfl
  | shut existing =>
    refine ⟨fun _ _ hb => hb, fun o x hx =>
      ⟨if existing = o then { x with closed := true } else x, ?_, ?_⟩⟩
    · dsimp only
      rw [getElem?_modify_closed, hx]
      rfl
    · split
      · exact ⟨rfl, rfl, rfl, rfl, rfl, fun _ => rfl⟩
      · exact .refl x

variable [DecidableEq τ]

theorem checkExisting_eq_ok {s : Scope τ} {event : Declaration τ} {config : StreamConfig}
    {existing : Nat} : s.checkExisting event config existing = .ok () ↔
      ∃ x : StreamObject τ, s.heap[existing]? = some x ∧ x.Identical event config ∧
        x.closed = false := by
  unfold checkExisting
  cases s.heap[existing]? with
  | none => simp
  | some x =>
    dsimp only
    unfold StreamObject.Identical
    by_cases hpayload : x.payload = event.payload
    · rw [if_neg (not_not.mpr hpayload)]
      simp [hpayload, and_assoc]
    · rw [if_pos hpayload]
      simp [hpayload]

/-- What a step of `create_stream` can do. -/
inductive Creates [Target] (s : Scope τ) (c : Nat) (event : Declaration τ)
    (config : StreamConfig) : Bool → Create → Scope τ → Create → Prop
  /-- Nothing that another call sees. -/
  | quiet {fails : Bool} {phase phase' : Create} : phase.plain = true → phase'.plain = true →
      phase'.lease = phase.lease → phase'.accepted = phase.accepted →
      Creates s c event config fails phase s phase'
  | found {fails : Bool} {phase : Create} {existing : Nat} : phase.plain = true →
      phase.accepted = false → s.streams.lookup event.id = some existing →
      Creates s c event config fails phase s (.check existing phase.lease)
  | charged {fails : Bool} {allocation : Lease} {grants : Grants} :
      s.grants.tryCharge 0 config.allowance = (.ok allocation, grants) →
      Creates s c event config fails .charge { s with grants := grants } (.allocate allocation)
  | acquired {fails : Bool} {allocation : Lease} : s.holder = none →
      s.streams.lookup event.id = none →
      Creates s c event config fails (.relookup allocation) { s with holder := some c }
        (.insert allocation)
  | refused {allocation : Lease} :
      Creates s c event config true (.insert allocation) { s with holder := none }
        (.leave (.error .capacity) (some allocation))
  | inserted {allocation : Lease} :
      Creates s c event config false (.insert allocation)
        { s with
          heap := s.heap ++
            [⟨event.payload, config, event.wireMajor, event.delivery, false, allocation⟩]
          streams := s.streams.insert event.id s.heap.length
          holder := none }
        (.leave (.ok ()) none)
  | judged {fails : Bool} {existing : Nat} {allocation : Option Lease} :
      Creates s c event config fails (.check existing allocation) s
        (.leave (s.checkExisting event config existing) allocation)
  | released {fails : Bool} {result : Except TopicError Unit} {allocation : Lease} :
      Creates s c event config fails (.leave result (some allocation))
        { s with grants := s.grants.release allocation } (.done result)

theorem create_creates [Target] (s : Scope τ) (c : Nat) (fails : Bool) (event : Declaration τ)
    (config : StreamConfig) (phase : Create) :
    s.Creates c event config fails phase (s.create c fails event config phase).1
      (s.create c fails event config phase).2 := by
  cases phase with
  | validate =>
    unfold create
    dsimp only
    split
    · exact .quiet rfl rfl rfl rfl
    · split <;> exact .quiet rfl rfl rfl rfl
  | lookup =>
    unfold create
    dsimp only
    split
    · exact .quiet rfl rfl rfl rfl
    · split
      · exact .found rfl rfl (by assumption)
      · exact .quiet rfl rfl rfl rfl
  | charge =>
    unfold create
    dsimp only
    split
    · rename_i hcharge
      -- a charge that fails has changed nothing
      obtain rfl := Grants.charge_error hcharge
      exact .quiet rfl rfl rfl rfl
    · exact .charged (by assumption)
  | allocate allocation =>
    cases fails <;> exact .quiet rfl rfl rfl rfl
  | relookup allocation =>
    unfold create
    dsimp only
    split
    · exact .quiet rfl rfl rfl rfl
    · rename_i hfree
      split
      · exact .found rfl rfl (by assumption)
      · exact .acquired (by simpa using hfree) (by assumption)
  | insert allocation =>
    cases fails
    · exact .inserted
    · exact .refused
  | check existing allocation => exact .judged
  | leave result allocation =>
    cases allocation with
    | none => exact .quiet rfl rfl rfl (by cases result <;> rfl)
    | some allocation => exact .released
  | done result => exact .quiet rfl rfl rfl rfl

theorem close_closes (s : Scope τ) (event : Declaration τ) (phase : Close) :
    s.Closes event (s.close event phase).1 := by
  cases phase with
  | check =>
    unfold close
    dsimp only
    split <;> exact .quiet
  | lookup =>
    unfold close
    dsimp only
    split
    · exact .quiet
    · split <;> exact .quiet
  | downcast existing =>
    unfold close
    dsimp only
    split
    · exact .quiet
    · split
      · exact .quiet
      · split <;> exact .quiet
  | register existing =>
    have hregistered : s.Closes event { s with grants := (s.grants.registerStream 0 event.id).2 } :=
      .registered
    unfold close
    dsimp only
    split <;> rename_i heq <;> rw [heq] at hregistered <;> exact hregistered
  | shut existing => exact .shut existing
  | done result => exact .quiet

theorem Creates.keeps [Target] {s t : Scope τ} {c : Nat} {event : Declaration τ}
    {config : StreamConfig} {fails : Bool} {phase phase' : Create}
    (h : s.Creates c event config fails phase t phase')
    (hfree : ∀ allocation, phase = .insert allocation → s.streams.lookup event.id = none) :
    s.Keeps t := by
  cases h with
  | quiet => exact .refl s
  | found => exact .refl s
  | judged => exact .refl s
  | charged => exact .of_eq rfl rfl
  | acquired => exact .of_eq rfl rfl
  | refused => exact .of_eq rfl rfl
  | released => exact .of_eq rfl rfl
  | inserted =>
    refine ⟨fun event' o hb => ?_, fun o x hx => ⟨x, ?_, .refl x⟩⟩
    · have hne : event' ≠ event.id := by
        rintro rfl
        rw [hfree _ rfl] at hb
        cases hb
      dsimp only
      rw [AList.lookup_insert_ne hne]
      exact hb
    · dsimp only
      rw [List.getElem?_append_left (List.getElem?_eq_some_iff.mp hx).1]
      exact hx

end Scope

/-! ## Invariants of a run -/

namespace Administration

variable {τ : Type}

/-- The leases of the calls under way and of the registered streams. -/
def leases (s : Administration τ) : List Lease :=
  s.calls.filterMap Call.lease ++ s.scope.registered.map StreamObject.allocation

/-- A lease that pays for a stream. -/
def Pays (lease : Lease) (config : StreamConfig) : Prop := lease = ⟨0, config.allowance, none⟩

/-- Every lease pays for one stream, and they are all that the root has given. -/
structure Funded (s : Administration τ) : Prop where
  root : (s.scope.grants.get 0).isSome
  exact : s.scope.grants.Exact s.leases
  priced : ∀ x ∈ s.scope.heap, Pays x.allocation x.config
  paid : ∀ event config phase, Call.create event config phase ∈ s.calls →
    ∀ l ∈ phase.lease, Pays l config

/-- What the calls know of the registry. -/
structure Filed (s : Administration τ) : Prop where
  bound : ∀ event o, s.scope.streams.lookup event = some o → o < s.scope.heap.length
  /-- What a call has found is what the event is bound to. -/
  judging : ∀ event config existing l, Call.create event config (.check existing l) ∈ s.calls →
    s.scope.streams.lookup event.id = some existing
  /-- At most one call inserts, and it holds the mutex. -/
  holding : ∀ c event config l, s.calls[c]? = some (.create event config (.insert l)) →
    s.scope.holder = some c ∧ s.scope.streams.lookup event.id = none

/-! ### One call changes -/

section

variable {s : Administration τ} {c : Nat} {call : Call τ}

/-- The leases, with those of one call in front. -/
theorem leases_perm (s : Administration τ) {c : Nat} {call : Call τ} (h : s.calls[c]? = some call) :
    s.leases.Perm (call.lease.toList ++ ((s.calls.eraseIdx c).filterMap Call.lease ++
      s.scope.registered.map StreamObject.allocation)) := by
  obtain ⟨hlt, hget⟩ := List.getElem?_eq_some_iff.mp h
  have hperm := (List.getElem_cons_eraseIdx_perm hlt).symm.filterMap Call.lease
  rw [hget] at hperm
  unfold leases
  rw [← List.append_assoc]
  refine List.Perm.append_right _ (hperm.trans (.of_eq ?_))
  rw [List.filterMap_cons]
  cases call.lease <;> rfl

theorem set_leases_perm (s : Administration τ) (t : Scope τ) {c : Nat} {call : Call τ}
    (h : s.calls[c]? = some call) (call' : Call τ) :
    (Administration.mk t (s.calls.set c call')).leases.Perm
      (call'.lease.toList ++ ((s.calls.eraseIdx c).filterMap Call.lease ++
        t.registered.map StreamObject.allocation)) := by
  obtain ⟨hlt, -⟩ := List.getElem?_eq_some_iff.mp h
  have hget : (s.calls.set c call')[c]? = some call' := List.getElem?_set_self hlt
  have hperm := leases_perm ⟨t, s.calls.set c call'⟩ hget
  rwa [List.eraseIdx_set_eq] at hperm

theorem mem_set {s : Administration τ} {c : Nat} {call call' : Call τ}
    (h : call ∈ s.calls.set c call') : call = call' ∨ call ∈ s.calls :=
  (List.mem_or_eq_of_mem_set h).symm

end

namespace Filed

variable {s : Administration τ} {t : Scope τ} {c : Nat} {call call' : Call τ}

/-- One call is at a new place. The others find the registry as they left it. -/
theorem set (h : s.Filed) (hkeeps : s.scope.Keeps t)
    (hbound : ∀ event o, t.streams.lookup event = some o → o < t.heap.length)
    (hjudging : ∀ event config existing l, call' = .create event config (.check existing l) →
      t.streams.lookup event.id = some existing)
    (hholding : ∀ event config l, call' = .create event config (.insert l) →
      t.holder = some c ∧ t.streams.lookup event.id = none)
    (hothers : ∀ i, i ≠ c → s.scope.holder = some i →
      t.holder = some i ∧ t.streams = s.scope.streams) :
    Filed ⟨t, s.calls.set c call'⟩ where
  bound := hbound
  judging := fun event config existing l hmem => by
    rcases mem_set hmem with heq | hmem
    · exact hjudging event config existing l heq.symm
    · exact hkeeps.bound _ _ (h.judging event config existing l hmem)
  holding := fun i event config l hi => by
    dsimp only at hi ⊢
    by_cases hic : i = c
    · subst hic
      rw [List.getElem?_set] at hi
      split at hi
      · split at hi
        · exact hholding event config l (Option.some.inj hi)
        · cases hi
      · contradiction
    · rw [List.getElem?_set_ne (Ne.symm hic)] at hi
      obtain ⟨hholder, hfree⟩ := h.holding i event config l hi
      obtain ⟨hholder', hstreams⟩ := hothers i hic hholder
      exact ⟨hholder', hstreams ▸ hfree⟩

theorem close (h : s.Filed) {event : Declaration τ} (phase : Close) (hs : s.scope.Closes event t) :
    Filed ⟨t, s.calls.set c (.close event phase)⟩ := by
  have hkeeps := hs.keeps
  have hcore : t.streams = s.scope.streams ∧ t.holder = s.scope.holder ∧
      t.heap.length = s.scope.heap.length := by
    cases hs with
    | quiet => exact ⟨rfl, rfl, rfl⟩
    | registered => exact ⟨rfl, rfl, rfl⟩
    | shut existing => exact ⟨rfl, rfl, List.length_modify ..⟩
  obtain ⟨hstreams, hholder, hlength⟩ := hcore
  refine h.set hkeeps (fun event' o ho => ?_) ?_ ?_ fun i _ hi => ⟨hholder.trans hi, hstreams⟩
  · rw [hstreams] at ho
    rw [hlength]
    exact h.bound event' o ho
  · rintro _ _ _ _ ⟨⟩
  · rintro _ _ _ ⟨⟩

variable [DecidableEq τ] [Target]

theorem create (h : s.Filed) {event : Declaration τ} {config : StreamConfig} {phase phase' : Create}
    {fails : Bool} (hc : s.calls[c]? = some (.create event config phase))
    (hs : s.scope.Creates c event config fails phase t phase') :
    Filed ⟨t, s.calls.set c (.create event config phase')⟩ := by
  have hkeeps := hs.keeps fun l hl => (h.holding c event config l (hl ▸ hc)).2
  cases hs with
  | quiet _ hplain =>
    refine h.set hkeeps h.bound ?_ ?_ fun i _ hi => ⟨hi, rfl⟩
    · rintro _ _ _ _ ⟨⟩
      cases hplain
    · rintro _ _ _ ⟨⟩
      cases hplain
  | found _ _ hfound =>
    refine h.set hkeeps h.bound ?_ ?_ fun i _ hi => ⟨hi, rfl⟩
    · rintro _ _ _ _ ⟨⟩
      exact hfound
    · rintro _ _ _ ⟨⟩
  | charged =>
    refine h.set hkeeps h.bound ?_ ?_ fun i _ hi => ⟨hi, rfl⟩
    · rintro _ _ _ _ ⟨⟩
    · rintro _ _ _ ⟨⟩
  | acquired hholder hfree =>
    refine h.set hkeeps h.bound ?_ ?_ fun i _ hi => ?_
    · rintro _ _ _ _ ⟨⟩
    · rintro _ _ _ ⟨⟩
      exact ⟨rfl, hfree⟩
    · rw [hholder] at hi
      cases hi
  | refused =>
    obtain ⟨hholder, -⟩ := h.holding c event config _ hc
    refine h.set hkeeps h.bound ?_ ?_ fun i hic hi => ?_
    · rintro _ _ _ _ ⟨⟩
    · rintro _ _ _ ⟨⟩
    · exact absurd (Option.some.inj (hi.symm.trans hholder)) hic
  | inserted =>
    obtain ⟨hholder, -⟩ := h.holding c event config _ hc
    refine h.set hkeeps (fun event' o ho => ?_) ?_ ?_ fun i hic hi => ?_
    · dsimp only at ho ⊢
      rw [List.length_append]
      by_cases heq : event' = event.id
      · subst heq
        rw [AList.lookup_insert] at ho
        obtain rfl := Option.some.inj ho
        exact Nat.lt_succ_self _
      · rw [AList.lookup_insert_ne heq] at ho
        exact (h.bound event' o ho).trans (Nat.lt_succ_self _)
    · rintro _ _ _ _ ⟨⟩
    · rintro _ _ _ ⟨⟩
    · exact absurd (Option.some.inj (hi.symm.trans hholder)) hic
  | judged =>
    refine h.set hkeeps h.bound ?_ ?_ fun i _ hi => ⟨hi, rfl⟩
    · rintro _ _ _ _ ⟨⟩
    · rintro _ _ _ ⟨⟩
  | released =>
    refine h.set hkeeps h.bound ?_ ?_ fun i _ hi => ⟨hi, rfl⟩
    · rintro _ _ _ _ ⟨⟩
    · rintro _ _ _ ⟨⟩

end Filed

namespace Funded

variable {s : Administration τ} {t : Scope τ} {c : Nat} {call call' : Call τ}

/-- One call is at a new place, with the leases it has then. -/
theorem set (h : s.Funded) (hc : s.calls[c]? = some call)
    (hsteady : s.scope.grants.Steady t.grants)
    (hexact : t.grants.Exact (call'.lease.toList ++ ((s.calls.eraseIdx c).filterMap Call.lease ++
      t.registered.map StreamObject.allocation)))
    (hpriced : ∀ x ∈ t.heap, Pays x.allocation x.config)
    (hpaid : ∀ event config phase, call' = .create event config phase →
      ∀ l ∈ phase.lease, Pays l config) :
    Funded ⟨t, s.calls.set c call'⟩ where
  root := by
    have hget := congrArg Option.isSome (hsteady.get 0)
    rw [Option.isSome_map, Option.isSome_map] at hget
    exact hget.trans h.root
  exact := Grants.exact_perm hexact (set_leases_perm s t hc call').symm
  priced := hpriced
  paid := fun event config phase hmem => by
    rcases mem_set hmem with heq | hmem
    · exact hpaid event config phase heq.symm
    · exact h.paid event config phase hmem

theorem close (h : s.Funded) {event : Declaration τ} {phase phase' : Close}
    (hc : s.calls[c]? = some (.close event phase)) (hs : s.scope.Closes event t) :
    Funded ⟨t, s.calls.set c (.close event phase')⟩ := by
  have hexact := Grants.exact_perm h.exact (leases_perm s hc)
  cases hs with
  | quiet => exact h.set hc (.refl _) hexact h.priced fun _ _ _ heq => by cases heq
  | registered =>
    exact h.set hc (.registerStream _ 0 event.id)
      (Grants.Books.of_pools hexact (Grants.pool_registerStream _ 0 event.id)) h.priced
      fun _ _ _ heq => by cases heq
  | shut existing =>
    refine h.set hc (.refl _) ?_ (fun x hx => ?_) fun _ _ _ heq => by cases heq
    · have hregistered := Scope.map_registered (s := s.scope)
        (t := { s.scope with heap := s.scope.heap.modify existing fun x => { x with closed := true } })
        StreamObject.allocation rfl fun o => by
          dsimp only
          rw [Scope.getElem?_modify_closed, Option.map_map]
          congr 1
          funext x
          dsimp only [Function.comp]
          split <;> rfl
      rw [hregistered]
      exact hexact
    · obtain ⟨o, ho⟩ := List.mem_iff_getElem?.mp hx
      dsimp only at ho
      rw [Scope.getElem?_modify_closed] at ho
      obtain ⟨y, hy, rfl⟩ := Option.map_eq_some_iff.mp ho
      have hp := h.priced y (List.mem_of_getElem? hy)
      split <;> exact hp

variable [DecidableEq τ] [Target]

theorem create (h : s.Funded) (hfiled : s.Filed) {event : Declaration τ} {config : StreamConfig}
    {phase phase' : Create} {fails : Bool}
    (hc : s.calls[c]? = some (.create event config phase))
    (hs : s.scope.Creates c event config fails phase t phase') :
    Funded ⟨t, s.calls.set c (.create event config phase')⟩ := by
  have hexact := Grants.exact_perm h.exact (leases_perm s hc)
  have hpaid := h.paid event config phase (List.mem_of_getElem? hc)
  -- the same lease, and a scope with the same leases
  have hsame : phase'.lease = phase.lease → t.grants = s.scope.grants → t.heap = s.scope.heap →
      t.streams = s.scope.streams →
      Funded ⟨t, s.calls.set c (.create event config phase')⟩ := by
    intro hlease hgrants hheap hstreams
    refine h.set hc (by rw [hgrants]; exact .refl _) ?_ (by rw [hheap]; exact h.priced) ?_
    · have hregistered : t.registered = s.scope.registered := by
        unfold Scope.registered
        rw [hstreams, hheap]
      rw [hgrants, hregistered, show (Call.create event config phase').lease =
        (Call.create event config phase).lease from hlease]
      exact hexact
    · rintro _ _ _ ⟨⟩
      rw [hlease]
      exact hpaid
  cases hs with
  | quiet _ _ hlease => exact hsame hlease rfl rfl rfl
  | found => exact hsame rfl rfl rfl rfl
  | acquired => exact hsame rfl rfl rfl rfl
  | refused => exact hsame rfl rfl rfl rfl
  | judged => exact hsame rfl rfl rfl rfl
  | @charged _ allocation grants hcharge =>
    have hcharge : s.scope.grants.charge 0 none config.allowance = (.ok allocation, grants) := hcharge
    have hsteady := Grants.Steady.charge s.scope.grants 0 none config.allowance
    rw [hcharge] at hsteady
    refine h.set hc hsteady (Grants.Books.charge hexact hcharge) h.priced ?_
    rintro _ _ _ ⟨⟩ l hl
    cases hl
    exact (Grants.charge_ok hcharge).1
  | @inserted allocation =>
    obtain ⟨-, hfree⟩ := hfiled.holding c event config allocation hc
    refine h.set hc (.refl _) ?_ ?_ ?_
    · rw [Scope.registered_insert _ none hfree hfiled.bound]
      -- the lease of the call is the stream's from now on
      refine Grants.exact_perm hexact ?_
      change List.Perm (allocation :: ((s.calls.eraseIdx c).filterMap Call.lease ++
        s.scope.registered.map StreamObject.allocation)) (_ ++ allocation :: _)
      exact List.perm_middle.symm
    · intro x hx
      rcases List.mem_append.mp hx with hx | hx
      · exact h.priced x hx
      · rw [List.mem_singleton.mp hx]
        exact hpaid allocation rfl
    · rintro _ _ _ ⟨⟩ l hl
      cases hl
  | @released _ result allocation =>
    refine h.set hc (.release _ allocation) (Grants.Books.release hexact) h.priced ?_
    rintro _ _ _ ⟨⟩ l hl
    cases hl

end Funded

/-! ### Runs -/

structure Inv (s : Administration τ) : Prop where
  funded : s.Funded
  filed : s.Filed

/-- A call that is made has found nothing and taken nothing yet. -/
theorem Inv.made {s : Administration τ} (h : s.Inv) {call : Call τ} (hlease : call.lease = none)
    (hplain : ∀ event config phase, call = .create event config phase → phase.plain = true) :
    Inv ⟨s.scope, s.calls ++ [call]⟩ where
  funded := by
    refine ⟨h.funded.root, ?_, h.funded.priced, fun event config phase hmem => ?_⟩
    · have hleases : leases ⟨s.scope, s.calls ++ [call]⟩ = s.leases := by
        unfold leases
        rw [List.filterMap_append, List.filterMap_cons, hlease, List.filterMap_nil, List.append_nil]
      rw [hleases]
      exact h.funded.exact
    · rcases List.mem_append.mp hmem with hmem | hmem
      · exact h.funded.paid event config phase hmem
      · rw [← List.mem_singleton.mp hmem] at hlease
        intro l hl
        rw [show phase.lease = none from hlease] at hl
        cases hl
  filed := by
    refine ⟨h.filed.bound, fun event config existing l hmem => ?_, fun c event config l hc => ?_⟩
    · rcases List.mem_append.mp hmem with hmem | hmem
      · exact h.filed.judging event config existing l hmem
      · cases hplain _ _ _ (List.mem_singleton.mp hmem).symm
    · rcases Nat.lt_or_ge c s.calls.length with hlt | hge
      · rw [List.getElem?_append_left hlt] at hc
        exact h.filed.holding c event config l hc
      · rw [List.getElem?_append_right hge] at hc
        cases hplain _ _ _ (List.mem_singleton.mp (List.mem_of_getElem? hc)).symm

theorem Inv.start (limits : Limits) : (start limits : Administration τ).Inv where
  funded := by
    refine ⟨rfl, ⟨fun i event p hp r => ?_⟩, ?_, ?_⟩
    · rw [Lineage.pool_root hp]
      exact Limits.get_zero r
    · intro x hx
      cases hx
    · intro _ _ _ hmem
      cases hmem
  filed := by
    refine ⟨fun event o ho => ?_, ?_, ?_⟩
    · rw [show (Administration.start limits : Administration τ).scope.streams.lookup event = none
        from AList.lookup_empty event] at ho
      cases ho
    · intro _ _ _ _ hmem
      cases hmem
    · intro _ _ _ _ hc
      cases hc

section

variable [DecidableEq τ] [Target]

theorem Inv.step {s : Administration τ} (h : s.Inv) (action : Action τ) : (s.step action).Inv := by
  cases action with
  | create event config =>
    refine h.made rfl ?_
    rintro _ _ _ ⟨⟩
    rfl
  | close event =>
    refine h.made rfl ?_
    rintro _ _ _ ⟨⟩
  | step c fails =>
    unfold Administration.step
    dsimp only
    split
    · exact h
    · rename_i event config phase hc
      have hs := s.scope.create_creates c fails event config phase
      exact ⟨h.funded.create h.filed hc hs, h.filed.create hc hs⟩
    · rename_i event phase hc
      have hs := s.scope.close_closes event phase
      exact ⟨h.funded.close hc hs, h.filed.close _ hs⟩

theorem Inv.run (limits : Limits) (actions : List (Action τ)) : (run limits actions).Inv := by
  unfold Administration.run
  induction actions using List.reverseRecOn with
  | nil => exact Inv.start limits
  | append_singleton actions action ih =>
    rw [List.foldl_append]
    exact ih.step action

end

/-! ## What a call of `create_stream` returns -/

/-- With this step the call finds the stream of its event identical and not closed. -/
def Finds (s : Administration τ) (c : Nat) (action : Action τ) : Prop :=
  ∃ event config existing allocation fails, action = .step c fails ∧
    s.calls[c]? = some (.create event config (.check existing allocation)) ∧
    s.scope.streams.lookup event.id = some existing ∧
    ∃ x : StreamObject τ, s.scope.heap[existing]? = some x ∧ x.Identical event config ∧
      x.closed = false

/-- The call returns `Ok`, or has. -/
def Accepted (s : Administration τ) (c : Nat) : Prop :=
  ∃ event config phase, s.calls[c]? = some (.create event config phase) ∧ phase.accepted = true

theorem accepted_iff {s : Administration τ} {c : Nat} {event : Declaration τ}
    {config : StreamConfig} {phase : Create}
    (h : s.calls[c]? = some (.create event config phase)) :
    s.Accepted c ↔ phase.accepted = true := by
  constructor
  · rintro ⟨event', config', phase', h', haccepted⟩
    rw [h] at h'
    cases h'
    exact haccepted
  · exact fun haccepted => ⟨event, config, phase, h, haccepted⟩

section

variable [DecidableEq τ] [Target]

/-- With this step the call inserts its stream. -/
def Inserts (s : Administration τ) (c : Nat) (action : Action τ) : Prop :=
  ∃ event config allocation, action = .step c false ∧
    s.calls[c]? = some (.create event config (.insert allocation)) ∧
    s.scope.streams.lookup event.id = none ∧
    ∃ (o : Nat) (x : StreamObject τ), (s.step action).scope.streams.lookup event.id = some o ∧
      (s.step action).scope.heap[o]? = some x ∧ x.Identical event config ∧ x.closed = false

def Accepts (s : Administration τ) (c : Nat) (action : Action τ) : Prop :=
  s.Inserts c action ∨ s.Finds c action

/-- Who is neither inserting nor looking at a stream is not accepted by a step. -/
theorem not_accepts_of_plain {s : Administration τ} {c : Nat} {event : Declaration τ}
    {config : StreamConfig} {phase : Create}
    (h : s.calls[c]? = some (.create event config phase)) (hplain : phase.plain = true)
    (action : Action τ) : ¬ s.Accepts c action := by
  rintro (⟨_, _, _, -, hc, -⟩ | ⟨_, _, _, _, _, -, hc, -⟩)
  all_goals
    rw [h] at hc
    cases hc
    cases hplain

/-- A call of `create_stream` comes to be accepted where it inserts or finds. -/
theorem accepted_create {s : Administration τ} (h : s.Inv) {c : Nat} {event : Declaration τ}
    {config : StreamConfig} {phase phase' : Create} {fails : Bool} {t : Scope τ}
    (hc : s.calls[c]? = some (.create event config phase))
    (hs : s.scope.Creates c event config fails phase t phase')
    (hstep : (s.step (.step c fails)).scope = t) :
    phase'.accepted = true ↔ phase.accepted = true ∨ s.Accepts c (.step c fails) := by
  have hplain : phase.plain = true → phase'.accepted = phase.accepted →
      (phase'.accepted = true ↔ phase.accepted = true ∨ s.Accepts c (.step c fails)) := by
    intro hplain haccepted
    rw [haccepted, or_iff_left (not_accepts_of_plain hc hplain _)]
  cases hs with
  | quiet hp _ _ haccepted => exact hplain hp haccepted
  | found hp haccepted => exact hplain hp haccepted.symm
  | charged => exact hplain rfl rfl
  | acquired => exact hplain rfl rfl
  | @released _ result => exact hplain rfl (by cases result <;> rfl)
  | refused =>
    refine ⟨fun haccepted => (by cases haccepted), ?_⟩
    rintro (haccepted | ⟨_, _, _, hfails, -⟩ | ⟨_, _, _, _, _, -, hcheck, -⟩)
    · cases haccepted
    · cases hfails
    · rw [hc] at hcheck
      cases hcheck
  | @inserted allocation =>
    refine ⟨fun _ => Or.inr (Or.inl ⟨event, config, allocation, rfl, hc,
      (h.filed.holding c event config allocation hc).2, s.scope.heap.length,
      ⟨event.payload, config, event.wireMajor, event.delivery, false, allocation⟩, ?_, ?_,
      ⟨rfl, rfl, rfl, rfl⟩, rfl⟩), fun _ => rfl⟩
    · rw [hstep]
      exact AList.lookup_insert _
    · rw [hstep]
      exact List.getElem?_concat_length
  | @judged _ existing allocation =>
    have hresult : (Create.leave (s.scope.checkExisting event config existing)
        allocation).accepted = true ↔ s.scope.checkExisting event config existing = .ok () := by
      cases s.scope.checkExisting event config existing <;> simp [Create.accepted]
    rw [hresult, Scope.checkExisting_eq_ok]
    constructor
    · exact fun hx => Or.inr (Or.inr ⟨event, config, existing, allocation, fails, rfl, hc,
        h.filed.judging event config existing allocation (List.mem_of_getElem? hc), hx⟩)
    · rintro (haccepted | ⟨_, _, _, -, hinsert, -⟩ | ⟨_, _, _, _, _, -, hcheck, -, hx⟩)
      · cases haccepted
      · rw [hc] at hinsert
        cases hinsert
      · rw [hc] at hcheck
        cases hcheck
        exact hx

/-- A step accepts a call or leaves it as it is. -/
theorem accepted_step {s : Administration τ} (h : s.Inv) (c : Nat) (action : Action τ) :
    (s.step action).Accepted c ↔ s.Accepted c ∨ s.Accepts c action := by
  -- calls of others
  have hother : (∀ fails, action ≠ .step c fails) →
      (s.Accepted c ↔ s.Accepted c ∨ s.Accepts c action) := by
    intro hne
    refine ⟨Or.inl, ?_⟩
    rintro (haccepted | ⟨_, _, _, hstep, -⟩ | ⟨_, _, _, _, fails, hstep, -⟩)
    · exact haccepted
    · exact absurd hstep (hne false)
    · exact absurd hstep (hne fails)
  have hmade : ∀ call : Call τ, (∀ event config phase, call = .create event config phase →
      phase.accepted = false) →
      (Accepted ⟨s.scope, s.calls ++ [call]⟩ c ↔ s.Accepted c) := by
    intro call hcall
    constructor
    · rintro ⟨event, config, phase, hc, haccepted⟩
      rcases Nat.lt_or_ge c s.calls.length with hlt | hge
      · rw [List.getElem?_append_left hlt] at hc
        exact ⟨event, config, phase, hc, haccepted⟩
      · rw [List.getElem?_append_right hge] at hc
        rw [hcall _ _ _ (List.mem_singleton.mp (List.mem_of_getElem? hc)).symm] at haccepted
        cases haccepted
    · rintro ⟨event, config, phase, hc, haccepted⟩
      refine ⟨event, config, phase, ?_, haccepted⟩
      rw [List.getElem?_append_left (List.getElem?_eq_some_iff.mp hc).1]
      exact hc
  cases action with
  | create event config =>
    rw [← hother fun _ => nofun]
    refine hmade _ ?_
    rintro _ _ _ ⟨⟩
    rfl
  | close event =>
    rw [← hother fun _ => nofun]
    refine hmade _ ?_
    rintro _ _ _ ⟨⟩
  | step i fails =>
    by_cases hic : i = c
    · subst hic
      cases hc : s.calls[i]? with
      | none =>
        have hsame : s.step (.step i fails) = s := by
          simp only [step, hc]
        rw [hsame]
        refine ⟨Or.inl, ?_⟩
        rintro (haccepted | ⟨_, _, _, -, hsome, -⟩ | ⟨_, _, _, _, _, -, hsome, -⟩)
        · exact haccepted
        · rw [hc] at hsome
          cases hsome
        · rw [hc] at hsome
          cases hsome
      | some call =>
        have hlt := (List.getElem?_eq_some_iff.mp hc).1
        cases call with
        | create event config phase =>
          have hs := s.scope.create_creates i fails event config phase
          have hstep : s.step (.step i fails) = ⟨(s.scope.create i fails event config phase).1,
              s.calls.set i (.create event config
                (s.scope.create i fails event config phase).2)⟩ := by
            simp only [step, hc]
          rw [accepted_iff hc, ← accepted_create h hc hs (congrArg scope hstep), hstep]
          exact accepted_iff (List.getElem?_set_self hlt)
        | close event phase =>
          have hstep : (s.step (.step i fails)).calls[i]? =
              some (.close event (s.scope.close event phase).2) := by
            simp only [step, hc]
            exact List.getElem?_set_self hlt
          constructor
          · rintro ⟨_, _, _, hcreate, -⟩
            rw [hstep] at hcreate
            cases hcreate
          · rintro (⟨_, _, _, hcreate, -⟩ | ⟨_, _, _, -, hcreate, -⟩ |
              ⟨_, _, _, _, _, -, hcreate, -⟩)
            all_goals
              rw [hc] at hcreate
              cases hcreate
    · rw [← hother fun _ heq => hic (by cases heq; rfl)]
      have hcalls : (s.step (.step i fails)).calls[c]? = s.calls[c]? := by
        unfold step
        dsimp only
        split
        · rfl
        · exact List.getElem?_set_ne hic
        · exact List.getElem?_set_ne hic
      unfold Accepted
      rw [hcalls]

theorem run_snoc (limits : Limits) (actions : List (Action τ)) (action : Action τ) :
    run limits (actions ++ [action]) = (run limits actions).step action := by
  unfold run
  rw [List.foldl_append]
  rfl

/-- A call is accepted if some step of the run accepted it. -/
theorem accepted_run (limits : Limits) (actions : List (Action τ)) (c : Nat) :
    (run limits actions).Accepted c ↔ ∃ before action after,
      actions = before ++ action :: after ∧ (run limits before).Accepts c action := by
  induction actions using List.reverseRecOn with
  | nil =>
    constructor
    · rintro ⟨_, _, _, hc, -⟩
      cases hc
    · rintro ⟨before, action, after, heq, -⟩
      cases before <;> cases heq
  | append_singleton actions last ih =>
    rw [run_snoc, accepted_step (Inv.run limits actions), ih]
    constructor
    · rintro (⟨before, action, after, rfl, haccepts⟩ | haccepts)
      · exact ⟨before, action, after ++ [last], by simp, haccepts⟩
      · exact ⟨actions, last, [], rfl, haccepts⟩
    · rintro ⟨before, action, after, heq, haccepts⟩
      rcases List.eq_nil_or_concat after with rfl | ⟨after, last', rfl⟩
      · obtain ⟨rfl, hlast⟩ := List.append_inj' heq rfl
        cases hlast
        exact Or.inr haccepts
      · rw [List.concat_eq_append, ← List.cons_append, ← List.append_assoc] at heq
        obtain ⟨rfl, -⟩ := List.append_inj' heq rfl
        exact Or.inl ⟨before, action, after, rfl, haccepts⟩

/-! ## Write-once declarations -/

theorem keeps_step {s : Administration τ} (h : s.Inv) (action : Action τ) :
    s.scope.Keeps (s.step action).scope := by
  cases action with
  | create event config => exact .refl _
  | close event => exact .refl _
  | step c fails =>
    unfold step
    dsimp only
    split
    · exact .refl _
    · rename_i event config phase hc
      refine (s.scope.create_creates c fails event config phase).keeps fun l hl => ?_
      exact (h.filed.holding c event config l (hl ▸ hc)).2
    · exact (s.scope.close_closes _ _).keeps

theorem keeps_run (limits : Limits) (earlier later : List (Action τ)) :
    (run limits earlier).scope.Keeps (run limits (earlier ++ later)).scope := by
  induction later using List.reverseRecOn with
  | nil =>
    rw [List.append_nil]
    exact .refl _
  | append_singleton later action ih =>
    rw [← List.append_assoc, run_snoc]
    exact ih.trans (keeps_step (Inv.run limits _) action)

end

/-- What the leases of streams hold of the root. -/
theorem held_allocations {l : List (StreamObject τ)} (h : ∀ x ∈ l, Pays x.allocation x.config)
    (r : Resource) : Grants.held (l.map StreamObject.allocation) 0 none r =
      (l.map fun x => x.config.allowance.get r).sum := by
  induction l with
  | nil => rfl
  | cons x rest ih =>
    obtain ⟨hx, hrest⟩ := List.forall_mem_cons.mp h
    rw [List.map_cons, Grants.held_cons, List.map_cons, List.sum_cons, ih hrest,
      show x.allocation = ⟨0, x.config.allowance, none⟩ from hx, if_pos ⟨rfl, rfl⟩]

/-- While no stream is being created, the root has given what the registered streams take. -/
theorem Funded.usage {s : Administration τ} (h : s.Funded)
    (hquiet : ∀ call ∈ s.calls, call.creating = false) :
    ∃ n, s.scope.grants.get 0 = some n ∧
      ∀ r, n.pool.usage.get r = (s.scope.registered.map fun x => x.config.allowance.get r).sum := by
  obtain ⟨n, hn⟩ := Option.isSome_iff_exists.mp h.root
  refine ⟨n, hn, fun r => ?_⟩
  have hpool : s.scope.grants.pool 0 none = some n.pool := by
    unfold Grants.pool
    rw [hn]
    rfl
  have hcalls : s.calls.filterMap Call.lease = [] :=
    List.filterMap_eq_nil_iff.mpr fun call hcall => Call.lease_of_not_creating (hquiet call hcall)
  have hpays : ∀ x ∈ s.scope.registered, Pays x.allocation x.config := by
    intro x hx
    obtain ⟨entry, -, hentry⟩ := List.mem_filterMap.mp hx
    exact h.priced x (List.mem_of_getElem? hentry)
  have husage := h.exact.usage 0 none n.pool hpool r
  unfold leases at husage
  rwa [hcalls, List.nil_append, held_allocations hpays, Nat.zero_add] at husage

variable [DecidableEq τ] [Target]

/-- However the calls take turns, an event keeps its first stream and that stream its
declaration and its end; a call of `create_stream` returns `Ok` if it has inserted the
stream or found it identical and open; and nothing but the registered streams is charged. -/
theorem declarations_write_once (limits : Limits) (earlier later : List (Action τ)) :
    (∀ event o, (run limits earlier).scope.streams.lookup event = some o →
      (run limits (earlier ++ later)).scope.streams.lookup event = some o ∧
      ∃ x y : StreamObject τ, (run limits earlier).scope.heap[o]? = some x ∧
        (run limits (earlier ++ later)).scope.heap[o]? = some y ∧ x.Continues y) ∧
    (∀ c event config result,
      (run limits earlier).calls[c]? = some (.create event config (.done result)) →
      (result = .ok () ↔ ∃ before action after, earlier = before ++ action :: after ∧
        (run limits before).Accepts c action)) ∧
    ((∀ call ∈ (run limits earlier).calls, call.creating = false) →
      ∃ n, (run limits earlier).scope.grants.get 0 = some n ∧
        ∀ r, n.pool.usage.get r =
          ((run limits earlier).scope.registered.map fun x => x.config.allowance.get r).sum) := by
  have hinv := Inv.run limits earlier
  have hkeeps := keeps_run limits earlier later
  refine ⟨fun event o ho => ⟨hkeeps.bound event o ho, ?_⟩, fun c event config result hc => ?_,
    hinv.funded.usage⟩
  · have hx := List.getElem?_eq_getElem (hinv.filed.bound event o ho)
    obtain ⟨y, hy, hxy⟩ := hkeeps.object o _ hx
    exact ⟨_, y, hx, hy, hxy⟩
  · rw [← accepted_run, accepted_iff hc]
    cases result with
    | error error => exact ⟨nofun, nofun⟩
    | ok u => exact ⟨fun _ => rfl, fun _ => rfl⟩

/-- Two calls charge the root for one event. The loser of the race finds the stream of the
winner, and its charge is given back. -/
example : let _ := Target.x64
    let event : Declaration Nat := ⟨⟨1⟩, 0, 1, .ordered⟩
    let turns : List Nat := [0, 1, 0, 1, 0, 1, 0, 1, 0, 0, 1, 0, 1, 1]
    let s := run Limits.default
      ([.create event ⟨2, 1, 1⟩, .create event ⟨2, 1, 1⟩] ++ turns.map fun c => .step c false)
    (s.calls.map fun call => match call with
      | .create _ _ phase => phase.accepted
      | .close _ _ => false) = [true, true] ∧ s.calls.all (fun call => !call.creating) = true ∧
    s.scope.heap.length = 1 ∧ s.scope.grants.usageOf 0 none .streams = 1 := by decide +kernel

end Administration

end Hiway.Fabric
