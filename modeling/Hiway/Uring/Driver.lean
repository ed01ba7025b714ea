import Hiway.Uring.Slot

/-!
# The driver

One thread owns the ring and the slots. A pass consumes completions, looks at every
authority, gives each ready link one turn a round, and hands the submission queue to the
kernel. The callbacks of a reservation may poll or drop the futures of other links but
cannot reach the driver, which the pass borrows; what they do is part of a `Reply`.

* `Driver`, `Pass`, `Turn`: the driver, and the state and the log of a pass.
* `attach`, `cancelAll`, `popRecord`: what hosts call between passes.
* `advanceWith`: a pass: `consume`, `scanAuthority`, `rounds`, and the submit call.
* `dispatchWithBudget`: the dispatch of pending work.
-/

namespace Hiway.Uring

open Exec Target Transport

/-- Per-pass limits. -/
structure Budget where
  completions : Nat
  submissions : Nat
  bytes : Nat
  deriving DecidableEq, Repr

/-- `Immediate` and `Deferred`. -/
inductive Admission where
  | immediate
  | deferred
  deriving DecidableEq, Repr

inductive Attempt where
  | submitted (length : Nat)
  | blocked
  | idle
  deriving DecidableEq, Repr

/-- What the host does in one callback of a pass: what it answers to `is_revoked` or to
`enter`, and what its code does to futures before that and when the access is dropped. -/
structure Reply (links : Nat) where
  revoked : Bool
  entered : Except TopicError Unit
  before : List (Act links)
  after : List (Act links)

/-- The next reply of a script; a script that has ended allows everything. -/
def Reply.next {links : Nat} : List (Reply links) → Reply links × List (Reply links)
  | [] => (⟨false, .ok (), [], []⟩, [])
  | reply :: rest => (reply, rest)

/-- The dimensions that `Pool::try_new` and `Driver::with_pool` accept. -/
structure Fits [Target] (links bytes : Nat) : Prop where
  links_le : links ≤ cancelBit.toNat / 3
  bytes_ge : headerBytes ≤ bytes
  bytes_le : bytes ≤ 2 ^ 31 - 1
  bytes_word : bytes ≤ usizeMax
  completions_word : links * 6 ≤ usizeMax

structure Driver (G : Type) (links : Nat) where
  ring : Ring
  shared : Shared G links
  pendingCompletions : Nat
  receiveIoprio : Nat
  dispatchCursor : Fin links

/-! ## Attachment, records and closure -/

namespace Shared

variable [Target] {G : Type} {links : Nat} [NeZero links]

/-- What an attachment brings, with the answers of its reservation. -/
structure Attachment (G : Type) where
  contract : Contract
  direction : Direction
  sockets : Nat × Nat
  reservation : G
  checked : Except TopicError Unit
  entered : Except TopicError Unit

/-- The first slot without a machine whose generation can grow. -/
def position (s : Shared G links) : Option (Fin links) :=
  (List.finRange links).find? fun index =>
    (s.slots index).protocol.isNone ∧ (s.slots index).generation ≠ u64Max

def attach (bytes : Nat) (s : Shared G links) (a : Attachment G) :
    Exec (Except Error Connection × Shared G links) :=
  if s.admitting = false then .ok (.error .closed, s)
  else
    match a.checked with
    | .error error => .ok (.error (.topic error), s)
    | .ok () =>
      match a.entered with
      | .error error => .ok (.error (.topic error), s)
      | .ok () =>
        match s.position with
        | none => .ok (.error .capacity, s)
        | some index =>
          let connection : Connection := ⟨index.val, (s.slots index).generation + 1⟩
          match Protocol.withConnection a.contract a.direction bytes connection with
          | .error error => .ok (.error error, s)
          | .ok protocol => do
            assert (s.borrows index = 0)
            let s := s.update index fun slot =>
              { slot with
                generation := connection.generation
                protocol := some protocol
                sockets := some a.sockets
                alive := true
                nextLane := 0
                contended := false }
            let s := { s with
              reservations := Function.update s.reservations index (some a.reservation) }
            return (.ok connection, s.queue index)

def stopAdmission (s : Shared G links) : Shared G links := { s with admitting := false }

/-- `find_map(Protocol::pop_record)` over the machines. -/
def popLive (s : Shared G links) : List (Fin links) → Option Record × Shared G links
  | [] => (none, s)
  | index :: rest =>
    match (s.slots index).protocol with
    | none => s.popLive rest
    | some p =>
      let s := s.update index fun slot => { slot with protocol := some p.popRecord.2 }
      match p.popRecord.1 with
      | some record => (some record, s)
      | none => s.popLive rest

def popRecord (s : Shared G links) : Option Record × Shared G links :=
  let archived := s.archived.pop
  let s := { s with archived := archived.2 }
  match archived.1 with
  | some record => (some record, s)
  | none => s.popLive (List.finRange links)

/-- `saturating_add`. -/
def saturatingAdd (a b : Nat) : Nat := min (a + b) u64Max

def lostRecords (s : Shared G links) : Nat :=
  ((List.finRange links).filterMap fun index => (s.slots index).protocol).foldl
    (fun lost p => saturatingAdd lost p.lostRecords) (saturatingAdd s.retiredLost s.archived.lost)

/-- `cancel_all` closes the machine of a slot. -/
def shut (s : Shared G links) (index : Fin links) : Exec (Shared G links) :=
  match (s.slots index).protocol with
  | none => .ok s
  | some p => do
    let s := s.update index (·.wakeIf p.closed.isNone)
    let (_, _, s) ← s.input index p (.closed .closed)
    let s := s.update index fun slot => { slot with contended := false }
    return if (s.slots index).idle = false ∨ (s.slots index).sockets.isSome then s.queue index else s

/-- The loop of `cancel_all` for one slot. -/
def cancelSlot (s : Shared G links) (index : Fin links) : Exec (Shared G links) := do
  let s ← s.shut index
  return s.refresh index

def cancelAll (s : Shared G links) : Exec (Shared G links) :=
  steps cancelSlot s.stopAdmission (List.finRange links)

/-! ## Dispatch -/

def pendingWork (s : Shared G links) (index : Fin links) : Work := (s.slots index).work

/-- What `dispatch_slot` takes out of a slot before it calls the host. -/
structure Taken (G : Type) where
  wake : Option Nat
  sockets : Option (Nat × Nat)
  reservation : Option G
  reclaim : Bool

/-- The loop that moves the records of a retired machine into the archive. A machine
retains eight records at most. -/
def archive : Nat → Protocol → Records Record 64 → Protocol × Records Record 64
  | 0, p, archived => (p, archived)
  | fuel + 1, p, archived =>
    match p.popRecord with
    | (some record, p) => archive fuel p (archived.push record)
    | (none, p) => (p, archived)

/-- `dispatch_slot` up to its first callback. The reservation cannot be borrowed while a
callback holds it; then nothing but the wake is dispatched. -/
def take (s : Shared G links) (index : Fin links) (work : Work) : Taken G × Shared G links :=
  let slot := s.slots index
  if work.isEmpty then (⟨none, none, none, false⟩, s)
  else if (work.reclaim || work.notifyAuthority) && s.borrows index ≠ 0 then
    (⟨if work.wake then slot.waker else none, none, none, false⟩,
      s.update index fun slot =>
        { slot with
          work := { slot.work with wake := slot.work.wake && !work.wake }
          waker := if work.wake then none else slot.waker })
  else
    let reclaim := work.reclaim && slot.idle && slot.isClosed
    let retired := if reclaim && !slot.alive then slot.protocol else none
    let taken : Taken G :=
      { wake := if work.wake then slot.waker else none
        sockets := if reclaim then slot.sockets else none
        reservation := if reclaim then s.reservations index else none
        reclaim := reclaim }
    let s := s.update index fun slot =>
      { slot with
        work := slot.work.without work
        waker := if work.wake then none else slot.waker
        sockets := if reclaim then none else slot.sockets
        protocol := if reclaim && !slot.alive then none else slot.protocol }
    let s := { s with
      reservations :=
        if reclaim then Function.update s.reservations index none else s.reservations }
    match retired with
    | none => (taken, s)
    | some p =>
      let (p, archived) := archive 8 p s.archived
      (taken, { s with
        archived := archived
        retiredLost := saturatingAdd s.retiredLost p.lostRecords })

/-- `dispatch_slot` of a driver that is there, with what futures do during its callbacks. -/
def dispatchSlot (s : Shared G links) (index : Fin links) (work : Work) (during : List (Act links)) :
    Exec (Shared G links) :=
  if work.isEmpty then .ok s else (s.take index work).2.acts during

/-- The loop of `dispatch_with_budget` over the slots from the cursor on. -/
def dispatchFrom (pending : Fin links → Work) (budget : Nat) :
    Nat → Fin links → Nat → List (List (Act links)) → Shared G links →
      Exec (Fin links × Nat × Shared G links)
  | 0, cursor, dispatched, _, s => .ok (cursor, dispatched, s)
  | fuel + 1, cursor, dispatched, during, s =>
    let next := Fin.ofNat links (cursor.val + 1)
    if (pending cursor).isEmpty then dispatchFrom pending budget fuel next dispatched during s
    else do
      let s ← s.dispatchSlot cursor (pending cursor) (during.headD [])
      if dispatched + 1 = budget then return (next, dispatched + 1, s)
      dispatchFrom pending budget fuel next (dispatched + 1) during.tail s

end Shared

/-! ## A pass -/

/-- One turn of a link in a pass. `attempt` is `none` when it had nothing to submit or
was contended, `answer` is what `enter` said if it was asked, `entries` is what the turn
queued behind `queued` others, and `kept` is whether the link is ready after it. The
driver keeps no such log; statements are about it. -/
structure Turn (links : Nat) where
  round : Nat
  index : Fin links
  attempt : Option Attempt
  answer : Option (Except TopicError Unit)
  queued : Nat
  entries : List Entry
  kept : Bool

namespace Driver

variable [Target] {G : Type} {links : Nat} [NeZero links]

/-- A driver of a ring that has just been set up. -/
def new (capacity cqEntries : Nat) (room : 2 ≤ capacity) : Driver G links where
  ring := ⟨capacity, cqEntries, [], [], [], room⟩
  shared := Shared.new
  pendingCompletions := 0
  receiveIoprio := 1
  dispatchCursor := 0

def slot (d : Driver G links) (index : Fin links) : Slot := d.shared.slots index

def update (d : Driver G links) (index : Fin links) (f : Slot → Slot) : Driver G links :=
  { d with shared := d.shared.update index f }

/-! ### Completions -/

/-- The result that a completion reports to the machine. -/
def ioResult (hint : Bool) (result : Int) : IoResult :=
  if result = -22 ∧ hint then .retry
  else if result = -4 ∨ result = -11 then .retry
  else if result < 0 then .failed (-result)
  else .bytes (asUsize result.toNat)

/-- The kernel has rejected a hint, which `std::mem::take` takes. -/
def takeHint (d : Driver G links) (index : Fin links) (lane : Lane) (result : Int) :
    Driver G links :=
  let rejected : Bool := result = -22 ∧ (d.slot index).receiveHints.get lane = true
  { d.update index fun slot =>
      { slot with
        receiveHints := if rejected then slot.receiveHints.set lane false else slot.receiveHints } with
    receiveIoprio := if rejected then 0 else d.receiveIoprio }

/-- A machine has something new for the future of its link. -/
def offers (before after : Option Effect) : Bool :=
  match after with
  | some .provide | some (.admission ..) => after ≠ before
  | _ => false

/-- The original request of `lane` has completed. -/
def completeRequest (d : Driver G links) (index : Fin links) (lane : Lane) (id : OpId)
    (cqe : Cqe) : Exec (Driver G links) :=
  match (d.slot index).protocol with
  | none => .ok d
  | some p => do
    let hint := (d.slot index).receiveHints.get lane
    let d := d.takeHint index lane cqe.result
    let effect ← p.effect .data
    let (q, _, shared) ← d.shared.input index p (.completed id (ioResult hint cqe.result) cqe.buffer)
    let after ← q.effect .data
    return { d with
      shared := shared.update index (·.wakeIf (q.closed ≠ p.closed || offers effect after)) }

/-- A completion for the operation of `lane`, up to its reclamation. -/
def settle (d : Driver G links) (index : Fin links) (lane : Lane) (id : OpId) (cqe : Cqe) :
    Exec (Driver G links) :=
  let operation := (d.slot index).operations.get lane
  if isCancel cqe.userData then
    .ok (d.update index (·.setOperation lane (operation.cancelCompleted id).2))
  else if (operation.completed id).1 then
    (d.update index (·.setOperation lane (operation.completed id).2)).completeRequest index lane id
      cqe
  else .ok d

/-- `operation.reclaim()`, and the link is queued. -/
def recycle (d : Driver G links) (index : Fin links) (lane : Lane) : Driver G links :=
  let operation := (d.slot index).operations.get lane
  { d with shared :=
    (d.shared.update index (·.setOperation lane operation.reclaim.2)).queue index }

def complete (d : Driver G links) (cqe : Cqe) : Exec (Driver G links) :=
  let number := (slotOf cqe.userData).toNat
  if h : number / 3 < links then do
    let index : Fin links := ⟨number / 3, h⟩
    let id : OpId := ⟨slotOf cqe.userData, generationOf cqe.userData⟩
    let lane := laneAt number
    let d ← d.settle index lane id cqe
    return d.recycle index lane
  else .ok d

/-- The completions that a pass consumes, and how many these are. -/
def consume : Nat → Driver G links → Exec (Nat × Driver G links)
  | 0, d => .ok (0, d)
  | fuel + 1, d =>
    match d.ring.next with
    | none => .ok (0, d)
    | some (cqe, ring) => do
      let pending ← sub d.pendingCompletions 1
      let d ← complete { d with ring := ring, pendingCompletions := pending } cqe
      let (completed, d) ← consume fuel d
      return (completed + 1, d)

/-! ### Authority -/

/-- The loop of `scan_authority` for one slot. -/
def scanSlot (index : Fin links) (replies : List (Reply links)) (s : Shared G links) :
    Exec (List (Reply links) × Shared G links) :=
  let s := s.update index fun slot => { slot with contended := false }
  if (s.slots index).isOpen && (s.reservations index).isSome then do
    let (reply, replies) := Reply.next replies
    let s ← s.acts reply.before
    match (s.slots index).protocol with
    | some p =>
      if reply.revoked && p.closed.isNone then do
        let (_, _, s) ← s.input index p .revoked
        return (replies, (s.update index (·.wakeIf true)).queue index)
      else return (replies, s)
    | none => return (replies, s)
  else .ok (replies, s)

def scanAuthority (replies : List (Reply links)) (s : Shared G links) :
    Exec (List (Reply links) × Shared G links) :=
  steps (fun (replies, s) index => scanSlot index replies s) (replies, s) (List.finRange links)

/-! ### Submission -/

def cancel (d : Driver G links) (index : Fin links) (lane : Lane) :
    Exec (Attempt × Driver G links) :=
  let operation := (d.slot index).operations.get lane
  match operation.cancellation with
  | none => .ok (.idle, d)
  | some id =>
    match d.ring.push ⟨.asyncCancel (token id), cancelToken id⟩ with
    | none => .ok (.blocked, d)
    | some ring => do
      let pending ← add d.pendingCompletions 1
      return (.submitted 0,
        { d.update index (·.setOperation lane (operation.cancelAccepted id).2) with
          ring := ring
          pendingCompletions := pending })

/-- The entry of a send or a receive, and whether it hints at polling first. -/
def request (lane : Lane) (sockets : Nat × Nat) (effect : Effect) (bytes receiveIoprio : Nat) :
    Option (Opcode × Bool) :=
  let fd := if lane = .data then sockets.1 else sockets.2
  match effect with
  | .receive _ offset length =>
    let ioprio := if offset = 0 then receiveIoprio else 0
    some (.recv fd offset (min length bytes) ioprio, ioprio ≠ 0)
  | .transmit _ offset length => some (.send fd offset (min length bytes), false)
  | _ => none

def submitEntered (d : Driver G links) (index : Fin links) (lane : Lane) (bytes : Nat) :
    Exec (Attempt × Driver G links) :=
  let slot := d.slot index
  match slot.protocol with
  | none => .ok (.idle, d)
  | some p => do
    match ← p.effect lane with
    | none => return (.idle, d)
    | some effect =>
      if effect.isRequest = false ∨ slot.free lane = false then return (.idle, d)
      else if d.ring.queue.length ≥ d.ring.capacity - 1 then return (.blocked, d)
      else
        let operation := slot.operations.get lane
        let prepared := if operation.phase = .prepared then (some operation.id, operation)
          else operation.prepare
        match prepared with
        | (none, _) =>
          let (_, _, shared) ← d.shared.input index p (.closed .capacity)
          return (.idle, { d with shared := shared.update index (·.wakeIf true) })
        | (some id, operation) =>
          let d := d.update index (·.setOperation lane operation)
          let sockets ← unwrap slot.sockets
          match request lane sockets effect bytes d.receiveIoprio with
          | none => return (.idle, d)
          | some (opcode, hint) =>
            match d.ring.push ⟨opcode, token id⟩ with
            | none => return (.blocked, d)
            | some ring => do
              let pending ← add d.pendingCompletions 1
              let shared := d.shared.update index fun slot =>
                { slot.setOperation lane (operation.accepted id).2 with
                  receiveHints := slot.receiveHints.set lane hint }
              let (_, _, shared) ← shared.input index p (.accepted lane id)
              return (.submitted opcode.length,
                { d with ring := ring, shared := shared, pendingCompletions := pending })

/-- An admission of a slot's reservation was refused. -/
def refuse (s : Shared G links) (index : Fin links) (error : TopicError) : Exec (Shared G links) :=
  if error = .contended then
    .ok (s.update index fun slot => { slot with contended := true })
  else
    match (s.slots index).protocol with
    | none => .ok s
    | some p => do
      let input : Input := if error = .revoked then .revoked else .closed (.topic error)
      let (_, _, s) ← s.input index p input
      return s.update index (·.wakeIf true)

/-- What `submit` attempted, and what `enter` answered if it was asked. -/
structure Submission (G : Type) (links : Nat) where
  attempt : Attempt
  answer : Option (Except TopicError Unit)
  replies : List (Reply links)
  driver : Driver G links

/-- A deferred admission leaves the notification of waiters to `dispatch`. -/
def defer (d : Driver G links) (mode : Admission) (index : Fin links) : Driver G links :=
  if mode = .deferred then
    d.update index fun slot => { slot with work := { slot.work with notifyAuthority := true } }
  else d

def submit (mode : Admission) (d : Driver G links) (index : Fin links) (lane : Lane) (bytes : Nat)
    (replies : List (Reply links)) : Exec (Submission G links) := do
  if (← (d.slot index).offersRequest lane) = false then return ⟨.idle, none, replies, d⟩
  else if bytes = 0 ∨ d.ring.queue.length ≥ d.ring.capacity - 1 then
    return ⟨.blocked, none, replies, d⟩
  else if (d.shared.reservations index).isNone then return ⟨.idle, none, replies, d⟩
  else
    let d := d.defer mode index
    let (reply, replies) := Reply.next replies
    let shared ← d.shared.acts reply.before
    let d := { d with shared := shared }
    match reply.entered with
    | .ok () =>
      let (attempt, d) ← d.submitEntered index lane bytes
      let shared ← d.shared.acts reply.after
      return ⟨attempt, some reply.entered, replies, { d with shared := shared }⟩
    | .error error =>
      let shared ← refuse d.shared index error
      return ⟨.idle, some reply.entered, replies, { d with shared := shared }⟩

/-! ### Rounds -/

/-- The state of the loops of a pass. -/
structure Pass (G : Type) (links : Nat) where
  driver : Driver G links
  submissions : Nat
  bytes : Nat
  blocked : Option (Fin links)
  replies : List (Reply links)
  log : List (Turn links)

/-- The lane that a link may submit now. -/
def chosen (d : Driver G links) (index : Fin links) : Exec (Option Lane) :=
  if (d.slot index).contended then .ok none else (d.slot index).pendingLane

def attempt (mode : Admission) (d : Driver G links) (index : Fin links) (bytes : Nat)
    (replies : List (Reply links)) : Exec (Option Lane × Submission G links) := do
  match ← d.chosen index with
  | none => return (none, ⟨.idle, none, replies, d⟩)
  | some lane =>
    if ((d.slot index).operations.get lane).cancellation.isSome then do
      let (attempt, d) ← d.cancel index lane
      return (some lane, ⟨attempt, none, replies, d⟩)
    else do
      let submission ← d.submit mode index lane bytes replies
      return (some lane, submission)

/-- The end of a turn: a submission moves on to the next lane, and the link goes back to
the queue while it has a pending lane. -/
def conclude (d : Driver G links) (index : Fin links) (submitted : Option Lane) :
    Exec (Driver G links) := do
  let d := match submitted with
    | some lane => d.update index fun slot => { slot with nextLane := (laneNumber lane + 1) % 3 }
    | none => d
  let d := { d with shared := d.shared.refresh index }
  let pending ← (d.slot index).pendingLane
  return if pending.isSome then { d with shared := d.shared.queue index } else d

/-- The turn of the link at the head of the queue. -/
def turn (mode : Admission) (budget : Budget) (round : Nat) (p : Pass G links) :
    Exec (Pass G links) := do
  let (index, ready) ← p.driver.shared.ready.pop
  let d := { p.driver with shared := { p.driver.shared with ready := ready }.refresh index }
  let bytes ← sub budget.bytes p.bytes
  let (lane, submission) ← d.attempt mode index bytes p.replies
  let queued := d.ring.queue.length
  let length := match submission.attempt with
    | .submitted length => some length
    | _ => none
  let d ← submission.driver.conclude index (if length.isSome then lane else none)
  return {
    driver := d
    submissions := p.submissions + if length.isSome then 1 else 0
    bytes := p.bytes + length.getD 0
    blocked := if submission.attempt = .blocked then p.blocked.or (some index) else p.blocked
    replies := submission.replies
    log := p.log ++ [{
      round := round
      index := index
      attempt := lane.map fun _ => submission.attempt
      answer := submission.answer
      queued := queued
      entries := d.ring.queue.drop queued
      kept := d.shared.ready.present index }] }

/-- One round: a turn for each link that was ready when it began. -/
def turns (mode : Admission) (budget : Budget) (round : Nat) :
    Nat → Pass G links → Exec (Pass G links)
  | 0, p => .ok p
  | fuel + 1, p =>
    if p.submissions = budget.submissions then .ok p
    else do
      let p ← turn mode budget round p
      turns mode budget round fuel p

/-- The rounds of a pass. Once the submissions are spent, which ends the rounds, the
next one does nothing and is the last. -/
def rounds (mode : Admission) (budget : Budget) : Nat → Nat → Pass G links → Exec (Pass G links)
  | _, 0, p => .ok p
  | round, fuel + 1, p => do
    let q ← turns mode budget round p.driver.shared.ready.len p
    if q.submissions = p.submissions then return q
    rounds mode budget (round + 1) fuel q

/-- What a pass did. `failed` says that the submit call failed. -/
structure Progress (G : Type) (links : Nat) where
  driver : Driver G links
  completions : Nat
  submissions : Nat
  bytes : Nat
  failed : Bool
  replies : List (Reply links)
  log : List (Turn links)

/-- The environment of a pass: the callbacks, whether the kernel asks for a submit call
with nothing queued, and how many entries a submit call hands over if it succeeds. -/
structure Script (links : Nat) where
  replies : List (Reply links)
  flagged : Bool
  submit : Option Nat

/-- The first denied link keeps its turn. -/
def prioritized (ready : Ready links) : Option (Fin links) → Exec (Ready links)
  | none => .ok ready
  | some index => ready.prioritize index

/-- `advance_with`; `none` is `InvalidInput`. -/
def advanceWith (mode : Admission) (budget : Budget) (script : Script links) (d : Driver G links) :
    Exec (Option (Progress G links)) :=
  if budget.completions = 0 ∨ budget.submissions = 0 ∨ budget.bytes = 0 then .ok none
  else do
    let (completed, d) ← consume (min budget.completions d.ring.cqEntries) d
    let (replies, shared) ← scanAuthority script.replies d.shared
    let p ← rounds mode budget 0 3 ⟨{ d with shared := shared }, 0, 0, none, replies, []⟩
    let ready ← prioritized p.driver.shared.ready p.blocked
    let d := { p.driver with shared := { p.driver.shared with ready := ready } }
    let submits := !d.ring.queue.isEmpty || script.flagged
    return some {
      driver := if submits then { d with ring := d.ring.submit script.submit } else d
      completions := completed
      submissions := p.submissions
      bytes := p.bytes
      failed := submits && script.submit.isNone
      replies := p.replies
      log := p.log }

def dispatchWithBudget (d : Driver G links) (budget : Nat) (during : List (List (Act links))) :
    Exec (Nat × Driver G links) :=
  if budget = 0 then .ok (0, d)
  else do
    let (cursor, dispatched, shared) ←
      Shared.dispatchFrom d.shared.pendingWork budget links d.dispatchCursor 0 during d.shared
    return (dispatched, { d with shared := shared, dispatchCursor := cursor })

end Driver

end Hiway.Uring
