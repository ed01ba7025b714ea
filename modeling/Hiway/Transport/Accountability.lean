import Hiway.Event

/-!
# Link accountability

`Records` is the bounded FIFO behind every audit history: overflow discards the
oldest record and counts the loss. `Accountability` is the history of one connection.

* `Records`, `Record`: the ring, and what one record says.
* `Accountability`: the history of one connection, with the sequence under way.
* `retained_push`: a push into a ring with room goes to the end.
-/

namespace Hiway.Transport

def headerBytes : Nat := 38

def creditBytes : Nat := 9

inductive Error where
  | closed
  | revoked
  | protocol
  | capacity
  | io (code : Int)
  | wire (error : WireError)
  | topic (error : TopicError)
  | receive (error : ReceiveError)
  | send (error : SendError Unit)
  | gap (first last : Nat)
  deriving DecidableEq, Repr

/-- Event contract fixed by the composition root, never by peer bytes. -/
structure Contract where
  event : EventId
  major : WireMajor
  revision : SchemaRevision
  delivery : Delivery
  deriving DecidableEq, Repr

inductive Direction where
  | importing
  | exporting
  deriving DecidableEq, Repr

/-- Host-assigned identity. Neither field is read from a peer. -/
structure Connection where
  id : Nat
  generation : Nat
  deriving DecidableEq, Repr

inductive Outcome where
  | admitted
  | completed
  | rejected (error : Error)
  | cancelled
  deriving DecidableEq, Repr

structure Record where
  connection : Connection
  contract : Contract
  direction : Direction
  sequence : Option UInt64
  outcome : Outcome
  deriving DecidableEq, Repr

/-! ## Bounded records -/

/-- The bounds are fields, so every index that `push` and `pop` compute is in range. -/
structure Records (α : Type) (cap : Nat) where
  entries : Vector (Option α) cap
  head : Nat
  len : Nat
  lost : Nat
  head_lt : cap = 0 ∨ head < cap
  len_le : len ≤ cap

namespace Records

variable {α : Type} {cap : Nat}

def new : Records α cap where
  entries := Vector.replicate cap none
  head := 0
  len := 0
  lost := 0
  head_lt := by omega
  len_le := Nat.zero_le _

/-- `lost.saturating_add(count)`. -/
def addLost (r : Records α cap) (count : Nat) : Records α cap :=
  { r with lost := min (r.lost + count) u64Max }

def push (r : Records α cap) (record : α) : Records α cap :=
  if h0 : cap = 0 then
    r.addLost 1
  else
    have hh : r.head < cap := r.head_lt.resolve_left h0
    have hpos : 0 < cap := Nat.pos_of_ne_zero h0
    if hl : r.len = cap then
      addLost
        { r with
          entries := r.entries.set r.head (some record)
          head := (r.head + 1) % cap
          head_lt := Or.inr (Nat.mod_lt _ hpos) } 1
    else
      { r with
        entries := r.entries.set ((r.head + r.len) % cap) (some record) (Nat.mod_lt _ hpos)
        len := r.len + 1
        len_le := Nat.lt_of_le_of_ne r.len_le hl }

def pop (r : Records α cap) : Option α × Records α cap :=
  if h : r.len = 0 then
    (none, r)
  else
    have hcap : cap ≠ 0 := fun h0 => h (Nat.le_zero.mp (h0 ▸ r.len_le))
    have hh : r.head < cap := r.head_lt.resolve_left hcap
    (r.entries[r.head],
      { r with
        entries := r.entries.set r.head none
        head := (r.head + 1) % cap
        len := r.len - 1
        head_lt := Or.inr (Nat.mod_lt _ (Nat.pos_of_ne_zero hcap))
        len_le := Nat.le_trans (Nat.sub_le _ _) r.len_le })

/-- The records in the order in which `pop` returns them. -/
def retained (r : Records α cap) : List α :=
  (List.range r.len).filterMap fun k => (r.entries[(r.head + k) % cap]?).join

@[simp] theorem retained_new : (new : Records α cap).retained = [] := rfl

theorem push_of_lt {r : Records α cap} (h : r.len < cap) (record : α) :
    (r.push record).len = r.len + 1 ∧ (r.push record).lost = r.lost := by
  have h0 : cap ≠ 0 := by omega
  have hl : r.len ≠ cap := by omega
  simp [push, h0, hl]

/-- A push into a ring with room goes to the end. -/
theorem retained_push {r : Records α cap} (h : r.len < cap) (record : α) :
    (r.push record).retained = r.retained ++ [record] := by
  have h0 : cap ≠ 0 := by omega
  have hl : r.len ≠ cap := by omega
  have hpos : 0 < cap := by omega
  simp only [push, h0, hl, dite_false, retained, List.range_succ, List.filterMap_append]
  congr 1
  · apply List.filterMap_congr
    intro k hk
    have hk : k < r.len := List.mem_range.mp hk
    have hne : (r.head + r.len) % cap ≠ (r.head + k) % cap := by
      intro heq
      have hmod : r.len ≡ k [MOD cap] := Nat.ModEq.add_left_cancel' r.head heq
      have := hmod.eq_of_lt_of_lt h (hk.trans h)
      omega
    rw [Vector.getElem?_set_ne _ hne]
  · simp [Vector.getElem?_set_self (Nat.mod_lt _ hpos)]

end Records

/-! ## One connection's history -/

structure FrameRecord where
  sequence : Option UInt64
  outcome : Outcome
  deriving DecidableEq, Repr

structure Accountability where
  connection : Connection
  contract : Contract
  direction : Direction
  sequence : Option UInt64
  terminal : Bool
  records : Records FrameRecord 8

namespace Accountability

def new (connection : Connection) (contract : Contract) (direction : Direction) :
    Accountability where
  connection := connection
  contract := contract
  direction := direction
  sequence := none
  terminal := false
  records := Records.new

def pop (a : Accountability) : Option Record × Accountability :=
  let (record, records) := a.records.pop
  (record.map fun record =>
      { connection := a.connection
        contract := a.contract
        direction := a.direction
        sequence := record.sequence
        outcome := record.outcome },
    { a with records := records })

def lost (a : Accountability) : Nat := a.records.lost

def observe (a : Accountability) (sequence : UInt64) : Accountability :=
  { a with sequence := some sequence }

def record (a : Accountability) (sequence : Option UInt64) (outcome : Outcome) :
    Accountability :=
  if a.terminal then a else { a with records := a.records.push ⟨sequence, outcome⟩ }

def admitted (a : Accountability) : Accountability := a.record a.sequence .admitted

def completed (a : Accountability) (sequence : UInt64) : Accountability :=
  a.record (some sequence) .completed

def finish (a : Accountability) (error : Error) : Accountability :=
  { a.record a.sequence (.rejected error) with terminal := true }

def cancel (a : Accountability) : Accountability :=
  { a.record a.sequence .cancelled with terminal := true }

end Accountability

end Hiway.Transport
