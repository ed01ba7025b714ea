import Hiway.Transport.Operation

/-!
# The submission and completion queues

Entries wait in the submission queue until a submit call hands them to the kernel, and
the kernel answers each with one completion. The user data of an entry is the
operation's id, with one bit more for the cancellation of that operation.

* `token`, `cancelToken`: the user data of a request and of its cancellation.
* `push`, `submit`, `next`, `post`: what the driver and the kernel do to the queues.
* `submit_entries`: a submit call keeps the entries in their order.
-/

namespace Hiway.Uring

open Transport

/-! ## User data -/

/-- `CANCEL`. -/
def cancelBit : UInt32 := 0x80000000

def token (id : OpId) : UInt64 := (id.generation.toUInt64 <<< 32) ||| id.slot.toUInt64

/-- `token(id) | u64::from(CANCEL)`. -/
def cancelToken (id : OpId) : UInt64 := token id ||| cancelBit.toUInt64

/-- `user_data as u32 & !CANCEL`. -/
def slotOf (userData : UInt64) : UInt32 := userData.toUInt32 &&& ~~~cancelBit

/-- `(user_data >> 32) as u32`. -/
def generationOf (userData : UInt64) : UInt32 := (userData >>> 32).toUInt32

/-- `user_data & u64::from(CANCEL) != 0`. -/
def isCancel (userData : UInt64) : Bool := userData &&& cancelBit.toUInt64 ≠ 0

theorem token_bit (id : OpId) (i : Nat) :
    (token id).toBitVec.getLsbD i =
      if i < 32 then id.slot.toBitVec.getLsbD i else id.generation.toBitVec.getLsbD (i - 32) := by
  have hshift : ((32 : UInt64) % 64).toNat = 32 := by decide
  unfold token
  simp only [UInt64.toBitVec_or, UInt64.toBitVec_shiftLeft, BitVec.getLsbD_or]
  split
  · simp
    grind
  · have hout := id.slot.toBitVec.getLsbD_of_ge i (by omega)
    simp_all
    grind

theorem cancelBit_eq : cancelBit.toBitVec = BitVec.twoPow 32 31 := by decide

/-- Operation indices are below the cancellation bit. -/
theorem bit_of_lt {slot : UInt32} (h : slot < cancelBit) : slot.toBitVec.getLsbD 31 = false :=
  Nat.testBit_lt_two_pow (show slot.toNat < 2 ^ 31 from h)

variable {id : OpId}

@[simp] theorem generationOf_token (id : OpId) : generationOf (token id) = id.generation := by
  apply UInt32.toBitVec_inj.mp
  apply BitVec.eq_of_getLsbD_eq
  intro i hi
  have hshift : ((32 : UInt64) % 64).toNat = 32 := by decide
  have hbit := token_bit id (32 + i)
  simp [generationOf, hi, hbit]

@[simp] theorem generationOf_cancelToken (id : OpId) :
    generationOf (cancelToken id) = id.generation := by
  apply UInt32.toBitVec_inj.mp
  apply BitVec.eq_of_getLsbD_eq
  intro i hi
  have hshift : ((32 : UInt64) % 64).toNat = 32 := by decide
  have hbit := token_bit id (32 + i)
  simp [generationOf, cancelToken, hi, hbit]

theorem slotOf_token (h : id.slot < cancelBit) : slotOf (token id) = id.slot := by
  apply UInt32.toBitVec_inj.mp
  apply BitVec.eq_of_getLsbD_eq
  intro i hi
  have hbit := token_bit id i
  have htop := bit_of_lt h
  unfold slotOf
  by_cases heq : i = 31
  · subst heq
    simp_all [cancelBit_eq]
  · simp_all [cancelBit_eq]

theorem slotOf_cancelToken (h : id.slot < cancelBit) : slotOf (cancelToken id) = id.slot := by
  apply UInt32.toBitVec_inj.mp
  apply BitVec.eq_of_getLsbD_eq
  intro i hi
  have hbit := token_bit id i
  have htop := bit_of_lt h
  unfold slotOf cancelToken
  by_cases heq : i = 31
  · subst heq
    simp_all [cancelBit_eq]
  · simp_all [cancelBit_eq]

theorem isCancel_token (h : id.slot < cancelBit) : isCancel (token id) = false := by
  have hzero : token id &&& cancelBit.toUInt64 = 0 := by
    apply UInt64.toBitVec_inj.mp
    apply BitVec.eq_of_getLsbD_eq
    intro i hi
    have hbit := token_bit id i
    have htop := bit_of_lt h
    by_cases heq : i = 31
    · subst heq
      simp_all [cancelBit_eq]
    · simp_all [cancelBit_eq]
      grind
  simp [isCancel, hzero]

@[simp] theorem isCancel_cancelToken (id : OpId) : isCancel (cancelToken id) = true := by
  have hset : cancelToken id &&& cancelBit.toUInt64 ≠ 0 := by
    intro h
    have hbit := congrArg (fun word => word.toBitVec.getLsbD 31) h
    simp [cancelToken, cancelBit_eq] at hbit
  simp [isCancel, hset]

/-! ## The queues -/

inductive Opcode where
  | asyncCancel (target : UInt64)
  | recv (fd offset length ioprio : Nat)
  | send (fd offset length : Nat)
  deriving DecidableEq, Repr

/-- The bytes that an entry asks for. -/
def Opcode.length : Opcode → Nat
  | .asyncCancel _ => 0
  | .recv _ _ length _ => length
  | .send _ _ length => length

structure Entry where
  opcode : Opcode
  userData : UInt64
  deriving DecidableEq, Repr

/-- Not a cancellation. -/
def Entry.isRequest (entry : Entry) : Bool :=
  match entry.opcode with
  | .asyncCancel _ => false
  | _ => true

/-- A completion, with what the buffer of its operation holds when it arrives. -/
structure Cqe where
  userData : UInt64
  result : Int
  buffer : List UInt8
  deriving DecidableEq, Repr

/-- The ring as the driver sees it, and the entries that the kernel has been handed and
has not completed. A driver asks for at least two entries. -/
structure Ring where
  capacity : Nat
  cqEntries : Nat
  queue : List Entry
  kernel : List Entry
  completions : List Cqe
  room : 2 ≤ capacity

namespace Ring

/-- One entry more. -/
def enqueue (r : Ring) (entry : Entry) : Ring := { r with queue := r.queue ++ [entry] }

@[simp] theorem enqueue_queue (r : Ring) (entry : Entry) :
    (r.enqueue entry).queue = r.queue ++ [entry] := rfl

@[simp] theorem enqueue_kernel (r : Ring) (entry : Entry) :
    (r.enqueue entry).kernel = r.kernel := rfl

@[simp] theorem enqueue_completions (r : Ring) (entry : Entry) :
    (r.enqueue entry).completions = r.completions := rfl

/-- `SubmissionQueue::push`. -/
def push (r : Ring) (entry : Entry) : Option Ring :=
  if r.queue.length < r.capacity then some (r.enqueue entry) else none

theorem push_of_lt {r : Ring} (h : r.queue.length < r.capacity) (entry : Entry) :
    r.push entry = some (r.enqueue entry) := if_pos h

theorem push_of_le {r : Ring} (h : r.capacity ≤ r.queue.length) (entry : Entry) :
    r.push entry = none := if_neg (not_lt.mpr h)

/-- A submit call: the kernel takes the first `taken` entries of the queue, or the call
fails and takes none. -/
def submit (r : Ring) : Option Nat → Ring
  | none => r
  | some taken =>
    { r with
      queue := r.queue.drop taken
      kernel := r.kernel ++ r.queue.take taken }

/-- A submit call keeps the entries in their order. -/
theorem submit_entries (r : Ring) (taken : Option Nat) :
    (r.submit taken).kernel ++ (r.submit taken).queue = r.kernel ++ r.queue := by
  cases taken with
  | none => rfl
  | some taken =>
    unfold submit
    rw [List.append_assoc, List.take_append_drop]

@[simp] theorem submit_completions (r : Ring) (taken : Option Nat) :
    (r.submit taken).completions = r.completions := by
  cases taken <;> rfl

/-- `CompletionQueue::next`. -/
def next (r : Ring) : Option (Cqe × Ring) :=
  match r.completions with
  | [] => none
  | cqe :: rest => some (cqe, { r with completions := rest })

/-- The kernel completes one of the entries that it has. -/
def post (r : Ring) (index : Nat) (result : Int) (buffer : List UInt8) : Ring :=
  match r.kernel[index]? with
  | none => r
  | some entry =>
    { r with
      kernel := r.kernel.eraseIdx index
      completions := r.completions ++ [⟨entry.userData, result, buffer⟩] }

end Ring

end Hiway.Uring
