import Hiway.Lib.Checked

/-!
# Two ends and the channels between them

A sender starts frames and writes their codes; a receiver admits frames and answers each with
an acknowledgement. What an end does is said of it alone, as long as what it takes from its
channel is what a proper peer puts there. Two such ends, joined by channels that neither lose
nor reorder, then understand each other, whichever programs they are.

* `proper_of_started`: a sender that waits for the acknowledgement of each frame is a proper
  peer.
* `Understood.step`: one move of an end, or of a channel, keeps what holds of the whole.
* `Understood.run`: so does any sequence of them, however the two take turns.
* `Understood.delivered`, `Understood.window`: frames are admitted in the order in which
  they are started, and at most the last one is not.
-/

namespace Dialogue

open Exec

variable {F β S T E G : Type}

/-! ## Formats -/

/-- How frames and their acknowledgements are written. -/
structure Format (F β : Type) where
  valid : F → Prop
  follows : F → F → Prop
  code : F → List β
  ack : F → List β
  width : Nat
  code_ne : ∀ f, valid f → code f ≠ []
  /-- No code begins another. -/
  code_inj : ∀ f g x y, valid f → valid g → code f ++ x = code g ++ y → f = g
  ack_length : ∀ f, (ack f).length = width
  width_pos : 0 < width

namespace Format

variable (w : Format F β)

/-- Everything that is written for these frames, and for their acknowledgements. -/
def codes (fs : List F) : List β := fs.flatMap w.code

def acks (fs : List F) : List β := fs.flatMap w.ack

@[simp] theorem codes_nil : w.codes [] = [] := rfl

@[simp] theorem acks_nil : w.acks [] = [] := rfl

theorem codes_append (fs gs : List F) : w.codes (fs ++ gs) = w.codes fs ++ w.codes gs :=
  List.flatMap_append

theorem acks_append (fs gs : List F) : w.acks (fs ++ gs) = w.acks fs ++ w.acks gs :=
  List.flatMap_append

theorem codes_concat (fs : List F) (f : F) : w.codes (fs ++ [f]) = w.codes fs ++ w.code f := by
  rw [codes_append, codes, codes, List.flatMap_singleton]

theorem acks_concat (fs : List F) (f : F) : w.acks (fs ++ [f]) = w.acks fs ++ w.ack f := by
  rw [acks_append, acks, acks, List.flatMap_singleton]

theorem length_acks (fs : List F) : (w.acks fs).length = fs.length * w.width := by
  induction fs with
  | nil => exact (Nat.zero_mul _).symm
  | cons f rest ih =>
    show (w.ack f ++ w.acks rest).length = _
    rw [List.length_append, w.ack_length, ih, List.length_cons, Nat.succ_mul, Nat.add_comm]

/-- Acknowledgements are counted by their length. -/
theorem length_le_of_acks {fs gs : List F} (h : w.acks fs <+: w.acks gs) :
    fs.length ≤ gs.length := by
  have hle := h.length_le
  rw [w.length_acks, w.length_acks] at hle
  exact Nat.le_of_mul_le_mul_right hle w.width_pos

variable {w}

/-- Frames can be read back from their codes. -/
theorem prefix_of_codes {fs gs : List F} (hfs : ∀ f ∈ fs, w.valid f) (hgs : ∀ g ∈ gs, w.valid g)
    (h : w.codes fs <+: w.codes gs) : fs <+: gs := by
  induction fs generalizing gs with
  | nil => exact List.nil_prefix
  | cons f rest ih =>
    obtain ⟨more, hmore⟩ := h
    change (w.code f ++ w.codes rest) ++ more = w.codes gs at hmore
    cases gs with
    | nil =>
      have hnil := (List.append_eq_nil_iff.mp hmore).1
      exact absurd (List.append_eq_nil_iff.mp hnil).1 (w.code_ne f (hfs f List.mem_cons_self))
    | cons g gs =>
      change (w.code f ++ w.codes rest) ++ more = w.code g ++ w.codes gs at hmore
      rw [List.append_assoc] at hmore
      obtain rfl : f = g := w.code_inj f g _ _ (hfs f List.mem_cons_self)
        (hgs g List.mem_cons_self) hmore
      have hrest : w.codes rest <+: w.codes gs := ⟨more, List.append_cancel_left hmore⟩
      apply List.prefix_cons_inj _ |>.mpr
      exact ih (fun x hx => hfs x (List.mem_cons_of_mem _ hx))
        (fun x hx => hgs x (List.mem_cons_of_mem _ hx)) hrest

variable (w)

/-- What a proper peer lets a receiver take: the codes of what it has admitted and, once it
has sent every acknowledgement, the next frame. -/
def Proper (admitted : List F) (sent consumed : List β) : Prop :=
  consumed = w.codes admitted ∨
    ∃ f, w.valid f ∧ (∀ last ∈ admitted.getLast?, w.follows last f) ∧ sent = w.acks admitted ∧
      consumed <+: w.codes admitted ++ w.code f

variable {w}

/-- A sender that waits for the acknowledgement of each frame is a proper peer. -/
theorem proper_of_started {admitted started : List F} {sent consumed : List β}
    (hvalid : ∀ f ∈ started, w.valid f) (hchain : started.IsChain w.follows)
    (hadmitted : ∀ f ∈ admitted, w.valid f) (hread : w.codes admitted <+: consumed)
    (hwritten : consumed <+: w.codes started) (hpaid : w.acks started.dropLast <+: sent)
    (hsent : sent <+: w.acks admitted) : w.Proper admitted sent consumed := by
  obtain ⟨rest, rfl⟩ := prefix_of_codes hadmitted hvalid (hread.trans hwritten)
  have hle := w.length_le_of_acks (hpaid.trans hsent)
  rw [List.length_dropLast, List.length_append] at hle
  rcases rest with - | ⟨f, more⟩
  · rw [List.append_nil] at hwritten
    exact Or.inl (hwritten.eq_of_length_le hread.length_le)
  · obtain rfl : more = [] := by
      apply List.eq_nil_of_length_eq_zero
      rw [List.length_cons] at hle
      omega
    rw [List.dropLast_concat] at hpaid
    rw [codes_concat] at hwritten
    refine Or.inr ⟨f, hvalid f (by simp), fun last hlast => ?_,
      hsent.eq_of_length_le hpaid.length_le, hwritten⟩
    exact (List.isChain_append.mp hchain).2.2 last hlast f rfl

end Format

/-! ## Ends -/

/-- A program that sends frames, seen by what it starts and by what passes its channels. -/
structure Sender (S E F β : Type) where
  step : S → E → Exec S
  started : S → List F
  written : S → List β
  read : S → List β

/-- A program that receives frames. -/
structure Receiver (T G F β : Type) where
  step : T → G → Exec T
  admitted : T → List F
  consumed : T → List β
  sent : T → List β

/-- Under `P` a sender starts the next frame only when the acknowledgement of the last one was
read, and keeps `P` while it reads nothing but acknowledgements. -/
structure Sender.Keeps (A : Sender S E F β) (w : Format F β) (P : S → Prop) : Prop where
  valid : ∀ s, P s → ∀ f ∈ A.started s, w.valid f
  ordered : ∀ s, P s → (A.started s).IsChain w.follows
  written : ∀ s, P s → A.written s <+: w.codes (A.started s)
  paid : ∀ s, P s → w.acks (A.started s).dropLast <+: A.read s
  step : ∀ s e, P s → ∃ s', A.step s e = .ok s' ∧
    (A.read s' <+: w.acks (A.started s) → P s' ∧ A.written s <+: A.written s')

/-- Under `Q` a receiver admits what it has read and acknowledges nothing else, and keeps `Q`
while it reads what a proper peer sends. -/
structure Receiver.Keeps (B : Receiver T G F β) (w : Format F β) (Q : T → Prop) : Prop where
  valid : ∀ t, Q t → ∀ f ∈ B.admitted t, w.valid f
  consumed : ∀ t, Q t → w.codes (B.admitted t) <+: B.consumed t
  sent : ∀ t, Q t → B.sent t <+: w.acks (B.admitted t)
  step : ∀ t g, Q t → ∃ t', B.step t g = .ok t' ∧ B.consumed t <+: B.consumed t' ∧
    (w.Proper (B.admitted t) (B.sent t) (B.consumed t') → Q t' ∧ B.sent t <+: B.sent t')

/-! ## A sender and a receiver -/

structure Pair (S T : Type) where
  sender : S
  receiver : T

inductive Turn (E G : Type) where
  | sender (event : E)
  | receiver (event : G)

/-- One event of one end. It is possible when what it takes from the channel is what the other
end has put there. -/
def step [DecidableEq β] (A : Sender S E F β) (B : Receiver T G F β) (p : Pair S T) :
    Turn E G → Exec (Pair S T)
  | .sender event => do
    let sender ← A.step p.sender event
    return if A.read sender <+: B.sent p.receiver then { p with sender := sender } else p
  | .receiver event => do
    let receiver ← B.step p.receiver event
    return if B.consumed receiver <+: A.written p.sender then { p with receiver := receiver } else p

/-- Both ends do as they should, and each has taken only what the other has written. -/
structure Understood (A : Sender S E F β) (B : Receiver T G F β) (w : Format F β) (P : S → Prop)
    (Q : T → Prop) (p : Pair S T) : Prop where
  sender : P p.sender
  receiver : Q p.receiver
  heard : A.read p.sender <+: B.sent p.receiver
  taken : B.consumed p.receiver <+: A.written p.sender

variable {A : Sender S E F β} {B : Receiver T G F β} {w : Format F β} {P : S → Prop}
  {Q : T → Prop} {p : Pair S T}

/-- Frames are admitted in the order in which they are started. -/
theorem Understood.delivered (h : Understood A B w P Q p) (hA : A.Keeps w P) (hB : B.Keeps w Q) :
    B.admitted p.receiver <+: A.started p.sender := by
  apply Format.prefix_of_codes (hB.valid _ h.receiver) (hA.valid _ h.sender)
  exact (hB.consumed _ h.receiver).trans (h.taken.trans (hA.written _ h.sender))

/-- At most the last frame was not admitted. -/
theorem Understood.window (h : Understood A B w P Q p) (hA : A.Keeps w P) (hB : B.Keeps w Q) :
    (A.started p.sender).length ≤ (B.admitted p.receiver).length + 1 := by
  have hle := w.length_le_of_acks
    ((hA.paid _ h.sender).trans (h.heard.trans (hB.sent _ h.receiver)))
  rw [List.length_dropLast] at hle
  omega

/-- Two ends that have read nothing. -/
theorem understood_start {s : S} {t : T} (hs : P s) (ht : Q t) (hread : A.read s = [])
    (hconsumed : B.consumed t = []) : Understood A B w P Q ⟨s, t⟩ :=
  ⟨hs, ht, hread ▸ List.nil_prefix, hconsumed ▸ List.nil_prefix⟩

variable [DecidableEq β]

theorem Understood.step (h : Understood A B w P Q p) (hA : A.Keeps w P) (hB : B.Keeps w Q)
    (turn : Turn E G) :
    ∃ p', Dialogue.step A B p turn = .ok p' ∧ Understood A B w P Q p' := by
  cases turn with
  | sender event =>
    obtain ⟨s', hs, hkeeps⟩ := hA.step _ event h.sender
    simp only [Dialogue.step, hs, ok_bind, pure_eq]
    refine ⟨_, rfl, ?_⟩
    split
    · rename_i hread
      have hacks : w.acks (B.admitted p.receiver) <+: w.acks (A.started p.sender) := by
        obtain ⟨rest, hrest⟩ := h.delivered hA hB
        rw [← hrest, w.acks_append]
        exact List.prefix_append _ _
      obtain ⟨hsender, hwritten⟩ := hkeeps (hread.trans ((hB.sent _ h.receiver).trans hacks))
      exact ⟨hsender, h.receiver, hread, h.taken.trans hwritten⟩
    · exact h
  | receiver event =>
    obtain ⟨t', ht, hmore, hkeeps⟩ := hB.step _ event h.receiver
    simp only [Dialogue.step, ht, ok_bind, pure_eq]
    refine ⟨_, rfl, ?_⟩
    split
    · rename_i htaken
      obtain ⟨hreceiver, hsent⟩ := hkeeps <|
        Format.proper_of_started (hA.valid _ h.sender) (hA.ordered _ h.sender)
          (hB.valid _ h.receiver) ((hB.consumed _ h.receiver).trans hmore)
          (htaken.trans (hA.written _ h.sender)) ((hA.paid _ h.sender).trans h.heard)
          (hB.sent _ h.receiver)
      exact ⟨h.sender, hreceiver, h.heard.trans hsent, htaken⟩
    · exact h

/-- However the two ends take turns. -/
theorem Understood.run (h : Understood A B w P Q p) (hA : A.Keeps w P) (hB : B.Keeps w Q)
    (turns : List (Turn E G)) :
    ∃ p', steps (Dialogue.step A B) p turns = .ok p' ∧ Understood A B w P Q p' :=
  steps_invariant (fun _ turn hp => Understood.step hp hA hB turn) h turns

end Dialogue
