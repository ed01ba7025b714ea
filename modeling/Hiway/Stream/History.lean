import Hiway.Event
import Hiway.Lib.Tiling

/-!
# Histories

What a bounded stream is for: an unbounded sequence of accepted values, numbered from
some first sequence on, of which each subscription is told a gapless account. An item
either carries the value of its sequence or names a range that is no longer retained.

* `Accounts`: what a subscription is told from one sequence to another: values of the
  history and gaps, which tile the interval.
* `data`, `gap`: an account grows by a value, or by a gap up to where the retained values
  begin.
* `history_isSome`: every sequence from the first one up to the tail has a value.
-/

namespace Hiway

variable {α : Type}

namespace StreamItem

def first : StreamItem α → Nat
  | .data sequence _ => sequence
  | .gap first _ => first

/-- One past the last sequence that an item accounts for. -/
def last : StreamItem α → Nat
  | .data sequence _ => sequence + 1
  | .gap _ last => last

def isGap : StreamItem α → Bool
  | .data .. => false
  | .gap .. => true

/-- A value carried by an item is the one the history has at its sequence. -/
def From (history : Nat → Option α) : StreamItem α → Prop
  | .data sequence value => history sequence = some value
  | .gap .. => True

@[simp] theorem first_data (n : Nat) (a : α) : (data n a).first = n := rfl

@[simp] theorem first_gap (m n : Nat) : (gap m n : StreamItem α).first = m := rfl

@[simp] theorem last_data (n : Nat) (a : α) : (data n a).last = n + 1 := rfl

@[simp] theorem last_gap (m n : Nat) : (gap m n : StreamItem α).last = n := rfl

theorem From.mono {h h' : Nat → Option α} (hh : ∀ n a, h n = some a → h' n = some a)
    {item : StreamItem α} (hi : item.From h) : item.From h' := by
  cases item with
  | data n a => exact hh n a hi
  | gap m n => trivial

end StreamItem

/-- `items` account for the sequences from `start` up to `next`, each exactly once, in
order, and truthfully. -/
def Accounts (history : Nat → Option α) (start : Nat) (items : List (StreamItem α))
    (next : Nat) : Prop :=
  Tiles StreamItem.first StreamItem.last (StreamItem.From history) start items next

namespace Accounts

variable {h h' : Nat → Option α} {start next : Nat} {items : List (StreamItem α)}

theorem nil (start : Nat) : Accounts h start [] start := Tiles.nil start

theorem mono (ha : Accounts h start items next) (hh : ∀ n a, h n = some a → h' n = some a) :
    Accounts h' start items next :=
  Tiles.mono ha fun _ _ hi => hi.mono hh

theorem data (ha : Accounts h start items next) {a : α} (hn : h next = some a) :
    Accounts h start (items ++ [.data next a]) (next + 1) :=
  Tiles.snoc ha (i := .data next a) rfl (Nat.lt_succ_self next) hn

theorem gap (ha : Accounts h start items next) {last : Nat} (hlt : next < last) :
    Accounts h start (items ++ [.gap next last]) last :=
  Tiles.snoc ha (i := .gap next last) rfl hlt trivial

end Accounts

/-- The history that starts at sequence `first` with the values `published`, after
whatever `before` says about earlier sequences. -/
def history (first : Nat) (before : Nat → Option α) (published : List α) (n : Nat) : Option α :=
  if n < first then before n else published[n - first]?

variable {first : Nat} {before : Nat → Option α} {published : List α}

theorem history_append {n : Nat} {a b : α} (h : history first before published n = some a) :
    history first before (published ++ [b]) n = some a := by
  unfold history at h ⊢
  split at h
  · rename_i hn
    rw [if_pos hn]
    exact h
  · rename_i hn
    rw [if_neg hn, List.getElem?_append_left]
    · exact h
    · exact (List.getElem?_eq_some_iff.mp h).1

theorem history_append_of_lt {n : Nat} {b : α} (h : n < first + published.length) :
    history first before (published ++ [b]) n = history first before published n := by
  unfold history
  split
  · rfl
  · rw [List.getElem?_append_left (by omega)]

theorem history_append_self (first : Nat) (before : Nat → Option α) (published : List α) (b : α) :
    history first before (published ++ [b]) (first + published.length) = some b := by
  simp [history]

/-- Every sequence from the first one up to the tail has a value. -/
theorem history_isSome {n : Nat} (hf : first ≤ n) (h : n < first + published.length) :
    ∃ a, history first before published n = some a := by
  have hlt : n - first < published.length := by omega
  exact ⟨published[n - first], by simp [history, Nat.not_lt.mpr hf, hlt]⟩

end Hiway
