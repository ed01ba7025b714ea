import Hiway.Stream.History

/-!
# The newest snapshot

What a latest-state stream is for: a register that shows every subscription the newest of
the admitted snapshots, once. What was admitted before it is skipped silently, so that no
subscription is ever told of a gap.

* `Shows`: a subscription has been shown snapshots only, each newer than those before.
* `append`, `tell`: a new snapshot leaves a cursor behind, and a cursor behind is shown the
  newest.
* `unread_of_eq`, `unread_of_lt`: what is unread at a cursor is the newest snapshot or
  nothing.
-/

namespace Hiway

variable {α : Type}

/-- The newest of the snapshots that were admitted, under its sequence. -/
def newest (published : List α) : Option (StreamItem α) :=
  published.getLast?.map (.data (published.length - 1))

/-- What a subscription that has been told `items` is to be told next: the newest snapshot,
unless it has been told that sequence. -/
def unread (published : List α) (items : List (StreamItem α)) : Option (StreamItem α) :=
  if ∃ told ∈ items, told.first + 1 = published.length then none else newest published

/-- Every item shows a snapshot, and each a newer one than the items before it. -/
structure Shows (published : List α) (items : List (StreamItem α)) : Prop where
  data : ∀ item ∈ items, ∃ n a, item = .data n a ∧ published[n]? = some a
  increasing : items.Pairwise fun a b => a.first < b.first

/-- A cursor at `next` has shown its subscription `items`. It is behind the newest snapshot
exactly until that one is among them. -/
structure Seen (published : List α) (items : List (StreamItem α)) (next : Nat) : Prop
    extends Shows published items where
  le : next ≤ published.length
  before : ∀ item ∈ items, item.first < next
  current : 0 < next → next = published.length → ∃ item ∈ items, item.first + 1 = next

theorem newest_eq_some {published : List α} {item : StreamItem α} :
    newest published = some item ↔
      ∃ a, published.getLast? = some a ∧ item = .data (published.length - 1) a := by
  unfold newest
  rw [Option.map_eq_some_iff]
  exact exists_congr fun a => and_congr_right fun _ => eq_comm

namespace Shows

variable {published : List α} {items : List (StreamItem α)}

theorem nil (published : List α) : Shows published [] := ⟨by simp, List.Pairwise.nil⟩

theorem append (h : Shows published items) (b : α) : Shows (published ++ [b]) items := by
  refine ⟨?_, h.increasing⟩
  intro item hi
  obtain ⟨n, a, rfl, ha⟩ := h.data item hi
  refine ⟨n, a, rfl, ?_⟩
  rw [List.getElem?_append_left (List.getElem?_eq_some_iff.mp ha).1]
  exact ha

end Shows

namespace Seen

variable {published : List α} {items : List (StreamItem α)} {next : Nat}

/-- A new cursor stands at the newest snapshot. -/
theorem start (published : List α) : Seen published [] (published.length - 1) where
  toShows := Shows.nil published
  le := Nat.sub_le _ _
  before := by simp
  current := by
    intro hpos heq
    omega

/-- What is newer than a cursor leaves it behind. -/
theorem append (h : Seen published items next) (b : α) : Seen (published ++ [b]) items next where
  toShows := h.toShows.append b
  le := by
    rw [List.length_append]
    exact h.le.trans (Nat.le_add_right _ _)
  before := h.before
  current := by
    intro _ heq
    have hle := h.le
    rw [List.length_append, List.length_singleton] at heq
    omega

/-- A cursor behind the newest snapshot is shown it. -/
theorem tell (h : Seen published items next) (hlt : next < published.length) {a : α}
    (ha : published.getLast? = some a) :
    Seen published (items ++ [.data (published.length - 1) a]) published.length := by
  have hget : published[published.length - 1]? = some a := by
    rw [← List.getLast?_eq_getElem?]
    exact ha
  refine
    { data := ?_
      increasing := ?_
      le := le_refl _
      before := ?_
      current := ?_ }
  · intro item hi
    rcases List.mem_append.mp hi with hi | hi
    · exact h.data item hi
    · exact ⟨_, a, List.mem_singleton.mp hi, hget⟩
  · refine List.pairwise_append.mpr ⟨h.increasing, List.pairwise_singleton _ _, ?_⟩
    intro item hi last hlast
    rw [List.mem_singleton.mp hlast]
    have := h.before item hi
    simp only [StreamItem.first_data]
    omega
  · intro item hi
    rcases List.mem_append.mp hi with hi | hi
    · exact (h.before item hi).trans hlt
    · rw [List.mem_singleton.mp hi]
      simp only [StreamItem.first_data]
      omega
  · intro hpos _
    refine ⟨_, List.mem_append_right _ (List.mem_singleton_self _), ?_⟩
    simp only [StreamItem.first_data]
    omega

/-- A cursor at the tail has nothing unread. -/
theorem unread_of_eq (h : Seen published items next) (heq : next = published.length) :
    unread published items = none := by
  unfold unread
  by_cases hpos : 0 < next
  · rw [if_pos]
    obtain ⟨told, htold, hfirst⟩ := h.current hpos heq
    exact ⟨told, htold, hfirst.trans heq⟩
  · have hnil : published = [] := List.eq_nil_of_length_eq_zero (by omega)
    subst hnil
    exact ite_self _

/-- A cursor behind the tail has the newest snapshot unread. -/
theorem unread_of_lt (h : Seen published items next) (hlt : next < published.length) :
    unread published items = newest published := by
  refine if_neg ?_
  rintro ⟨told, htold, hfirst⟩
  have := h.before told htold
  omega

end Seen

end Hiway
