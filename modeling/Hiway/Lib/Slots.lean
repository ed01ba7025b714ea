import Mathlib.Tactic

/-!
# Slot tables

A table of optional entries in which a new entry takes the first free slot. Slots are
named by their index, and changing one slot leaves the others alone.

* `free_eq_some`: the free slot that an insertion takes is the first.
* `entry_set_self`, `entry_set_of_ne`: a write is read back at its slot and leaves the
  others alone.
* `any_iff`, `all_iff`: a test of the table is a test of its occupied slots.
-/

namespace Slots

variable {β : Type}

/-- The entry at a slot; a slot outside the table is empty. -/
def entry (t : List (Option β)) (i : Nat) : Option β := t[i]?.join

/-- The first free slot. -/
def free (t : List (Option β)) : Option Nat := t.findIdx? Option.isNone

theorem entry_eq_some {t : List (Option β)} {i : Nat} {b : β} :
    entry t i = some b ↔ t[i]? = some (some b) := by
  unfold entry
  cases t[i]? <;> simp

theorem lt_of_entry {t : List (Option β)} {i : Nat} {b : β} (h : entry t i = some b) :
    i < t.length := by
  rw [entry_eq_some] at h
  exact (List.getElem?_eq_some_iff.mp h).1

theorem free_eq_some {t : List (Option β)} {i : Nat} (h : free t = some i) :
    i < t.length ∧ entry t i = none := by
  obtain ⟨hi, hp, -⟩ := List.findIdx?_eq_some_iff_getElem.mp h
  refine ⟨hi, ?_⟩
  unfold entry
  rw [List.getElem?_eq_getElem hi]
  simpa using hp

theorem entry_set {t : List (Option β)} {i j : Nat} {b : Option β} (hi : i < t.length) :
    entry (t.set i b) j = if i = j then b else entry t j := by
  unfold entry
  rw [List.getElem?_set]
  split
  · rename_i h
    subst h
    simp
  · rfl

theorem entry_set_self {t : List (Option β)} {i : Nat} {b : Option β} (hi : i < t.length) :
    entry (t.set i b) i = b := by
  rw [entry_set hi, if_pos rfl]

theorem entry_set_of_ne {t : List (Option β)} {i j : Nat} {b : Option β} (h : i ≠ j) :
    entry (t.set i b) j = entry t j := by
  unfold entry
  rw [List.getElem?_set_ne h]

/-- Writing what is there changes nothing. -/
theorem set_getElem? {l : List β} {i : Nat} {b : β} (h : l[i]? = some b) : l.set i b = l := by
  obtain ⟨hi, rfl⟩ := List.getElem?_eq_some_iff.mp h
  exact List.set_getElem_self hi

theorem set_entry {t : List (Option β)} {i : Nat} {b : β} (h : entry t i = some b) :
    t.set i (some b) = t :=
  set_getElem? (entry_eq_some.mp h)

theorem entry_replicate (n i : Nat) : entry (List.replicate n (none : Option β)) i = none := by
  unfold entry
  by_cases hi : i < n <;> simp [hi]

/-! ## Seen through a map -/

section

variable {γ : Type} (f : β → γ)

theorem entry_map (t : List (Option β)) (i : Nat) :
    entry (t.map (Option.map f)) i = (entry t i).map f := by
  unfold entry
  rw [List.getElem?_map]
  cases t[i]? <;> rfl

theorem free_map (t : List (Option β)) : free (t.map (Option.map f)) = free t := by
  unfold free
  rw [List.findIdx?_map]
  congr 1
  funext o
  cases o <;> rfl

theorem map_set (t : List (Option β)) (i : Nat) (o : Option β) :
    (t.set i o).map (Option.map f) = (t.map (Option.map f)).set i (o.map f) :=
  List.map_set

end

/-- Some entry satisfies `p` exactly when an occupied slot does. -/
theorem any_iff {t : List (Option β)} {p : β → Bool} :
    t.any (fun o => o.any p) = true ↔ ∃ i b, entry t i = some b ∧ p b = true := by
  rw [List.any_eq_true]
  constructor
  · rintro ⟨o, hmem, hp⟩
    obtain ⟨i, hi⟩ := List.getElem?_of_mem hmem
    cases o with
    | none => cases hp
    | some b => exact ⟨i, b, entry_eq_some.mpr hi, hp⟩
  · rintro ⟨i, b, hb, hp⟩
    exact ⟨some b, List.mem_of_getElem? (entry_eq_some.mp hb), hp⟩

/-- Every entry satisfies `p` exactly when every occupied slot does. -/
theorem all_iff {t : List (Option β)} {p : β → Bool} :
    t.all (fun o => o.all p) = true ↔ ∀ i b, entry t i = some b → p b = true := by
  rw [List.all_eq_true]
  constructor
  · intro h i b hb
    exact h (some b) (List.mem_of_getElem? (entry_eq_some.mp hb))
  · intro h o hmem
    obtain ⟨i, hi⟩ := List.getElem?_of_mem hmem
    cases o with
    | none => rfl
    | some b => exact h i b (entry_eq_some.mpr hi)

end Slots
