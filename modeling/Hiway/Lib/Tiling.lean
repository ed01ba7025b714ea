import Mathlib.Tactic

/-!
# Tilings of an interval

A list of pieces tiles `[a, b)` when the first piece starts at `a`, each next piece starts
where the one before it ends, and the last one ends at `b`. No piece is empty.

* `append`: two tilings, the second from where the first ends, are one.
* `snoc`: one more piece at the end.
-/

variable {ι : Type}

/-- The pieces run from `a` to `b`, each one nonempty and admissible. -/
def Tiles (first last : ι → Nat) (ok : ι → Prop) : Nat → List ι → Nat → Prop
  | a, [], b => a = b
  | a, i :: rest, b => first i = a ∧ a < last i ∧ ok i ∧ Tiles first last ok (last i) rest b

namespace Tiles

variable {first last : ι → Nat} {ok ok' : ι → Prop} {a b : Nat} {pieces : List ι}

theorem nil (a : Nat) : Tiles first last ok a [] a := rfl

theorem mono (h : Tiles first last ok a pieces b) (hok : ∀ i ∈ pieces, ok i → ok' i) :
    Tiles first last ok' a pieces b := by
  induction pieces generalizing a with
  | nil => exact h
  | cons i rest ih =>
    obtain ⟨hf, hlt, hi, hrest⟩ := h
    exact ⟨hf, hlt, hok i (List.mem_cons_self ..) hi,
      ih hrest fun j hj => hok j (List.mem_cons_of_mem _ hj)⟩

theorem append {c : Nat} {more : List ι} (h : Tiles first last ok a pieces b)
    (hmore : Tiles first last ok b more c) : Tiles first last ok a (pieces ++ more) c := by
  induction pieces generalizing a with
  | nil =>
    cases h
    exact hmore
  | cons i rest ih =>
    obtain ⟨hf, hlt, hi, hrest⟩ := h
    exact ⟨hf, hlt, hi, ih hrest⟩

/-- One more piece at the end. -/
theorem snoc (h : Tiles first last ok a pieces b) {i : ι} (hf : first i = b) (hlt : b < last i)
    (hi : ok i) : Tiles first last ok a (pieces ++ [i]) (last i) :=
  h.append ⟨hf, hlt, hi, rfl⟩

end Tiles
