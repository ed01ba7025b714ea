import Mathlib.Tactic

/-!
# Binary search

The search of a sorted list that halves its range down to one position and compares
there. On a list without duplicates it finds exactly what is in it.

* `binarySearch_sound`: what is found has the key.
* `binarySearch_eq_some`: on a list without duplicates exactly what is there is found.
* `binarySearch_map`: the search looks at nothing but the keys.
-/

namespace Search

variable {β γ κ : Type} [LinearOrder κ] (key : β → κ)

/-- Narrows `size` positions from `base` on to a single one. -/
def narrow (xs : List β) (k : κ) : Nat → Nat → Nat → Nat
  | 0, base, _ => base
  | fuel + 1, base, size =>
    if size ≤ 1 then base
    else
      let half := size / 2
      narrow xs k fuel (if xs[base + half]?.any (fun x => k < key x) then base else base + half)
        (size - half)

/-- The position of an element with the key `k`. -/
def binarySearch (xs : List β) (k : κ) : Option Nat :=
  let base := narrow key xs k xs.length 0 xs.length
  if xs[base]?.any (fun x => key x = k) then some base else none

variable {key} {xs : List β} {k : κ}

theorem narrow_map (f : γ → β) (ys : List γ) (fuel base size : Nat) :
    narrow key (ys.map f) k fuel base size = narrow (key ∘ f) ys k fuel base size := by
  induction fuel generalizing base size with
  | zero => rfl
  | succ fuel ih =>
    unfold narrow
    simp only [List.getElem?_map, Option.any_map, ih]
    rfl

theorem binarySearch_map (f : γ → β) (ys : List γ) :
    binarySearch key (ys.map f) k = binarySearch (key ∘ f) ys k := by
  unfold binarySearch
  simp only [narrow_map, List.length_map, List.getElem?_map, Option.any_map]
  rfl

/-- What is found has the key. -/
theorem binarySearch_sound {i : Nat} (h : binarySearch key xs k = some i) :
    ∃ x, xs[i]? = some x ∧ key x = k := by
  unfold binarySearch at h
  dsimp only at h
  split at h
  · rename_i hany
    cases h
    obtain ⟨x, hx, hk⟩ := (Option.any_eq_true _ _).mp hany
    exact ⟨x, hx, of_decide_eq_true hk⟩
  · cases h

/-- The range never loses the one position that has the key. -/
theorem narrow_eq (hs : xs.Pairwise fun a b => key a < key b) {i : Nat} {x : β}
    (hx : xs[i]? = some x) (hk : key x = k) (fuel : Nat) :
    ∀ base size, base ≤ i → i < base + size → base + size ≤ xs.length → size ≤ fuel + 1 →
      narrow key xs k fuel base size = i := by
  induction fuel with
  | zero =>
    intro base size hle hlt _ hfuel
    change base = i
    omega
  | succ fuel ih =>
    intro base size hle hlt hlen hfuel
    unfold narrow
    by_cases hone : size ≤ 1
    · rw [if_pos hone]
      omega
    · rw [if_neg hone]
      dsimp only
      have hmid : base + size / 2 < xs.length := by omega
      have hget : xs[base + size / 2]? = some xs[base + size / 2] := List.getElem?_eq_getElem hmid
      obtain ⟨hi, hxi⟩ := List.getElem?_eq_some_iff.mp hx
      rw [hget, Option.any_some]
      by_cases hgreater : k < key xs[base + size / 2]
      · rw [if_pos (decide_eq_true hgreater)]
        refine ih base (size - size / 2) hle ?_ (by omega) (by omega)
        -- the position is in front of the middle
        by_contra hge
        rcases Nat.lt_or_ge (base + size / 2) i with hin | hin
        · have := List.pairwise_iff_getElem.mp hs _ i hmid hi hin
          rw [hxi, hk] at this
          exact lt_asymm hgreater this
        · have heq : base + size / 2 = i := by omega
          simp only [heq, hxi, hk] at hgreater
          exact lt_irrefl _ hgreater
      · rw [if_neg (by simpa using hgreater)]
        refine ih (base + size / 2) (size - size / 2) ?_ (by omega) (by omega) (by omega)
        by_contra hin
        have := List.pairwise_iff_getElem.mp hs i _ hi hmid (by omega)
        rw [hxi, hk] at this
        exact hgreater this

theorem binarySearch_eq_some (hs : xs.Pairwise fun a b => key a < key b) {i : Nat} :
    binarySearch key xs k = some i ↔ ∃ x, xs[i]? = some x ∧ key x = k := by
  refine ⟨binarySearch_sound, ?_⟩
  rintro ⟨x, hx, hk⟩
  have hi := (List.getElem?_eq_some_iff.mp hx).1
  have hnarrow := narrow_eq hs hx hk xs.length 0 xs.length (Nat.zero_le i) (by omega) (by omega)
    (Nat.le_succ _)
  unfold binarySearch
  simp [hnarrow, hx, hk]

end Search
