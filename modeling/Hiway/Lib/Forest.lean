import Mathlib.Algebra.BigOperators.Group.Finset.Basic
import Mathlib.Algebra.Order.BigOperators.Group.Finset

/-!
# Allowances in a forest

Each node has an allowance of which it uses some and passes some on to its children. When
no node uses and passes on more than it has, a node and everything below it use no more
than the node's own allowance.

* `sum_allowance_le`: what the nodes below the top have was passed on to them by nodes that
  are below it or are the top itself.
* `sum_use_le`: conservation for a top and a set of nodes that is closed upwards up to it.
-/

namespace Forest

variable {ι : Type} [DecidableEq ι] {nodes below : Finset ι} {parent : ι → Option ι} {top : ι}
  {use : ι → Nat}

/-- What the nodes below the top have was passed on to them by nodes that are below it or
are the top itself. -/
theorem sum_allowance_le (allowance : ι → Nat) (hsub : below ⊆ nodes)
    (hparent : ∀ c ∈ below, c ≠ top → ∃ p ∈ below, parent c = some p) :
    ∑ c ∈ below.erase top, allowance c ≤
      ∑ p ∈ below, ∑ c ∈ nodes with parent c = some p, allowance c := by
  have hfilter : ∀ p, ∑ c ∈ nodes with parent c = some p, allowance c =
      ∑ c ∈ nodes, if parent c = some p then allowance c else 0 :=
    fun p => Finset.sum_filter _ _
  calc ∑ c ∈ below.erase top, allowance c
      ≤ ∑ c ∈ below.erase top, ∑ p ∈ below, (if parent c = some p then allowance c else 0) := by
        refine Finset.sum_le_sum fun c hc => ?_
        obtain ⟨hne, hbelow⟩ := Finset.mem_erase.mp hc
        obtain ⟨p, hp, hcp⟩ := hparent c hbelow hne
        have hle := Finset.single_le_sum (f := fun p => if parent c = some p then allowance c else 0)
          (fun _ _ => Nat.zero_le _) hp
        rwa [if_pos hcp] at hle
    _ ≤ ∑ c ∈ nodes, ∑ p ∈ below, (if parent c = some p then allowance c else 0) :=
        Finset.sum_le_sum_of_subset ((Finset.erase_subset _ _).trans hsub)
    _ = ∑ p ∈ below, ∑ c ∈ nodes with parent c = some p, allowance c := by
        rw [Finset.sum_comm]
        exact Finset.sum_congr rfl fun p _ => (hfilter p).symm

/-- **Conservation.** A node and everything below it use no more than its allowance. -/
theorem sum_use_le (parent : ι → Option ι) {allowance : ι → Nat} (htop : top ∈ below)
    (hsub : below ⊆ nodes)
    (hparent : ∀ c ∈ below, c ≠ top → ∃ p ∈ below, parent c = some p)
    (hspare : ∀ p ∈ below,
      use p + ∑ c ∈ nodes with parent c = some p, allowance c ≤ allowance p) :
    ∑ p ∈ below, use p ≤ allowance top := by
  have hpassed := sum_allowance_le allowance hsub hparent
  have hall := Finset.sum_le_sum hspare
  rw [Finset.sum_add_distrib] at hall
  have hsplit := Finset.add_sum_erase below allowance htop
  omega

end Forest
