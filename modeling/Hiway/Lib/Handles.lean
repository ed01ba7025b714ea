import Hiway.Lib.Slots

/-!
# Handles into a slot table

Every entry of a slot table is owned by one record of an append-only log, which names it
by a slot and by an identity that is never issued twice. A slot may be reused, but the
identity of an old record never matches the new entry.

* `index_ne`: two live records never share a slot.
* `insert`, `update`, `remove`: a record comes, changes under its name, and goes.
* `live_le`: there are not more live records than slots.
-/

/-- How entries and records are named. `live` says that a record has not given its
entry up. -/
structure Handles (β ρ : Type) where
  ident : β → Nat
  index : ρ → Nat
  id : ρ → Nat
  live : ρ → Bool

namespace Handles

open Slots

variable {β ρ : Type} (k : Handles β ρ)

/-- Each entry has its live record, each live record its entry, and `P` relates the two.
Identities below `next` have been issued. -/
structure Owns (t : List (Option β)) (next : Nat) (rs : List ρ) (P : ρ → β → Prop) : Prop where
  owned : ∀ (i : Nat) (c : β), entry t i = some c →
    ∃ (r : Nat) (sub : ρ), rs[r]? = some sub ∧ k.live sub = true ∧ k.index sub = i ∧
      k.id sub = k.ident c
  issued : ∀ (r : Nat) (sub : ρ), rs[r]? = some sub → k.id sub < next
  distinct : ∀ (r r' : Nat) (sub sub' : ρ), rs[r]? = some sub → rs[r']? = some sub' →
    k.id sub = k.id sub' → r = r'
  live : ∀ (r : Nat) (sub : ρ), rs[r]? = some sub → k.live sub = true →
    ∃ c, entry t (k.index sub) = some c ∧ k.ident c = k.id sub ∧ P sub c

/-- The only places of a list that grew at its end. -/
theorem getElem?_snoc {γ : Type} {l : List γ} {b x : γ} {r : Nat} (h : (l ++ [b])[r]? = some x) :
    (l[r]? = some x ∧ r < l.length) ∨ (r = l.length ∧ x = b) := by
  rcases Nat.lt_trichotomy r l.length with hlt | heq | hgt
  · rw [List.getElem?_append_left hlt] at h
    exact Or.inl ⟨h, hlt⟩
  · subst heq
    simp at h
    exact Or.inr ⟨rfl, h.symm⟩
  · rw [List.getElem?_append_right hgt.le, List.getElem?_eq_none (by simp; omega)] at h
    cases h

/-- The only places of a list that changed at one place. -/
theorem getElem?_set_cases {γ : Type} {l : List γ} {b x : γ} {r r' : Nat}
    (h : (l.set r b)[r']? = some x) : (r' = r ∧ x = b) ∨ (r' ≠ r ∧ l[r']? = some x) := by
  by_cases hr : r = r'
  · subst hr
    obtain ⟨hlt, hx⟩ := List.getElem?_eq_some_iff.mp h
    rw [List.getElem_set_self] at hx
    exact Or.inl ⟨rfl, hx.symm⟩
  · rw [List.getElem?_set_ne hr] at h
    exact Or.inr ⟨Ne.symm hr, h⟩

namespace Owns

variable {k} {t : List (Option β)} {next : Nat} {rs : List ρ} {P Q : ρ → β → Prop}

theorem nil {size : Nat} : k.Owns (List.replicate size none) next [] P where
  owned := by
    intro i c hc
    have hmem := List.mem_of_getElem? (entry_eq_some.mp hc)
    cases (List.mem_replicate.mp hmem).2
  issued := by simp
  distinct := by simp
  live := by simp

theorem mono (h : k.Owns t next rs P)
    (hPQ : ∀ (r : Nat) (sub : ρ) (c : β), rs[r]? = some sub → entry t (k.index sub) = some c →
      P sub c → Q sub c) :
    k.Owns t next rs Q where
  owned := h.owned
  issued := h.issued
  distinct := h.distinct
  live := by
    intro r sub hr hl
    obtain ⟨c, hc, hid, hp⟩ := h.live r sub hr hl
    exact ⟨c, hc, hid, hPQ r sub c hr hc hp⟩

/-- Two live records never share a slot. -/
theorem index_ne (h : k.Owns t next rs P) {r r' : Nat} {sub sub' : ρ}
    (hr : rs[r]? = some sub) (hr' : rs[r']? = some sub') (hl : k.live sub = true)
    (hl' : k.live sub' = true) (hne : r' ≠ r) : k.index sub' ≠ k.index sub := by
  intro heq
  obtain ⟨c, hc, hid, -⟩ := h.live r sub hr hl
  obtain ⟨c', hc', hid', -⟩ := h.live r' sub' hr' hl'
  rw [heq, hc] at hc'
  cases hc'
  exact hne (h.distinct r' r sub' sub hr' hr (hid'.symm.trans hid))

/-- The entry that a live record names. -/
theorem of_entry (h : k.Owns t next rs P) {r : Nat} {sub : ρ} {c : β}
    (hr : rs[r]? = some sub) (hl : k.live sub = true) (hc : entry t (k.index sub) = some c) :
    k.ident c = k.id sub ∧ P sub c := by
  obtain ⟨c', hc', hid, hp⟩ := h.live r sub hr hl
  rw [hc] at hc'
  cases hc'
  exact ⟨hid, hp⟩

/-- An entry's record, with what relates the two. -/
theorem owner (h : k.Owns t next rs P) {i : Nat} {c : β} (hc : entry t i = some c) :
    ∃ (r : Nat) (sub : ρ), rs[r]? = some sub ∧ k.live sub = true ∧ k.index sub = i ∧ P sub c := by
  obtain ⟨r, sub, hr, hl, hi, -⟩ := h.owned i c hc
  exact ⟨r, sub, hr, hl, hi, (h.of_entry hr hl (hi ▸ hc)).2⟩

/-- A new record takes a free slot under a new identity. -/
theorem insert (h : k.Owns t next rs P) {x : ρ} {c : β} (hi : k.index x < t.length)
    (hfree : entry t (k.index x) = none) (hid : k.id x = next) (hc : k.ident c = next)
    (hl : k.live x = true) (hp : P x c) :
    k.Owns (t.set (k.index x) (some c)) (next + 1) (rs ++ [x]) P where
  owned := by
    intro i c' hc'
    by_cases hk : k.index x = i
    · subst hk
      rw [entry_set_self hi] at hc'
      cases hc'
      exact ⟨rs.length, x, by simp, hl, rfl, hid.trans hc.symm⟩
    · rw [entry_set_of_ne hk] at hc'
      obtain ⟨r, sub, hr, hrest⟩ := h.owned i c' hc'
      have hlt := (List.getElem?_eq_some_iff.mp hr).1
      exact ⟨r, sub, by rw [List.getElem?_append_left hlt]; exact hr, hrest⟩
  issued := by
    intro r sub hr
    rcases getElem?_snoc hr with ⟨hr, -⟩ | ⟨-, rfl⟩
    · exact Nat.lt_succ_of_lt (h.issued r sub hr)
    · rw [hid]
      exact Nat.lt_succ_self next
  distinct := by
    intro r r' sub sub' hr hr' heq
    rcases getElem?_snoc hr with ⟨k₁, -⟩ | ⟨rfl, rfl⟩
    · rcases getElem?_snoc hr' with ⟨k₂, -⟩ | ⟨rfl, rfl⟩
      · exact h.distinct r r' sub sub' k₁ k₂ heq
      · have := h.issued r sub k₁
        omega
    · rcases getElem?_snoc hr' with ⟨k₂, -⟩ | ⟨rfl, rfl⟩
      · have := h.issued r' sub' k₂
        omega
      · rfl
  live := by
    intro r sub hr hlive
    rcases getElem?_snoc hr with ⟨hr, -⟩ | ⟨-, rfl⟩
    · obtain ⟨c', hc', hid', hp'⟩ := h.live r sub hr hlive
      refine ⟨c', ?_, hid', hp'⟩
      rw [entry_set_of_ne]
      · exact hc'
      · intro heq
        rw [← heq, hfree] at hc'
        cases hc'
    · exact ⟨c, entry_set_self hi, hc.trans hid.symm, hp⟩

/-- There are not more live records than slots. -/
theorem live_le (h : k.Owns t next rs P) : (rs.filter k.live).length ≤ t.length := by
  have hpair : rs.Pairwise fun a b => k.live a = true → k.live b = true → k.index a ≠ k.index b := by
    rw [List.pairwise_iff_getElem]
    intro i j hi hj hlt hl hl'
    exact h.index_ne (List.getElem?_eq_getElem hj) (List.getElem?_eq_getElem hi) hl' hl hlt.ne
  have hnodup : ((rs.filter k.live).map k.index).Nodup := by
    rw [List.Nodup, List.pairwise_map]
    refine (hpair.sublist List.filter_sublist).imp_of_mem ?_
    intro a b ha hb hab
    exact hab (List.mem_filter.mp ha).2 (List.mem_filter.mp hb).2
  have hsub : (rs.filter k.live).map k.index ⊆ List.range t.length := by
    intro i hi
    obtain ⟨sub, hsub, rfl⟩ := List.mem_map.mp hi
    obtain ⟨hmem, hl⟩ := List.mem_filter.mp hsub
    obtain ⟨r, hr⟩ := List.getElem?_of_mem hmem
    obtain ⟨c, hc, -⟩ := h.live r sub hr hl
    exact List.mem_range.mpr (lt_of_entry hc)
  have hlen := (hnodup.subperm hsub).length_le
  rwa [List.length_map, List.length_range] at hlen

/-! ## Changing one record -/

theorem issued_set (h : k.Owns t next rs P) {r : Nat} {sub sub' : ρ} (hr : rs[r]? = some sub)
    (hid : k.id sub' = k.id sub) (r₁ : Nat) (sub₁ : ρ) (h₁ : (rs.set r sub')[r₁]? = some sub₁) :
    k.id sub₁ < next := by
  rcases getElem?_set_cases h₁ with ⟨rfl, rfl⟩ | ⟨-, k₁⟩
  · rw [hid]
    exact h.issued _ _ hr
  · exact h.issued r₁ sub₁ k₁

theorem distinct_set (h : k.Owns t next rs P) {r : Nat} {sub sub' : ρ} (hr : rs[r]? = some sub)
    (hid : k.id sub' = k.id sub) (r₁ r₂ : Nat) (sub₁ sub₂ : ρ)
    (h₁ : (rs.set r sub')[r₁]? = some sub₁) (h₂ : (rs.set r sub')[r₂]? = some sub₂)
    (heq : k.id sub₁ = k.id sub₂) : r₁ = r₂ := by
  rcases getElem?_set_cases h₁ with ⟨rfl, rfl⟩ | ⟨-, k₁⟩
  · rcases getElem?_set_cases h₂ with ⟨rfl, rfl⟩ | ⟨-, k₂⟩
    · rfl
    · exact h.distinct _ r₂ sub sub₂ hr k₂ (hid.symm.trans heq)
  · rcases getElem?_set_cases h₂ with ⟨rfl, rfl⟩ | ⟨-, k₂⟩
    · exact h.distinct r₁ _ sub₁ sub k₁ hr (heq.trans hid)
    · exact h.distinct r₁ r₂ sub₁ sub₂ k₁ k₂ heq

/-- The other entries keep their records. -/
theorem owned_set (h : k.Owns t next rs P) {r : Nat} {sub sub' : ρ} (hr : rs[r]? = some sub)
    {i : Nat} {d : β} (hi : k.index sub ≠ i) (hd : entry t i = some d) :
    ∃ (r₁ : Nat) (sub₁ : ρ), (rs.set r sub')[r₁]? = some sub₁ ∧ k.live sub₁ = true ∧
      k.index sub₁ = i ∧ k.id sub₁ = k.ident d := by
  obtain ⟨r₁, sub₁, hr₁, hl₁, hi₁, hid₁⟩ := h.owned i d hd
  refine ⟨r₁, sub₁, ?_, hl₁, hi₁, hid₁⟩
  rw [List.getElem?_set_ne]
  · exact hr₁
  · rintro rfl
    rw [hr] at hr₁
    cases hr₁
    exact hi hi₁

/-- A live record and its entry change, under the same name. -/
theorem update (h : k.Owns t next rs P) {r : Nat} {sub y : ρ} {c b : β}
    (hr : rs[r]? = some sub) (hl : k.live sub = true) (hc : entry t (k.index sub) = some c)
    (hindex : k.index y = k.index sub) (hid : k.id y = k.id sub)
    (hl' : k.live y = true) (hident : k.ident b = k.ident c) (hp : P y b) :
    k.Owns (t.set (k.index sub) (some b)) next (rs.set r y) P where
  owned := by
    intro i d hd
    have hi := lt_of_entry hc
    have hlt := (List.getElem?_eq_some_iff.mp hr).1
    by_cases hk : k.index sub = i
    · subst hk
      rw [entry_set_self hi] at hd
      cases hd
      exact ⟨r, y, by simp [hlt], hl', hindex,
        hid.trans ((h.of_entry hr hl hc).1.symm.trans hident.symm)⟩
    · rw [entry_set_of_ne hk] at hd
      exact h.owned_set hr hk hd
  issued := h.issued_set hr hid
  distinct := h.distinct_set hr hid
  live := by
    intro r₁ sub₁ hr₁ hl₁
    rcases getElem?_set_cases hr₁ with ⟨rfl, rfl⟩ | ⟨hne, k₁⟩
    · refine ⟨b, ?_, hident.trans ((h.of_entry hr hl hc).1.trans hid.symm), hp⟩
      rw [hindex]
      exact entry_set_self (lt_of_entry hc)
    · obtain ⟨d, hd, hid₁, hp₁⟩ := h.live r₁ sub₁ k₁ hl₁
      refine ⟨d, ?_, hid₁, hp₁⟩
      rw [entry_set_of_ne (h.index_ne hr k₁ hl hl₁ hne).symm]
      exact hd

/-- A live record gives its entry up. -/
theorem remove (h : k.Owns t next rs P) {r : Nat} {sub sub' : ρ} (hr : rs[r]? = some sub)
    (hl : k.live sub = true) (hid : k.id sub' = k.id sub) (hl' : k.live sub' = false) :
    k.Owns (t.set (k.index sub) none) next (rs.set r sub') P where
  owned := by
    intro i d hd
    obtain ⟨c, hc, -, -⟩ := h.live r sub hr hl
    by_cases hk : k.index sub = i
    · subst hk
      rw [entry_set_self (lt_of_entry hc)] at hd
      cases hd
    · rw [entry_set_of_ne hk] at hd
      exact h.owned_set hr hk hd
  issued := h.issued_set hr hid
  distinct := h.distinct_set hr hid
  live := by
    intro r₁ sub₁ hr₁ hl₁
    rcases getElem?_set_cases hr₁ with ⟨rfl, rfl⟩ | ⟨hne, k₁⟩
    · rw [hl'] at hl₁
      cases hl₁
    · obtain ⟨d, hd, hid₁, hp₁⟩ := h.live r₁ sub₁ k₁ hl₁
      refine ⟨d, ?_, hid₁, hp₁⟩
      rw [entry_set_of_ne (h.index_ne hr k₁ hl hl₁ hne).symm]
      exact hd

end Owns

end Handles
