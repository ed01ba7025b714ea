import Hiway.Transport.Accountability

/-!
# Bounded histories

What a ring of records retains is a window of its entries, read from the head on. A push
into a full ring writes over the head, which is the oldest record. So what has left the
ring, in the order in which it left, followed by what is retained is what was pushed.

* `push_room`, `push_full`: a push goes to the end, or takes the place of the oldest record.
* `Inv.fates`: what was popped, discarded and retained is what was pushed, in order.
* `run_history`: the same over all pushes and pops, at every capacity.
* `start_head_not_lt`: a ring without places, in which the head has no place either.
-/

namespace Hiway.Transport.Records

variable {α : Type} {cap : Nat}

/-! ## The window -/

/-- The window of the ring holds these records, the oldest first. -/
structure Holds (r : Records α cap) (records : List α) : Prop where
  len : r.len = records.length
  entry : ∀ (k : Nat) (hk : k < records.length),
    r.entries[(r.head + k) % cap]? = some (some records[k])

theorem new_holds : (new : Records α cap).Holds [] where
  len := rfl
  entry := fun _ hk => absurd hk (Nat.not_lt_zero _)

/-- Offsets below the capacity are different places of the ring. -/
theorem place_ne (head : Nat) {i j : Nat} (hi : i < cap) (hj : j < cap) (hne : i ≠ j) :
    (head + i) % cap ≠ (head + j) % cap := by
  intro heq
  have hmod : i ≡ j [MOD cap] := Nat.ModEq.add_left_cancel' head heq
  exact hne (hmod.eq_of_lt_of_lt hi hj)

/-- Offsets from the place after the head. -/
theorem place_succ (head k : Nat) : ((head + 1) % cap + k) % cap = (head + (k + 1)) % cap := by
  rw [Nat.mod_add_mod]
  congr 1
  omega

theorem filterMap_range_getElem? (records : List α) :
    (List.range records.length).filterMap (fun k => records[k]?) = records := by
  induction records with
  | nil => rfl
  | cons first rest ih =>
    rw [List.length_cons, List.range_succ_eq_map, List.filterMap_cons, List.filterMap_map]
    simp only [List.getElem?_cons_zero]
    exact congrArg (first :: ·) ih

namespace Holds

variable {r : Records α cap} {records : List α} {first record : α}

theorem retained (h : r.Holds records) : r.retained = records := by
  have hentry : (List.range records.length).filterMap
      (fun k => (r.entries[(r.head + k) % cap]?).join) =
      (List.range records.length).filterMap (fun k => records[k]?) := by
    apply List.filterMap_congr
    intro k hk
    have hk : k < records.length := List.mem_range.mp hk
    rw [h.entry k hk, Option.join_some, List.getElem?_eq_getElem hk]
  unfold Records.retained
  rw [h.len, hentry, filterMap_range_getElem?]

/-- The oldest record is at the head. -/
theorem head (h : r.Holds (first :: records)) : r.entries[r.head]? = some (some first) := by
  have hle := r.len_le
  rw [h.len, List.length_cons] at hle
  have hhead : r.head < cap := r.head_lt.resolve_left (by omega)
  have hentry := h.entry 0 (Nat.succ_pos _)
  rw [Nat.add_zero, Nat.mod_eq_of_lt hhead] at hentry
  exact hentry

/-- A push into a ring with room goes to the end. -/
theorem push_room (h : r.Holds records) (hroom : r.len < cap) (record : α) :
    (r.push record).Holds (records ++ [record]) := by
  have h0 : cap ≠ 0 := by omega
  have hl : r.len ≠ cap := by omega
  have hpush : (r.push record).head = r.head ∧ (r.push record).len = r.len + 1 ∧
      (r.push record).entries =
        r.entries.set ((r.head + r.len) % cap) (some record) (Nat.mod_lt _ (by omega)) := by
    simp [push, h0, hl]
  obtain ⟨hhead, hlen, hentries⟩ := hpush
  refine ⟨by rw [hlen, h.len, List.length_append, List.length_singleton], fun k hk => ?_⟩
  rw [hhead, hentries]
  rw [List.length_append, List.length_singleton] at hk
  by_cases heq : k = records.length
  · subst heq
    rw [h.len, Vector.getElem?_set_self, List.getElem_concat_length rfl]
  · have hk : k < records.length := by omega
    have hlen := h.len
    rw [Vector.getElem?_set_ne _ (place_ne r.head hroom (by omega) (by omega)), h.entry k hk,
      List.getElem_append_left hk]

/-- A push into a full ring takes the place of the oldest record. -/
theorem push_full (h : r.Holds (first :: records)) (hfull : r.len = cap) (record : α) :
    (r.push record).Holds (records ++ [record]) := by
  have hcap : cap = records.length + 1 := by rw [← hfull, h.len, List.length_cons]
  have h0 : cap ≠ 0 := by omega
  have hh : r.head < cap := r.head_lt.resolve_left h0
  have hpush : (r.push record).head = (r.head + 1) % cap ∧ (r.push record).len = r.len ∧
      (r.push record).entries = r.entries.set r.head (some record) := by
    simp [push, h0, hfull, addLost]
  obtain ⟨hhead, hlen, hentries⟩ := hpush
  refine ⟨by rw [hlen, h.len, List.length_append]; rfl, fun k hk => ?_⟩
  rw [hhead, hentries, place_succ]
  rw [List.length_append, List.length_singleton] at hk
  have hself : (r.head + 0) % cap = r.head := Nat.mod_eq_of_lt hh
  by_cases heq : k = records.length
  · subst heq
    have hlast : (r.head + (records.length + 1)) % cap = r.head := by
      rw [← hcap, Nat.add_mod_right, Nat.mod_eq_of_lt hh]
    rw [hlast, Vector.getElem?_set_self hh, List.getElem_concat_length rfl]
  · have hk : k < records.length := by omega
    have hne : (r.head + 0) % cap ≠ (r.head + (k + 1)) % cap :=
      place_ne r.head (by omega) (by omega) (by omega)
    rw [hself] at hne
    have hentry := h.entry (k + 1) (by simpa using hk)
    rw [Vector.getElem?_set_ne _ hne, hentry, List.getElem_cons_succ,
      List.getElem_append_left hk]

/-- The oldest record is the one that is popped. -/
theorem pop (h : r.Holds (first :: records)) :
    r.pop.1 = some first ∧ r.pop.2.Holds records ∧ r.pop.2.lost = r.lost := by
  have hlen := h.len
  rw [List.length_cons] at hlen
  have hle := r.len_le
  have hl : r.len ≠ 0 := by omega
  have hh : r.head < cap := r.head_lt.resolve_left (by omega)
  have hself : (r.head + 0) % cap = r.head := Nat.mod_eq_of_lt hh
  have hpop : r.pop.1 = r.entries[r.head] ∧ r.pop.2.head = (r.head + 1) % cap ∧
      r.pop.2.len = r.len - 1 ∧ r.pop.2.lost = r.lost ∧
      r.pop.2.entries = r.entries.set r.head none := by
    simp [Records.pop, hl]
  obtain ⟨hvalue, hhead, hlen', hlost, hentries⟩ := hpop
  have hfirst := h.head
  rw [Vector.getElem?_eq_getElem hh] at hfirst
  refine ⟨hvalue.trans (Option.some.inj hfirst), ⟨by rw [hlen']; omega, fun k hk => ?_⟩, hlost⟩
  have hne : (r.head + 0) % cap ≠ (r.head + (k + 1)) % cap :=
    place_ne r.head (by omega) (by omega) (by omega)
  rw [hself] at hne
  rw [hhead, hentries, place_succ, Vector.getElem?_set_ne _ hne,
    h.entry (k + 1) (by simpa using hk), List.getElem_cons_succ]

end Holds

/-! ## Runs -/

inductive Call (α : Type) where
  | push (record : α)
  | pop
  deriving Repr

/-- How a record has left the ring. -/
inductive Departure (α : Type) where
  | popped (record : α)
  | lost (record : α)
  deriving Repr

namespace Departure

def record : Departure α → α
  | popped record => record
  | lost record => record

def isPopped : Departure α → Bool
  | popped _ => true
  | lost _ => false

end Departure

/-- The record that a push discards: the one it writes over, or itself when there is no
place at all. -/
def discarded (r : Records α cap) (record : α) : Option α :=
  if cap = 0 then some record
  else if r.len = cap then (r.entries[r.head]?).join
  else none

/-- A ring together with what has left it so far, in order. -/
structure Trace (α : Type) (cap : Nat) where
  records : Records α cap
  departed : List (Departure α)

namespace Trace

def start : Trace α cap := ⟨Records.new, []⟩

def call (t : Trace α cap) : Call α → Trace α cap
  | .push record =>
    { records := t.records.push record
      departed := t.departed ++ ((t.records.discarded record).map Departure.lost).toList }
  | .pop =>
    { records := t.records.pop.2
      departed := t.departed ++ (t.records.pop.1.map Departure.popped).toList }

def run (calls : List (Call α)) : Trace α cap := calls.foldl call start

/-- The results of the pops that returned a record. -/
def popped (t : Trace α cap) : List α :=
  (t.departed.filter Departure.isPopped).map Departure.record

def discards (t : Trace α cap) : List α :=
  (t.departed.filter (!·.isPopped)).map Departure.record

end Trace

/-- The pushed records in order. -/
def pushes (calls : List (Call α)) : List α :=
  calls.filterMap fun
    | .push record => some record
    | .pop => none

namespace Trace

/-- Every pushed record in order, marked unless it has been discarded. -/
def fates (t : Trace α cap) : List (α × Bool) :=
  t.departed.map (fun departure => (departure.record, departure.isPopped)) ++
    t.records.retained.map fun record => (record, true)

/-- What has left and what is held is what was pushed, and the losses are counted. -/
structure Inv (t : Trace α cap) (pushed : List α) : Prop where
  history : ∃ records, t.records.Holds records ∧
    t.departed.map Departure.record ++ records = pushed
  lost : t.records.lost = min t.discards.length u64Max

theorem start_inv : (start : Trace α cap).Inv [] where
  history := ⟨[], new_holds, rfl⟩
  lost := rfl

end Trace

namespace Holds

variable {r : Records α cap} {records : List α}

/-- The record that a push discards is the first of those retained and the new one, and
the others are retained then. -/
theorem push (h : r.Holds records) (record : α) :
    ∃ records', (r.push record).Holds records' ∧
      (r.discarded record).toList ++ records' = records ++ [record] ∧
      (r.push record).lost =
        (r.discarded record).elim r.lost fun _ => min (r.lost + 1) u64Max := by
  have hlen := h.len
  have hle := r.len_le
  unfold discarded
  by_cases h0 : cap = 0
  · have hempty : records = [] := List.eq_nil_of_length_eq_zero (by omega)
    subst hempty
    rw [if_pos h0]
    have hpush : r.push record = r.addLost 1 := by simp [Records.push, h0]
    exact ⟨[], hpush ▸ ⟨h.len, h.entry⟩, rfl, by rw [hpush]; rfl⟩
  · rw [if_neg h0]
    by_cases hfull : r.len = cap
    · obtain ⟨first, rest, rfl⟩ : ∃ first rest, records = first :: rest :=
        List.exists_cons_of_length_pos (by omega)
      rw [if_pos hfull, h.head, Option.join_some]
      refine ⟨rest ++ [record], h.push_full hfull record, rfl, ?_⟩
      simp [Records.push, h0, hfull, addLost]
    · rw [if_neg hfull]
      refine ⟨records ++ [record], h.push_room (by omega) record, rfl, ?_⟩
      exact (push_of_lt (by omega) record).2

/-- Several pushes, and how many records they have cost. -/
theorem pushAll (h : r.Holds records) {lost : Nat} (hlost : r.lost = min lost u64Max)
    (pushed : List α) :
    ∃ dropped kept, (pushed.foldl Records.push r).Holds kept ∧
      dropped ++ kept = records ++ pushed ∧
      (pushed.foldl Records.push r).lost = min (lost + dropped.length) u64Max := by
  induction pushed generalizing r records lost with
  | nil => exact ⟨[], records, h, (List.append_nil records).symm, hlost⟩
  | cons record rest ih =>
    obtain ⟨records', hholds, hsplit, hlost'⟩ := h.push record
    have hcount : (r.push record).lost =
        min (lost + (r.discarded record).toList.length) u64Max := by
      rw [hlost', hlost]
      cases r.discarded record with
      | none => rfl
      | some first =>
        change min (min lost u64Max + 1) u64Max = min (lost + 1) u64Max
        omega
    obtain ⟨dropped, kept, hkept, hsplit', hlost''⟩ := ih hholds hcount
    refine ⟨(r.discarded record).toList ++ dropped, kept, hkept, ?_, ?_⟩
    · rw [List.append_assoc, hsplit', ← List.append_assoc, hsplit, List.append_assoc]
      rfl
    · rw [List.length_append, ← Nat.add_assoc]
      exact hlost''

/-- A ring discards nothing while it has room. -/
theorem discarded (h : r.Holds records) (record : α) :
    r.discarded record =
      if records.length < cap then none else (records ++ [record]).head? := by
  have hlen := h.len
  have hle := r.len_le
  unfold Records.discarded
  by_cases h0 : cap = 0
  · have hempty : records = [] := List.eq_nil_of_length_eq_zero (by omega)
    subst hempty
    rw [if_pos h0, if_neg (by omega)]
    rfl
  · rw [if_neg h0]
    by_cases hfull : r.len = cap
    · obtain ⟨first, rest, rfl⟩ : ∃ first rest, records = first :: rest :=
        List.exists_cons_of_length_pos (by omega)
      rw [if_pos hfull, if_neg (by omega), h.head, Option.join_some]
      rfl
    · rw [if_neg hfull, if_pos (by omega)]

/-- A pop returns the first of those retained. -/
theorem pop_all (h : r.Holds records) :
    r.pop.1 = records.head? ∧ r.pop.2.Holds records.tail ∧ r.pop.2.lost = r.lost := by
  cases records with
  | nil =>
    have hpop : r.pop = (none, r) := by
      have hlen : r.len = 0 := h.len
      simp [Records.pop, hlen]
    rw [hpop]
    exact ⟨rfl, h, rfl⟩
  | cons first rest => exact h.pop

end Holds

namespace Trace

variable {t : Trace α cap} {pushed : List α}

theorem Inv.push (h : t.Inv pushed) (record : α) :
    (t.call (.push record)).Inv (pushed ++ [record]) := by
  obtain ⟨records, hholds, hhistory⟩ := h.history
  obtain ⟨records', hholds', hsplit, hlost⟩ := hholds.push record
  refine ⟨⟨records', hholds', ?_⟩, ?_⟩
  · have hmap : ((t.records.discarded record).map Departure.lost).toList.map Departure.record =
        (t.records.discarded record).toList := by
      cases t.records.discarded record <;> rfl
    calc (t.call (.push record)).departed.map Departure.record ++ records'
        = t.departed.map Departure.record ++
            ((t.records.discarded record).toList ++ records') := by
          rw [call, List.map_append, hmap, List.append_assoc]
      _ = pushed ++ [record] := by rw [hsplit, ← hhistory, List.append_assoc]
  · have hlost' := hlost
    rw [h.lost] at hlost'
    refine hlost'.trans ?_
    unfold discards call
    dsimp only
    rw [List.filter_append, List.map_append, List.length_append]
    cases t.records.discarded record with
    | none => rfl
    | some discarded =>
      simp only [Option.elim, Option.map_some, Option.toList_some]
      change min (min t.discards.length u64Max + 1) u64Max = min (t.discards.length + 1) u64Max
      omega

theorem Inv.pop (h : t.Inv pushed) : (t.call .pop).Inv pushed := by
  obtain ⟨records, hholds, hhistory⟩ := h.history
  obtain ⟨hvalue, hholds', hlost⟩ := hholds.pop_all
  have hsplit : t.records.pop.1.toList ++ records.tail = records := by
    rw [hvalue]
    cases records <;> rfl
  refine ⟨⟨records.tail, hholds', ?_⟩, ?_⟩
  · have hmap : (t.records.pop.1.map Departure.popped).toList.map Departure.record =
        t.records.pop.1.toList := by
      cases t.records.pop.1 <;> rfl
    calc (t.call .pop).departed.map Departure.record ++ records.tail
        = t.departed.map Departure.record ++ (t.records.pop.1.toList ++ records.tail) := by
          rw [call, List.map_append, hmap, List.append_assoc]
      _ = pushed := by rw [hsplit, hhistory]
  · refine hlost.trans (h.lost.trans ?_)
    unfold discards call
    dsimp only
    rw [List.filter_append, List.map_append]
    cases t.records.pop.1 with
    | none => rw [Option.map_none, Option.toList_none, List.filter_nil, List.map_nil,
        List.append_nil]
    | some record =>
      change _ = min (_ ++ []).length u64Max
      rw [List.append_nil]

theorem run_inv (calls : List (Call α)) : (run calls : Trace α cap).Inv (pushes calls) := by
  induction calls using List.reverseRecOn with
  | nil => exact start_inv
  | append_singleton calls last ih =>
    have hrun : (run (calls ++ [last]) : Trace α cap) = (run calls).call last := by
      simp [run]
    rw [hrun]
    cases last with
    | push record =>
      have hpushes : pushes (calls ++ [.push record]) = pushes calls ++ [record] := by
        simp [pushes]
      rw [hpushes]
      exact ih.push record
    | pop =>
      have hpushes : pushes (calls ++ [.pop]) = pushes calls := by
        simp [pushes]
      rw [hpushes]
      exact ih.pop

/-- The marked records are the pushed ones. -/
theorem Inv.fates (h : t.Inv pushed) :
    t.fates.map Prod.fst = pushed ∧
      (t.fates.filter Prod.snd).map Prod.fst = t.popped ++ t.records.retained := by
  obtain ⟨records, hholds, hhistory⟩ := h.history
  unfold Trace.fates popped
  rw [hholds.retained]
  refine ⟨?_, ?_⟩
  · rw [List.map_append, List.map_map, List.map_map]
    exact (congrArg (_ ++ ·) (List.map_id' records)).trans hhistory
  · rw [List.filter_append, List.map_append, List.filter_map, List.map_map]
    congr 1
    rw [List.filter_map, List.map_map]
    have hall : records.filter (Prod.snd ∘ fun record => (record, true)) = records :=
      List.filter_eq_self.mpr fun _ _ => rfl
    rw [hall]
    exact List.map_id' records

/-- The popped ones, the discarded ones and the retained ones are all that were pushed. -/
theorem Inv.count (h : t.Inv pushed) :
    t.popped.length + t.discards.length + t.records.retained.length = pushed.length := by
  obtain ⟨records, hholds, hhistory⟩ := h.history
  have hsplit : t.popped.length + t.discards.length = t.departed.length := by
    unfold popped discards
    rw [List.length_map, List.length_map]
    exact (List.length_eq_length_filter_add Departure.isPopped).symm
  rw [hsplit, hholds.retained, ← hhistory, List.length_append, List.length_map]

theorem Inv.retained (h : t.Inv pushed) : t.records.retained.length = t.records.len := by
  obtain ⟨records, hholds, -⟩ := h.history
  rw [hholds.retained, hholds.len]

end Trace

/-- A ring without places has no place for its head, and a push into it discards the
pushed record though none is retained. -/
theorem start_head_not_lt :
    ¬ (Trace.start : Trace Nat 0).records.head < 0 ∧
      (Trace.start : Trace Nat 0).records.retained = [] ∧
      pushes [Call.push 7] = [7] ∧
      (Trace.run [Call.push 7] : Trace Nat 0).popped ++
        (Trace.run [Call.push 7] : Trace Nat 0).records.retained = [] ∧
      (Trace.run [Call.push 7] : Trace Nat 0).records.lost = 1 :=
  ⟨Nat.not_lt_zero _, rfl, rfl, rfl, rfl⟩

/-- What a ring of records is for, after pushes of these values. -/
structure Trace.History (t : Trace α cap) (pushed : List α) : Prop where
  order : t.fates.map Prod.fst = pushed
  kept : (t.fates.filter Prod.snd).map Prod.fst = t.popped ++ t.records.retained
  /-- A push discards the oldest record of a full ring, and itself in a ring without places. -/
  discarded : ∀ record, t.records.discarded record =
    if t.records.retained.length < cap then none
    else (t.records.retained ++ [record]).head?
  push : ∀ record, (t.records.discarded record).toList ++ (t.records.push record).retained =
    t.records.retained ++ [record]
  pop : t.records.pop.1 = t.records.retained.head? ∧
    t.records.pop.2.retained = t.records.retained.tail
  len : t.records.retained.length = t.records.len
  bound : t.records.retained.length ≤ cap
  lost : t.records.lost = min t.discards.length u64Max
  count : t.records.lost < u64Max →
    pushed.length = t.popped.length + t.records.retained.length + t.records.lost
  head : 0 < cap → t.records.head < cap
  pop_isSome : 0 < t.records.len → t.records.pop.1.isSome

theorem run_history (calls : List (Call α)) :
    (Trace.run calls : Trace α cap).History (pushes calls) := by
  have h : (Trace.run calls : Trace α cap).Inv (pushes calls) := Trace.run_inv calls
  generalize (Trace.run calls : Trace α cap) = t at h ⊢
  obtain ⟨horder, hkept⟩ := h.fates
  have hcount := h.count
  have hlen := h.retained
  have hlost := h.lost
  have hbound := t.records.len_le
  obtain ⟨records, hholds, -⟩ := h.history
  have hretained := hholds.retained
  obtain ⟨hvalue, hrest, -⟩ := hholds.pop_all
  exact {
    order := horder
    kept := hkept
    discarded := by
      intro record
      rw [hretained]
      exact hholds.discarded record
    push := by
      intro record
      obtain ⟨records', hholds', hpush, -⟩ := hholds.push record
      rw [hholds'.retained, hretained, hpush]
    pop := by
      rw [hvalue, hrest.retained, hretained]
      exact ⟨rfl, rfl⟩
    len := hlen
    bound := hlen ▸ hbound
    lost := hlost
    count := by
      intro hlt
      omega
    head := by
      intro hpos
      exact t.records.head_lt.resolve_left (by omega)
    pop_isSome := by
      intro hpos
      rw [hholds.len] at hpos
      obtain ⟨first, rest, rfl⟩ := List.exists_cons_of_length_pos hpos
      rw [hvalue]
      rfl }

end Hiway.Transport.Records
