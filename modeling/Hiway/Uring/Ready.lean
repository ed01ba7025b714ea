import Hiway.Lib.Checked

/-!
# The queue of ready links

A ring of as many entries as there are links, and for each link whether it is queued. A
link is queued once, so the ring never runs full, and its contents are a queue without
duplicates.

* `pop_spec`, `prioritize_spec`: the first of the queue is popped, and the loop of
  `prioritize` ends after a turn of it.
* `Inv.call`, `run_inv`: every call that the queue allows keeps the invariant.
* `run_straight`: without a turn its links are in the order of insertion.
* `Inv.fifo`: what the queue promises after any calls.
-/

namespace Hiway.Uring

open Exec

/-- `Ready`. -/
structure Ready (links : Nat) where
  entries : Fin links → Fin links
  present : Fin links → Bool
  head : Nat
  len : Nat

namespace Ready

variable {links : Nat} [NeZero links]

def new : Ready links := ⟨fun _ => 0, fun _ => false, 0, 0⟩

/-- `at`: the link at an offset from the head. -/
def get (r : Ready links) (offset : Nat) : Fin links :=
  r.entries (Fin.ofNat links (r.head + offset))

def push (r : Ready links) (index : Fin links) : Ready links :=
  if r.present index then r
  else
    { r with
      entries := Function.update r.entries (Fin.ofNat links (r.head + r.len)) index
      present := Function.update r.present index true
      len := r.len + 1 }

def pop (r : Ready links) : Exec (Fin links × Ready links) := do
  let index := r.entries (Fin.ofNat links r.head)
  let len ← sub r.len 1
  return (index,
    { r with
      head := (r.head + 1) % links
      len := len
      present := Function.update r.present index false })

/-- The loop of `prioritize`, which turns the queue once at most. -/
def rotate (index : Fin links) : Nat → Ready links → Exec (Ready links)
  | 0, r => .ok r
  | fuel + 1, r =>
    if r.entries (Fin.ofNat links r.head) = index then .ok r
    else do
      let (head, r) ← r.pop
      rotate index fuel (r.push head)

def prioritize (r : Ready links) (index : Fin links) : Exec (Ready links) :=
  if r.present index then rotate index links r else .ok r

/-! ## Its contents -/

/-- The links in the order in which `pop` returns them. -/
def contents (r : Ready links) : List (Fin links) := (List.range r.len).map r.get

@[simp] theorem length_contents (r : Ready links) : r.contents.length = r.len := by
  simp [contents]

@[simp] theorem contents_new : (new : Ready links).contents = [] := rfl

/-- Each queued link is in the contents once. -/
structure Inv (r : Ready links) : Prop where
  head : r.head < links
  nodup : r.contents.Nodup
  present : ∀ index, r.present index = true ↔ index ∈ r.contents

theorem new_inv : (new : Ready links).Inv where
  head := NeZero.pos links
  nodup := List.nodup_nil
  present := by
    intro index
    rw [contents_new]
    simp [new]

variable {r : Ready links} {index : Fin links}

/-- The ring has room for every link. -/
theorem Inv.len_le (h : r.Inv) : r.len ≤ links := by
  have hcard := h.nodup.length_le_card
  simpa using hcard

theorem Inv.len_lt (h : r.Inv) (hout : index ∉ r.contents) : r.len < links := by
  have hcard := (List.nodup_cons.mpr ⟨hout, h.nodup⟩).length_le_card
  simpa using hcard

/-- Offsets below the number of links are different places of the ring. -/
theorem place_inj {head i j : Nat} (hi : i < links) (hj : j < links)
    (h : Fin.ofNat links (head + i) = Fin.ofNat links (head + j)) : i = j := by
  have hmod : i ≡ j [MOD links] := Nat.ModEq.add_left_cancel' head (congrArg Fin.val h)
  exact hmod.eq_of_lt_of_lt hi hj

theorem contents_push (h : r.Inv) (index : Fin links) :
    (r.push index).contents =
      if index ∈ r.contents then r.contents else r.contents ++ [index] := by
  unfold push
  by_cases hin : index ∈ r.contents
  · rw [if_pos ((h.present index).mpr hin), if_pos hin]
  · have hnot : ¬ r.present index = true := fun hp => hin ((h.present index).mp hp)
    have hlt := h.len_lt hin
    rw [if_neg hnot, if_neg hin]
    unfold contents
    dsimp only
    rw [List.range_succ, List.map_append]
    congr 1
    · apply List.map_congr_left
      intro k hk
      have hk := List.mem_range.mp hk
      unfold get
      dsimp only
      refine Function.update_of_ne (fun heq => ?_) _ _
      have := place_inj (hk.trans hlt) hlt heq
      omega
    · simp [get]

theorem Inv.push (h : r.Inv) (index : Fin links) : (r.push index).Inv := by
  have hcontents := contents_push h index
  refine ⟨?_, ?_, ?_⟩
  · unfold Ready.push
    split <;> exact h.head
  · rw [hcontents]
    split
    · exact h.nodup
    · rename_i hin
      exact List.nodup_append.mpr ⟨h.nodup, by simp, by
        rintro a ha b hb rfl
        exact hin (List.mem_singleton.mp hb ▸ ha)⟩
  · intro other
    rw [hcontents]
    unfold Ready.push
    split
    · rename_i hp
      rw [if_pos ((h.present index).mp hp)]
      exact h.present other
    · rename_i hp
      rw [if_neg fun hin => hp ((h.present index).mpr hin), List.mem_append, List.mem_singleton]
      dsimp only
      by_cases heq : other = index
      · subst heq
        simp
      · rw [Function.update_of_ne heq, h.present other]
        simp [heq]

/-- The first of the queue is popped. -/
theorem pop_spec (h : r.Inv) {rest : List (Fin links)} (hcontents : r.contents = index :: rest) :
    ∃ r', r.pop = .ok (index, r') ∧ r'.contents = rest ∧ r'.Inv := by
  have hlen : r.len = rest.length + 1 := by
    rw [← length_contents, hcontents, List.length_cons]
  have hfront : r.entries (Fin.ofNat links r.head) = index ∧
      (List.range rest.length).map (fun k => r.get (k + 1)) = rest := by
    unfold contents at hcontents
    rw [hlen, List.range_succ_eq_map, List.map_cons, List.map_map] at hcontents
    obtain ⟨hhead, hrest⟩ := List.cons.inj hcontents
    exact ⟨hhead, hrest⟩
  have hrest : ∀ len, ({ r with
      head := (r.head + 1) % links
      len := rest.length
      present := len } : Ready links).contents = rest := by
    intro present
    refine Eq.trans ?_ hfront.2
    unfold contents
    apply List.map_congr_left
    intro k _
    unfold get
    dsimp only
    congr 1
    apply Fin.ext
    simp only [Fin.val_ofNat, Nat.mod_add_mod]
    congr 1
    omega
  refine ⟨{ r with
    head := (r.head + 1) % links
    len := rest.length
    present := Function.update r.present index false }, ?_, hrest _, ?_⟩
  · unfold pop
    rw [hlen, hfront.1]
    rfl
  · have hnodup := h.nodup
    rw [hcontents, List.nodup_cons] at hnodup
    refine ⟨Nat.mod_lt _ (NeZero.pos links), ?_, ?_⟩
    · rw [hrest]
      exact hnodup.2
    · intro other
      rw [hrest]
      dsimp only
      by_cases heq : other = index
      · subst heq
        simp [hnodup.1]
      · rw [Function.update_of_ne heq, h.present other, hcontents, List.mem_cons]
        simp [heq]

/-- A link that is queued comes to the front, and the queue is only turned. The loop is
over by then, however often it may run. -/
theorem rotate_spec {front back : List (Fin links)} (h : r.Inv)
    (hcontents : r.contents = front ++ index :: back) :
    ∃ r', (∀ fuel, front.length < fuel → rotate index fuel r = .ok r') ∧
      r'.contents = index :: (back ++ front) ∧ r'.Inv := by
  induction front generalizing r back with
  | nil =>
    refine ⟨r, fun fuel hfuel => ?_, by simpa using hcontents, h⟩
    obtain ⟨fuel, rfl⟩ : ∃ n, fuel = n + 1 := ⟨fuel - 1, by simp at hfuel; omega⟩
    unfold contents at hcontents
    have hlen : r.len = back.length + 1 := by
      have := congrArg List.length hcontents
      simpa using this
    rw [hlen, List.range_succ_eq_map, List.map_cons, List.nil_append] at hcontents
    unfold rotate
    exact if_pos (List.cons.inj hcontents).1
  | cons first front ih =>
    rw [List.cons_append] at hcontents
    obtain ⟨r₁, hpop, hrest, hinv⟩ := pop_spec h hcontents
    have hnodup := h.nodup
    rw [hcontents, List.nodup_cons] at hnodup
    have hpush := contents_push hinv first
    rw [hrest, if_neg hnodup.1, List.append_assoc, List.cons_append] at hpush
    obtain ⟨r', hr', hcontents', hinv'⟩ := ih (hinv.push first) hpush
    refine ⟨r', fun fuel hfuel => ?_, ?_, hinv'⟩
    · obtain ⟨fuel, rfl⟩ : ∃ n, fuel = n + 1 := ⟨fuel - 1, by simp at hfuel; omega⟩
      have hne : ¬ r.entries (Fin.ofNat links r.head) = index := by
        have hfirst : r.entries (Fin.ofNat links r.head) = first := by
          unfold pop at hpop
          obtain ⟨len, -, hpop⟩ := bind_eq_ok.mp hpop
          cases hpop
          rfl
        rw [hfirst]
        rintro rfl
        exact hnodup.1 (List.mem_append_right _ List.mem_cons_self)
      unfold rotate
      rw [if_neg hne, hpop]
      exact hr' fuel (Nat.lt_of_succ_lt_succ hfuel)
    · rw [hcontents', List.append_assoc, List.singleton_append]

/-- The loop of `prioritize` ends after a turn of the queue, and no further turn would
change anything. -/
theorem prioritize_spec (h : r.Inv) (index : Fin links) :
    ∃ r', r.prioritize index = .ok r' ∧ r'.Inv ∧
      r'.contents = (if index ∈ r.contents then r.contents.rotate (r.contents.idxOf index)
        else r.contents) ∧
      (index ∈ r.contents → r'.contents.head? = some index ∧
        ∀ fuel, links ≤ fuel → rotate index fuel r = .ok r') ∧
      (index ∉ r.contents → r' = r) := by
  unfold prioritize
  by_cases hin : index ∈ r.contents
  · rw [if_pos ((h.present index).mpr hin), if_pos hin]
    obtain ⟨front, back, hcontents⟩ := List.append_of_mem hin
    have hlen : front.length < links := by
      have hle := h.len_le
      rw [← length_contents, hcontents, List.length_append, List.length_cons] at hle
      omega
    have hout : index ∉ front := by
      have hnodup := h.nodup
      rw [hcontents] at hnodup
      exact fun hin => List.disjoint_of_nodup_append hnodup hin List.mem_cons_self
    obtain ⟨r', hr', hcontents', hinv'⟩ := rotate_spec h hcontents
    refine ⟨r', hr' _ hlen, hinv', ?_, fun _ => ⟨?_, fun fuel hfuel => hr' _ (by omega)⟩,
      fun hout => absurd hin hout⟩
    · have hidx : (front ++ index :: back).idxOf index = front.length := by
        rw [List.idxOf_append_of_notMem hout, List.idxOf_cons_self, Nat.add_zero]
      rw [hcontents, hidx, List.rotate_append_length_eq, hcontents', List.cons_append]
    · rw [hcontents']
      rfl
  · rw [if_neg fun hp => hin ((h.present index).mp hp), if_neg hin]
    exact ⟨r, rfl, h, rfl, fun hin' => absurd hin' hin, fun _ => rfl⟩

/-! ## Runs -/

inductive Call (links : Nat) where
  | push (index : Fin links)
  | pop
  | prioritize (index : Fin links)
  deriving DecidableEq, Repr

/-- A queue together with the links that have entered it and those that it has returned,
both in order. -/
structure Trace (links : Nat) where
  ready : Ready links
  inserted : List (Fin links)
  popped : List (Fin links)

namespace Trace

def start : Trace links := ⟨new, [], []⟩

def call (t : Trace links) : Call links → Exec (Trace links)
  | .push index => .ok
    { t with
      ready := t.ready.push index
      inserted := if t.ready.present index then t.inserted else t.inserted ++ [index] }
  | .pop => do
    let (index, ready) ← t.ready.pop
    return { t with ready := ready, popped := t.popped ++ [index] }
  | .prioritize index => do
    let ready ← t.ready.prioritize index
    return { t with ready := ready }

def run (calls : List (Call links)) : Exec (Trace links) := steps call start calls

/-- What the queue is for. -/
structure Inv (t : Trace links) : Prop where
  ready : t.ready.Inv
  /-- A link that has entered is queued or has been returned. -/
  perm : (t.popped ++ t.ready.contents).Perm t.inserted

theorem start_inv : (start : Trace links).Inv where
  ready := new_inv
  perm := .refl _

variable {t t' : Trace links} {calls : List (Call links)}

/-- The queue in the order of insertion, as long as nothing turns it. -/
def Straight (t : Trace links) : Prop := t.popped ++ t.ready.contents = t.inserted

theorem Inv.push (h : t.Inv) (index : Fin links) :
    ∃ t', t.call (.push index) = .ok t' ∧ t'.Inv ∧ (t.Straight → t'.Straight) := by
  have hcontents := contents_push h.ready index
  refine ⟨_, rfl, ⟨h.ready.push index, ?_⟩, fun hstraight => ?_⟩
  · dsimp only
    rw [hcontents]
    by_cases hin : index ∈ t.ready.contents
    · rw [if_pos hin, if_pos ((h.ready.present index).mpr hin)]
      exact h.perm
    · rw [if_neg hin, if_neg fun hp => hin ((h.ready.present index).mp hp), ← List.append_assoc]
      exact h.perm.append_right [index]
  · unfold Straight
    dsimp only
    rw [hcontents]
    by_cases hin : index ∈ t.ready.contents
    · rw [if_pos hin, if_pos ((h.ready.present index).mpr hin)]
      exact hstraight
    · rw [if_neg hin, if_neg fun hp => hin ((h.ready.present index).mp hp), ← List.append_assoc]
      exact congrArg (· ++ [index]) hstraight

/-- Nothing is popped from an empty queue. -/
theorem Inv.pop_ok (h : t.Inv) (ht : t.call .pop = .ok t') :
    ∃ index rest, t.ready.contents = index :: rest ∧ t'.Inv ∧
      t'.popped = t.popped ++ [index] ∧ t'.ready.contents = rest ∧ t'.inserted = t.inserted := by
  obtain ⟨⟨index, ready⟩, hpop, ht⟩ := bind_eq_ok.mp ht
  cases hcontents : t.ready.contents with
  | nil =>
    have hlen : t.ready.len = 0 := by rw [← length_contents, hcontents]; rfl
    unfold pop at hpop
    obtain ⟨len, hsub, -⟩ := bind_eq_ok.mp hpop
    have := (sub_eq_ok.mp hsub).1
    omega
  | cons first rest =>
    obtain ⟨ready', hpop', hrest, hinv⟩ := pop_spec h.ready hcontents
    rw [hpop'] at hpop
    cases hpop
    cases ht
    refine ⟨index, rest, rfl, ⟨hinv, ?_⟩, rfl, hrest, rfl⟩
    dsimp only
    rw [hrest, List.append_assoc, List.singleton_append, ← hcontents]
    exact h.perm

theorem Inv.pop (h : t.Inv) (hlen : 0 < t.ready.len) : ∃ t', t.call .pop = .ok t' := by
  rw [← length_contents] at hlen
  obtain ⟨index, rest, hcontents⟩ := List.exists_cons_of_length_pos hlen
  obtain ⟨ready, hpop, -, -⟩ := pop_spec h.ready hcontents
  refine ⟨⟨ready, t.inserted, t.popped ++ [index]⟩, ?_⟩
  unfold call
  dsimp only
  rw [hpop]
  rfl

theorem Inv.prioritize (h : t.Inv) (index : Fin links) :
    ∃ t', t.call (.prioritize index) = .ok t' ∧ t'.Inv := by
  obtain ⟨ready, hready, hinv, hcontents, -, -⟩ := prioritize_spec h.ready index
  refine ⟨{ t with ready := ready }, ?_, hinv, ?_⟩
  · unfold call
    dsimp only
    rw [hready]
    rfl
  · have hperm : ready.contents.Perm t.ready.contents := by
      rw [hcontents]
      split
      · exact List.rotate_perm _ _
      · exact .refl _
    exact (hperm.append_left t.popped).trans h.perm

/-- Every call that the queue allows keeps the invariant. -/
theorem Inv.call (h : t.Inv) {c : Call links} (ht : t.call c = .ok t') : t'.Inv := by
  cases c with
  | push index =>
    obtain ⟨_, hcall, hinv, -⟩ := h.push index
    exact Except.ok.inj (hcall.symm.trans ht) ▸ hinv
  | pop =>
    obtain ⟨_, _, -, hinv, -⟩ := h.pop_ok ht
    exact hinv
  | prioritize index =>
    obtain ⟨_, hcall, hinv⟩ := h.prioritize index
    exact Except.ok.inj (hcall.symm.trans ht) ▸ hinv

theorem run_inv (h : run calls = .ok t) : t.Inv :=
  steps_preserves (P := Inv) (fun _ _ _ hs hcall => hs.call hcall) start_inv h

/-- Without a turn of the queue its links are in the order of insertion. -/
theorem run_straight (h : run calls = .ok t) (hcalls : ∀ index, .prioritize index ∉ calls) :
    t.Straight := by
  suffices ∀ (calls : List (Call links)) (s : Trace links), s.Inv → s.Straight →
      steps call s calls = .ok t → (∀ index, .prioritize index ∉ calls) → t.Straight from
    this calls start start_inv rfl h hcalls
  intro calls
  induction calls with
  | nil =>
    intro s _ hs h _
    cases h
    exact hs
  | cons c rest ih =>
    intro s hinv hs h hcalls
    obtain ⟨s₁, hcall, hrest⟩ := bind_eq_ok.mp h
    refine ih s₁ (hinv.call hcall) ?_ hrest fun index hin =>
      hcalls index (List.mem_cons_of_mem _ hin)
    cases c with
    | push index =>
      obtain ⟨_, hok, -, hstraight⟩ := hinv.push index
      exact Except.ok.inj (hok.symm.trans hcall) ▸ hstraight hs
    | pop =>
      obtain ⟨index, rest, hcontents, -, hpopped, hrest, hinserted⟩ := hinv.pop_ok hcall
      unfold Straight
      rw [hpopped, hrest, hinserted, List.append_assoc, List.singleton_append, ← hcontents]
      exact hs
    | prioritize index => exact absurd List.mem_cons_self (hcalls index)

/-- What the queue promises after any calls. -/
structure Fifo (t : Trace links) : Prop where
  nodup : t.ready.contents.Nodup
  present : ∀ index, t.ready.present index = true ↔ index ∈ t.ready.contents
  len : t.ready.len = t.ready.contents.length
  bound : t.ready.len ≤ links
  perm : (t.popped ++ t.ready.contents).Perm t.inserted
  push : ∀ index, (t.ready.push index).contents =
    if index ∈ t.ready.contents then t.ready.contents else t.ready.contents ++ [index]
  pop : ∀ index rest, t.ready.contents = index :: rest →
    ∃ ready, t.ready.pop = .ok (index, ready) ∧ ready.contents = rest
  /-- The loop is over after `links` rounds: a longer run of it ends in the same queue. -/
  prioritize : ∀ index ∈ t.ready.contents, ∃ ready, t.ready.prioritize index = .ok ready ∧
    (∀ fuel, links ≤ fuel → rotate index fuel t.ready = .ok ready) ∧
    ready.contents.head? = some index ∧
    ready.contents = t.ready.contents.rotate (t.ready.contents.idxOf index) ∧
    ready.present = t.ready.present
  absent : ∀ index ∉ t.ready.contents, t.ready.prioritize index = .ok t.ready

theorem Inv.fifo (h : t.Inv) : t.Fifo where
  nodup := h.ready.nodup
  present := h.ready.present
  len := (length_contents t.ready).symm
  bound := h.ready.len_le
  perm := h.perm
  push := contents_push h.ready
  pop := by
    intro index rest hcontents
    obtain ⟨ready, hpop, hrest, -⟩ := pop_spec h.ready hcontents
    exact ⟨ready, hpop, hrest⟩
  prioritize := by
    intro index hin
    obtain ⟨ready, hready, hinv, hcontents, hfirst, -⟩ := prioritize_spec h.ready index
    obtain ⟨hhead, hfuel⟩ := hfirst hin
    rw [if_pos hin] at hcontents
    refine ⟨ready, hready, hfuel, hhead, hcontents, ?_⟩
    funext other
    have hmem : other ∈ ready.contents ↔ other ∈ t.ready.contents := by
      rw [hcontents]
      exact List.mem_rotate
    rw [Bool.eq_iff_iff, hinv.present, h.ready.present, hmem]
  absent := by
    intro index hout
    obtain ⟨ready, hready, -, -, -, hsame⟩ := prioritize_spec h.ready index
    rw [hready, hsame hout]

end Trace

end Ready

end Hiway.Uring
