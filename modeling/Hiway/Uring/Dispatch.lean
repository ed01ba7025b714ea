import Hiway.Uring.Deeds

/-!
# Dispatch

A call of `dispatch_with_budget` goes once around the slots, from where the last call has
stopped, and dispatches those that had work when it started until its budget is spent. A
slot with work that it does not reach is nearer to the cursor afterwards.

* `Shared.take_work`: which flags `dispatch_slot` takes out of a slot.
* `Shared.dispatchFrom_spec`: the loop dispatches what is due, and every slot that it has
  not reached is nearer to the cursor.
* `Driver.Dispatch.Valid.fair`: what one call has done.
* `Driver.Calls.reached`: with as many calls as there are slots each slot with work is
  dispatched.
* `Driver.ready_fifo_dispatch_fair`: these for all calls in a row, together with what the
  queue of ready links promises.
-/

namespace Hiway.Uring

open Exec Target Transport

variable {links : Nat}

theorem Work.isEmpty_eq_false {w : Work} :
    w.isEmpty = false ↔ w.wake = true ∨ w.reclaim = true ∨ w.notifyAuthority = true := by
  unfold Work.isEmpty
  cases w.wake <;> cases w.reclaim <;> cases w.notifyAuthority <;> simp

/-- The flags that a dispatch takes out of a slot: the wake in any case, the others unless a
callback holds the reservation. -/
def Work.taken (work : Work) (borrowed : Bool) : Work :=
  { work with
    reclaim := work.reclaim && !borrowed
    notifyAuthority := work.notifyAuthority && !borrowed }

namespace Shared

variable {G : Type}

/-- No slot loses its work. -/
def Keeps (s t : Shared G links) : Prop :=
  ∀ index, (s.slots index).work.isEmpty = false → (t.slots index).work.isEmpty = false

namespace Keeps

variable {s t u : Shared G links}

theorem refl (s : Shared G links) : s.Keeps s := fun _ h => h

theorem trans (hst : s.Keeps t) (htu : t.Keeps u) : s.Keeps u :=
  fun index h => htu index (hst index h)

/-- A change of one slot that leaves its work, or adds some. -/
theorem update {f : Slot → Slot} (index : Fin links)
    (h : (s.slots index).work.isEmpty = false → (f (s.slots index)).work.isEmpty = false) :
    s.Keeps (s.update index f) := by
  intro other hother
  unfold Shared.update
  dsimp only
  by_cases heq : other = index
  · subst heq
    rw [Function.update_self]
    exact h hother
  · rw [Function.update_of_ne heq]
    exact hother

theorem wakeIf (s : Shared G links) (index : Fin links) (flag : Bool) :
    s.Keeps (s.update index (·.wakeIf flag)) := by
  refine update index fun h => ?_
  rw [Work.isEmpty_eq_false] at h ⊢
  exact h.imp_left fun hwake => by
    unfold Slot.wakeIf
    dsimp only
    rw [hwake, Bool.true_or]

theorem contended (s : Shared G links) (index : Fin links) (flag : Bool) :
    s.Keeps (s.update index fun slot => { slot with contended := flag }) :=
  update (f := fun slot => { slot with contended := flag }) index fun h => h

theorem queue [NeZero links] (s : Shared G links) (index : Fin links) :
    s.Keeps (s.queue index) := fun _ h => h

theorem observe {index : Fin links} {contract : Contract} {sequence : UInt64}
    (h : s.observe index contract sequence = .ok t) : s.Keeps t := by
  unfold Shared.observe at h
  split at h
  · rename_i p hp
    split at h
    · cases h
      exact refl s
    · obtain ⟨effect, -, h⟩ := bind_eq_ok.mp h
      split at h
      · cases h
        exact refl s
      · cases h
        exact update (f := fun slot => { slot with protocol := some (p.observeSequence sequence) })
          index fun h => h
  · cases h
    exact refl s

variable [Target]

theorem input {p q : Protocol} {i : Input} {result : Except Error Unit} {index : Fin links}
    (h : s.input index p i = .ok (q, result, t)) : s.Keeps t := by
  unfold Shared.input at h
  obtain ⟨⟨q', result'⟩, -, h⟩ := bind_eq_ok.mp h
  cases h
  exact update (f := fun slot => { slot with protocol := some q }) index fun h => h

theorem revoke {index : Fin links} (h : s.revoke index = .ok t) : s.Keeps t := by
  unfold Shared.revoke at h
  split at h
  · split at h
    · obtain ⟨⟨q, result, u⟩, hinput, h⟩ := bind_eq_ok.mp h
      cases h
      exact input hinput
    · cases h
      exact refl s
  · cases h
    exact refl s

end Keeps

/-! ## What `dispatch_slot` takes -/

section Take

variable {G : Type} {index other : Fin links}

/-- The other slots are left alone. -/
theorem take_of_ne (s : Shared G links) {work : Work} (h : other ≠ index) :
    (s.take index work).2.slots other = s.slots other := by
  unfold take
  dsimp only
  split
  · rfl
  · split
    · exact Function.update_of_ne h _ _
    · split <;> exact Function.update_of_ne h _ _

theorem take_borrows (s : Shared G links) (index : Fin links) (work : Work) :
    (s.take index work).2.borrows = s.borrows := by
  unfold take
  dsimp only
  split
  · rfl
  · split
    · rfl
    · split <;> rfl

/-- Of the flags that are dispatched the slot is left with those that a callback holds up. -/
theorem take_work (s : Shared G links) (index : Fin links) (work : Work) :
    ((s.take index work).2.slots index).work =
      (s.slots index).work.without (work.taken (s.borrows index ≠ 0)) := by
  unfold take Work.without Work.taken
  dsimp only
  split
  · rename_i hempty
    obtain ⟨hwake, hreclaim, hnotify⟩ :
        work.wake = false ∧ work.reclaim = false ∧ work.notifyAuthority = false := by
      simpa [Work.isEmpty, and_assoc] using hempty
    simp [hwake, hreclaim, hnotify]
  · split
    · rename_i hheld
      rw [Bool.and_eq_true, decide_eq_true_eq] at hheld
      rw [update_self]
      simp [hheld.2]
    · rename_i hfree
      have hfree : s.borrows index = 0 ∨ work.reclaim = false ∧ work.notifyAuthority = false := by
        by_cases hb : s.borrows index = 0
        · exact Or.inl hb
        · exact Or.inr (by simpa [hb] using hfree)
      have hwork : ∀ flag : Bool, (flag = work.reclaim ∨ flag = work.notifyAuthority) →
          (flag && !decide (s.borrows index ≠ 0)) = flag := by
        rintro flag hflag
        rcases hfree with hb | ⟨hreclaim, hnotify⟩
        · simp [hb]
        · rcases hflag with rfl | rfl
          · rw [hreclaim, Bool.false_and]
          · rw [hnotify, Bool.false_and]
      rw [hwork _ (Or.inl rfl), hwork _ (Or.inr rfl)]
      split <;> rw [update_self]

end Take

/-- The slots that have work. -/
def waiting (pending : Fin links → Work) : Finset (Fin links) :=
  Finset.univ.filter fun index => (pending index).isEmpty = false

end Shared

namespace Driver

variable {G : Type}

/-- What happens to the driver between two calls: work may be queued, but none is taken,
and the cursor stays. -/
structure Queues (d e : Driver G links) : Prop where
  cursor : e.dispatchCursor = d.dispatchCursor
  work : d.shared.Keeps e.shared

namespace Queues

variable {d d' d'' : Driver G links}

theorem refl (d : Driver G links) : d.Queues d := ⟨rfl, .refl _⟩

theorem trans (h : d.Queues d') (h' : d'.Queues d'') : d.Queues d'' :=
  ⟨h'.cursor.trans h.cursor, h.work.trans h'.work⟩

end Queues

/-- The slots with work. -/
def waiting (d : Driver G links) : Finset (Fin links) := Shared.waiting d.shared.pendingWork

theorem Queues.waiting {d e : Driver G links} (h : d.Queues e) {index : Fin links}
    (hindex : index ∈ d.waiting) : index ∈ e.waiting :=
  Finset.mem_filter.mpr ⟨Finset.mem_univ _, h.work index (Finset.mem_filter.mp hindex).2⟩

end Driver

/-! ## The cursor -/

/-- How far a slot is ahead of the cursor. -/
def distance (cursor index : Fin links) : Nat :=
  if cursor ≤ index then index.val - cursor.val else index.val + links - cursor.val

theorem distance_lt (cursor index : Fin links) : distance cursor index < links := by
  have hc := cursor.isLt
  have hi := index.isLt
  unfold distance
  split <;> rename_i h <;> rw [Fin.le_def] at h <;> omega

variable [NeZero links]

/-- Every slot but the one at the cursor comes nearer. -/
theorem distance_next {cursor index : Fin links} (h : index ≠ cursor) :
    distance (Fin.ofNat links (cursor.val + 1)) index + 1 = distance cursor index := by
  have hc := cursor.isLt
  have hi := index.isLt
  have hne : index.val ≠ cursor.val := fun heq => h (Fin.ext heq)
  unfold distance
  simp only [Fin.le_def, Fin.val_ofNat]
  by_cases hlast : cursor.val + 1 = links
  · rw [hlast, Nat.mod_self]
    split <;> split <;> omega
  · rw [Nat.mod_eq_of_lt (by omega)]
    split <;> split <;> omega

namespace Shared

/-! ## One call -/

/-- `count` slots from the cursor on. -/
def around (cursor : Fin links) (count : Nat) : List (Fin links) :=
  (List.range count).map fun offset => Fin.ofNat links (cursor.val + offset)

theorem around_succ (cursor : Fin links) (count : Nat) :
    around cursor (count + 1) =
      cursor :: around (Fin.ofNat links (cursor.val + 1)) count := by
  unfold around
  rw [List.range_succ_eq_map, List.map_cons, List.map_map]
  congr 1
  · apply Fin.ext
    rw [Fin.val_ofNat, Nat.add_zero, Nat.mod_eq_of_lt cursor.isLt]
  · apply List.map_congr_left
    intro offset _
    apply Fin.ext
    simp only [Function.comp_apply, Fin.val_ofNat, Nat.mod_add_mod]
    congr 1
    omega

theorem around_nodup (cursor : Fin links) : (around cursor links).Nodup := by
  unfold around
  rw [List.nodup_map_iff_inj_on List.nodup_range]
  intro i hi j hj heq
  exact Ready.place_inj (List.mem_range.mp hi) (List.mem_range.mp hj) heq

theorem mem_around (cursor index : Fin links) : index ∈ around cursor links := by
  have hcard : (around cursor links).toFinset = Finset.univ := by
    apply Finset.eq_univ_of_card
    rw [List.toFinset_card_of_nodup (around_nodup cursor), Fintype.card_fin]
    simp [around]
  exact List.mem_toFinset.mp (hcard ▸ Finset.mem_univ index)

/-- The slots with work among them, as many as the budget allows. -/
def due (pending : Fin links → Work) (budget count : Nat) (cursor : Fin links) :
    List (Fin links) :=
  ((around cursor count).filter fun index => !(pending index).isEmpty).take budget

variable {pending : Fin links → Work} {budget count : Nat} {cursor index : Fin links}

theorem due_zero (pending : Fin links → Work) (budget : Nat) (cursor : Fin links) :
    due pending budget 0 cursor = [] := by
  unfold due around
  rw [List.range_zero, List.map_nil, List.filter_nil, List.take_nil]

theorem due_skip (h : (pending cursor).isEmpty = true) :
    due pending budget (count + 1) cursor =
      due pending budget count (Fin.ofNat links (cursor.val + 1)) := by
  unfold due
  rw [around_succ, List.filter_cons_of_neg (by simp [h])]

theorem due_cons (h : (pending cursor).isEmpty = false) :
    due pending (budget + 1) (count + 1) cursor =
      cursor :: due pending budget count (Fin.ofNat links (cursor.val + 1)) := by
  unfold due
  rw [around_succ, List.filter_cons_of_pos (by simp [h]), List.take_succ_cons]

theorem due_nodup (pending : Fin links → Work) (budget : Nat) (cursor : Fin links) :
    (due pending budget links cursor).Nodup :=
  ((around_nodup cursor).filter _).sublist (List.take_sublist _ _)

theorem pending_of_mem_due (h : index ∈ due pending budget count cursor) :
    (pending index).isEmpty = false := by
  have hfilter := List.mem_of_mem_take h
  simpa using (List.mem_filter.mp hfilter).2

theorem length_due (pending : Fin links → Work) (budget : Nat) (cursor : Fin links) :
    (due pending budget links cursor).length = min budget (waiting pending).card := by
  have hset : ((around cursor links).filter fun index => !(pending index).isEmpty).toFinset =
      waiting pending := by
    ext index
    simp [waiting, mem_around]
  have hcard := List.toFinset_card_of_nodup
    ((around_nodup cursor).filter fun index => !(pending index).isEmpty)
  rw [hset] at hcard
  unfold due
  rw [List.length_take, hcard]

variable [Target] {G : Type}

/-- `dispatch_slot` of one slot after the other, with what futures do during each. -/
def dispatchEach (pending : Fin links → Work) :
    List (Fin links) → List (List (Act links)) → Shared G links → Exec (Shared G links)
  | [], _, s => .ok s
  | index :: rest, during, s => do
    let s ← s.dispatchSlot index (pending index) (during.headD [])
    dispatchEach pending rest during.tail s

theorem dispatchEach_append (front back : List (Fin links)) (during : List (List (Act links)))
    (s : Shared G links) : dispatchEach pending (front ++ back) during s = (do
      let s ← dispatchEach pending front during s
      dispatchEach pending back (during.drop front.length) s) := by
  induction front generalizing during s with
  | nil => rfl
  | cons index rest ih =>
    rw [List.cons_append, dispatchEach, dispatchEach, bind_assoc]
    simp only [ih, List.drop_tail, List.length_cons]

/-- The loop dispatches what is due, and where it stops every slot that it has not reached
is nearer. -/
theorem dispatchFrom_spec {fuel dispatched dispatched' : Nat} {cursor' : Fin links}
    {during : List (List (Act links))} {s s' : Shared G links} (hbudget : dispatched < budget)
    (h : dispatchFrom pending budget fuel cursor dispatched during s =
      .ok (cursor', dispatched', s')) :
    dispatched' = dispatched + (due pending (budget - dispatched) fuel cursor).length ∧
      dispatchEach pending (due pending (budget - dispatched) fuel cursor) during s = .ok s' ∧
      ∀ index, (pending index).isEmpty = false → distance cursor index < fuel →
        index ∉ due pending (budget - dispatched) fuel cursor →
        distance cursor' index < distance cursor index := by
  induction fuel generalizing cursor dispatched during s with
  | zero =>
    cases h
    rw [due_zero]
    exact ⟨rfl, rfl, fun _ _ hlt => absurd hlt (Nat.not_lt_zero _)⟩
  | succ fuel ih =>
    unfold dispatchFrom at h
    dsimp only at h
    cases hempty : (pending cursor).isEmpty with
    | true =>
      rw [if_pos hempty] at h
      obtain ⟨hcount, heach, hnear⟩ := ih hbudget h
      rw [due_skip hempty]
      refine ⟨hcount, heach, fun index hindex hlt hout => ?_⟩
      have hne : index ≠ cursor := by
        rintro rfl
        rw [hempty] at hindex
        cases hindex
      have hnext := distance_next hne
      have := hnear index hindex (by omega) hout
      omega
    | false =>
      rw [if_neg (by rw [hempty]; decide)] at h
      obtain ⟨t, ht, h⟩ := bind_eq_ok.mp h
      obtain ⟨room, hroom⟩ : ∃ room, budget - dispatched = room + 1 :=
        ⟨budget - dispatched - 1, by omega⟩
      rw [hroom, due_cons hempty, List.length_cons]
      by_cases hlast : dispatched + 1 = budget
      · rw [if_pos hlast] at h
        cases h
        have hzero : room = 0 := by omega
        subst hzero
        have hdue : due pending 0 fuel (Fin.ofNat links (cursor.val + 1)) = [] := by
          unfold due
          rw [List.take_zero]
        rw [hdue]
        refine ⟨rfl, ?_, fun index _ _ hout => ?_⟩
        · unfold dispatchEach
          rw [ht]
          rfl
        · have hnext := distance_next (fun heq => hout (List.mem_singleton.mpr heq))
          omega
      · rw [if_neg hlast] at h
        obtain ⟨hcount, heach, hnear⟩ := ih (show dispatched + 1 < budget by omega) h
        have hsub : budget - (dispatched + 1) = room := by omega
        rw [hsub] at hcount heach hnear
        refine ⟨by omega, ?_, fun index hindex hlt hout => ?_⟩
        · unfold dispatchEach
          rw [ht, ok_bind]
          exact heach
        · rw [List.mem_cons, not_or] at hout
          have hnext := distance_next hout.1
          have := hnear index hindex (by omega) hout.2
          omega

/-! ## What futures do -/

namespace Keeps

variable {s t : Shared G links}

theorem supply {index : Fin links} {i : Input} (h : s.supply index i = .ok t) : s.Keeps t := by
  unfold Shared.supply at h
  split at h
  · split at h
    · cases h
      exact refl s
    · obtain ⟨⟨q, result, u⟩, hinput, h⟩ := bind_eq_ok.mp h
      have hkeeps := input hinput
      cases result with
      | ok _ =>
        cases h
        exact hkeeps.trans (queue u index)
      | error _ =>
        cases h
        exact hkeeps
  · cases h
    exact refl s

theorem close {index : Fin links} {error : Error} (h : s.close index error = .ok t) :
    s.Keeps t := by
  unfold Shared.close at h
  split at h
  · rename_i p hp
    obtain ⟨⟨q, result, u⟩, hinput, h⟩ := bind_eq_ok.mp h
    cases h
    exact ((wakeIf s index p.closed.isNone).trans (input hinput)).trans
      ((contended u index false).trans (queue _ index))
  · cases h
    exact refl s

theorem dropHandle {index : Fin links} (h : s.dropHandle index = .ok t) : s.Keeps t := by
  unfold Shared.dropHandle at h
  obtain ⟨u, hclose, h⟩ := bind_eq_ok.mp h
  cases h
  refine (close hclose).trans (update index fun h => ?_)
  rw [Work.isEmpty_eq_false] at h ⊢
  exact h.imp_right fun hrest => hrest.imp_left fun hreclaim => by rw [hreclaim, Bool.true_or]

theorem act {a : Act links} (h : s.act a = .ok t) : s.Keeps t := by
  unfold Shared.act at h
  split at h
  · cases a with
    | revoked index => exact revoke h
    | register index waker =>
      cases h
      exact update (f := fun slot => { slot with waker := some waker }) index fun h => h
    | observed index contract sequence => exact observe h
    | provided index sequence length => exact supply h
    | admitted index => exact supply h
    | close index error => exact close h
    | drop index =>
      dsimp only at h
      split at h
      · exact dropHandle h
      · cases h
        exact refl s
  · cases h
    exact refl s

/-- What futures do during a callback takes no work away. -/
theorem acts {as : List (Act links)} (h : s.acts as = .ok t) : s.Keeps t :=
  steps_preserves (P := s.Keeps) (fun _ _ _ hu hact => hu.trans (act hact)) (refl s) h

/-- Nor does the dispatch of another slot. -/
theorem dispatchSlot {index other : Fin links} {work : Work} {during : List (Act links)}
    (hne : other ≠ index) (h : s.dispatchSlot index work during = .ok t)
    (hwork : (s.slots other).work.isEmpty = false) : (t.slots other).work.isEmpty = false := by
  unfold Shared.dispatchSlot at h
  split at h
  · cases h
    exact hwork
  · refine acts h other ?_
    rw [take_of_ne s hne]
    exact hwork

/-- A slot that is not dispatched keeps its work. -/
theorem dispatchEach {pending : Fin links → Work} {indices : List (Fin links)}
    {during : List (List (Act links))} {other : Fin links} (hout : other ∉ indices)
    (h : dispatchEach pending indices during s = .ok t)
    (hwork : (s.slots other).work.isEmpty = false) : (t.slots other).work.isEmpty = false := by
  induction indices generalizing s during with
  | nil =>
    cases h
    exact hwork
  | cons index rest ih =>
    rw [List.mem_cons, not_or] at hout
    obtain ⟨u, hslot, h⟩ := bind_eq_ok.mp h
    exact ih hout.2 h (dispatchSlot hout.1 hslot hwork)

end Keeps

theorem Deed.borrows {s t : Shared G links} (h : s.Deed t) : t.borrows = s.borrows := by
  cases h <;> rfl

theorem Deeds.borrows {s t : Shared G links} (h : s.Deeds t) : t.borrows = s.borrows := by
  induction h with
  | refl => rfl
  | tail _ hdeed ih => exact hdeed.borrows.trans ih

/-- No callback begins or ends while slots are dispatched. -/
theorem dispatchEach_borrows {indices : List (Fin links)} {during : List (List (Act links))}
    {s t : Shared G links} (h : dispatchEach pending indices during s = .ok t) :
    t.borrows = s.borrows := by
  induction indices generalizing s during with
  | nil =>
    cases h
    rfl
  | cons index rest ih =>
    obtain ⟨u, hslot, h⟩ := bind_eq_ok.mp h
    refine (ih h).trans ?_
    unfold dispatchSlot at hslot
    split at hslot
    · cases hslot
      rfl
    · exact (acts_deeds hslot).borrows.trans (take_borrows s index _)

end Shared

/-! ## Sequences of calls -/

namespace Driver

variable [Target] {G : Type}

/-- The slots that a call dispatches. -/
def due (d : Driver G links) (budget : Nat) : List (Fin links) :=
  Shared.due d.shared.pendingWork budget links d.dispatchCursor

/-- One call: the driver before it, the budget, what the futures do during its callbacks,
its result and the driver after it. -/
structure Dispatch (G : Type) (links : Nat) where
  before : Driver G links
  budget : Nat
  during : List (List (Act links))
  dispatched : Nat
  after : Driver G links

/-- A call with a budget. -/
structure Dispatch.Valid (c : Dispatch G links) : Prop where
  budget : c.budget ≠ 0
  call : c.before.dispatchWithBudget c.budget c.during = .ok (c.dispatched, c.after)

/-- Calls in a row, with whatever work is queued before each. -/
def Calls : Driver G links → List (Dispatch G links) → Prop
  | _, [] => True
  | d, c :: rest => d.Queues c.before ∧ c.Valid ∧ Calls c.after rest

variable {d d' : Driver G links} {budget dispatched : Nat} {during : List (List (Act links))}

theorem dispatchWithBudget_spec (hbudget : budget ≠ 0)
    (h : d.dispatchWithBudget budget during = .ok (dispatched, d')) :
    dispatched = (d.due budget).length ∧
      Shared.dispatchEach d.shared.pendingWork (d.due budget) during d.shared = .ok d'.shared ∧
      ∀ index ∈ d.waiting, index ∉ d.due budget →
        index ∈ d'.waiting ∧
          distance d'.dispatchCursor index < distance d.dispatchCursor index := by
  unfold dispatchWithBudget at h
  rw [if_neg hbudget] at h
  obtain ⟨⟨cursor, count, shared⟩, hloop, h⟩ := bind_eq_ok.mp h
  cases h
  obtain ⟨hcount, heach, hnear⟩ := Shared.dispatchFrom_spec (Nat.pos_of_ne_zero hbudget) hloop
  rw [Nat.sub_zero] at hcount heach hnear
  refine ⟨by rw [hcount, Nat.zero_add]; rfl, heach, fun index hindex hout => ⟨?_, ?_⟩⟩
  · have hwork := (Finset.mem_filter.mp hindex).2
    exact Finset.mem_filter.mpr
      ⟨Finset.mem_univ _, Shared.Keeps.dispatchEach hout heach hwork⟩
  · exact hnear index (Finset.mem_filter.mp hindex).2 (distance_lt _ _) hout

/-- A slot with work is dispatched when the cursor has come up to it, at the latest. -/
theorem Calls.reaches {log : List (Dispatch G links)} {index : Fin links} (h : d.Calls log)
    (hindex : index ∈ d.waiting) (hlog : distance d.dispatchCursor index < log.length) :
    ∃ c ∈ log.take (distance d.dispatchCursor index + 1), index ∈ c.before.due c.budget := by
  induction log generalizing d with
  | nil => exact absurd hlog (Nat.not_lt_zero _)
  | cons c rest ih =>
    obtain ⟨hqueues, hvalid, hrest⟩ := h
    have hbefore := hqueues.waiting hindex
    by_cases hdue : index ∈ c.before.due c.budget
    · exact ⟨c, List.mem_cons_self, hdue⟩
    · obtain ⟨-, -, hnear⟩ := dispatchWithBudget_spec hvalid.budget hvalid.call
      obtain ⟨hafter, hlt⟩ := hnear index hbefore hdue
      rw [hqueues.cursor] at hlt
      rw [List.length_cons] at hlog
      obtain ⟨c', hc', hdue'⟩ := ih hrest hafter (by omega)
      refine ⟨c', ?_, hdue'⟩
      rw [List.take_succ_cons]
      exact List.mem_cons_of_mem _ (List.take_subset_take_left rest (by omega) hc')

/-- With as many calls as there are slots each slot with work is dispatched. -/
theorem Calls.reached {log : List (Dispatch G links)} (h : d.Calls log)
    (hlog : links ≤ log.length) :
    ∀ index ∈ d.waiting, ∃ c ∈ log.take links, index ∈ c.before.due c.budget := by
  intro index hindex
  have hlt := distance_lt d.dispatchCursor index
  obtain ⟨c, hc, hdue⟩ := h.reaches hindex (by omega)
  exact ⟨c, List.take_subset_take_left log (by omega) hc, hdue⟩

theorem Calls.queued {log : List (Dispatch G links)} (h : d'.Calls log) (hd : d.Queues d') :
    d.Calls log := by
  cases log with
  | nil => trivial
  | cons c rest => exact ⟨hd.trans h.1, h.2⟩

/-- What a call has done. -/
structure Dispatch.Fair (c : Dispatch G links) : Prop where
  nodup : (c.before.due c.budget).Nodup
  work : ∀ index ∈ c.before.due c.budget, index ∈ c.before.waiting
  each : Shared.dispatchEach c.before.shared.pendingWork (c.before.due c.budget) c.during
    c.before.shared = .ok c.after.shared
  /-- The flags that a slot had when the call began are taken in its turn: the wake in any
  case, the others unless a callback holds the reservation. -/
  taken : ∀ front index back, c.before.due c.budget = front ++ index :: back →
    ∃ s, Shared.dispatchEach c.before.shared.pendingWork front c.during c.before.shared = .ok s ∧
      ((s.take index (c.before.shared.pendingWork index)).2.slots index).work =
        (s.slots index).work.without ((c.before.shared.pendingWork index).taken
          (c.before.shared.borrows index ≠ 0))
  length : c.dispatched = (c.before.due c.budget).length
  count : c.dispatched = min c.budget c.before.waiting.card

theorem Dispatch.Valid.fair {c : Dispatch G links} (h : c.Valid) : c.Fair := by
  obtain ⟨hlength, heach, -⟩ := dispatchWithBudget_spec h.budget h.call
  exact {
    nodup := Shared.due_nodup _ _ _
    work := fun index hindex =>
      Finset.mem_filter.mpr ⟨Finset.mem_univ _, Shared.pending_of_mem_due hindex⟩
    each := heach
    taken := by
      intro front index back hdue
      rw [hdue, Shared.dispatchEach_append] at heach
      obtain ⟨s, hfront, -⟩ := bind_eq_ok.mp heach
      refine ⟨s, hfront, ?_⟩
      rw [Shared.take_work, Shared.dispatchEach_borrows hfront]
    length := hlength
    count := hlength.trans (Shared.length_due _ _ _) }

theorem Calls.valid {log : List (Dispatch G links)} (h : d.Calls log) : ∀ c ∈ log, c.Valid := by
  induction log generalizing d with
  | nil => exact fun _ hc => absurd hc List.not_mem_nil
  | cons c rest ih =>
    obtain ⟨-, hvalid, hrest⟩ := h
    exact List.forall_mem_cons.mpr ⟨hvalid, ih hrest⟩

/-- A call returns, whatever its budget. -/
theorem dispatchWithBudget_returns (hd : d.shared.Inv) (budget : Nat)
    (during : List (List (Act links))) :
    ∃ dispatched d', d.dispatchWithBudget budget during = .ok (dispatched, d') ∧
      d'.shared.Inv := by
  unfold dispatchWithBudget
  split
  · exact ⟨0, d, rfl, hd⟩
  · obtain ⟨cursor, dispatched, shared, hloop, hreaches⟩ :=
      Shared.dispatchFrom_returns d.shared.pendingWork budget links hd d.dispatchCursor 0 during
    rw [hloop]
    exact ⟨dispatched, _, rfl, Shared.Reaches.inv hd hreaches⟩

/-- The queue of ready links is a queue without duplicates, and dispatch goes round the
slots: no slot with work waits for more than as many calls as there are slots. -/
theorem ready_fifo_dispatch_fair :
    (∀ (calls : List (Ready.Call links)) (t : Ready.Trace links),
      Ready.Trace.run calls = .ok t →
        t.Fifo ∧
        ((∀ index, .prioritize index ∉ calls) → t.popped ++ t.ready.contents = t.inserted) ∧
        ∀ c : Ready.Call links, (c = .pop → 0 < t.ready.len) → ∃ t', t.call c = .ok t') ∧
    (∀ (d : Driver G links) (log : List (Dispatch G links)), d.Calls log →
      (∀ c ∈ log, c.Fair) ∧
      (links ≤ log.length → ∀ index ∈ d.waiting,
        ∃ c ∈ log.take links, index ∈ c.before.due c.budget)) ∧
    ∀ (d : Driver G links), d.shared.Inv → ∀ (budget : Nat) (during : List (List (Act links))),
      ∃ dispatched d', d.dispatchWithBudget budget during = .ok (dispatched, d') ∧
        d'.shared.Inv := by
  refine ⟨fun calls t hrun => ?_, fun d log hcalls => ⟨?_, hcalls.reached⟩,
    fun d hd budget during => dispatchWithBudget_returns hd budget during⟩
  · have hinv := Ready.Trace.run_inv hrun
    refine ⟨hinv.fifo, fun hcalls => Ready.Trace.run_straight hrun hcalls, fun c hc => ?_⟩
    cases c with
    | push index => exact ⟨_, rfl⟩
    | pop => exact hinv.pop (hc rfl)
    | prioritize index =>
      obtain ⟨t', ht', -⟩ := hinv.prioritize index
      exact ⟨t', ht'⟩
  · exact fun c hc => (hcalls.valid c hc).fair

end Driver

/-- Two links of which each waits to be woken. -/
def busy : Driver Unit 2 :=
  let _ : Target := .x64
  let d : Driver Unit 2 := Driver.new 8 16 (by decide)
  (d.update 0 (·.wakeIf true)).update 1 (·.wakeIf true)

/-- The two after a call that has dispatched one slot. -/
def lessBusy (index : Fin 2) (d : Driver Unit 2) : Driver Unit 2 :=
  let _ : Target := .x64
  { d with
    shared := (d.shared.take index (d.shared.slots index).work).2
    dispatchCursor := Fin.ofNat 2 (index.val + 1) }

/-- Two calls with a budget for one slot each. -/
def busyCalls : List (Driver.Dispatch Unit 2) :=
  [⟨busy, 1, [], 1, lessBusy 0 busy⟩,
    ⟨lessBusy 0 busy, 1, [], 1, lessBusy 1 (lessBusy 0 busy)⟩]

theorem ready_fifo_dispatch_fair_busy :
    (∀ t : Ready.Trace 2, Ready.Trace.run [.push 1, .push 0, .push 1, .prioritize 0] = .ok t →
      t.Fifo) ∧
    ∃ c ∈ busyCalls, (1 : Fin 2) ∈ c.before.due c.budget := by
  let _ : Target := .x64
  have h := @Driver.ready_fifo_dispatch_fair 2 ⟨by decide⟩ .x64 Unit
  have hcalls : @Driver.Calls 2 ⟨by decide⟩ .x64 Unit busy busyCalls :=
    ⟨⟨rfl, Shared.Keeps.refl _⟩, ⟨by decide, rfl⟩, ⟨rfl, Shared.Keeps.refl _⟩,
      ⟨by decide, rfl⟩, trivial⟩
  have hwaiting : (1 : Fin 2) ∈ busy.waiting := by decide
  refine ⟨fun t ht => (h.1 _ t ht).1, ?_⟩
  exact (h.2.1 busy busyCalls hcalls).2 (by decide) 1 hwaiting

end Hiway.Uring
