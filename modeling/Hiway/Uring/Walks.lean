import Hiway.Uring.Ledger

/-!
# The functions of the driver are chains of moves

While the invariant holds no function panics, and what it does is a chain of moves.

* `acts_returns`, `cancelAll_returns`, `dispatchFrom_returns`: what futures do, `cancel_all`
  and the loop of a dispatch.
* `scanAuthority_returns`, `refuse_returns`: the scan, and a refused admission.
* `consume_returns`: completions are taken from the front of their queue, and whatever
  becomes ready goes behind what was.
-/

namespace Hiway.Uring

open Exec Target Transport

namespace Shared

variable [Target] {G : Type} {links : Nat} [NeZero links] {s t : Shared G links}
  {index : Fin links}

/-- A computation that returns what moves can reach. -/
def Returns (s : Shared G links) (x : Exec (Shared G links)) : Prop :=
  ∃ t, x = .ok t ∧ s.Reaches t

theorem Returns.refl (s : Shared G links) : s.Returns (.ok s) := ⟨s, rfl, .refl⟩

theorem Returns.of_reaches (h : s.Reaches t) : s.Returns (.ok t) := ⟨t, rfl, h⟩

theorem Returns.trans {x : Exec (Shared G links)} (h : s.Reaches t) (hx : t.Returns x) :
    s.Returns x := by
  obtain ⟨u, rfl, hu⟩ := hx
  exact ⟨u, rfl, h.trans hu⟩

theorem Returns.bind {x : Exec (Shared G links)} {f : Shared G links → Exec (Shared G links)}
    (hs : s.Inv) (hx : s.Returns x) (hf : ∀ t : Shared G links, t.Inv → t.Returns (f t)) :
    s.Returns (x >>= f) := by
  obtain ⟨t, rfl, ht⟩ := hx
  exact (hf t (ht.inv hs)).trans ht

theorem Returns.steps {ι : Type} {step : Shared G links → ι → Exec (Shared G links)}
    (hstep : ∀ (t : Shared G links) i, t.Inv → t.Returns (step t i)) (hs : s.Inv) (is : List ι) :
    s.Returns (Exec.steps step s is) := by
  induction is generalizing s with
  | nil => exact .refl s
  | cons i rest ih => exact (hstep s i hs).bind hs fun t ht => ih ht

/-- Flags of a slot are set. -/
theorem Reaches.flags (index : Fin links) (f : Slot → Slot)
    (h : (s.slots index).Alike (f (s.slots index))) : s.Reaches (s.update index f) :=
  .single (.flags index f h)

theorem Reaches.queue (index : Fin links) : s.Reaches (s.queue index) := .single (.queue index)

theorem Reaches.wakeIf (index : Fin links) (flag : Bool) :
    s.Reaches (s.update index (·.wakeIf flag)) :=
  Reaches.flags index _ ⟨rfl, rfl, rfl, rfl, rfl⟩

/-- A local input is answered. -/
theorem input_reaches (hs : s.Inv) {p : Protocol} {i : Input}
    (hp : (s.slots index).protocol = some p) (hi : isLocal i = true) :
    ∃ q r, s.input index p i = .ok (q, r, s.answered index p i q) ∧ p.input i = .ok (q, r) ∧
      s.Reaches (s.answered index p i q) := by
  obtain ⟨q, r, hanswer, -⟩ := Protocol.input_safe ((hs.slot index).safe p hp) i
  exact ⟨q, r, input_of hanswer, hanswer, .single (.input hp hi (input_of hanswer))⟩

/-! ## Futures -/

theorem revoke_returns (hs : s.Inv) (index : Fin links) : s.Returns (s.revoke index) := by
  unfold revoke
  split
  · rename_i p hp
    split
    · obtain ⟨q, r, hinput, -, ht⟩ := input_reaches hs hp (i := .revoked) rfl
      rw [hinput]
      exact .of_reaches ht
    · exact .refl s
  · exact .refl s

theorem observe_returns (hs : s.Inv) (index : Fin links) (contract : Contract) (sequence : UInt64) :
    s.Returns (s.observe index contract sequence) := by
  unfold observe
  split
  · rename_i p hp
    split
    · exact .refl s
    · obtain ⟨e, he, -⟩ := Protocol.effect_spec ((hs.slot index).safe p hp) .data
      rw [he, ok_bind]
      split
      · exact .refl s
      · rename_i hprovide
        rw [not_not.mp hprovide] at he
        exact .of_reaches (.single (.observe sequence hp he))
  · exact .refl s

theorem supply_returns (hs : s.Inv) (index : Fin links) {i : Input} (hi : isLocal i = true) :
    s.Returns (s.supply index i) := by
  unfold supply
  split
  · rename_i p hp
    split
    · exact .refl s
    · obtain ⟨q, r, hinput, -, ht⟩ := input_reaches hs hp hi
      rw [hinput, ok_bind]
      cases r with
      | ok u => exact .of_reaches (ht.trans (Reaches.queue index))
      | error error => exact .of_reaches ht
  · exact .refl s

/-- `close` leaves a machine closed, if there is one. -/
theorem close_spec (hs : s.Inv) (index : Fin links) (error : Error) :
    ∃ t, s.close index error = .ok t ∧ s.Reaches t ∧ t.borrows = s.borrows ∧
      ∀ p, (t.slots index).protocol = some p → p.closed.isSome := by
  unfold close
  split
  · rename_i p hp
    have hwake := Reaches.wakeIf (s := s) index p.closed.isNone
    have hp₁ : ((s.update index (·.wakeIf p.closed.isNone)).slots index).protocol = some p := by
      rw [update_self]
      exact hp
    obtain ⟨q, r, hinput, hanswer, ht⟩ := input_reaches (hwake.inv hs) hp₁ (i := .closed error) rfl
    dsimp only
    rw [hinput, ok_bind]
    refine ⟨_, rfl, ((hwake.trans ht).trans (Reaches.flags index _ ⟨rfl, rfl, rfl, rfl, rfl⟩)).trans
      (Reaches.queue index), rfl, fun p' hp' => ?_⟩
    have hp' : some q = some p' := by
      rw [← hp', queue_slots, update_self]
      dsimp only
      rw [answered_self]
    cases hp'
    exact closed_of_closing hanswer
  · rename_i hp
    exact ⟨s, rfl, .refl, rfl, fun p hp' => by rw [hp] at hp'; cases hp'⟩

theorem dropHandle_returns (hs : s.Inv) {index : Fin links} (hb : s.borrows index = 0) :
    s.Returns (s.dropHandle index) := by
  obtain ⟨t, ht, hreaches, hborrows, hclosed⟩ := close_spec hs index .closed
  unfold dropHandle
  rw [ht, ok_bind]
  have hrelease := hreaches.tail (.release index (by rw [hborrows]; exact hb) hclosed)
  have hflags := hrelease.tail (.flags index (fun slot =>
    { slot with
      work := { slot.work with
        reclaim := slot.work.reclaim || (t.detached && slot.idle && slot.isClosed) }
      waker := none }) ⟨rfl, rfl, rfl, rfl, rfl⟩)
  rw [update_update] at hflags
  exact .of_reaches hflags

theorem act_returns (hs : s.Inv) (a : Act links) : s.Returns (s.act a) := by
  unfold act
  split
  · cases a with
    | revoked index => exact revoke_returns hs index
    | register index waker => exact .of_reaches (Reaches.flags index _ ⟨rfl, rfl, rfl, rfl, rfl⟩)
    | observed index contract sequence => exact observe_returns hs index contract sequence
    | provided index sequence length => exact supply_returns hs index rfl
    | admitted index => exact supply_returns hs index rfl
    | close index error =>
      obtain ⟨t, ht, hreaches, -⟩ := close_spec hs index error
      exact ⟨t, ht, hreaches⟩
    | drop index =>
      dsimp only
      split
      · rename_i hb
        exact dropHandle_returns hs hb
      · exact .refl s
  · exact .refl s

theorem acts_returns (hs : s.Inv) (as : List (Act links)) : s.Returns (s.acts as) :=
  .steps (fun _ a ht => act_returns ht a) hs as

/-! ## Closing and dispatching -/

theorem shut_returns (hs : s.Inv) (index : Fin links) : s.Returns (s.shut index) := by
  unfold shut
  split
  · exact .refl s
  · rename_i p hp
    have hwake := Reaches.wakeIf (s := s) index p.closed.isNone
    have hp₁ : ((s.update index (·.wakeIf p.closed.isNone)).slots index).protocol = some p := by
      rw [update_self]
      exact hp
    obtain ⟨q, r, hinput, -, ht⟩ := input_reaches (hwake.inv hs) hp₁ (i := .closed .closed) rfl
    have hflags := (hwake.trans ht).trans (Reaches.flags index
      (fun slot => { slot with contended := false }) ⟨rfl, rfl, rfl, rfl, rfl⟩)
    dsimp only
    rw [hinput, ok_bind]
    refine .of_reaches ?_
    dsimp only
    split
    · exact hflags.trans (Reaches.queue index)
    · exact hflags

theorem cancelSlot_returns (hs : s.Inv) (index : Fin links) : s.Returns (s.cancelSlot index) :=
  (shut_returns hs index).bind hs fun _ _ => .of_reaches (.single (.refresh index))

theorem cancelAll_returns (hs : s.Inv) : s.Returns s.cancelAll :=
  (Returns.steps (fun _ index ht => cancelSlot_returns ht index)
    (Move.inv hs .stop) _).trans (.single .stop)

/-- `dispatch_slot` that reclaims a closed and idle slot. -/
theorem take_reclaim {index : Fin links} {work : Work} (hempty : work.isEmpty = false)
    (hb : s.borrows index = 0) (hreclaim : work.reclaim = true)
    (hidle : (s.slots index).idle = true) (hclosed : (s.slots index).isClosed = true) :
    s.Reaches (s.take index work).2 := by
  have hflags : s.Reaches (s.update index fun slot =>
      { slot with
        work := slot.work.without work
        waker := if work.wake then none else slot.waker }) :=
    Reaches.flags index (fun slot =>
      { slot with
        work := slot.work.without work
        waker := if work.wake then none else slot.waker }) ⟨rfl, rfl, rfl, rfl, rfl⟩
  have hdrained := hflags.tail (.reclaim index (by rw [update_self]; exact hidle)
    (by rw [update_self]; exact hclosed) hb)
  rw [update_update] at hdrained
  unfold take
  simp only [hempty, hreclaim, hidle, hclosed, hb, Bool.false_eq_true, if_false, Bool.and_true,
    Bool.true_or, ne_eq, not_true_eq_false, decide_false, Bool.and_false, if_true, Bool.true_and]
  cases halive : (s.slots index).alive with
  | true =>
    simp only [Bool.not_true, Bool.false_eq_true, if_false]
    refine Eq.mp (congrArg _ ?_) hdrained
    unfold update
    simp [halive]
  | false =>
    obtain ⟨p, hp, hc⟩ := Slot.exists_of_isClosed hclosed
    have hretired := hdrained.tail (.retire index p (by rw [update_self]; exact hp) hc
      (by rw [update_self]; exact hidle) (by rw [update_self]; exact halive)
      (by rw [update_self]; rfl))
    simp only [Bool.not_false, if_true, hp]
    refine Eq.mp (congrArg _ ?_) hretired
    unfold update
    simp [halive]

theorem take_reaches (s : Shared G links) (index : Fin links) (work : Work) :
    s.Reaches (s.take index work).2 := by
  cases hempty : work.isEmpty with
  | true =>
    unfold take
    rw [hempty]
    exact .refl
  | false =>
    by_cases hheld : ((work.reclaim || work.notifyAuthority) && s.borrows index ≠ 0) = true
    · unfold take
      simp only [hempty, Bool.false_eq_true, if_false, hheld, if_true]
      exact Reaches.flags index (fun slot =>
        { slot with
          work := { slot.work with wake := slot.work.wake && !work.wake }
          waker := if work.wake then none else slot.waker }) ⟨rfl, rfl, rfl, rfl, rfl⟩
    · by_cases hreclaim : (work.reclaim && (s.slots index).idle && (s.slots index).isClosed) = true
      · simp only [Bool.and_eq_true] at hreclaim
        have hb : s.borrows index = 0 := by
          simpa [hreclaim.1.1] using hheld
        exact take_reclaim hempty hb hreclaim.1.1 hreclaim.1.2 hreclaim.2
      · have hflags := Reaches.flags (s := s) index (fun slot =>
          { slot with
            work := slot.work.without work
            waker := if work.wake then none else slot.waker }) ⟨rfl, rfl, rfl, rfl, rfl⟩
        unfold take
        simp only [hempty, Bool.false_eq_true, if_false, hheld, hreclaim]
        exact hflags

theorem dispatchSlot_returns (hs : s.Inv) (index : Fin links) (work : Work)
    (during : List (Act links)) : s.Returns (s.dispatchSlot index work during) := by
  unfold dispatchSlot
  split
  · exact .refl s
  · have htake := take_reaches s index work
    exact (acts_returns (htake.inv hs) during).trans htake

theorem dispatchFrom_returns (pending : Fin links → Work) (budget fuel : Nat) (hs : s.Inv)
    (cursor : Fin links) (dispatched : Nat) (during : List (List (Act links))) :
    ∃ cursor' dispatched' t,
      dispatchFrom pending budget fuel cursor dispatched during s = .ok (cursor', dispatched', t) ∧
        s.Reaches t := by
  induction fuel generalizing s cursor dispatched during with
  | zero => exact ⟨_, _, _, rfl, .refl⟩
  | succ fuel ih =>
    unfold dispatchFrom
    dsimp only
    split
    · exact ih hs _ _ _
    · obtain ⟨t, ht, hreaches⟩ := dispatchSlot_returns hs cursor (pending cursor) (during.headD [])
      rw [ht, ok_bind]
      split
      · exact ⟨_, _, _, rfl, hreaches⟩
      · obtain ⟨cursor', dispatched', u, hu, hu'⟩ := ih (hreaches.inv hs) _ (dispatched + 1) during.tail
        exact ⟨cursor', dispatched', u, hu, hreaches.trans hu'⟩

/-! ## Authority -/

theorem scanSlot_returns (hs : s.Inv) (index : Fin links) (replies : List (Reply links)) :
    ∃ replies' t, Driver.scanSlot index replies s = .ok (replies', t) ∧ s.Reaches t := by
  have hflags := Reaches.flags (s := s) index (fun slot => { slot with contended := false })
    ⟨rfl, rfl, rfl, rfl, rfl⟩
  unfold Driver.scanSlot
  dsimp only
  split
  · obtain ⟨t, ht, hreaches⟩ := acts_returns (hflags.inv hs) (Reply.next replies).1.before
    have hreaches := hflags.trans hreaches
    rw [ht, ok_bind]
    split
    · rename_i p hp
      split
      · obtain ⟨q, r, hinput, -, hu⟩ := input_reaches (Reaches.inv hs hreaches) hp (i := .revoked) rfl
        rw [hinput, ok_bind]
        exact ⟨_, _, rfl, ((hreaches.trans hu).trans (Reaches.wakeIf index true)).trans
          (Reaches.queue index)⟩
      · exact ⟨_, _, rfl, hreaches⟩
    · exact ⟨_, _, rfl, hreaches⟩
  · exact ⟨_, _, rfl, hflags⟩

theorem scanAuthority_returns (hs : s.Inv) (replies : List (Reply links)) :
    ∃ replies' t, Driver.scanAuthority replies s = .ok (replies', t) ∧ s.Reaches t := by
  unfold Driver.scanAuthority
  generalize List.finRange links = indices
  induction indices generalizing s replies with
  | nil => exact ⟨replies, s, rfl, .refl⟩
  | cons index rest ih =>
    obtain ⟨replies₁, t, ht, hreaches⟩ := scanSlot_returns hs index replies
    obtain ⟨replies₂, u, hu, hreaches'⟩ := ih (hreaches.inv hs) replies₁
    refine ⟨replies₂, u, ?_, hreaches.trans hreaches'⟩
    simp only [steps, ht, ok_bind, hu]

theorem refuse_returns (hs : s.Inv) (index : Fin links) (error : TopicError) :
    s.Returns (Driver.refuse s index error) := by
  unfold Driver.refuse
  split
  · exact .of_reaches (Reaches.flags index (fun slot => { slot with contended := true })
      ⟨rfl, rfl, rfl, rfl, rfl⟩)
  · split
    · exact .refl s
    · rename_i p hp
      obtain ⟨q, r, hinput, -, ht⟩ := input_reaches hs hp
        (i := if error = .revoked then .revoked else .closed (.topic error)) (by split <;> rfl)
      dsimp only
      rw [hinput, ok_bind]
      exact .of_reaches (ht.trans (Reaches.wakeIf index true))

end Shared

/-! ## Pending lanes -/

namespace Slot

variable [Target] {index : Nat} {reserved : Bool} {s : Slot} {p : Protocol} {lane : Lane}

theorem requests_returns (hp : p.Safe) (s : Slot) (lane : Lane) :
    ∃ b, s.requests p lane = .ok b ∧
      (b = true ↔ s.free lane = true ∧ ∃ e, p.effect lane = .ok (some e) ∧ e.isRequest = true) := by
  obtain ⟨e, he, -⟩ := Protocol.effect_spec hp lane
  unfold requests
  split
  · rename_i hfree
    rw [he]
    refine ⟨_, rfl, ?_⟩
    cases e with
    | none => simp [hfree]
    | some e => simp [hfree]
  · rename_i hfree
    exact ⟨false, rfl, by simp [hfree]⟩

/-- A lane that has something to submit. -/
def Wants (s : Slot) (p : Protocol) (lane : Lane) : Prop :=
  (s.operations.get lane).cancellation.isSome = true ∨
    s.free lane = true ∧ ∃ e, p.effect lane = .ok (some e) ∧ e.isRequest = true

theorem firstLane_returns (hp : p.Safe) (s : Slot) (lanes : List Lane) :
    ∃ lane, s.firstLane p lanes = .ok lane ∧
      (lane = none → ∀ l ∈ lanes, ¬s.Wants p l) ∧ ∀ l, lane = some l → l ∈ lanes ∧ s.Wants p l := by
  induction lanes with
  | nil => exact ⟨none, rfl, fun _ l hl => absurd hl List.not_mem_nil, nofun⟩
  | cons first rest ih =>
    unfold firstLane
    by_cases hcancel : (s.operations.get first).cancellation.isSome = true
    · rw [if_pos hcancel]
      refine ⟨some first, rfl, nofun, ?_⟩
      rintro _ ⟨⟩
      exact ⟨List.mem_cons_self, Or.inl hcancel⟩
    · rw [if_neg hcancel]
      obtain ⟨b, hb, hspec⟩ := requests_returns hp s first
      rw [hb, ok_bind]
      cases b with
      | true =>
        refine ⟨some first, rfl, nofun, ?_⟩
        rintro _ ⟨⟩
        exact ⟨List.mem_cons_self, Or.inr (hspec.mp rfl)⟩
      | false =>
        obtain ⟨lane, hlane, hnone, hsome⟩ := ih
        refine ⟨lane, hlane, fun hn l hl => ?_, fun l hl => ?_⟩
        · rcases List.mem_cons.mp hl with rfl | hl
          · rintro (hw | hw)
            · exact hcancel hw
            · exact absurd (hspec.mpr hw) nofun
          · exact hnone hn l hl
        · exact ⟨List.mem_cons_of_mem _ (hsome l hl).1, (hsome l hl).2⟩

/-- A pending lane is one that has something to submit. -/
theorem pendingLane_returns (h : s.Inv index reserved) :
    ∃ lane, s.pendingLane = .ok lane ∧
      (∀ l, lane = some l → ∃ p, s.protocol = some p ∧ s.Wants p l) ∧
      (lane = none → ∀ p, s.protocol = some p → ∀ l, ¬s.Wants p l) := by
  unfold pendingLane
  cases hp : s.protocol with
  | none => exact ⟨none, rfl, nofun, fun _ _ hp' => by cases hp'⟩
  | some p =>
    obtain ⟨lane, hlane, hnone, hsome⟩ := firstLane_returns (h.safe p hp) s
      ((List.range 3).map fun offset => laneAt (s.nextLane + offset))
    refine ⟨lane, hlane, fun l hl => ⟨p, rfl, (hsome l hl).2⟩, fun hn p' hp' l => ?_⟩
    cases hp'
    refine hnone hn l ?_
    have hall : ∀ n : Nat, l ∈ (List.range 3).map fun offset => laneAt (n + offset) := by
      intro n
      have hmod : n % 3 = 0 ∨ n % 3 = 1 ∨ n % 3 = 2 := by omega
      have h1 : (n + 1) % 3 = (n % 3 + 1) % 3 := by omega
      have h2 : (n + 2) % 3 = (n % 3 + 2) % 3 := by omega
      cases l <;> rcases hmod with h0 | h0 | h0 <;>
        simp [List.range_succ, laneAt, h0, h1, h2]
    exact hall s.nextLane

end Slot

/-! ## Completions -/

namespace Driver

variable {G : Type} {links bytes : Nat} {d : Driver G links} {index : Fin links} {lane : Lane}

theorem expected_mem {o : Operation} {u : UInt64} {b : Bool} (h : expected o b = {u}) :
    if b then o.cancellationState = .submitted ∧ u = cancelToken o.id
    else o.phase = .submitted ∧ u = token o.id := by
  have hu : u ∈ expected o b := by
    rw [h]
    exact Multiset.mem_singleton_self u
  cases b <;> simp only [expected] at hu <;> split at hu <;> simp_all

theorem update_slot (f : Slot → Slot) : (d.update index f).slot index = f (d.slot index) :=
  Shared.update_self

theorem update_slot_of_ne {other : Fin links} (h : other ≠ index) (f : Slot → Slot) :
    (d.update index f).slot other = d.slot other :=
  Shared.update_of_ne (s := d.shared) (f := f) h

theorem recycle_eq [NeZero links] {o : Operation} (h : (d.slot index).operations.get lane = o) :
    d.recycle index lane =
      d.withShared ((d.shared.update index (·.setOperation lane o.reclaim.2)).queue index) := by
  subst h
  rfl

variable [Target]

/-- The order in which a completion writes the fields of a slot does not matter. -/
theorem completed_eq (index : Fin links) (lane : Lane) (s : Shared G links) (p q : Protocol)
    (i : Input) (o o' : Operation) (hints : PerLane Bool → PerLane Bool) (flag : Bool) :
    ((((s.update index (·.setOperation lane o)).update index fun slot =>
      { slot with receiveHints := hints slot.receiveHints }).answered index p i q).update index
        (·.wakeIf flag)).update index (·.setOperation lane o') =
    (((s.update index fun slot =>
      { slot with receiveHints := hints slot.receiveHints }).update index
        (·.setOperation lane o')).answered index p i q).update index (·.wakeIf flag) := by
  unfold Shared.answered
  have hset : ∀ operations : PerLane Operation,
      (operations.set lane o).set lane o' = operations.set lane o' := by
    intro operations
    cases lane <;> rfl
  simp only [Shared.update, Function.update_self, Function.update_idem, Slot.setOperation,
    Slot.wakeIf, hset]

theorem completeRequest_eq {p q : Protocol} {id : OpId} {cqe : Cqe} {before after : Option Effect}
    {result : Except Error Unit} (hp : (d.slot index).protocol = some p)
    (hinput : p.input (.completed id (ioResult ((d.slot index).receiveHints.get lane) cqe.result)
      cqe.buffer) = .ok (q, result))
    (hbefore : p.effect .data = .ok before) (hafter : q.effect .data = .ok after) :
    d.completeRequest index lane id cqe = .ok
      { d.takeHint index lane cqe.result with
        shared := ((d.takeHint index lane cqe.result).shared.answered index p
          (.completed id (ioResult ((d.slot index).receiveHints.get lane) cqe.result) cqe.buffer)
            q).update index (·.wakeIf (q.closed ≠ p.closed || offers before after)) } := by
  unfold completeRequest
  rw [hp]
  dsimp only
  rw [hbefore, ok_bind, Shared.input_of hinput, ok_bind]
  dsimp only
  rw [hafter]
  rfl

variable [NeZero links]

/-- A completion is decoded to the operation that accounts for its request. -/
theorem Inv.decode (hf : Fits links bytes) (h : d.Inv) {u : UInt64}
    (hu : u ∈ d.ring.outstanding) : ∃ index lane, (slotOf u).toNat / 3 = index.val ∧
      laneAt (slotOf u).toNat = lane ∧
      (⟨slotOf u, generationOf u⟩ : OpId) = (d.operation index lane).id ∧
      if isCancel u then
        (d.operation index lane).cancellationState = .submitted ∧
          u = cancelToken (d.operation index lane).id
      else (d.operation index lane).phase = .submitted ∧
        u = token (d.operation index lane).id := by
  obtain ⟨index, lane, hslot, hexpected⟩ := h.ledger.find hu
  have hmine := expected_mem hexpected
  have hnumber := (number_toNat hf index lane).1
  have hlane : laneNumber lane ≤ 2 := by cases lane <;> decide
  refine ⟨index, lane, ?_, ?_, ?_, hmine⟩
  · rw [hslot, hnumber]
    omega
  · rw [hslot, hnumber, laneAt_number]
  · have hgeneration : generationOf u = (d.operation index lane).id.generation := by
      cases hc : isCancel u with
      | true =>
        rw [hc, if_pos rfl] at hmine
        rw [hmine.2, generationOf_cancelToken]
      | false =>
        rw [hc, if_neg nofun] at hmine
        rw [hmine.2, generationOf_token]
    rw [hslot, hgeneration, ← h.number index lane]

/-- The completion of a cancellation. -/
theorem complete_cancelled (hf : Fits links bytes) (h : d.Inv) {cqe : Cqe} {r : Ring}
    (hnext : d.ring.next = some (cqe, r)) (hc : isCancel cqe.userData = true) :
    ∃ index d', complete (d.withRing r (d.pendingCompletions - 1)) cqe = .ok d' ∧ d.Reaches d' ∧
      d'.ring = r ∧ d'.shared.ready = d.shared.ready.push index := by
  obtain ⟨index, lane, hindex, hlane, hid, hmine⟩ := h.decode hf (u := cqe.userData) (by
    rw [Ring.outstanding_next hnext]
    exact Multiset.mem_cons_self _ _)
  rw [hc, if_pos rfl] at hmine
  obtain ⟨hstate, hu⟩ := hmine
  have hlt : (slotOf cqe.userData).toNat / 3 < links := hindex ▸ index.isLt
  have hfin : (⟨(slotOf cqe.userData).toNat / 3, hlt⟩ : Fin links) = index := Fin.ext hindex
  have hmove := Move.cancelled (d := d) rfl hstate hnext hu
  refine ⟨index, _, ?_, (Relation.ReflTransGen.single hmove).tail (.shared (.queue index)), rfl, rfl⟩
  unfold complete
  dsimp only
  rw [dif_pos hlt, hfin, hlane, hid]
  unfold settle
  rw [hc, if_pos rfl, ok_bind]
  unfold recycle
  rw [update_slot, Slot.setOperation_get]
  change Except.ok (((d.withRing r (d.pendingCompletions - 1)).withShared
    (((d.shared.update index _).update index _).queue index))) = _
  rw [Shared.update_update]
  simp only [Function.comp_def, Slot.setOperation_setOperation]
  rfl

theorem takeHint_reaches (d : Driver G links) (index : Fin links) (lane : Lane) (result : Int) :
    d.Reaches (d.takeHint index lane result) :=
  (Relation.ReflTransGen.single (.shared (.flags index _ ⟨rfl, rfl, rfl, rfl, rfl⟩))).tail
    (.hint _ d.dispatchCursor)

theorem complete_request (hf : Fits links bytes) (h : d.Inv) {cqe : Cqe} {r : Ring}
    (hnext : d.ring.next = some (cqe, r)) (hc : isCancel cqe.userData = false) :
    ∃ index d', complete (d.withRing r (d.pendingCompletions - 1)) cqe = .ok d' ∧ d.Reaches d' ∧
      d'.ring = r ∧ d'.shared.ready = d.shared.ready.push index := by
  obtain ⟨index, lane, hindex, hlane, hid, hmine⟩ := h.decode hf (u := cqe.userData) (by
    rw [Ring.outstanding_next hnext]
    exact Multiset.mem_cons_self _ _)
  rw [hc, if_neg nofun] at hmine
  obtain ⟨hphase, hu⟩ := hmine
  have hlt : (slotOf cqe.userData).toNat / 3 < links := hindex ▸ index.isLt
  have hfin : (⟨(slotOf cqe.userData).toNat / 3, hlt⟩ : Fin links) = index := Fin.ext hindex
  obtain ⟨p, hp⟩ := h.protocol (by rw [hphase]; exact nofun)
  have hsafe := (h.shared.slot index).safe p hp
  let id := (d.operation index lane).id
  let input : Input := .completed id
    (ioResult ((d.slot index).receiveHints.get lane) cqe.result) cqe.buffer
  obtain ⟨q, result, hanswer, hq, -⟩ := Protocol.input_safe hsafe input
  obtain ⟨before, hbefore, -⟩ := Protocol.effect_spec hsafe .data
  obtain ⟨after, hafter, -⟩ := Protocol.effect_spec hq .data
  let rejected : Bool := cqe.result = -22 ∧ (d.slot index).receiveHints.get lane = true
  let hints : PerLane Bool → PerLane Bool := fun v => if rejected then v.set lane false else v
  let flag : Bool := q.closed ≠ p.closed || offers before after
  let o := ((d.operation index lane).completed id).2
  have hdone : ((d.operation index lane).completed id).1 = true := by
    simp [Operation.completed, hphase, id]
  have hslot : (d.takeHint index lane cqe.result).slot index =
      { d.slot index with receiveHints := hints (d.slot index).receiveHints } :=
    Shared.update_self (s := d.shared)
      (f := fun slot => { slot with receiveHints := hints slot.receiveHints })
  have hoperation : ((d.takeHint index lane cqe.result).slot index).operations.get lane =
      d.operation index lane := by
    rw [hslot]
    rfl
  have hmove := Move.complete (d := d.takeHint index lane cqe.result) (p := p) (by rw [hslot]; exact hp)
    (congrArg Operation.id hoperation) ((congrArg Operation.phase hoperation).trans hphase) hnext hu
    (Shared.input_of hanswer)
  rw [hoperation] at hmove
  have hchain := ((takeHint_reaches d index lane cqe.result).tail hmove).tail
    (.shared (.flags index (·.wakeIf flag) ⟨rfl, rfl, rfl, rfl, rfl⟩))
  refine ⟨index, _, ?_, hchain.tail (.shared (.queue index)), rfl, rfl⟩
  unfold complete
  dsimp only
  rw [dif_pos hlt, hfin, hlane, hid]
  unfold settle
  rw [hc, if_neg nofun]
  have hrequest : ((d.withRing r (d.pendingCompletions - 1)).update index
      (·.setOperation lane o)).completeRequest index lane id cqe = .ok
        { d.withRing r (d.pendingCompletions - 1) with
          shared := (((d.shared.update index (·.setOperation lane o)).update index fun slot =>
            { slot with receiveHints := hints slot.receiveHints }).answered index p input q).update
              index (·.wakeIf flag)
          receiveIoprio := if rejected then 0 else d.receiveIoprio } := by
    refine (completeRequest_eq (p := p) (q := q) (by rw [update_slot]; exact hp)
      (by rw [update_slot]; exact hanswer) hbefore hafter).trans ?_
    unfold takeHint
    rw [update_slot]
    rfl
  refine (congrArg (· >>= _) ((if_pos hdone).trans hrequest)).trans ?_
  rw [ok_bind]
  have hnow : (((((d.shared.update index (·.setOperation lane o)).update index fun slot =>
      { slot with receiveHints := hints slot.receiveHints }).answered index p input q).update
        index (·.wakeIf flag)).slots index).operations.get lane = o := by
    rw [Shared.update_self]
    change ((Shared.answered _ index p input q).slots index).operations.get lane = o
    rw [Shared.answered_self, Shared.update_self, Shared.update_self]
    exact Slot.setOperation_get _ lane o
  refine (congrArg Except.ok (recycle_eq (d := { d.withRing r (d.pendingCompletions - 1) with
    shared := _
    receiveIoprio := if rejected then 0 else d.receiveIoprio }) hnow)).trans ?_
  have hfinal := completed_eq index lane d.shared p q input o o.reclaim.2
    hints flag
  have hdriver := congrArg (fun s : Shared G links => (Except.ok
    { d.withRing r (d.pendingCompletions - 1) with
      shared := s.queue index
      receiveIoprio := if rejected then 0 else d.receiveIoprio } : Exec (Driver G links))) hfinal
  exact hdriver

/-- Completions are taken from the front of their queue, and whatever becomes ready goes
behind what was. -/
theorem consume_returns (hf : Fits links bytes) (fuel : Nat) (h : d.Inv) :
    ∃ n d', consume fuel d = .ok (n, d') ∧ d.Reaches d' ∧ n ≤ fuel ∧
      n ≤ d.ring.completions.length ∧
      d'.ring = { d.ring with completions := d.ring.completions.drop n } ∧
      d.shared.ready.contents <+: d'.shared.ready.contents := by
  induction fuel generalizing d with
  | zero => exact ⟨0, d, rfl, .refl, le_refl _, Nat.zero_le _, rfl, List.prefix_rfl⟩
  | succ fuel ih =>
    unfold consume
    cases hnext : d.ring.next with
    | none => exact ⟨0, d, rfl, .refl, Nat.zero_le _, Nat.zero_le _, rfl, List.prefix_rfl⟩
    | some next =>
      obtain ⟨cqe, r⟩ := next
      have hpending : 1 ≤ d.pendingCompletions := by
        rw [h.pending, Ring.outstanding_next hnext, Multiset.card_cons]
        exact Nat.le_add_left 1 _
      obtain ⟨index, d₁, hd₁, hreaches, hring, hready⟩ : ∃ index d',
          complete (d.withRing r (d.pendingCompletions - 1)) cqe = .ok d' ∧ d.Reaches d' ∧
            d'.ring = r ∧ d'.shared.ready = d.shared.ready.push index := by
        cases hc : isCancel cqe.userData with
        | true => exact complete_cancelled hf h hnext hc
        | false => exact complete_request hf h hnext hc
      obtain ⟨n, d₂, hd₂, hreaches', hn, hlen, hring', hready'⟩ := ih (hreaches.inv hf h)
      have hcompletions : ∃ rest, d.ring.completions = cqe :: rest ∧
          r = { d.ring with completions := rest } := by
        unfold Ring.next at hnext
        split at hnext
        · cases hnext
        · rename_i hcons
          cases hnext
          exact ⟨_, hcons, rfl⟩
      obtain ⟨rest, hcons, hr⟩ := hcompletions
      rw [hring, hr] at hlen hring'
      refine ⟨n + 1, d₂, ?_, hreaches.trans hreaches', Nat.succ_le_succ hn, ?_, ?_, ?_⟩
      · dsimp only
        rw [sub_of_le hpending, ok_bind]
        change (complete (d.withRing r (d.pendingCompletions - 1)) cqe >>= _) = _
        rw [hd₁, ok_bind, hd₂]
        rfl
      · rw [hcons]
        exact Nat.succ_le_succ hlen
      · rw [hring', hcons]
        rfl
      · rw [hready] at hready'
        refine List.IsPrefix.trans ?_ hready'
        rw [Ready.contents_push h.shared.ready]
        split
        · exact List.prefix_rfl
        · exact List.prefix_append _ _

end Driver

end Hiway.Uring
