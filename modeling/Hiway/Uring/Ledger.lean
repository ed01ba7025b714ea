import Hiway.Uring.Integrity

/-!
# The ledger of the ring

Each operation accounts for at most one original request and one cancellation, and every
request of the ring is accounted for.

* `add`, `remove`, `find`: the ledger with a request more or less, and whose request it is.
* `card_le`: there are at most two requests for each lane.
* `Move.inv`, `Reaches.inv`: the invariant of the driver outlives every move.
-/

namespace Hiway.Uring

open Exec Target Transport

/-! ## Numbers of operations -/

theorem number_toNat [Target] {links bytes : Nat} (hf : Fits links bytes) (index : Fin links)
    (lane : Lane) :
    (number index lane).toNat = index * 3 + laneNumber lane ∧ number index lane < cancelBit := by
  have hlinks := hf.links_le
  have hbit : cancelBit.toNat = 2 ^ 31 := rfl
  have hlt : index.val * 3 + laneNumber lane < 2 ^ 31 := by
    have hlane : laneNumber lane ≤ 2 := by cases lane <;> decide
    have hindex := index.isLt
    omega
  have hnumber : (number index lane).toNat = index * 3 + laneNumber lane :=
    UInt32.toNat_ofNat_of_lt' (hlt.trans (by decide))
  refine ⟨hnumber, UInt32.lt_iff_toNat_lt.mpr ?_⟩
  rw [hnumber, hbit]
  exact hlt

theorem number_inj [Target] {links bytes : Nat} (hf : Fits links bytes) {index other : Fin links}
    {lane lane' : Lane} (h : number index lane = number other lane') :
    index = other ∧ lane = lane' := by
  have hnat := congrArg UInt32.toNat h
  rw [(number_toNat hf index lane).1, (number_toNat hf other lane').1] at hnat
  have hlane : laneNumber lane ≤ 2 := by cases lane <;> decide
  have hlane' : laneNumber lane' ≤ 2 := by cases lane' <;> decide
  refine ⟨Fin.ext (by omega), ?_⟩
  rw [← laneAt_laneNumber lane, ← laneAt_laneNumber lane']
  congr 1
  omega

/-! ## Accounts -/

/-- The requests that an operation accounts for: originals, or cancellations. -/
def expected (o : Operation) : Bool → Multiset UInt64
  | false => if o.phase = .submitted then {token o.id} else 0
  | true => if o.cancellationState = .submitted then {cancelToken o.id} else 0

section

variable {o : Operation}

theorem expected_submitted (h : o.phase = .submitted) : expected o false = {token o.id} := if_pos h

theorem expected_unsubmitted (h : o.phase ≠ .submitted) : expected o false = 0 := if_neg h

theorem expected_cancelling (h : o.cancellationState = .submitted) :
    expected o true = {cancelToken o.id} := if_pos h

theorem expected_uncancelled (h : o.cancellationState ≠ .submitted) : expected o true = 0 :=
  if_neg h

/-- The operation accounts for an original request no longer, and for its cancellation as
before. -/
theorem expected_finish (hphase : o.phase = .submitted) :
    expected (o.completed o.id).2.reclaim.2 false = 0 ∧
      expected (o.completed o.id).2.reclaim.2 true = expected o true := by
  rw [Operation.finish_eq hphase]
  split
  · rename_i hstate
    refine ⟨expected_unsubmitted nofun, ?_⟩
    rw [expected_cancelling hstate]
    exact expected_cancelling hstate
  · rename_i hstate
    refine ⟨expected_unsubmitted nofun, ?_⟩
    rw [expected_uncancelled hstate]
    exact expected_uncancelled nofun

theorem expected_finishCancel (hsettled : o.Settled)
    (hstate : o.cancellationState = .submitted) :
    expected (o.cancelCompleted o.id).2.reclaim.2 true = 0 ∧
      expected (o.cancelCompleted o.id).2.reclaim.2 false = expected o false := by
  rw [Operation.finishCancel_eq hsettled hstate]
  split
  · rename_i hphase
    refine ⟨expected_uncancelled nofun, ?_⟩
    rw [expected_unsubmitted (o := o) (by rw [hphase]; exact nofun)]
    exact expected_unsubmitted nofun
  · exact ⟨expected_uncancelled nofun, rfl⟩

end

theorem expected_eq {o o' : Operation} (hid : o'.id = o.id)
    (hphase : o'.phase = .submitted ↔ o.phase = .submitted)
    (hstate : o'.cancellationState = .submitted ↔ o.cancellationState = .submitted) (b : Bool) :
    expected o' b = expected o b := by
  cases b <;> simp only [expected, hid, hphase, hstate]

/-- The requests of one operation among those of the ring. -/
def requestsOf (m : Multiset UInt64) (cancelling : Bool) (slot : UInt32) : Multiset UInt64 :=
  m.filter fun u => isCancel u = cancelling ∧ slotOf u = slot

theorem requestsOf_cons (u : UInt64) (m : Multiset UInt64) (b : Bool) (slot : UInt32) :
    requestsOf (u ::ₘ m) b slot =
      if isCancel u = b ∧ slotOf u = slot then u ::ₘ requestsOf m b slot else requestsOf m b slot := by
  unfold requestsOf
  split
  · rename_i h
    exact Multiset.filter_cons_of_pos m h
  · rename_i h
    exact Multiset.filter_cons_of_neg m h

/-- Every request belongs to an operation, which accounts for exactly its own. -/
structure Ledger {links : Nat} (m : Multiset UInt64) (ops : Fin links → Lane → Operation) :
    Prop where
  owned : ∀ u ∈ m, ∃ index : Fin links, ∃ lane, slotOf u = number index lane
  exact : ∀ cancelling (index : Fin links) lane, requestsOf m cancelling (number index lane) =
    expected (ops index lane) cancelling

namespace Ledger

variable {links : Nat} {m : Multiset UInt64} {ops ops' : Fin links → Lane → Operation}
  {u : UInt64} {index : Fin links} {lane : Lane}

theorem congr (h : Ledger m ops)
    (hops : ∀ (index : Fin links) lane b, expected (ops' index lane) b = expected (ops index lane) b) :
    Ledger m ops' :=
  ⟨h.owned, fun b index lane => (h.exact b index lane).trans (hops index lane b).symm⟩

theorem mem_expected {o : Operation} {b : Bool} (hu : u ∈ expected o b) : expected o b = {u} := by
  cases b <;> simp only [expected] at hu ⊢ <;> split at hu
  · rename_i h
    rw [if_pos h, Multiset.mem_singleton.mp hu]
  · simp at hu
  · rename_i h
    rw [if_pos h, Multiset.mem_singleton.mp hu]
  · simp at hu

/-- Whose request it is, and that its operation accounts for it. -/
theorem find (h : Ledger m ops) (hu : u ∈ m) :
    ∃ (index : Fin links) (lane : Lane), slotOf u = number index lane ∧
    expected (ops index lane) (isCancel u) = {u} := by
  obtain ⟨index, lane, hslot⟩ := h.owned u hu
  refine ⟨index, lane, hslot, mem_expected ?_⟩
  rw [← h.exact]
  exact Multiset.mem_filter.mpr ⟨hu, rfl, hslot⟩

theorem expected_card (o : Operation) (b : Bool) : (expected o b).card ≤ 1 := by
  cases b <;> simp only [expected] <;> split <;> simp

/-- There are at most two requests for each lane. -/
theorem card_le (h : Ledger m ops) : m.card ≤ links * 6 := by
  let key : UInt64 → UInt32 × Bool := fun u => (slotOf u, isCancel u)
  have hnodup : (m.map key).Nodup := by
    rw [Multiset.nodup_iff_count_le_one]
    rintro ⟨slot, b⟩
    by_cases hin : (slot, b) ∈ m.map key
    · obtain ⟨u, hu, hkey⟩ := Multiset.mem_map.mp hin
      obtain rfl : slotOf u = slot := congrArg Prod.fst hkey
      obtain ⟨index, lane, hslot⟩ := h.owned u hu
      have hfilter : m.filter (fun v => (slotOf u, b) = key v) = requestsOf m b (number index lane) := by
        unfold requestsOf
        apply Multiset.filter_congr
        intro v _
        rw [← hslot]
        simp only [key, Prod.mk.injEq]
        constructor <;> exact fun ⟨h₁, h₂⟩ => ⟨h₂.symm, h₁.symm⟩
      rw [Multiset.count_map, hfilter, h.exact]
      exact expected_card _ _
    · rw [Multiset.count_eq_zero_of_notMem hin]
      exact Nat.zero_le 1
  let all : Finset (UInt32 × Bool) := (Finset.univ : Finset (Fin links × Fin 3 × Bool)).image
    fun k => (number k.1 (laneAt k.2.1), k.2.2)
  have hsub : (m.map key).toFinset ⊆ all := by
    intro k hk
    obtain ⟨u, hu, rfl⟩ := Multiset.mem_map.mp (Multiset.mem_toFinset.mp hk)
    obtain ⟨index, lane, hslot⟩ := h.owned u hu
    have hlane : laneNumber lane < 3 := by cases lane <;> decide
    refine Finset.mem_image.mpr ⟨(index, ⟨laneNumber lane, hlane⟩, isCancel u), Finset.mem_univ _, ?_⟩
    simp only [laneAt_laneNumber, key, hslot]
  have hcard : m.card = (m.map key).toFinset.card := by
    rw [Multiset.toFinset_card_of_nodup hnodup, Multiset.card_map]
  have hall : all.card ≤ links * 6 := by
    refine Finset.card_image_le.trans ?_
    simp
  exact hcard.le.trans ((Finset.card_le_card hsub).trans hall)

variable [Target] {bytes : Nat}

/-- One operation accounts for one request more. -/
theorem add (hf : Fits links bytes) (h : Ledger m ops) (hslot : slotOf u = number index.val lane)
    (hbefore : expected (ops index lane) (isCancel u) = 0)
    (hafter : expected (ops' index lane) (isCancel u) = {u})
    (hother : ∀ b, b ≠ isCancel u →
      expected (ops' index lane) b = expected (ops index lane) b)
    (hsame : ∀ i l, ¬(i = index ∧ l = lane) → ops' i l = ops i l) : Ledger (u ::ₘ m) ops' := by
  refine ⟨fun v hv => ?_, fun b i l => ?_⟩
  · rcases Multiset.mem_cons.mp hv with rfl | hv
    · exact ⟨index, lane, hslot⟩
    · exact h.owned v hv
  · rw [requestsOf_cons]
    by_cases hmine : isCancel u = b ∧ slotOf u = number i l
    · rw [if_pos hmine]
      obtain ⟨rfl, hslot'⟩ := hmine
      obtain ⟨rfl, rfl⟩ := number_inj hf (hslot.symm.trans hslot')
      rw [h.exact, hbefore, hafter]
      rfl
    · rw [if_neg hmine]
      refine (h.exact b i l).trans ?_
      by_cases hhere : i = index ∧ l = lane
      · obtain ⟨rfl, rfl⟩ := hhere
        exact (hother b fun hb => hmine ⟨hb.symm, hslot⟩).symm
      · rw [hsame i l hhere]

/-- One operation accounts for one request less. -/
theorem remove (hf : Fits links bytes) (h : Ledger (u ::ₘ m) ops)
    (hslot : slotOf u = number index.val lane)
    (hafter : expected (ops' index lane) (isCancel u) = 0)
    (hother : ∀ b, b ≠ isCancel u →
      expected (ops' index lane) b = expected (ops index lane) b)
    (hsame : ∀ i l, ¬(i = index ∧ l = lane) → ops' i l = ops i l) : Ledger m ops' := by
  refine ⟨fun v hv => h.owned v (Multiset.mem_cons_of_mem hv), fun b i l => ?_⟩
  have hexact := h.exact b i l
  rw [requestsOf_cons] at hexact
  by_cases hmine : isCancel u = b ∧ slotOf u = number i l
  · rw [if_pos hmine] at hexact
    obtain ⟨rfl, hslot'⟩ := hmine
    obtain ⟨rfl, rfl⟩ := number_inj hf (hslot.symm.trans hslot')
    have hsingle := mem_expected (u := u) (o := ops index lane) (b := isCancel u) (by
      rw [← hexact]
      exact Multiset.mem_cons_self _ _)
    rw [hsingle] at hexact
    rw [hafter]
    exact (Multiset.cons_inj_right u).mp hexact
  · rw [if_neg hmine] at hexact
    rw [hexact]
    by_cases hhere : i = index ∧ l = lane
    · obtain ⟨rfl, rfl⟩ := hhere
      exact (hother b fun hb => hmine ⟨hb.symm, hslot⟩).symm
    · rw [hsame i l hhere]

end Ledger

end Hiway.Uring

namespace Hiway.Uring

open Exec Target Transport

/-! ## The requests of a ring -/

namespace Ring

variable {r r' : Ring}

theorem outstanding_push {entry : Entry} (h : r.push entry = some r') :
    r'.outstanding = entry.userData ::ₘ r.outstanding := by
  unfold push at h
  split at h
  · cases h
    unfold outstanding
    rw [enqueue_queue, enqueue_kernel, enqueue_completions, List.map_append, ← Multiset.coe_add,
      List.map_singleton]
    rw [← Multiset.singleton_add, ← Multiset.coe_singleton]
    ac_rfl
  · cases h

theorem outstanding_next {cqe : Cqe} (h : r.next = some (cqe, r')) :
    r.outstanding = cqe.userData ::ₘ r'.outstanding := by
  unfold next at h
  split at h
  · cases h
  · rename_i hcompletions
    cases h
    unfold outstanding
    rw [hcompletions, List.map_cons, ← Multiset.cons_coe, Multiset.add_cons]

@[simp] theorem outstanding_submit (r : Ring) (taken : Option Nat) :
    (r.submit taken).outstanding = r.outstanding := by
  cases taken with
  | none => rfl
  | some taken =>
    have hsplit : (↑(r.queue.map Entry.userData) : Multiset UInt64) =
        ↑((r.queue.take taken).map Entry.userData) + ↑((r.queue.drop taken).map Entry.userData) := by
      rw [Multiset.coe_add, ← List.map_append, List.take_append_drop]
    unfold outstanding submit
    dsimp only
    rw [hsplit, List.map_append, ← Multiset.coe_add]
    ac_rfl

@[simp] theorem outstanding_post (r : Ring) (index : Nat) (result : Int) (buffer : List UInt8) :
    (r.post index result buffer).outstanding = r.outstanding := by
  unfold post
  split
  · rfl
  · rename_i entry hentry
    obtain ⟨hlt, hget⟩ := List.getElem?_eq_some_iff.mp hentry
    have hsplit : (↑(r.kernel.map Entry.userData) : Multiset UInt64) =
        entry.userData ::ₘ ↑((r.kernel.eraseIdx index).map Entry.userData) := by
      rw [Multiset.cons_coe, ← List.map_cons, Multiset.coe_eq_coe]
      apply List.Perm.map
      rw [← hget]
      exact (List.getElem_cons_eraseIdx_perm hlt).symm
    unfold outstanding
    dsimp only
    rw [hsplit, List.map_append, ← Multiset.coe_add, List.map_singleton,
      ← Multiset.singleton_add, ← Multiset.coe_singleton]
    ac_rfl

end Ring

/-! ## The driver -/

/-- No move of the shared state changes what an operation accounts for. -/
theorem Shared.Move.expected [Target] {G : Type} {links : Nat} [NeZero links]
    {s s' : Shared G links} (h : s.Inv) (hmove : s.Move s') (index : Fin links) (lane : Lane)
    (b : Bool) : expected ((s'.slots index).operations.get lane) b =
      Uring.expected ((s.slots index).operations.get lane) b := by
  have hupdate : ∀ (other : Fin links) (f : Slot → Slot),
      ((f (s.slots other)).operations.get lane).id = ((s.slots other).operations.get lane).id →
      (((f (s.slots other)).operations.get lane).phase = .submitted ↔
        ((s.slots other).operations.get lane).phase = .submitted) →
      (((f (s.slots other)).operations.get lane).cancellationState = .submitted ↔
        ((s.slots other).operations.get lane).cancellationState = .submitted) →
      Uring.expected (((s.update other f).slots index).operations.get lane) b =
        Uring.expected ((s.slots index).operations.get lane) b := by
    intro other f hid hphase hstate
    by_cases heq : index = other
    · subst heq
      rw [update_self]
      exact expected_eq hid hphase hstate b
    · rw [update_of_ne heq]
  have hsame : ∀ (other : Fin links) (f : Slot → Slot),
      (f (s.slots other)).operations = (s.slots other).operations →
      Uring.expected (((s.update other f).slots index).operations.get lane) b =
        Uring.expected ((s.slots index).operations.get lane) b := by
    intro other f hf
    apply hupdate <;> rw [hf]
  cases hmove with
  | flags other f hf => exact hsame other f hf.operations
  | input hp hi hinput =>
    obtain ⟨-, rfl⟩ := input_eq.mp hinput
    exact hsame _ (fun slot => { slot with protocol := some _ }) rfl
  | observe sequence hp => exact hsame _ (fun slot => { slot with protocol := some _ }) rfl
  | refresh other =>
    have hsettled := (h.slot other).settled lane
    have hoperations : (s.slots other).refresh.operations.get lane =
        (s.slots other).operations.get lane ∨
        (s.slots other).refresh.operations.get lane =
          ((s.slots other).operations.get lane).close := by
      unfold Slot.refresh
      split
      · exact Or.inr (Slot.cancelOperations_get _ lane)
      · exact Or.inl rfl
    rcases hoperations with heq | heq
    · apply hupdate <;> rw [heq]
    · apply hupdate <;> rw [heq]
      · exact Operation.close_id _
      · exact Operation.close_phase hsettled
      · exact Operation.close_state hsettled
  | queue | borrow | stop => rfl
  | release other => exact hsame other (fun slot => { slot with alive := false }) rfl
  | reclaim other => exact hsame other (fun slot => { slot with sockets := none }) rfl
  | retire other => exact hsame other (fun slot => { slot with protocol := none }) rfl

namespace Driver

variable {G : Type} {links bytes : Nat} {d d' : Driver G links} {index : Fin links} {lane : Lane}

/-- The operation of a lane. -/
def operation (d : Driver G links) (index : Fin links) (lane : Lane) : Operation :=
  (d.slot index).operations.get lane

/-- The operations after one of them has been replaced. -/
theorem operation_update (index : Fin links) {f : Slot → Slot} {o : Operation}
    (hf : (f (d.slot index)).operations = (d.slot index).operations.set lane o) :
    (d.update index f).operation index lane = o ∧
      ∀ i l, ¬(i = index ∧ l = lane) → (d.update index f).operation i l = d.operation i l := by
  have hself : (d.update index f).slot index = f (d.slot index) := Shared.update_self
  refine ⟨?_, fun i l hne => ?_⟩
  · unfold operation
    rw [hself, hf, PerLane.get_set_self]
  · unfold operation
    by_cases heq : i = index
    · subst heq
      rw [hself, hf, PerLane.get_set_of_ne _ _ fun hl => hne ⟨rfl, hl⟩]
    · have hother : (d.update index f).slot i = d.slot i := Shared.update_of_ne heq
      rw [hother]

variable [Target] [NeZero links]

structure Inv (d : Driver G links) : Prop where
  shared : d.shared.Inv
  ledger : Ledger d.ring.outstanding d.operation
  pending : d.pendingCompletions = d.ring.outstanding.card

/-- An entry for an operation that accounts for no such request yet. -/
theorem Inv.ledger_push (hf : Fits links bytes) (h : d.Inv) {f : Slot → Slot} {o : Operation}
    {entry : Entry} {r : Ring} (hpush : d.ring.push entry = some r)
    (hoperation : (f (d.slot index)).operations = (d.slot index).operations.set lane o)
    (hslot : slotOf entry.userData = number index.val lane)
    (hbefore : expected (d.operation index lane) (isCancel entry.userData) = 0)
    (hafter : expected o (isCancel entry.userData) = {entry.userData})
    (hother : ∀ b, b ≠ isCancel entry.userData → expected o b = expected (d.operation index lane) b) :
    Ledger r.outstanding (d.update index f).operation ∧
      d.pendingCompletions + 1 = r.outstanding.card := by
  obtain ⟨hself, hsame⟩ := operation_update index hoperation
  rw [Ring.outstanding_push hpush, Multiset.card_cons, h.pending]
  refine ⟨h.ledger.add hf hslot hbefore ?_ ?_ hsame, rfl⟩
  · rw [hself]
    exact hafter
  · rw [hself]
    exact hother

/-- A completion for an operation. -/
theorem Inv.ledger_next (hf : Fits links bytes) (h : d.Inv) {f : Slot → Slot} {o : Operation}
    {cqe : Cqe} {r : Ring} (hnext : d.ring.next = some (cqe, r))
    (hoperation : (f (d.slot index)).operations = (d.slot index).operations.set lane o)
    (hslot : slotOf cqe.userData = number index.val lane)
    (hafter : expected o (isCancel cqe.userData) = 0)
    (hother : ∀ b, b ≠ isCancel cqe.userData → expected o b = expected (d.operation index lane) b) :
    Ledger r.outstanding (d.update index f).operation ∧
      d.pendingCompletions - 1 = r.outstanding.card := by
  obtain ⟨hself, hsame⟩ := operation_update index hoperation
  have hledger := h.ledger
  rw [Ring.outstanding_next hnext] at hledger
  rw [h.pending, Ring.outstanding_next hnext, Multiset.card_cons]
  refine ⟨hledger.remove hf hslot ?_ ?_ hsame, rfl⟩
  · rw [hself]
    exact hafter
  · rw [hself]
    exact hother

/-- The machine and an operation of one slot move, and the other slots stay. -/
theorem Inv.shared_operate (h : d.Inv) {p q : Protocol} {i : Input} {r : Except Error Unit}
    {s : Shared G links} {o : Operation} (hp : (d.slot index).protocol = some p)
    (hinput : (d.shared.update index (·.setOperation lane o)).input index p i = .ok (q, r, s))
    (hid : o.id.slot = (d.operation index lane).id.slot) (hsettled : o.Settled)
    (hlane : (q.active.get lane).map Prod.fst = if o.phase = .submitted then some o.id else none)
    (hother : ∀ other, other ≠ lane → q.active.get other = p.active.get other)
    (hheld : p.closed.isSome = true → (d.operation index lane).phase = .available →
      o.phase = .available) :
    s.Inv ∧ s.slots = (d.shared.update index fun slot =>
      { slot.setOperation lane o with protocol := some q }).slots := by
  obtain ⟨hanswer, rfl⟩ := Shared.input_eq.mp hinput
  have hslot := h.shared.slot index
  obtain ⟨q', r', hq', hsafe, -⟩ := Protocol.input_safe (hslot.safe p hp) i
  rw [hanswer] at hq'
  cases hq'
  have hinv := h.shared.update (f := fun slot => { slot.setOperation lane o with protocol := some q })
    (hslot.operate hp hsafe (fun a ha => by
      obtain ⟨b, hb, -, hconnection⟩ := input_tracked ha hanswer
      exact ⟨b, hb, hconnection⟩) (open_of_open hanswer) hid hsettled hlane hother hheld)
    (h.shared.borrowed index)
  have hslots : ((d.shared.update index (·.setOperation lane o)).answered index p i q).slots =
      (d.shared.update index fun slot =>
        { slot.setOperation lane o with protocol := some q }).slots := by
    have hupdate : ((d.shared.update index (·.setOperation lane o)).update index fun slot =>
        { slot with protocol := some q }) = _ := Shared.update_update
    have hslots := congrArg Shared.slots hupdate
    exact hslots
  refine ⟨⟨fun other => ?_, h.shared.ready, fun other hb => ?_⟩, hslots⟩
  · rw [hslots]
    exact hinv.slot other
  · rw [hslots]
    exact hinv.borrowed other hb

/-- The accepted operation of a lane is the submitted one. -/
theorem Inv.active (h : d.Inv) {p : Protocol} (hp : (d.slot index).protocol = some p)
    (hphase : (d.operation index lane).phase = .submitted) :
    ∃ e, p.active.get lane = some ((d.operation index lane).id, e) := by
  have hactive := ((h.shared.slot index).active p hp lane).trans (if_pos hphase)
  obtain ⟨⟨id, e⟩, ha, rfl⟩ := Option.map_eq_some_iff.mp hactive
  exact ⟨e, ha⟩

theorem Inv.settled (h : d.Inv) (index : Fin links) (lane : Lane) :
    (d.operation index lane).Settled :=
  (h.shared.slot index).settled lane

theorem Inv.number (h : d.Inv) (index : Fin links) (lane : Lane) :
    (d.operation index lane).id.slot = Uring.number index lane :=
  (h.shared.slot index).number lane

/-- The operations of a machine have different ids. -/
theorem Inv.laneOf (hf : Fits links bytes) (h : d.Inv) {p : Protocol}
    (hp : (d.slot index).protocol = some p) {other : Lane}
    (hlane : p.laneOf (d.operation index lane).id = some other) : other = lane := by
  obtain ⟨e, ha⟩ := Protocol.laneOf_some hlane
  have hactive := (h.shared.slot index).active p hp other
  rw [ha] at hactive
  split at hactive
  · have hid := Option.some.inj hactive
    have hslot := congrArg OpId.slot hid
    rw [h.number] at hslot
    exact ((number_inj hf (hslot.trans (h.number index other))).2).symm
  · cases hactive

/-- A lane without a submitted operation has no accepted one. -/
theorem Inv.inactive (h : d.Inv) {p : Protocol} (hp : (d.slot index).protocol = some p)
    (hphase : (d.operation index lane).phase ≠ .submitted) : p.active.get lane = none := by
  have hactive := ((h.shared.slot index).active p hp lane).trans (if_neg hphase)
  exact Option.map_eq_none_iff.mp hactive

/-- Only an operation of a machine is in use. -/
theorem Inv.protocol (h : d.Inv) (hphase : (d.operation index lane).phase ≠ .available) :
    ∃ p, (d.slot index).protocol = some p := by
  cases hp : (d.slot index).protocol with
  | none =>
    have hidle := ((h.shared.slot index).vacant hp).1
    exact absurd (Slot.idle_iff.mp hidle lane) hphase
  | some p => exact ⟨p, rfl⟩

/-- An operation of the driver moves and its machine does not notice. -/
theorem Inv.setOperation (h : d.Inv) {p : Protocol} (hp : (d.slot index).protocol = some p)
    {o : Operation} (hslot : o.id.slot = (d.operation index lane).id.slot) (hsettled : o.Settled)
    (hphase : o.phase = .submitted ↔ (d.operation index lane).phase = .submitted)
    (hid : o.phase = .submitted → o.id = (d.operation index lane).id)
    (hheld : p.closed.isSome = true → (d.operation index lane).phase = .available →
      o.phase = .available) : (d.update index (·.setOperation lane o)).shared.Inv :=
  h.shared.update (f := (·.setOperation lane o))
    ((h.shared.slot index).setOperation hp hslot hsettled hphase hid hheld) (h.shared.borrowed index)

theorem Inv.prepare (h : d.Inv) {id : OpId} {o : Operation} (hopen : (d.slot index).isOpen = true)
    (hprepare : (d.operation index lane).prepare = (some id, o)) :
    (d.update index (·.setOperation lane o)).Inv := by
  unfold Operation.prepare at hprepare
  split at hprepare
  · cases hprepare
  · rename_i hphase
    have hphase := not_not.mp hphase
    have hnone := ((h.shared.slot index).settled lane).available hphase
    obtain ⟨-, ho⟩ := Prod.mk.inj hprepare
    have hprepared : o.phase = .prepared := by rw [← ho]
    have hstate : o.cancellationState = .none := by
      rw [← ho]
      exact hnone
    have hnot : o.phase ≠ .submitted := by
      rw [hprepared]
      exact fun hp => by cases hp
    have hnot' : (d.operation index lane).phase ≠ .submitted := by
      rw [hphase]
      exact fun hp => by cases hp
    cases hp : (d.slot index).protocol with
    | none => simp [Slot.isOpen, hp] at hopen
    | some p =>
      have hshared := h.setOperation hp (by rw [← ho])
        ⟨fun _ => hstate, fun _ => hstate, fun hc => by rw [hprepared] at hc; cases hc⟩
        ⟨fun hs => absurd hs hnot, fun hs => absurd hs hnot'⟩ (fun hs => absurd hs hnot)
        fun hshut => by
          rw [(Slot.isOpen_iff hp).mp hopen] at hshut
          cases hshut
      refine ⟨hshared, h.ledger.congr fun i l b => ?_, h.pending⟩
      obtain ⟨hself, hsame⟩ := operation_update (d := d) index (f := (·.setOperation lane o)) rfl
      by_cases heq : i = index ∧ l = lane
      · obtain ⟨rfl, rfl⟩ := heq
        rw [hself]
        cases b with
        | false => rw [expected_unsubmitted hnot, expected_unsubmitted hnot']
        | true =>
          have hbefore : (d.operation i l).cancellationState = .none := hnone
          rw [expected_uncancelled (by rw [hstate]; exact fun hp => by cases hp),
            expected_uncancelled (by rw [hbefore]; exact fun hp => by cases hp)]
      · rw [hsame i l heq]

theorem Inv.accept (hf : Fits links bytes) (h : d.Inv) {p q : Protocol} {opcode : Opcode} {r : Ring}
    {result : Except Error Unit} {s : Shared G links} {id : OpId}
    (hp : (d.slot index).protocol = some p) (hid : (d.operation index lane).id = id)
    (hphase : (d.operation index lane).phase = .prepared)
    (heffect : ∃ e, p.effect lane = .ok (some e) ∧ e.isRequest = true)
    (hpush : d.ring.push ⟨opcode, token id⟩ = some r)
    (hinput : (d.shared.update index (·.setOperation lane ((d.operation index lane).accepted id).2)
      ).input index p (.accepted lane id) = .ok (q, result, s)) :
    ((d.withShared s).withRing r (d.pendingCompletions + 1)).Inv := by
  subst hid
  obtain ⟨e, he, hreq⟩ := heffect
  obtain ⟨hopen, -, hoffer⟩ := Protocol.effect_request he hreq
  have hnot : (d.operation index lane).phase ≠ .submitted := by
    rw [hphase]
    exact nofun
  have hstate := ((h.shared.slot index).settled lane).prepared hphase
  have hidle := h.inactive hp hnot
  have hfresh : p.laneOf (d.operation index lane).id = none := by
    cases hl : p.laneOf (d.operation index lane).id with
    | none => rfl
    | some other =>
      obtain ⟨e', ha⟩ := Protocol.laneOf_some hl
      rw [h.laneOf hf hp hl, hidle] at ha
      cases ha
  have ho : ((d.operation index lane).accepted (d.operation index lane).id).2 =
      { d.operation index lane with phase := .submitted } := by
    simp [Operation.accepted, hphase]
  rw [ho] at hinput
  obtain ⟨hanswer, -⟩ := Shared.input_eq.mp hinput
  have haccept := Protocol.input_accepted hopen hidle hoffer hreq hfresh
  rw [hanswer] at haccept
  cases haccept
  obtain ⟨hshared, hslots⟩ := h.shared_operate hp hinput rfl
    ⟨nofun, nofun, nofun⟩
    (by
      rw [if_pos rfl]
      unfold Protocol.accept
      rw [PerLane.get_set_self]
      rfl)
    (fun other hne => PerLane.get_set_of_ne _ _ hne) fun hshut => by
      rw [hopen] at hshut
      cases hshut
  have hnumber := h.number index lane
  have hlt := (number_toNat hf index lane).2
  rw [← hnumber] at hlt
  have hcancel := isCancel_token hlt
  obtain ⟨hledger, hpending⟩ := h.ledger_push hf
    (o := { d.operation index lane with phase := .submitted })
    (f := fun slot =>
      { slot.setOperation lane { d.operation index lane with phase := .submitted } with
        protocol := some (p.accept lane (d.operation index lane).id e) }) hpush rfl
    ((slotOf_token hlt).trans hnumber)
    (by
      rw [hcancel]
      exact expected_unsubmitted hnot)
    (by
      rw [hcancel]
      exact expected_submitted rfl)
    (fun b hb => by
      rw [hcancel] at hb
      obtain rfl : b = true := by simpa using hb
      rfl)
  refine ⟨hshared, ?_, hpending⟩
  have hoperations : (d.withShared s).operation = (d.update index fun slot =>
      { slot.setOperation lane { d.operation index lane with phase := .submitted } with
        protocol := some (p.accept lane (d.operation index lane).id e) }).operation := by
    unfold operation slot withShared
    rw [hslots]
    rfl
  change Ledger r.outstanding (d.withShared s).operation
  rw [hoperations]
  exact hledger

/-- The user data of a lane's requests is decoded to its number. -/
theorem Inv.decodes (hf : Fits links bytes) (h : d.Inv) (index : Fin links) (lane : Lane) :
    slotOf (token (d.operation index lane).id) = Uring.number index lane ∧
      slotOf (cancelToken (d.operation index lane).id) = Uring.number index lane ∧
      isCancel (token (d.operation index lane).id) = false := by
  have hnumber := h.number index lane
  have hlt := (number_toNat hf index lane).2
  rw [← hnumber] at hlt ⊢
  exact ⟨slotOf_token hlt, slotOf_cancelToken hlt, isCancel_token hlt⟩

theorem Inv.cancel (hf : Fits links bytes) (h : d.Inv) {opcode : Opcode} {r : Ring} {id : OpId}
    (hid : (d.operation index lane).cancellation = some id)
    (hpush : d.ring.push ⟨opcode, cancelToken id⟩ = some r) :
    ((d.update index (·.setOperation lane ((d.operation index lane).cancelAccepted id).2)).withRing r
      (d.pendingCompletions + 1)).Inv := by
  have hsettled := h.settled index lane
  obtain ⟨rfl, hphase, hstate⟩ := Operation.submitted_of_cancellation hsettled hid
  obtain ⟨p, hp⟩ := h.protocol (by rw [hphase]; exact nofun)
  have ho : ((d.operation index lane).cancelAccepted (d.operation index lane).id).2 =
      { d.operation index lane with cancellationState := .submitted } := by
    simp [Operation.cancelAccepted, hid]
  rw [ho]
  have hnot : ∀ phase, phase ≠ .submitted → (d.operation index lane).phase ≠ phase := by
    rintro phase hne rfl
    exact hne hphase
  have hshared := h.setOperation hp (o := { d.operation index lane with
    cancellationState := .submitted }) rfl
    ⟨fun hs => absurd hs (hnot _ nofun), fun hs => absurd hs (hnot _ nofun), fun _ => rfl⟩
    Iff.rfl (fun _ => rfl) fun _ hs => hs
  obtain ⟨-, hdecodes, -⟩ := h.decodes hf index lane
  obtain ⟨hledger, hpending⟩ := h.ledger_push hf
    (o := { d.operation index lane with cancellationState := .submitted })
    (f := (·.setOperation lane { d.operation index lane with cancellationState := .submitted }))
    hpush rfl hdecodes
    (by
      rw [isCancel_cancelToken]
      exact expected_uncancelled (by rw [hstate]; exact nofun))
    (by
      rw [isCancel_cancelToken]
      exact expected_cancelling rfl)
    (fun b hb => by
      rw [isCancel_cancelToken] at hb
      obtain rfl : b = false := by simpa using hb
      rfl)
  exact ⟨hshared, hledger, hpending⟩

theorem Inv.complete (hf : Fits links bytes) (h : d.Inv) {p q : Protocol} {r : Ring} {cqe : Cqe}
    {io : IoResult} {result : Except Error Unit} {s : Shared G links} {id : OpId}
    (hp : (d.slot index).protocol = some p) (hid : (d.operation index lane).id = id)
    (hphase : (d.operation index lane).phase = .submitted)
    (hnext : d.ring.next = some (cqe, r)) (hu : cqe.userData = token id)
    (hinput : (d.shared.update index (·.setOperation lane
      ((d.operation index lane).completed id).2.reclaim.2)).input index p
        (.completed id io cqe.buffer) = .ok (q, result, s)) :
    ((d.withShared s).withRing r (d.pendingCompletions - 1)).Inv := by
  subst hid
  obtain ⟨e, ha⟩ := h.active hp hphase
  have hlane : p.laneOf (d.operation index lane).id = some lane := by
    cases hl : p.laneOf (d.operation index lane).id with
    | none => exact absurd ha (Protocol.laneOf_none hl lane e)
    | some other => rw [h.laneOf hf hp hl]
  obtain ⟨hanswer, -⟩ := Shared.input_eq.mp hinput
  have hactive := Protocol.input_completed_active hlane hanswer
  have hfinish := Operation.finish_eq hphase
  obtain ⟨horiginal, hcancel⟩ := expected_finish hphase
  have hsettled := Operation.settled_finish hphase
  generalize ((d.operation index lane).completed (d.operation index lane).id).2.reclaim.2 = o at *
  have hphase' : o.phase ≠ .submitted ∧ o.id = (d.operation index lane).id := by
    rw [hfinish]
    split <;> exact ⟨nofun, rfl⟩
  obtain ⟨hshared, hslots⟩ := h.shared_operate hp hinput (by rw [hphase'.2]) hsettled
    (by
      rw [hactive, PerLane.get_set_self, if_neg hphase'.1]
      rfl)
    (fun other hne => by rw [hactive, PerLane.get_set_of_ne _ _ hne])
    fun _ hs => by
      rw [hphase] at hs
      cases hs
  obtain ⟨hdecodes, -, hnot⟩ := h.decodes hf index lane
  rw [← hu] at hdecodes hnot
  obtain ⟨hledger, hpending⟩ := h.ledger_next hf (o := o)
    (f := fun slot => { slot.setOperation lane o with protocol := some q }) hnext rfl hdecodes
    (by
      rw [hnot]
      exact horiginal)
    (fun b hb => by
      rw [hnot] at hb
      obtain rfl : b = true := by simpa using hb
      exact hcancel)
  refine ⟨hshared, ?_, hpending⟩
  have hoperations : (d.withShared s).operation = (d.update index fun slot =>
      { slot.setOperation lane o with protocol := some q }).operation := by
    unfold operation slot withShared
    rw [hslots]
    rfl
  change Ledger r.outstanding (d.withShared s).operation
  rw [hoperations]
  exact hledger

theorem Inv.cancelled (hf : Fits links bytes) (h : d.Inv) {r : Ring} {cqe : Cqe} {id : OpId}
    (hid : (d.operation index lane).id = id)
    (hstate : (d.operation index lane).cancellationState = .submitted)
    (hnext : d.ring.next = some (cqe, r)) (hu : cqe.userData = cancelToken id) :
    ((d.update index (·.setOperation lane
      ((d.operation index lane).cancelCompleted id).2.reclaim.2)).withRing r
        (d.pendingCompletions - 1)).Inv := by
  subst hid
  have hsettled := h.settled index lane
  obtain ⟨p, hp⟩ := h.protocol fun hs => by
    rw [hsettled.available hs] at hstate
    cases hstate
  have hfinish := Operation.finishCancel_eq hsettled hstate
  obtain ⟨hcancel, horiginal⟩ := expected_finishCancel hsettled hstate
  have hsettled' := Operation.settled_finishCancel hsettled hstate
  generalize ((d.operation index lane).cancelCompleted (d.operation index lane).id).2.reclaim.2 = o
    at *
  have hkept : o.id = (d.operation index lane).id ∧
      (o.phase = .submitted ↔ (d.operation index lane).phase = .submitted) ∧
      ((d.operation index lane).phase = .available → o.phase = .available) := by
    rw [hfinish]
    split
    · rename_i hphase
      rw [hphase]
      exact ⟨rfl, ⟨nofun, nofun⟩, nofun⟩
    · exact ⟨rfl, Iff.rfl, id⟩
  have hshared := h.setOperation hp (by rw [hkept.1]) hsettled' hkept.2.1 (fun _ => hkept.1)
    fun _ => hkept.2.2
  obtain ⟨-, hdecodes, -⟩ := h.decodes hf index lane
  rw [← hu] at hdecodes
  have hmine : isCancel cqe.userData = true := by
    rw [hu]
    exact isCancel_cancelToken _
  obtain ⟨hledger, hpending⟩ := h.ledger_next hf (o := o) (f := (·.setOperation lane o)) hnext rfl
    hdecodes
    (by
      rw [hmine]
      exact hcancel)
    (fun b hb => by
      rw [hmine] at hb
      obtain rfl : b = false := by simpa using hb
      exact horiginal)
  exact ⟨hshared, hledger, hpending⟩

theorem Move.inv (hf : Fits links bytes) (h : d.Inv) (hmove : d.Move d') : d'.Inv := by
  cases hmove with
  | shared hs =>
    exact ⟨hs.inv h.shared, h.ledger.congr fun i l b => hs.expected h.shared i l b, h.pending⟩
  | ring r hr =>
    refine ⟨h.shared, ?_, ?_⟩
    · change Ledger r.outstanding d.operation
      rw [hr]
      exact h.ledger
    · change d.pendingCompletions = r.outstanding.card
      rw [hr]
      exact h.pending
  | ready r hr => exact ⟨⟨h.shared.slot, hr h.shared.ready, h.shared.borrowed⟩, h.ledger, h.pending⟩
  | hint => exact ⟨h.shared, h.ledger, h.pending⟩
  | prepare hopen hprepare => exact h.prepare hopen hprepare
  | accept hp hid hphase heffect hpush hinput =>
    exact h.accept hf hp hid hphase heffect hpush hinput
  | cancel hid hpush => exact h.cancel hf hid hpush
  | complete hp hid hphase hnext hu hinput => exact h.complete hf hp hid hphase hnext hu hinput
  | cancelled hid hstate hnext hu => exact h.cancelled hf hid hstate hnext hu

theorem Reaches.inv (hf : Fits links bytes) (h : d.Inv) (hreaches : d.Reaches d') : d'.Inv := by
  induction hreaches with
  | refl => exact h
  | tail _ hmove ih => exact hmove.inv hf ih

end Driver

end Hiway.Uring
