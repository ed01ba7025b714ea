import Hiway.Uring.Closing

/-!
# Dropping a driver

`Drop` closes every link and goes round a loop, a pass and a wait, until the kernel has
given back every request. It cannot go round for ever: a wait that succeeds hands over an
entry or brings a completion, and a closing driver has only so many of these. When the
kernel breaks down the loop gives up, and keeps what the kernel may still write to.

* `Winding.wait`, `Winding.pass`: a wait takes what it hands over off the debt of a closing
  driver, and a pass what it consumes.
* `Winding.drained`: with nothing outstanding every operation is free.
* `run_drop_drains`: a drop never panics, ends after a bounded number of waits that succeed,
  and frees nothing that the kernel may still use.
-/

namespace Hiway.Uring

open Exec Target Transport

/-- One completion that the kernel posts. -/
structure Post where
  index : Nat
  result : Int
  buffer : List UInt8

def Ring.posts (r : Ring) (posted : List Post) : Ring :=
  posted.foldl (fun r p => r.post p.index p.result p.buffer) r

/-- What the kernel and the host do while the loop goes round once. `posted` completes before
the pass, `arrived` during the wait; a failed call is `transient` if it was interrupted or
would have blocked. -/
structure Interlude (links : Nat) where
  posted : List Post
  script : Driver.Script links
  submitTransient : Bool
  during : List (List (Act links))
  waited : Option Nat
  waitTransient : Bool
  arrived : List Post

/-- A call to the kernel fails. -/
def Interlude.fails {links : Nat} (i : Interlude links) : Bool :=
  i.script.submit.isNone || i.waited.isNone

/-- A call to the kernel fails for good. -/
def Interlude.breaks {links : Nat} (i : Interlude links) : Bool :=
  (i.script.submit.isNone && !i.submitTransient) || (i.waited.isNone && !i.waitTransient)

/-- How the loop ends: the kernel is done with every request, or the ring is broken. -/
inductive Ending where
  | drained
  | broken
  deriving DecidableEq, Repr

namespace Driver

variable {G : Type} {links : Nat}

/-- The loop of a drop as far as it has gone: each wait that succeeded is kept with the
driver before it and the ring after it. -/
structure Drain (G : Type) (links : Nat) where
  ending : Option Ending
  waits : List (Driver G links × Ring)
  driver : Driver G links

def kernelDrained (d : Driver G links) : Bool :=
  d.pendingCompletions = 0 && (List.finRange links).all fun index => (d.slot index).idle

variable [Target] [NeZero links]

def defaultBudget (d : Driver G links) : Budget := ⟨d.ring.cqEntries, d.ring.capacity, usizeMax⟩

/-- The loop of `drop`. -/
def drain : List (Interlude links) → Driver G links → Exec (Drain G links)
  | [], d => .ok ⟨none, [], d⟩
  | i :: rest, d => do
    let d := { d with ring := d.ring.posts i.posted }
    match ← d.advanceWith .immediate d.defaultBudget i.script with
    | none => do
      let (_, d) ← d.dispatchWithBudget links i.during
      return ⟨some (if d.kernelDrained then .drained else .broken), [], d⟩
    | some progress => do
      let (_, d) ← progress.driver.dispatchWithBudget links i.during
      if d.kernelDrained then return ⟨some .drained, [], d⟩
      else if progress.failed then
        if i.submitTransient then d.drain rest else return ⟨some .broken, [], d⟩
      else if d.pendingCompletions = 0 then d.drain rest
      else
        match i.waited with
        | none => if i.waitTransient then d.drain rest else return ⟨some .broken, [], d⟩
        | some taken => do
          let ring := (d.ring.submit taken).posts i.arrived
          let r ← { d with ring := ring }.drain rest
          return { r with waits := (d, ring) :: r.waits }

/-- `drop` up to the end of its loop. -/
def shutdown (d : Driver G links) (is : List (Interlude links)) : Exec (Drain G links) :=
  if d.shutdownComplete then d.drain is
  else do
    let s ← d.shared.cancelAll
    (d.withShared s).drain is

end Driver

/-! ## The kernel -/

namespace Ring

/-- What the kernel does not touch. -/
structure Kin (r r' : Ring) : Prop where
  capacity : r'.capacity = r.capacity
  cqEntries : r'.cqEntries = r.cqEntries
  queue : r'.queue = r.queue
  flight : r'.kernel.length + r'.completions.length = r.kernel.length + r.completions.length
  more : r.completions.length ≤ r'.completions.length
  outstanding : r'.outstanding = r.outstanding

theorem kin_post (r : Ring) (index : Nat) (result : Int) (buffer : List UInt8) :
    r.Kin (r.post index result buffer) := by
  have houtstanding := outstanding_post r index result buffer
  unfold post at houtstanding ⊢
  split at houtstanding
  · exact ⟨rfl, rfl, rfl, rfl, le_rfl, rfl⟩
  · rename_i entry hentry
    obtain ⟨hlt, -⟩ := List.getElem?_eq_some_iff.mp hentry
    refine ⟨rfl, rfl, rfl, ?_, ?_, houtstanding⟩
    · dsimp only
      rw [List.length_eraseIdx_of_lt hlt, List.length_append, List.length_singleton]
      omega
    · dsimp only
      rw [List.length_append]
      exact Nat.le_add_right _ _

theorem kin_posts (r : Ring) (posted : List Post) : r.Kin (r.posts posted) := by
  induction posted generalizing r with
  | nil => exact ⟨rfl, rfl, rfl, rfl, le_rfl, rfl⟩
  | cons p rest ih =>
    have hfirst := kin_post r p.index p.result p.buffer
    have hrest := ih (r.post p.index p.result p.buffer)
    exact ⟨hrest.capacity.trans hfirst.capacity, hrest.cqEntries.trans hfirst.cqEntries,
      hrest.queue.trans hfirst.queue, hrest.flight.trans hfirst.flight,
      hfirst.more.trans hrest.more, hrest.outstanding.trans hfirst.outstanding⟩

theorem card_outstanding (r : Ring) :
    r.outstanding.card = r.queue.length + r.kernel.length + r.completions.length := by
  unfold outstanding
  rw [Multiset.card_add, Multiset.card_add, Multiset.coe_card, Multiset.coe_card,
    Multiset.coe_card, List.length_map, List.length_map, List.length_map]

end Ring

/-! ## One pass -/

namespace Driver

variable {G : Type} {links : Nat}

/-- What is still to come: an entry is handed over and completed, and a cancellation that
can still be queued becomes an entry. -/
def debt (d : Driver G links) : Nat :=
  2 * d.ring.queue.length + d.ring.kernel.length + d.ring.completions.length + 2 * d.uncancelled

/-- A completion is there to be consumed. -/
def arrived (d : Driver G links) : Nat := if d.ring.completions = [] then 0 else 1

theorem arrived_le (d : Driver G links) : d.arrived ≤ d.ring.completions.length := by
  unfold arrived
  split
  · exact Nat.zero_le _
  · rename_i hne
    exact List.length_pos_iff.mpr hne

theorem arrived_le_debt (d : Driver G links) : d.arrived ≤ d.debt := by
  have harrived := d.arrived_le
  unfold debt
  omega

theorem debt_add (d : Driver G links) :
    d.debt + (d.ring.kernel.length + d.ring.completions.length) =
      2 * (d.ring.outstanding.card + d.uncancelled) := by
  rw [Ring.card_outstanding]
  unfold debt
  omega

/-- A driver that has shut down completely has nothing to cancel. -/
theorem closing_of_complete {d : Driver G links} (h : d.shutdownComplete = true) : d.Closing := by
  unfold shutdownComplete at h
  simp only [Bool.and_eq_true, List.all_eq_true] at h
  have hslot := fun index => h.1.2 index (List.mem_finRange index)
  refine ⟨fun index => ?_, fun index lane => ?_⟩
  · have hclosed := (hslot index).2
    unfold Slot.isOpen
    cases hp : (d.slot index).protocol with
    | none => rfl
    | some p =>
      rw [hp] at hclosed
      rw [Option.any_some, ← Bool.not_eq_true, Option.isNone_iff_eq_none]
      exact Option.isSome_iff_ne_none.mp hclosed
  · have havailable := Slot.idle_iff.mp (hslot index).1.1.1 lane
    refine ⟨?_, ?_⟩
    · change ((d.slot index).operations.get lane).phase ≠ .prepared
      rw [havailable]
      exact nofun
    · change ((d.slot index).operations.get lane).phase = .submitted → _
      rw [havailable]
      exact nofun

variable [Target] [NeZero links] {bytes : Nat} {d d' : Driver G links}

/-- A pass takes what has arrived, as far as its budget goes. -/
theorem consume_pos {fuel n : Nat} (h : consume fuel d = .ok (n, d')) (hfuel : fuel ≠ 0)
    (hne : d.ring.completions ≠ []) : n ≠ 0 := by
  cases fuel with
  | zero => exact absurd rfl hfuel
  | succ fuel =>
    unfold consume at h
    cases hnext : d.ring.next with
    | none =>
      unfold Ring.next at hnext
      split at hnext
      · rename_i hnil
        exact absurd hnil hne
      · cases hnext
    | some next =>
      obtain ⟨cqe, r⟩ := next
      rw [hnext] at h
      obtain ⟨pending, -, h⟩ := bind_eq_ok.mp h
      obtain ⟨e, -, h⟩ := bind_eq_ok.mp h
      obtain ⟨⟨m, f⟩, -, h⟩ := bind_eq_ok.mp h
      cases h
      exact Nat.succ_ne_zero m

/-- What a pass does to its ring. -/
structure Passed (d : Driver G links) (script : Script links) (budget : Budget)
    (p : Progress G links) : Prop where
  consumed : ∃ n d₁, consume (min budget.completions d.ring.cqEntries) d = .ok (n, d₁) ∧
    p.completions = n ∧ d.Reaches d₁ ∧ d₁.Reaches p.driver ∧
    d₁.ring = { d.ring with completions := d.ring.completions.drop n } ∧
    n ≤ d.ring.completions.length
  ring : ∃ queue taken, p.driver.ring = ({ d.ring with
    queue := queue
    completions := d.ring.completions.drop p.completions } : Ring).submit taken
  failed : p.failed = true → script.submit = none

theorem advanceWith_passed (hf : Fits links bytes) (h : d.Inv) (mode : Admission) (budget : Budget)
    (script : Script links)
    (hbudget : ¬(budget.completions = 0 ∨ budget.submissions = 0 ∨ budget.bytes = 0)) :
    ∃ p, d.advanceWith mode budget script = .ok (some p) ∧ d.Passed script budget p := by
  obtain ⟨n, d₁, hconsume, hreaches₁, hn, hlen, hring, -⟩ :=
    consume_returns hf (min budget.completions d.ring.cqEntries) h
  have hinv₁ := Reaches.inv hf h hreaches₁
  obtain ⟨replies, s, hscan, hreaches₂⟩ := Shared.scanAuthority_returns hinv₁.shared script.replies
  let p₀ : Pass G links := ⟨d₁.withShared s, 0, 0, none, replies, []⟩
  have hinv₀ : p₀.driver.Inv := Reaches.inv hf hinv₁ (Reaches.shared hreaches₂)
  obtain ⟨q, ts, hrounds, htook, -⟩ := rounds_returns hf mode 0 3 hinv₀
    (Nat.zero_le budget.bytes) (Nat.zero_le budget.submissions)
  have hinv := Reaches.inv hf hinv₀ htook.reaches
  obtain ⟨ready, hprioritized, hready, -⟩ := prioritized_returns hinv.shared.ready q.blocked
  let d₂ := q.driver.withShared { q.driver.shared with ready := ready }
  let submits := !d₂.ring.queue.isEmpty || script.flagged
  let p : Progress G links :=
    { driver := if submits then { d₂ with ring := d₂.ring.submit script.submit } else d₂
      completions := n
      submissions := q.submissions
      bytes := q.bytes
      failed := submits && script.submit.isNone
      replies := q.replies
      log := q.log }
  have hadvance : d.advanceWith mode budget script = .ok (some p) := by
    unfold advanceWith
    rw [if_neg hbudget, hconsume, ok_bind]
    dsimp only
    rw [hscan, ok_bind]
    dsimp only
    refine (congrArg (· >>= _) hrounds).trans ?_
    rw [ok_bind, hprioritized]
    rfl
  obtain ⟨taken, hdriver⟩ : ∃ taken, p.driver = { d₂ with ring := d₂.ring.submit taken } := by
    by_cases hsubmits : submits = true
    · exact ⟨script.submit, if_pos hsubmits⟩
    · exact ⟨none, if_neg hsubmits⟩
  have hreaches : d₁.Reaches p.driver := by
    rw [hdriver]
    exact (((Reaches.shared hreaches₂).trans htook.reaches).tail (.ready ready fun _ => hready)).tail
      (.ring (d₂.ring.submit taken) (Ring.outstanding_submit _ _))
  have hqueue : d₂.ring = { d.ring with
      queue := d.ring.queue ++ ts.flatMap Turn.entries
      completions := d.ring.completions.drop n } := by
    change q.driver.ring = _
    rw [htook.ring]
    change ({ d₁.ring with queue := d₁.ring.queue ++ ts.flatMap Turn.entries } : Ring) = _
    rw [hring]
  refine ⟨p, hadvance, ⟨n, d₁, hconsume, rfl, hreaches₁, hreaches, hring, hlen⟩,
    ⟨d.ring.queue ++ ts.flatMap Turn.entries, taken, ?_⟩, fun hfailed => ?_⟩
  · rw [hdriver, hqueue]
  · have hnone : (submits && script.submit.isNone) = true := hfailed
    rw [Bool.and_eq_true] at hnone
    exact Option.isNone_iff_eq_none.mp hnone.2

/-- A driver in the loop. -/
structure Winding (d : Driver G links) : Prop where
  inv : d.Inv
  closing : d.Closing
  whole : d.Whole
  cqEntries : d.ring.cqEntries ≠ 0

theorem Winding.reaches (hf : Fits links bytes) (h : d.Winding) (hreaches : d.Reaches d')
    (hcqEntries : d'.ring.cqEntries = d.ring.cqEntries) : d'.Winding :=
  ⟨Reaches.inv hf h.inv hreaches, (h.closing.reaches hf h.inv hreaches).1,
    Reaches.whole hreaches h.whole, by rw [hcqEntries]; exact h.cqEntries⟩

/-- What the kernel does changes no debt. -/
theorem Winding.kin (hf : Fits links bytes) (h : d.Winding) {r : Ring} (hkin : d.ring.Kin r) :
    ({ d with ring := r } : Driver G links).Winding ∧
      ({ d with ring := r } : Driver G links).debt = d.debt ∧
      d.arrived ≤ ({ d with ring := r } : Driver G links).arrived := by
  have hreaches : d.Reaches { d with ring := r } := .single (.ring r hkin.outstanding)
  refine ⟨h.reaches hf hreaches hkin.cqEntries, ?_, ?_⟩
  · have hflight := hkin.flight
    change 2 * r.queue.length + r.kernel.length + r.completions.length + 2 * d.uncancelled = _
    unfold debt
    rw [hkin.queue]
    omega
  · have hmore := hkin.more
    unfold arrived
    dsimp only
    split
    · exact Nat.zero_le _
    · rename_i hne
      have hpos := List.length_pos_iff.mpr hne
      rw [if_neg (List.length_pos_iff.mp (hpos.trans_le hmore))]

/-- A submit call takes what it hands over off the debt. -/
theorem Winding.submit (hf : Fits links bytes) (h : d.Winding) (taken : Option Nat) :
    ({ d with ring := d.ring.submit taken } : Driver G links).Winding ∧
      ({ d with ring := d.ring.submit taken } : Driver G links).debt + d.ring.queue.length =
        d.debt + (d.ring.submit taken).queue.length := by
  have hreaches : d.Reaches { d with ring := d.ring.submit taken } :=
    .single (.ring _ (Ring.outstanding_submit _ _))
  refine ⟨h.reaches hf hreaches ?_, ?_⟩
  · cases taken <;> rfl
  · change 2 * (d.ring.submit taken).queue.length + (d.ring.submit taken).kernel.length +
      (d.ring.submit taken).completions.length + 2 * d.uncancelled + d.ring.queue.length = _
    have hentries := congrArg List.length (Ring.submit_entries d.ring taken)
    rw [List.length_append, List.length_append] at hentries
    rw [Ring.submit_completions]
    unfold debt
    omega

/-- A wait that succeeds hands over entries, and completions arrive. -/
theorem Winding.wait (hf : Fits links bytes) (h : d.Winding) (taken : Nat) (posted : List Post) :
    ({ d with ring := (d.ring.submit (some taken)).posts posted } : Driver G links).Winding ∧
      ({ d with ring := (d.ring.submit (some taken)).posts posted } : Driver G links).debt +
        d.ring.queue.length = d.debt + ((d.ring.submit (some taken)).posts posted).queue.length ∧
      ((d.ring.submit (some taken)).posts posted).queue.length ≤ d.ring.queue.length := by
  obtain ⟨hsubmitted, hqueued⟩ := h.submit hf (some taken)
  have hkin := Ring.kin_posts (d.ring.submit (some taken)) posted
  obtain ⟨hwinding, hdebt, -⟩ := hsubmitted.kin hf hkin
  refine ⟨hwinding, ?_, ?_⟩
  · rw [hkin.queue, ← hqueued]
    exact congrArg (· + d.ring.queue.length) hdebt
  · rw [hkin.queue]
    unfold Ring.submit
    dsimp only
    rw [List.length_drop]
    exact Nat.sub_le _ _

/-- A pass consumes a completion if there is one, and takes it off the debt. -/
theorem Winding.pass (hf : Fits links bytes) (h : d.Winding) (script : Script links) :
    ∃ p, d.advanceWith .immediate d.defaultBudget script = .ok (some p) ∧ p.driver.Winding ∧
      p.driver.debt + d.arrived ≤ d.debt ∧ (p.failed = true → script.submit = none) := by
  have hbudget : ¬(d.defaultBudget.completions = 0 ∨ d.defaultBudget.submissions = 0 ∨
      d.defaultBudget.bytes = 0) := by
    have hword := usizeMax_ge
    have hroom := d.ring.room
    rintro (hzero | hzero | hzero)
    · exact h.cqEntries hzero
    · change d.ring.capacity = 0 at hzero
      omega
    · change usizeMax = 0 at hzero
      omega
  obtain ⟨p, hp, hpassed⟩ := advanceWith_passed hf h.inv .immediate d.defaultBudget script hbudget
  obtain ⟨n, d₁, hconsume, hn, hreaches₁, hreaches, hring₁, hlen⟩ := hpassed.consumed
  obtain ⟨queue, taken, hring⟩ := hpassed.ring
  have hinv₁ := Reaches.inv hf h.inv hreaches₁
  obtain ⟨hclosing₁, hrecedes₁⟩ := h.closing.reaches hf h.inv hreaches₁
  obtain ⟨hclosing, hrecedes⟩ := hclosing₁.reaches hf hinv₁ hreaches
  refine ⟨p, hp, ⟨Reaches.inv hf hinv₁ hreaches, hclosing,
    Reaches.whole (hreaches₁.trans hreaches) h.whole, ?_⟩, ?_, hpassed.failed⟩
  · rw [hring]
    have hsame : ∀ r : Ring, (r.submit taken).cqEntries = r.cqEntries := by
      intro r
      cases taken <;> rfl
    rw [hsame]
    exact h.cqEntries
  · have harrived : d.arrived ≤ n := by
      unfold arrived
      split
      · exact Nat.zero_le n
      · rename_i hne
        refine Nat.pos_of_ne_zero (consume_pos hconsume ?_ hne)
        change min d.ring.cqEntries d.ring.cqEntries ≠ 0
        rw [min_self]
        exact h.cqEntries
    have hfewer := uncancelled_le hrecedes₁.operation
    have hcard₁ : d₁.ring.outstanding.card + n = d.ring.outstanding.card := by
      rw [Ring.card_outstanding, Ring.card_outstanding, hring₁]
      dsimp only
      rw [List.length_drop]
      omega
    have htotal := hrecedes.total
    have hkernel : d.ring.kernel.length ≤ p.driver.ring.kernel.length := by
      rw [hring]
      cases taken with
      | none => exact le_rfl
      | some taken =>
        unfold Ring.submit
        dsimp only
        rw [List.length_append]
        exact Nat.le_add_right _ _
    have hcompletions : p.driver.ring.completions.length + n = d.ring.completions.length := by
      rw [hring, Ring.submit_completions, List.length_drop, hn]
      exact Nat.sub_add_cancel hlen
    have hbefore := d.debt_add
    have hafter := p.driver.debt_add
    omega

/-- Dispatching leaves the ring alone. -/
theorem Winding.dispatch (hf : Fits links bytes) (h : d.Winding) (budget : Nat)
    (during : List (List (Act links))) :
    ∃ n d', d.dispatchWithBudget budget during = .ok (n, d') ∧ d'.Winding ∧ d'.debt ≤ d.debt ∧
      d'.ring = d.ring := by
  obtain ⟨n, d', hd', hreaches⟩ := dispatch_reaches h.inv budget during
  have hring : d'.ring = d.ring := by
    unfold dispatchWithBudget at hd'
    split at hd'
    · cases hd'
      rfl
    · obtain ⟨⟨cursor, dispatched, s⟩, -, hd'⟩ := bind_eq_ok.mp hd'
      cases hd'
      rfl
  obtain ⟨-, hrecedes⟩ := h.closing.reaches hf h.inv hreaches
  have hfewer := uncancelled_le hrecedes.operation
  refine ⟨n, d', hd', h.reaches hf hreaches (by rw [hring]), ?_, hring⟩
  unfold debt
  rw [hring]
  omega

/-- With nothing outstanding every operation is free. -/
theorem Winding.drained (h : d.Winding) (hpending : d.pendingCompletions = 0) :
    d.kernelDrained = true := by
  have hnone : d.ring.outstanding = 0 := by
    rw [← Multiset.card_eq_zero, ← h.inv.pending]
    exact hpending
  have hidle : ∀ index, (d.slot index).idle = true := by
    intro index
    refine Slot.idle_iff.mpr fun lane => ?_
    have horiginal := h.inv.ledger.exact false index lane
    have hcancel := h.inv.ledger.exact true index lane
    rw [hnone, requestsOf, Multiset.filter_zero] at horiginal hcancel
    have hsettled := h.inv.settled index lane
    have hcalm := h.closing.calm index lane
    cases hphase : (d.operation index lane).phase with
    | available => exact hphase
    | prepared => exact absurd hphase hcalm.unprepared
    | submitted =>
      rw [expected_submitted hphase] at horiginal
      exact absurd horiginal.symm (Multiset.singleton_ne_zero _)
    | completed =>
      rw [expected_cancelling (hsettled.completed hphase)] at hcancel
      exact absurd hcancel.symm (Multiset.singleton_ne_zero _)
  unfold kernelDrained
  rw [hpending]
  simp only [decide_true, Bool.true_and, List.all_eq_true]
  exact fun index _ => hidle index

/-! ## The loop -/

/-- A wait that succeeds has handed over an entry, or there is a completion after it. -/
def Served (w : Driver G links × Ring) : Prop :=
  w.2.completions ≠ [] ∨ w.2.queue.length < w.1.ring.queue.length

/-- What the loop has come to. -/
structure Spun (d : Driver G links) (is : List (Interlude links)) (r : Drain G links) : Prop where
  winding : r.driver.Winding
  drained : r.ending = some .drained → r.driver.kernelDrained = true
  broken : r.ending = some .broken → ∃ i ∈ is, i.breaks = true
  unended : r.ending = none → is.length ≤ r.waits.length + is.countP Interlude.fails
  waits : (∀ w ∈ r.waits, Served w) → r.waits.length + d.arrived ≤ d.debt

theorem drain_spun (hf : Fits links bytes) (h : d.Winding) (is : List (Interlude links)) :
    ∃ r, d.drain is = .ok r ∧ d.Spun is r := by
  induction is generalizing d with
  | nil =>
    exact ⟨⟨none, [], d⟩, rfl, h, nofun, nofun, fun _ => Nat.zero_le _, fun _ => by
      rw [List.length_nil, Nat.zero_add]
      exact d.arrived_le_debt⟩
  | cons i rest ih =>
    obtain ⟨hposted, hdebt, harrived⟩ := h.kin hf (d.ring.kin_posts i.posted)
    obtain ⟨p, hp, hpassed, hpass, hfailed⟩ := hposted.pass hf i.script
    obtain ⟨n, e, he, hwinding, hless, hring⟩ := hpassed.dispatch hf links i.during
    have hbound : e.debt + d.arrived ≤ d.debt := by omega
    unfold drain
    dsimp only
    rw [hp, ok_bind]
    dsimp only
    rw [he, ok_bind]
    dsimp only
    -- The loop goes on without a wait that counts.
    have hagain : ∀ r : Drain G links, i.fails = true → e.Spun rest r → d.Spun (i :: rest) r := by
      intro r hfails hspun
      refine ⟨hspun.winding, hspun.drained, fun hbroken => ?_, fun hnone => ?_, fun hserved => ?_⟩
      · obtain ⟨j, hj, hbreaks⟩ := hspun.broken hbroken
        exact ⟨j, List.mem_cons_of_mem _ hj, hbreaks⟩
      · have hlen := hspun.unended hnone
        rw [List.length_cons, List.countP_cons_of_pos hfails]
        omega
      · have hwaits := hspun.waits hserved
        omega
    have hstop : ∀ ending : Ending, (ending = .drained → e.kernelDrained = true) →
        (ending = .broken → i.breaks = true) → d.Spun (i :: rest) ⟨some ending, [], e⟩ := by
      intro ending hdrained hbroken
      refine ⟨hwinding, fun heq => hdrained (Option.some.inj heq), fun heq => ⟨i,
        List.mem_cons_self, hbroken (Option.some.inj heq)⟩, nofun, fun _ => ?_⟩
      rw [List.length_nil, Nat.zero_add]
      exact d.arrived_le_debt
    cases hkernel : e.kernelDrained with
    | true =>
      rw [if_pos rfl]
      exact ⟨_, rfl, hstop .drained (fun _ => hkernel) nofun⟩
    | false =>
      rw [if_neg (by decide)]
      cases hfail : p.failed with
      | true =>
        have hnone := hfailed hfail
        rw [if_pos rfl]
        cases htransient : i.submitTransient with
        | true =>
          rw [if_pos rfl]
          obtain ⟨r, hr, hspun⟩ := ih hwinding
          refine ⟨r, hr, hagain r ?_ hspun⟩
          unfold Interlude.fails
          rw [hnone]
          rfl
        | false =>
          rw [if_neg (by decide)]
          refine ⟨_, rfl, hstop .broken nofun fun _ => ?_⟩
          unfold Interlude.breaks
          rw [hnone, htransient]
          rfl
      | false =>
        rw [if_neg (by decide)]
        by_cases hpending : e.pendingCompletions = 0
        · rw [hwinding.drained hpending] at hkernel
          cases hkernel
        · rw [if_neg hpending]
          cases hwaited : i.waited with
          | none =>
            dsimp only
            cases htransient : i.waitTransient with
            | true =>
              rw [if_pos rfl]
              obtain ⟨r, hr, hspun⟩ := ih hwinding
              refine ⟨r, hr, hagain r ?_ hspun⟩
              unfold Interlude.fails
              rw [hwaited, Option.isNone_none, Bool.or_true]
            | false =>
              rw [if_neg (by decide)]
              refine ⟨_, rfl, hstop .broken nofun fun _ => ?_⟩
              unfold Interlude.breaks
              rw [hwaited, htransient, Option.isNone_none, Bool.not_false, Bool.true_and,
                Bool.or_true]
          | some taken =>
            dsimp only
            obtain ⟨hnext, hqueued, hshrinks⟩ := hwinding.wait hf taken i.arrived
            obtain ⟨r, hr, hspun⟩ := ih hnext
            rw [hr, ok_bind]
            refine ⟨_, rfl, hspun.winding, hspun.drained, fun hbroken => ?_, fun hnone => ?_,
              fun hserved => ?_⟩
            · obtain ⟨j, hj, hbreaks⟩ := hspun.broken hbroken
              exact ⟨j, List.mem_cons_of_mem _ hj, hbreaks⟩
            · have hlen := hspun.unended hnone
              have hcount := (List.sublist_cons_self i rest).countP_le (p := Interlude.fails)
              rw [List.length_cons, List.length_cons]
              omega
            · have hwaits := hspun.waits fun w hw => hserved w (List.mem_cons_of_mem _ hw)
              rw [List.length_cons]
              rcases hserved _ List.mem_cons_self with hcompletion | hhanded
              · unfold arrived at hwaits
                rw [if_neg hcompletion] at hwaits
                omega
              · dsimp only at hhanded
                omega

/-- The whole debt of a driver. -/
theorem Winding.debt_le (h : d.Winding) : d.debt ≤ 18 * links := by
  have hcard := h.inv.ledger.card_le
  have huncancelled : d.uncancelled ≤ 3 * links := by
    have hslot : ∀ index ∈ Finset.univ (α := Fin links), (d.operation index .data).uncancelled +
        (d.operation index .creditSend).uncancelled +
          (d.operation index .creditReceive).uncancelled ≤ 3 := by
      intro index _
      have hdata := (d.operation index .data).uncancelled_le_one
      have hsend := (d.operation index .creditSend).uncancelled_le_one
      have hreceive := (d.operation index .creditReceive).uncancelled_le_one
      omega
    refine (Finset.sum_le_card_nsmul _ _ 3 hslot).trans (le_of_eq ?_)
    rw [Finset.card_univ, Fintype.card_fin, smul_eq_mul, Nat.mul_comm]
  have hdebt := d.debt_add
  omega

/-- What a drop has come to when its loop ends, or has gone round so often. -/
structure Dropped (is : List (Interlude links)) (r : Drain G links) : Prop where
  /-- The driver is freed only when the kernel is done with all it was handed. -/
  drained : r.ending = some .drained → r.driver.ring.outstanding = 0 ∧
    ∀ index, (r.driver.slot index).idle = true ∧ (r.driver.slot index).isOpen = false
  broken : r.ending = some .broken → ∃ i ∈ is, i.breaks = true
  unended : r.ending = none → is.length ≤ r.waits.length + is.countP Interlude.fails
  bounded : (∀ w ∈ r.waits, Served w) → r.waits.length ≤ 18 * links
  /-- A kernel that serves every call is drained. -/
  ends : (∀ i ∈ is, i.fails = false) → (∀ w ∈ r.waits, Served w) → 18 * links < is.length →
    r.ending = some .drained

theorem Spun.dropped {is : List (Interlude links)} {r : Drain G links} (hd : d.Winding)
    (h : d.Spun is r) : Dropped is r := by
  have hbounded : (∀ w ∈ r.waits, Served w) → r.waits.length ≤ 18 * links := by
    intro hserved
    have hwaits := h.waits hserved
    have hdebt := hd.debt_le
    omega
  refine ⟨fun hending => ?_, h.broken, h.unended, hbounded, fun hsound hserved hlong => ?_⟩
  · have hdrained := h.drained hending
    unfold kernelDrained at hdrained
    simp only [Bool.and_eq_true, decide_eq_true_eq, List.all_eq_true] at hdrained
    refine ⟨?_, fun index => ⟨hdrained.2 index (List.mem_finRange index),
      h.winding.closing.closed index⟩⟩
    rw [← Multiset.card_eq_zero, ← h.winding.inv.pending]
    exact hdrained.1
  · cases hending : r.ending with
    | none =>
      have hlen := h.unended hending
      rw [List.countP_eq_zero.mpr fun i hi => by rw [hsound i hi]; exact Bool.false_ne_true] at hlen
      have hwaits := hbounded hserved
      omega
    | some ending =>
      cases ending with
      | drained => rfl
      | broken =>
        obtain ⟨i, hi, hbreaks⟩ := h.broken hending
        have hfails := hsound i hi
        unfold Interlude.fails at hfails
        unfold Interlude.breaks at hbreaks
        rw [Bool.or_eq_false_iff] at hfails
        rw [hfails.1, hfails.2] at hbreaks
        cases hbreaks

theorem shutdown_winding (hf : Fits links bytes) (hinv : d.Inv) (hwhole : d.Whole)
    (hcq : d.ring.cqEntries ≠ 0) (is : List (Interlude links)) :
    ∃ e r, d.shutdown is = .ok r ∧ e.Winding ∧ e.drain is = .ok r ∧ d.Reaches e ∧ e.Spun is r := by
  unfold shutdown
  cases hcomplete : d.shutdownComplete with
  | true =>
    have hwinding : d.Winding := ⟨hinv, closing_of_complete hcomplete, hwhole, hcq⟩
    obtain ⟨r, hr, hspun⟩ := drain_spun hf hwinding is
    exact ⟨d, r, hr, hwinding, hr, .refl, hspun⟩
  | false =>
    obtain ⟨s, hs, hreaches, -, hshut⟩ := Shared.cancelAll_shut hinv.shared
    have hreaches' : d.Reaches (d.withShared s) := Reaches.shared hreaches
    have hwinding : (d.withShared s).Winding :=
      ⟨Reaches.inv hf hinv hreaches', closing_of_shut hshut,
        Reaches.whole hreaches' hwhole, hcq⟩
    obtain ⟨r, hr, hspun⟩ := drain_spun hf hwinding is
    refine ⟨d.withShared s, r, ?_, hwinding, hr, hreaches', hspun⟩
    rw [if_neg Bool.false_ne_true, hs, ok_bind]
    exact hr

end Driver

/-! ## Runs that end in a drop -/

namespace Host

variable [Target] {G : Type} {links bytes : Nat} [NeZero links] {h h' : Host G links}

/-- The completion queue keeps its size. -/
theorem step_cqEntries (hf : Fits links bytes) (hinv : h.driver.Inv) {e : Event G links}
    (hstep : h.step bytes e = .ok h') : h'.driver.ring.cqEntries = h.driver.ring.cqEntries := by
  have hsubmit : ∀ (r : Ring) (taken : Option Nat), (r.submit taken).cqEntries = r.cqEntries := by
    intro r taken
    cases taken <;> rfl
  cases e with
  | advance mode budget script =>
    unfold step at hstep
    dsimp only at hstep
    by_cases hbudget : budget.completions = 0 ∨ budget.submissions = 0 ∨ budget.bytes = 0
    · have hnone : h.driver.advanceWith mode budget script = .ok none := if_pos hbudget
      rw [hnone] at hstep
      cases hstep
      rfl
    · obtain ⟨p, hp, hpassed⟩ := Driver.advanceWith_passed hf hinv mode budget script hbudget
      rw [hp] at hstep
      cases hstep
      obtain ⟨queue, taken, hring⟩ := hpassed.ring
      dsimp only
      rw [hring, hsubmit]
  | dispatch budget during =>
    obtain ⟨⟨n, d⟩, hd, hstep⟩ := bind_eq_ok.mp hstep
    cases hstep
    unfold Driver.dispatchWithBudget at hd
    split at hd
    · cases hd
      rfl
    · obtain ⟨⟨cursor, dispatched, s⟩, -, hd⟩ := bind_eq_ok.mp hd
      cases hd
      rfl
  | attach a =>
    obtain ⟨⟨result, s⟩, -, hstep⟩ := bind_eq_ok.mp hstep
    cases hstep
    rfl
  | act a =>
    obtain ⟨s, -, hstep⟩ := bind_eq_ok.mp hstep
    cases hstep
    rfl
  | cancelAll =>
    obtain ⟨s, -, hstep⟩ := bind_eq_ok.mp hstep
    cases hstep
    rfl
  | enter index =>
    unfold step at hstep
    dsimp only at hstep
    split at hstep
    · cases hstep
      rfl
    · cases hstep
      rfl
  | exit | stopAdmission | popRecord =>
    cases hstep
    rfl
  | wait taken =>
    cases hstep
    dsimp only
    unfold Driver.wait
    split
    · rfl
    · exact hsubmit _ _
  | post index result buffer =>
    cases hstep
    exact (Ring.kin_post h.driver.ring index result buffer).cqEntries

theorem Did.whole (hdid : Did bytes h h') (hwhole : h.driver.Whole) : h'.driver.Whole := by
  cases hdid with
  | moved hd => exact Driver.Reaches.whole hd hwhole
  | attached => exact ⟨hwhole.owned.attached _ _ _, hwhole.detached⟩
  | drained =>
    refine ⟨hwhole.owned.popRecord, ?_⟩
    exact (Shared.popRecord_detached _).trans hwhole.detached

/-- What a drop can count on. -/
structure Droppable (d : Driver G links) : Prop where
  inv : d.Inv
  whole : d.Whole
  cqEntries : d.ring.cqEntries ≠ 0

theorem run_droppable (hf : Fits links bytes) (capacity cqEntries : Nat) (hcq : cqEntries ≠ 0)
    (room : 2 ≤ capacity) (events : List (Event G links)) :
    ∃ h, run bytes capacity cqEntries room events = .ok h ∧ Droppable h.driver := by
  refine steps_invariant (P := fun h : Host G links => Droppable h.driver) (fun h e hh => ?_)
    ⟨start_inv capacity cqEntries room, ⟨⟨fun _ => rfl, fun _ _ => rfl⟩, rfl⟩, hcq⟩ events
  obtain ⟨h', hstep, hdid⟩ := step_did hf hh.inv e
  refine ⟨h', hstep, hdid.inv hf hh.inv, hdid.whole hh.whole, ?_⟩
  rw [step_cqEntries hf hh.inv hstep]
  exact hh.cqEntries

/-- Whatever a driver has been through, a drop of it never panics, frees nothing that the
kernel may still use, and comes to its end. -/
theorem run_drop_drains (hf : Fits links bytes) (capacity cqEntries : Nat) (hcq : cqEntries ≠ 0)
    (room : 2 ≤ capacity) (events : List (Event G links)) (is : List (Interlude links)) :
    ∃ h r, run bytes capacity cqEntries room events = .ok h ∧ h.driver.shutdown is = .ok r ∧
      Driver.Dropped is r := by
  obtain ⟨h, hrun, hh⟩ := run_droppable (G := G) hf capacity cqEntries hcq room events
  obtain ⟨e, r, hr, hwinding, -, -, hspun⟩ :=
    Driver.shutdown_winding hf hh.inv hh.whole hh.cqEntries is
  exact ⟨h, r, hrun, hr, hspun.dropped hwinding⟩

end Host

namespace Host

/-- Two receives of a link are with the kernel when its driver is dropped. -/
def submitted : List (Event Unit 2) :=
  [.attach importing, .advance .immediate ⟨1, 4, 200⟩ ⟨[], false, some 4⟩]

/-- The first submit call is interrupted; the receives complete during the wait, and their
cancellations before the last pass. -/
def interrupted : List (Interlude 2) :=
  [⟨[], ⟨[], false, none⟩, true, [], none, false, []⟩,
    ⟨[], ⟨[], false, some 4⟩, false, [], some 0, false, [⟨0, -125, []⟩, ⟨0, -125, []⟩]⟩,
    ⟨[⟨0, 0, []⟩, ⟨0, 0, []⟩], ⟨[], false, some 4⟩, false, [], some 0, false, []⟩]

theorem run_drop_drains_interrupted : let _ := Target.x64
    ∃ (h : Host Unit 2) (r : Driver.Drain Unit 2), run 64 4 16 (by decide) submitted = .ok h ∧
      h.driver.shutdown interrupted = .ok r ∧ Driver.Dropped interrupted r ∧
      r.ending = some .drained := by
  intro _
  have hf : Fits 2 64 := ⟨by decide, by decide, by decide, by decide, by decide⟩
  obtain ⟨h, r, hrun, hr, hdropped⟩ := run_drop_drains (G := Unit) hf 4 16 (by decide) (by decide)
    submitted interrupted
  refine ⟨h, r, hrun, hr, hdropped, ?_⟩
  have hending : (run 64 4 16 (by decide) submitted >>= fun h =>
      h.driver.shutdown interrupted).map (fun r => r.ending) = .ok (some .drained) := by
    decide +kernel
  rw [hrun, ok_bind, hr] at hending
  exact Except.ok.inj hending

end Host

end Hiway.Uring
