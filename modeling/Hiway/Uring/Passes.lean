import Hiway.Uring.Turns

/-!
# Passes

A round gives each link that was ready when it began at most one turn, and a pass has at
most three rounds. Links that keep wanting a turn only move around the queue, and the
first link that is denied waits for the next pass.

* `turn_returns`: the turn of one link, with all that is said of it later.
* `turns_returns`, `rounds_returns`: the turns of a round are turns of the first links of
  the queue, in order, and no link has two.
* `blocked`, `rotated`: the first denied link waits, and links that keep wanting a turn only
  move around the queue.
* `advanceWith_returns`: a pass returns, is a chain of moves, and is `Fair`.
-/

namespace Hiway.Uring

open Exec Target Transport

theorem eq_singleton {α : Type} {i : α} {l : List α} (hnodup : l.Nodup) (hall : ∀ j ∈ l, j = i)
    (hi : i ∈ l) :
    l = [i] := by
  have hreplicate := List.eq_replicate_of_mem hall
  have hle : l.length ≤ 1 := by
    rw [hreplicate] at hnodup
    exact List.nodup_replicate.mp hnodup
  have hpos := List.length_pos_of_mem hi
  have hone : l.length = 1 := by omega
  rw [hreplicate, hone]
  rfl

theorem isRotated_filter {α : Type} {l l' : List α} (h : l ~r l') (w : α → Bool) :
    l.filter w ~r l'.filter w := by
  obtain ⟨n, rfl⟩ := h
  have hsplit : l.filter w =
      (l.take (n % l.length)).filter w ++ (l.drop (n % l.length)).filter w := by
    rw [← List.filter_append, List.take_append_drop]
  rw [hsplit, List.rotate_eq_drop_append_take_mod, List.filter_append]
  exact List.isRotated_append

namespace Driver

variable {G : Type} {links : Nat}

/-- What an attempt queues. -/
theorem Outcome.entries {r r' : Ring} {count : Nat} {attempt : Attempt}
    (h : Outcome r count attempt r') : ∃ entries : List Entry,
      r' = { r with queue := r.queue ++ entries } ∧ entries.length ≤ 1 ∧
      (∀ e ∈ entries, e.isRequest = true → r.queue.length + 1 < r.capacity) ∧
      ((∃ e, entries = [e] ∧ attempt = .submitted e.opcode.length ∧ e.opcode.length ≤ count) ∨
        entries = [] ∧ ∀ n, attempt ≠ .submitted n) := by
  cases h with
  | idle =>
    exact ⟨[], by rw [List.append_nil], Nat.zero_le 1, fun e he => absurd he List.not_mem_nil,
      Or.inr ⟨rfl, fun n hn => by cases hn⟩⟩
  | blocked =>
    exact ⟨[], by rw [List.append_nil], Nat.zero_le 1, fun e he => absurd he List.not_mem_nil,
      Or.inr ⟨rfl, fun n hn => by cases hn⟩⟩
  | queued entry hlength hroom =>
    refine ⟨[entry], rfl, le_refl 1, fun e he => ?_, Or.inl ⟨entry, rfl, rfl, hlength⟩⟩
    rw [List.mem_singleton.mp he]
    exact hroom

section

variable {d d' : Driver G links} {i : Fin links} {count count' : Nat}

theorem Denied.mono (h : d.Denied count) (hcount : count' ≤ count)
    (hcapacity : d'.ring.capacity = d.ring.capacity)
    (hqueue : d.ring.queue.length ≤ d'.ring.queue.length) : d'.Denied count' := by
  unfold Denied at h ⊢
  rw [hcapacity]
  omega

/-- A stuck link stays stuck while nobody touches its slot. -/
theorem Stuck.mono (h : d.Stuck i count) (hslot : d'.slot i = d.slot i) (hcount : count' ≤ count)
    (hcapacity : d'.ring.capacity = d.ring.capacity)
    (hqueue : d.ring.queue.length ≤ d'.ring.queue.length) : d'.Stuck i count' := by
  obtain ⟨lane, hlane, hstuck⟩ := h
  refine ⟨lane, ?_, ?_⟩
  · unfold chosen at hlane ⊢
    rw [hslot]
    exact hlane
  · rw [hslot]
    split at hstuck
    · rename_i hcancel
      rw [if_pos hcancel, hcapacity]
      exact le_trans hstuck hqueue
    · rename_i hcancel
      rw [if_neg hcancel]
      exact hstuck.mono hcount hcapacity hqueue

end

/-- The first denied link comes to the front, and the queue is only turned. -/
theorem prioritized_returns [NeZero links] {r : Ready links} (h : r.Inv) (blocked : Option (Fin links)) :
    ∃ r', prioritized r blocked = .ok r' ∧ r'.Inv ∧ r.contents ~r r'.contents ∧
      ∀ i, blocked = some i → i ∈ r.contents → r'.contents.head? = some i := by
  cases blocked with
  | none => exact ⟨r, rfl, h, .refl _, fun i hi => by cases hi⟩
  | some index =>
    obtain ⟨r', hr', hinv, hcontents, hhead, -⟩ := Ready.prioritize_spec h index
    refine ⟨r', hr', hinv, ?_, fun i hi hin => ?_⟩
    · rw [hcontents]
      split
      · exact ⟨_, rfl⟩
      · exact .refl _
    · cases hi
      exact (hhead hin).1

/-- Three rounds are three submissions at most. -/
theorem length_entries_le {ts : List (Turn links)}
    (hdistinct : ts.Pairwise fun t u => ¬(t.round = u.round ∧ t.index = u.index))
    (hround : ∀ t ∈ ts, t.round < 3) (hsingle : ∀ t ∈ ts, t.entries.length ≤ 1) (i : Fin links) :
    ((ts.filter fun t => t.index = i).flatMap Turn.entries).length ≤ 3 := by
  have hnodup : ((ts.filter fun t => t.index = i).map Turn.round).Nodup := by
    rw [List.nodup_iff_pairwise_ne, List.pairwise_map, List.pairwise_filter]
    refine hdistinct.imp fun hne ht hu heq => hne ⟨heq, ?_⟩
    rw [of_decide_eq_true ht, of_decide_eq_true hu]
  have hsubset : (ts.filter fun t => t.index = i).map Turn.round ⊆ List.range 3 := by
    intro r hr
    obtain ⟨t, ht, rfl⟩ := List.mem_map.mp hr
    exact List.mem_range.mpr (hround t (List.mem_filter.mp ht).1)
  have hcount := (hnodup.subperm hsubset).length_le
  rw [List.length_map, List.length_range] at hcount
  refine le_trans ?_ hcount
  rw [List.length_flatMap]
  refine (List.sum_le_card_nsmul _ 1 fun n hn => ?_).trans (le_of_eq ?_)
  · obtain ⟨t, ht, rfl⟩ := List.mem_map.mp hn
    exact hsingle t (List.mem_filter.mp ht).1
  · rw [List.length_map, smul_eq_mul, Nat.mul_one]

/-! ## A turn -/

/-- A link that has been denied, with nothing left to refresh, and queued. -/
structure Waits (budget : Budget) (p : Pass G links) (i : Fin links) : Prop where
  stuck : p.driver.Stuck i (budget.bytes - p.bytes)
  settled : (p.driver.slot i).refresh = p.driver.slot i
  present : p.driver.shared.ready.present i = true

/-- A link that waits has a lane to submit. -/
theorem Waits.pending {budget : Budget} {p : Pass G links} {i : Fin links}
    (h : Waits budget p i) :
    ∃ lane, (p.driver.slot i).pendingLane = .ok (some lane) := by
  obtain ⟨lane, hlane, -⟩ := h.stuck
  unfold chosen at hlane
  split at hlane
  · cases hlane
  · exact ⟨lane, hlane⟩

/-- A turn `t` between two states of a pass. -/
structure Turned [Target] [NeZero links] (budget : Budget) (round : Nat) (p q : Pass G links)
    (t : Turn links) : Prop where
  log : q.log = p.log ++ [t]
  round : t.round = round
  reaches : p.driver.Reaches q.driver
  queue : ∃ rest, p.driver.shared.ready.contents = t.index :: rest ∧
    rest <+: q.driver.shared.ready.contents
  kept : t.kept = q.driver.shared.ready.present t.index
  attends : ∀ i, i ≠ t.index → Shared.Attends i p.driver.shared q.driver.shared
  wanting : (q.driver.slot t.index).Wanting → t.kept = true
  barred : (p.driver.slot t.index).Barred → t.answer = none ∧ (q.driver.slot t.index).Barred
  contended : t.answer = some (.error .contended) → (q.driver.slot t.index).Barred
  queued : t.queued = p.driver.ring.queue.length
  ring : q.driver.ring = { p.driver.ring with queue := p.driver.ring.queue ++ t.entries }
  single : t.entries.length ≤ 1
  room : ∀ e ∈ t.entries, e.isRequest = true → t.queued + 1 < p.driver.ring.capacity
  submissions : q.submissions = p.submissions + t.entries.length
  bytes : q.bytes = p.bytes + (t.entries.map fun e => e.opcode.length).sum
  bytes_le : q.bytes ≤ budget.bytes
  blocked : q.blocked = if t.attempt = some .blocked then p.blocked.or (some t.index) else p.blocked
  waits : ∀ i, Waits budget p i → Waits budget q i
  denied : t.attempt = some .blocked → Waits budget q t.index

variable [Target] [NeZero links] {bytes : Nat} {budget : Budget} {p q : Pass G links}
  {index : Fin links} {rest : List (Fin links)}

/-- The driver once the link has left the queue and been refreshed. -/
structure Started (d : Driver G links) (index : Fin links) (d' : Driver G links) : Prop where
  reaches : d.Reaches d'
  ring : d'.ring = d.ring
  self : d'.slot index = (d.slot index).refresh
  others : ∀ i, i ≠ index → d'.slot i = d.slot i
  present : ∀ i, i ≠ index → d.shared.ready.present i = true → d'.shared.ready.present i = true
  contents : d.shared.ready.contents = index :: d'.shared.ready.contents

theorem pop_started {d : Driver G links} (h : d.Inv)
    (hqueue : d.shared.ready.contents = index :: rest) :
    ∃ ready, d.shared.ready.pop = .ok (index, ready) ∧
      d.Started index (d.withShared
        (Shared.refresh { d.shared with ready := ready } index)) := by
  obtain ⟨ready, hpop, hrest, hready⟩ := Ready.pop_spec h.shared.ready hqueue
  have hmove : d.Move (d.withShared { d.shared with ready := ready }) := .ready ready fun _ => hready
  refine ⟨ready, hpop, ⟨.trans (.single hmove) (Leads.refresh _ index).reaches, rfl,
    Shared.update_self, fun i hi => update_slot_of_ne hi Slot.refresh, fun i hi hp => ?_, ?_⟩⟩
  · change ready.present i = true
    rw [h.shared.ready.present, hqueue] at hp
    rw [hready.present, hrest]
    exact (List.mem_cons.mp hp).resolve_left hi
  · change d.shared.ready.contents = index :: ready.contents
    rw [hqueue, hrest]

/-- A stuck link is left as it was, and goes back to the queue. -/
theorem Stuck.concluded {d d' : Driver G links} (h : d.Inv) {count : Nat} (hs : d.Stuck index count)
    (hsettled : (d.slot index).refresh = d.slot index) (hconcluded : d.Concluded index d')
    (hslot : d'.slot index = (d.slot index).refresh) :
    d'.Stuck index count ∧ (d'.slot index).refresh = d'.slot index ∧
      d'.shared.ready.present index = true := by
  rw [hsettled] at hslot
  refine ⟨hs.mono hslot le_rfl (by rw [hconcluded.ring]) (by rw [hconcluded.ring]), ?_,
    hconcluded.wanting ?_⟩
  · rw [hslot]
    exact hsettled
  · obtain ⟨lane, hlane, -⟩ := hs
    obtain ⟨lane', hlane', hsome, -⟩ := chosen_returns h index
    rw [hlane] at hlane'
    cases hlane'
    obtain ⟨-, p, hp, hwants⟩ := hsome lane rfl
    rw [hslot]
    exact ⟨p, hp, lane, hwants⟩

/-- The turn of a link, from its attempt and its end. -/
theorem turn_eq {ready : Ready links} {d d' : Driver G links} {lane : Option Lane}
    {s : Submission G links} {mode : Admission} (round : Nat) {entries : List Entry}
    (hpop : p.driver.shared.ready.pop = .ok (index, ready)) (hbytes : p.bytes ≤ budget.bytes)
    (hd : d = p.driver.withShared (Shared.refresh { p.driver.shared with ready := ready } index))
    (hattempt : d.attempt mode index (budget.bytes - p.bytes) p.replies = .ok (lane, s))
    (hentries : (∃ e, entries = [e] ∧ s.attempt = .submitted e.opcode.length) ∨
      entries = [] ∧ ∀ n, s.attempt ≠ .submitted n)
    (hconclude : s.driver.conclude index (if entries.isEmpty then none else lane) = .ok d')
    (hqueued : d'.ring.queue.drop d.ring.queue.length = entries) :
    turn mode budget round p = .ok
      { driver := d'
        submissions := p.submissions + entries.length
        bytes := p.bytes + (entries.map fun e => e.opcode.length).sum
        blocked := if s.attempt = .blocked then p.blocked.or (some index) else p.blocked
        replies := s.replies
        log := p.log ++ [{
          round := round
          index := index
          attempt := lane.map fun _ => s.attempt
          answer := s.answer
          queued := d.ring.queue.length
          entries := entries
          kept := d'.shared.ready.present index }] } := by
  subst hd
  unfold turn
  rw [hpop, ok_bind]
  dsimp only
  rw [sub_of_le hbytes, ok_bind]
  refine (congrArg (· >>= _) hattempt).trans ?_
  rw [ok_bind]
  have hdrop : d'.ring.queue.drop p.driver.ring.queue.length = entries := hqueued
  obtain ⟨attempt, answer, replies, driver⟩ := s
  rcases hentries with ⟨e, rfl, rfl⟩ | ⟨rfl, hnot⟩
  · refine (congrArg (· >>= _) hconclude).trans ?_
    rw [ok_bind]
    dsimp only
    rw [hdrop]
    rfl
  · cases attempt with
    | submitted n => exact absurd rfl (hnot n)
    | blocked =>
      refine (congrArg (· >>= _) hconclude).trans ?_
      rw [ok_bind]
      dsimp only
      rw [hdrop]
      rfl
    | idle =>
      refine (congrArg (· >>= _) hconclude).trans ?_
      rw [ok_bind]
      dsimp only
      rw [hdrop]
      rfl

theorem turn_returns (hf : Fits links bytes) (h : p.driver.Inv) (mode : Admission) (round : Nat)
    (hqueue : p.driver.shared.ready.contents = index :: rest) (hbytes : p.bytes ≤ budget.bytes) :
    ∃ q t, turn mode budget round p = .ok q ∧ Turned budget round p q t ∧ t.index = index := by
  obtain ⟨ready, hpop, hstarted⟩ := pop_started h hqueue
  obtain ⟨d, hd⟩ : ∃ d, d = p.driver.withShared
      (Shared.refresh { p.driver.shared with ready := ready } index) := ⟨_, rfl⟩
  rw [← hd] at hstarted
  have hinv : d.Inv := hstarted.reaches.inv hf h
  obtain ⟨lane, s, hattempt, hattempted, hidle, hblocked, hstuck⟩ :=
    attempt_returns hf hinv mode index (budget.bytes - p.bytes) p.replies
  have hinv' := hattempted.leads.reaches.inv hf hinv
  obtain ⟨entries, hring, hsingle, hroom, hentries⟩ := hattempted.outcome.entries
  obtain ⟨d', hconclude, hconcluded, hrefreshed, hready'⟩ :=
    conclude_returns hf hinv' index (if entries.isEmpty then none else lane)
  have hring' : d'.ring = { p.driver.ring with queue := p.driver.ring.queue ++ entries } := by
    rw [hconcluded.ring, hring, hstarted.ring]
  have hqueued : d'.ring.queue.drop d.ring.queue.length = entries := by
    rw [hring', hstarted.ring]
    exact List.drop_left
  have hturn := turn_eq round hpop hbytes hd hattempt
    (hentries.imp_left fun ⟨e, he, hsubmitted, _⟩ => ⟨e, he, hsubmitted⟩) hconclude hqueued
  have hleads := hattempted.leads.trans hconcluded.leads
  have hspent : p.bytes + (entries.map fun e => e.opcode.length).sum ≤ budget.bytes := by
    rcases hentries with ⟨e, rfl, -, hle⟩ | ⟨rfl, -⟩
    · rw [List.map_singleton, List.sum_singleton]
      omega
    · exact hbytes
  have hblocked' : (lane.map fun _ => s.attempt) = some .blocked ↔ s.attempt = .blocked := by
    cases lane with
    | none =>
      rw [hidle rfl]
      exact ⟨fun hn => (by cases hn), fun hn => (by cases hn)⟩
    | some lane => exact ⟨Option.some.inj, congrArg some⟩
  -- A denied link has queued nothing, and is as its refresh has left it.
  have hwait : d.Stuck index (budget.bytes - p.bytes) →
      d'.Stuck index (budget.bytes - p.bytes) ∧ (d'.slot index).refresh = d'.slot index ∧
        d'.shared.ready.present index = true ∧ entries = [] := by
    intro hs
    obtain rfl := hstuck hs
    obtain ⟨e, -, hsubmitted, -⟩ | ⟨rfl, -⟩ := hentries
    · cases hsubmitted
    · have hsettled : (d.slot index).refresh = d.slot index := by
        rw [hstarted.self]
        exact Slot.refresh_refresh (h.shared.slot index)
      obtain ⟨hnow, hrefresh, hpresent⟩ := hs.concluded hinv hsettled hconcluded (hrefreshed rfl)
      exact ⟨hnow, hrefresh, hpresent, rfl⟩
  refine ⟨_, _, hturn,
    { log := rfl
      round := rfl
      reaches := hstarted.reaches.trans hleads.reaches
      queue := ⟨_, hstarted.contents, hleads.contents⟩
      kept := rfl
      attends := fun i hi => (Shared.Attends.other (hstarted.present i hi)
        (hstarted.others i hi)).trans (hleads.attends i hi)
      wanting := hconcluded.wanting
      barred := fun hb => ?_
      contended := fun hc => hconcluded.barred (hattempted.contended hc)
      queued := by rw [hstarted.ring]
      ring := hring'
      single := hsingle
      room := by
        rw [hstarted.ring] at hroom ⊢
        exact hroom
      submissions := rfl
      bytes := rfl
      bytes_le := hspent
      blocked := by simp only [hblocked']
      waits := fun i hw => ?_
      denied := fun hb => ?_ }, rfl⟩
  · have hd : (d.slot index).Barred := by
      rw [hstarted.self]
      exact hb.refresh
    exact ⟨(hattempted.barred hd).1, hconcluded.barred (hattempted.barred hd).2⟩
  · by_cases heq : i = index
    · subst heq
      have hs : d.Stuck i (budget.bytes - p.bytes) := hw.stuck.mono
        (hstarted.self.trans hw.settled) le_rfl (by rw [hstarted.ring]) (by rw [hstarted.ring])
      obtain ⟨hnow, hrefresh, hpresent, rfl⟩ := hwait hs
      exact ⟨hnow, hrefresh, hpresent⟩
    · have hdenied : d.Denied (budget.bytes - p.bytes) := hw.stuck.denied.mono le_rfl
        (by rw [hstarted.ring]) (by rw [hstarted.ring])
      obtain ⟨hsame, hothers⟩ := hattempted.denied hdenied
      have hslot : d'.slot i = p.driver.slot i :=
        (hconcluded.others i heq).trans ((hothers i heq).trans (hstarted.others i heq))
      have hpresent : s.driver.shared.ready.present i = true := by
        rw [hsame]
        exact hstarted.present i heq hw.present
      refine ⟨hw.stuck.mono hslot (Nat.sub_le_sub_left (Nat.le_add_right _ _) _) ?_ ?_, ?_, ?_⟩
      · change d'.ring.capacity = _
        rw [hring']
      · change _ ≤ d'.ring.queue.length
        rw [hring']
        dsimp only
        rw [List.length_append]
        exact Nat.le_add_right _ _
      · change (d'.slot i).refresh = d'.slot i
        rw [hslot]
        exact hw.settled
      · change d'.shared.ready.present i = true
        rcases hready' with hr | hr
        · rw [hr]
          exact hpresent
        · rw [hr]
          exact Shared.Attends.present_push hpresent
  · obtain ⟨hnow, hrefresh, hpresent, rfl⟩ := hwait (hblocked (hblocked'.mp hb))
    exact ⟨hnow, hrefresh, hpresent⟩

/-! ## Turns one after the other -/

/-- Whether an attempt was denied. -/
def isDenied (t : Turn links) : Bool := t.attempt = some .blocked

/-- The turns between two states of a pass. -/
inductive Took (budget : Budget) : Pass G links → List (Turn links) → Pass G links → Prop
  | nil (p : Pass G links) : Took budget p [] p
  | cons {p q r : Pass G links} {t : Turn links} {ts : List (Turn links)}
      (h : Turned budget t.round p q t) (hrest : Took budget q ts r) : Took budget p (t :: ts) r

namespace Took

variable {r : Pass G links} {ts us : List (Turn links)} {i : Fin links}

theorem trans (h : Took budget p ts q) (h' : Took budget q us r) : Took budget p (ts ++ us) r := by
  induction h with
  | nil p => exact h'
  | cons hturned _ ih => exact .cons hturned (ih h')

theorem reaches (h : Took budget p ts q) : p.driver.Reaches q.driver := by
  induction h with
  | nil p => exact .refl
  | cons hturned _ ih => exact hturned.reaches.trans ih

theorem log (h : Took budget p ts q) : q.log = p.log ++ ts := by
  induction h with
  | nil p => rw [List.append_nil]
  | cons hturned _ ih => rw [ih, hturned.log, List.append_assoc, List.singleton_append]

theorem ring (h : Took budget p ts q) : q.driver.ring =
    { p.driver.ring with queue := p.driver.ring.queue ++ ts.flatMap Turn.entries } := by
  induction h with
  | nil p => rw [List.flatMap_nil, List.append_nil]
  | cons hturned _ ih => rw [ih, hturned.ring, List.flatMap_cons, List.append_assoc]

theorem submissions (h : Took budget p ts q) :
    q.submissions = p.submissions + (ts.flatMap Turn.entries).length := by
  induction h with
  | nil p => rfl
  | cons hturned _ ih =>
    rw [ih, hturned.submissions, List.flatMap_cons, List.length_append, Nat.add_assoc]

theorem spent (h : Took budget p ts q) :
    q.bytes = p.bytes + ((ts.flatMap Turn.entries).map fun e => e.opcode.length).sum := by
  induction h with
  | nil p => rfl
  | cons hturned _ ih =>
    rw [ih, hturned.bytes, List.flatMap_cons, List.map_append, List.sum_append, Nat.add_assoc]

theorem bytes_le (h : Took budget p ts q) (hp : p.bytes ≤ budget.bytes) :
    q.bytes ≤ budget.bytes := by
  induction h with
  | nil p => exact hp
  | cons hturned _ ih => exact ih hturned.bytes_le

/-- No turn of a barred link asks for admission. -/
theorem barred (h : Took budget p ts q) (hb : (p.driver.slot i).Barred) :
    (∀ t ∈ ts, t.index = i → t.answer = none) ∧ (q.driver.slot i).Barred := by
  induction h with
  | nil p => exact ⟨fun t ht => absurd ht List.not_mem_nil, hb⟩
  | @cons p q r t ts hturned _ ih =>
    by_cases heq : t.index = i
    · subst heq
      obtain ⟨hnone, hnext⟩ := hturned.barred hb
      obtain ⟨hall, hlast⟩ := ih hnext
      refine ⟨fun u hu hindex => ?_, hlast⟩
      rcases List.mem_cons.mp hu with rfl | hu
      · exact hnone
      · exact hall u hu hindex
    · obtain ⟨hall, hlast⟩ := ih ((hturned.attends i (Ne.symm heq)).barred hb)
      refine ⟨fun u hu hindex => ?_, hlast⟩
      rcases List.mem_cons.mp hu with rfl | hu
      · exact absurd hindex heq
      · exact hall u hu hindex

/-- A link that has been contended is not asked for admission again. -/
theorem contended (h : Took budget p ts q) {pre post : List (Turn links)} {t : Turn links}
    (hts : ts = pre ++ t :: post) (ht : t.answer = some (.error .contended)) :
    ∀ u ∈ post, u.index = t.index → u.answer = none := by
  induction h generalizing pre with
  | nil p => exact absurd hts.symm (List.append_ne_nil_of_right_ne_nil _ (List.cons_ne_nil _ _))
  | @cons p q r first rest hturned hrest ih =>
    cases pre with
    | nil =>
      obtain ⟨rfl, rfl⟩ := List.cons.inj hts
      exact (hrest.barred (hturned.contended ht)).1
    | cons u pre => exact ih (List.cons.inj hts).2

/-- A link that has had a turn, and wants another, is queued. -/
theorem attended (h : Took budget p ts q)
    (hi : ((p.driver.slot i).Wanting → p.driver.shared.ready.present i = true) ∨
      ∃ t ∈ ts, t.index = i) :
    (q.driver.slot i).Wanting → q.driver.shared.ready.present i = true := by
  induction h with
  | nil p => exact hi.resolve_right fun ⟨t, ht, _⟩ => List.not_mem_nil ht
  | @cons p q r t ts hturned _ ih =>
    apply ih
    by_cases heq : t.index = i
    · subst heq
      exact Or.inl fun hw => hturned.kept.symm.trans (hturned.wanting hw)
    · rcases hi with hi | ⟨u, hu, hindex⟩
      · have hattends := hturned.attends i (Ne.symm heq)
        exact Or.inl fun hw => (hattends.wanting hw).elim
          (fun hp => hattends.present (hi hp)) id
      · rcases List.mem_cons.mp hu with rfl | hu
        · exact absurd hindex heq
        · exact Or.inr ⟨u, hu, hindex⟩

/-- How many entries were queued when a turn began, and the room that it left. -/
theorem queued (h : Took budget p ts q) {pre post : List (Turn links)} {t : Turn links}
    (hts : ts = pre ++ t :: post) :
    t.queued = p.driver.ring.queue.length + (pre.flatMap Turn.entries).length ∧
      t.entries.length ≤ 1 ∧
      ∀ e ∈ t.entries, e.isRequest = true → t.queued + 1 < p.driver.ring.capacity := by
  induction h generalizing pre with
  | nil p => exact absurd hts.symm (List.append_ne_nil_of_right_ne_nil _ (List.cons_ne_nil _ _))
  | @cons p q r first rest hturned hrest ih =>
    cases pre with
    | nil =>
      obtain ⟨rfl, rfl⟩ := List.cons.inj hts
      exact ⟨hturned.queued, hturned.single, hturned.room⟩
    | cons u pre =>
      obtain ⟨rfl, htail⟩ := List.cons.inj hts
      obtain ⟨hqueued, hsingle, hroom⟩ := ih htail
      rw [hturned.ring] at hqueued hroom
      dsimp only at hqueued hroom
      rw [List.length_append] at hqueued
      refine ⟨?_, hsingle, hroom⟩
      rw [List.flatMap_cons, List.length_append]
      omega

theorem single (h : Took budget p ts q) : ∀ t ∈ ts, t.entries.length ≤ 1 := by
  intro t ht
  obtain ⟨pre, post, hts⟩ := List.append_of_mem ht
  exact (h.queued hts).2.1

/-- The first denied link waits. -/
theorem blocked (h : Took budget p ts q) (hp : ∀ i, p.blocked = some i → Waits budget p i) :
    q.blocked = p.blocked.or ((ts.find? isDenied).map Turn.index) ∧
      ∀ i, q.blocked = some i → Waits budget q i := by
  induction h with
  | nil p => exact ⟨by rw [List.find?_nil, Option.map_none, Option.or_none], hp⟩
  | @cons p q r t ts hturned _ ih =>
    have hq : ∀ i, q.blocked = some i → Waits budget q i := by
      intro i hi
      rw [hturned.blocked] at hi
      split at hi
      · rename_i hblocked
        cases hb : p.blocked with
        | none =>
          rw [hb] at hi
          cases hi
          exact hturned.denied hblocked
        | some j =>
          rw [hb] at hi
          cases hi
          exact hturned.waits i (hp i hb)
      · exact hturned.waits i (hp i hi)
    obtain ⟨hblocked, hwaits⟩ := ih hq
    refine ⟨?_, hwaits⟩
    rw [hblocked, hturned.blocked, List.find?_cons]
    by_cases ht : t.attempt = some .blocked
    · rw [if_pos ht]
      simp only [isDenied, ht, decide_true, Option.map_some]
      cases p.blocked <;> rfl
    · rw [if_neg ht]
      simp only [isDenied, ht, decide_false]

/-- Links that keep wanting a turn only move around the queue. -/
theorem rotated (h : Took budget p ts q) (hinv : p.driver.Inv)
    (hf : Fits links bytes) {w : Fin links → Bool}
    (hw : ∀ i, w i = true → i ∈ p.driver.shared.ready.contents)
    (hkept : ∀ t ∈ ts, w t.index = true → t.kept = true) :
    p.driver.shared.ready.contents.filter w ~r q.driver.shared.ready.contents.filter w := by
  induction h with
  | nil p => exact List.IsRotated.refl _
  | @cons p q r t ts hturned _ ih =>
    have hinv' := hturned.reaches.inv hf hinv
    obtain ⟨rest, hqueue, added, hadded⟩ := hturned.queue
    have hnodup := hinv.shared.ready.nodup
    have hnodup' := hinv'.shared.ready.nodup
    rw [← hadded] at hnodup'
    have honly : ∀ i ∈ added.filter w, i = t.index := by
      intro i hi
      obtain ⟨hin, hwi⟩ := List.mem_filter.mp hi
      have hmem := hw i hwi
      rw [hqueue] at hmem
      refine (List.mem_cons.mp hmem).resolve_right fun hrest => ?_
      exact List.disjoint_of_nodup_append hnodup' hrest hin
    have hfirst : added.filter w = if w t.index then [t.index] else [] := by
      split
      · rename_i ht
        have hkept := hkept t List.mem_cons_self ht
        rw [hturned.kept, hinv'.shared.ready.present, ← hadded] at hkept
        rw [hqueue, List.nodup_cons] at hnodup
        have hin := (List.mem_append.mp hkept).resolve_left hnodup.1
        exact eq_singleton (hnodup'.of_append_right.filter _) honly (List.mem_filter.mpr ⟨hin, ht⟩)
      · rename_i ht
        rw [List.filter_eq_nil_iff]
        intro i hi hwi
        rw [honly i (List.mem_filter.mpr ⟨hi, hwi⟩)] at hwi
        exact ht hwi
    have hstep : p.driver.shared.ready.contents.filter w ~r
        q.driver.shared.ready.contents.filter w := by
      rw [hqueue, ← hadded, List.filter_append, hfirst]
      by_cases ht : w t.index = true
      · rw [List.filter_cons_of_pos ht, if_pos ht]
        exact ⟨1, by rw [List.rotate_cons_succ, List.rotate_zero]⟩
      · rw [List.filter_cons_of_neg ht, if_neg ht, List.append_nil]
    refine hstep.trans (ih hinv' (fun i hi => ?_) fun u hu => hkept u (List.mem_cons_of_mem t hu))
    have hmem : i ∈ p.driver.shared.ready.contents.filter w := List.mem_filter.mpr ⟨hw i hi, hi⟩
    exact (List.mem_filter.mp (hstep.perm.mem_iff.mp hmem)).1

end Took

/-! ## Rounds -/

/-- The turns of one round are turns of the first links of the queue, in order. -/
theorem turns_returns (hf : Fits links bytes) (mode : Admission) (round fuel : Nat)
    (h : p.driver.Inv) (hfuel : fuel ≤ p.driver.shared.ready.contents.length)
    (hbytes : p.bytes ≤ budget.bytes) (hsubmissions : p.submissions ≤ budget.submissions) :
    ∃ q ts, turns mode budget round fuel p = .ok q ∧ Took budget p ts q ∧
      (∀ t ∈ ts, t.round = round) ∧ ts.length ≤ fuel ∧
      ts.map Turn.index <+: p.driver.shared.ready.contents ∧
      q.submissions ≤ budget.submissions := by
  induction fuel generalizing p with
  | zero =>
    exact ⟨p, [], rfl, .nil p, fun t ht => absurd ht List.not_mem_nil, le_rfl, List.nil_prefix,
      hsubmissions⟩
  | succ fuel ih =>
    unfold turns
    by_cases hspent : p.submissions = budget.submissions
    · rw [if_pos hspent]
      exact ⟨p, [], rfl, .nil p, fun t ht => absurd ht List.not_mem_nil, Nat.zero_le _,
        List.nil_prefix, hsubmissions⟩
    · rw [if_neg hspent]
      obtain ⟨index, rest, hqueue⟩ := List.exists_cons_of_length_pos (Nat.lt_of_lt_of_le
        (Nat.succ_pos fuel) hfuel)
      obtain ⟨q, t, hturn, hturned, rfl⟩ := turn_returns hf h mode round hqueue hbytes
      rw [hturn, ok_bind]
      obtain ⟨rest', hqueue', hprefix⟩ := hturned.queue
      obtain rfl : rest = rest' := (List.cons.inj (hqueue.symm.trans hqueue')).2
      have hlen : fuel ≤ rest.length := by
        rw [hqueue, List.length_cons] at hfuel
        omega
      have hone := hturned.single
      obtain ⟨r, ts, hturns, htook, hround, hcount, hindices, hle⟩ := ih
        (hturned.reaches.inv hf h) (hlen.trans hprefix.length_le) hturned.bytes_le
        (by rw [hturned.submissions]; omega)
      refine ⟨r, t :: ts, hturns, .cons (by rw [hturned.round]; exact hturned) htook,
        fun u hu => ?_, Nat.succ_le_succ hcount, ?_, hle⟩
      · rcases List.mem_cons.mp hu with rfl | hu
        · exact hturned.round
        · exact hround u hu
      · rw [hqueue, List.map_cons, List.prefix_cons_inj]
        refine List.prefix_of_prefix_length_le hindices hprefix ?_
        rw [List.length_map]
        exact hcount.trans hlen

/-- No link has two turns in a round. -/
theorem rounds_returns (hf : Fits links bytes) (mode : Admission) (round fuel : Nat)
    (h : p.driver.Inv) (hbytes : p.bytes ≤ budget.bytes)
    (hsubmissions : p.submissions ≤ budget.submissions) :
    ∃ q ts, rounds mode budget round fuel p = .ok q ∧ Took budget p ts q ∧
      (∀ t ∈ ts, round ≤ t.round ∧ t.round < round + fuel) ∧
      ts.Pairwise (fun t u => ¬(t.round = u.round ∧ t.index = u.index)) ∧
      q.submissions ≤ budget.submissions := by
  induction fuel generalizing p round with
  | zero =>
    exact ⟨p, [], rfl, .nil p, fun t ht => absurd ht List.not_mem_nil, .nil, hsubmissions⟩
  | succ fuel ih =>
    obtain ⟨q, ts, hturns, htook, hround, -, hindices, hle⟩ := turns_returns hf mode round
      p.driver.shared.ready.len h (le_of_eq (Ready.length_contents _).symm) hbytes hsubmissions
    have hdistinct : ts.Pairwise fun t u => ¬(t.round = u.round ∧ t.index = u.index) := by
      have hnodup := h.shared.ready.nodup.sublist hindices.sublist
      rw [List.nodup_iff_pairwise_ne, List.pairwise_map] at hnodup
      exact hnodup.imp fun hne heq => hne heq.2
    unfold rounds
    rw [hturns, ok_bind]
    split
    · refine ⟨q, ts, rfl, htook, fun t ht => ?_, hdistinct, hle⟩
      rw [hround t ht]
      omega
    · obtain ⟨r, us, hrounds, htook', hround', hdistinct', hle'⟩ := ih (round + 1)
        (htook.reaches.inv hf h) (htook.bytes_le hbytes) hle
      refine ⟨r, ts ++ us, hrounds, htook.trans htook', fun t ht => ?_, ?_, hle'⟩
      · rcases List.mem_append.mp ht with ht | ht
        · rw [hround t ht]
          omega
        · have hlater := hround' t ht
          omega
      · rw [List.pairwise_append]
        refine ⟨hdistinct, hdistinct', fun t ht u hu heq => ?_⟩
        have hlater := (hround' u hu).1
        rw [← heq.1, hround t ht] at hlater
        omega

/-! ## A pass -/

/-- What a pass over `d` keeps to. -/
structure Fair (budget : Budget) (d : Driver G links) (p : Progress G links) : Prop where
  completions : p.completions ≤ budget.completions ∧
    p.driver.ring.completions = d.ring.completions.drop p.completions
  submissions : p.submissions ≤ budget.submissions ∧
    (p.log.flatMap Turn.entries).length = p.submissions
  bytes : p.bytes ≤ budget.bytes ∧
    ((p.log.flatMap Turn.entries).map fun e => e.opcode.length).sum = p.bytes
  /-- The entries of the turns are all that the pass queues or hands over. -/
  queued : p.driver.ring.kernel ++ p.driver.ring.queue =
    d.ring.kernel ++ d.ring.queue ++ p.log.flatMap Turn.entries
  /-- A link has one turn in a round, with one submission at most. -/
  round : p.log.Pairwise (fun t u => ¬(t.round = u.round ∧ t.index = u.index)) ∧
    ∀ t ∈ p.log, t.entries.length ≤ 1
  pass : ∀ i, ((p.log.filter fun t => t.index = i).flatMap Turn.entries).length ≤ 3
  /-- A link that was contended is not asked for admission again. -/
  contended : ∀ pre t post, p.log = pre ++ t :: post → t.answer = some (.error .contended) →
    ∀ u ∈ post, u.index = t.index → u.answer = none
  /-- A send or receive leaves an entry free. -/
  room : ∀ pre t post, p.log = pre ++ t :: post → ∀ e ∈ t.entries, e.isRequest = true →
    d.ring.queue.length + (pre.flatMap Turn.entries).length + 1 < d.ring.capacity
  back : ∀ t ∈ p.log, ∀ lane, (p.driver.slot t.index).pendingLane = .ok (some lane) →
    t.index ∈ p.driver.shared.ready.contents
  /-- The links that were ready, and became so before the rounds, only turn around. -/
  order : ∃ arrived, (d.shared.ready.contents ++ arrived).Nodup ∧ ∀ w : Fin links → Bool,
    (∀ i, w i = true → i ∈ d.shared.ready.contents ++ arrived) →
      (∀ t ∈ p.log, w t.index = true → t.kept = true) →
        (d.shared.ready.contents ++ arrived).filter w ~r p.driver.shared.ready.contents.filter w
  first : ∀ t, p.log.find? isDenied = some t →
    p.driver.shared.ready.contents.head? = some t.index ∧
      ∃ lane, (p.driver.slot t.index).pendingLane = .ok (some lane)

theorem wanting_of_pendingLane {d : Driver G links} (h : d.Inv) {i : Fin links} {lane : Lane}
    (hlane : (d.slot i).pendingLane = .ok (some lane)) : (d.slot i).Wanting := by
  obtain ⟨lane', hlane', hsome, -⟩ := Slot.pendingLane_returns (h.shared.slot i)
  rw [show (d.shared.slots i).pendingLane = _ from hlane] at hlane'
  cases hlane'
  obtain ⟨p, hp, hwants⟩ := hsome lane rfl
  exact ⟨p, hp, lane, hwants⟩

theorem advanceWith_returns (hf : Fits links bytes) {d : Driver G links} (h : d.Inv)
    (mode : Admission) (budget : Budget) (script : Script links)
    (hbudget : ¬(budget.completions = 0 ∨ budget.submissions = 0 ∨ budget.bytes = 0)) :
    ∃ p, d.advanceWith mode budget script = .ok (some p) ∧ d.Reaches p.driver ∧ Fair budget d p := by
  obtain ⟨n, d₁, hconsume, hreaches₁, hn, -, hring, hcontents₁⟩ :=
    consume_returns hf (min budget.completions d.ring.cqEntries) h
  have hinv₁ := hreaches₁.inv hf h
  obtain ⟨replies, s, hscan, hreaches₂⟩ := Shared.scanAuthority_returns hinv₁.shared script.replies
  have hcontents₂ := hreaches₂.extends hinv₁.shared
  let p₀ : Pass G links := ⟨d₁.withShared s, 0, 0, none, replies, []⟩
  have hreaches₀ : d.Reaches p₀.driver := hreaches₁.trans (Reaches.shared hreaches₂)
  have hinv₀ : p₀.driver.Inv := hreaches₀.inv hf h
  obtain ⟨q, ts, hrounds, htook, hround, hdistinct, hsubmissions⟩ := rounds_returns hf mode 0 3 hinv₀
    (Nat.zero_le budget.bytes) (Nat.zero_le budget.submissions)
  have hinv := htook.reaches.inv hf hinv₀
  obtain ⟨ready, hprioritized, hready, hturned, hhead⟩ :=
    prioritized_returns hinv.shared.ready q.blocked
  let d₂ := q.driver.withShared { q.driver.shared with ready := ready }
  let submits := !d₂.ring.queue.isEmpty || script.flagged
  let p : Progress G links :=
    { driver := if submits then { d₂ with ring := d₂.ring.submit script.submit } else d₂
      completions := n
      submissions := q.submissions
      bytes := q.bytes
      failed := submits && script.submit.isNone
      replies := q.replies
      log := q.log }
  have hadvance : d.advanceWith mode budget script = .ok (some p) := by
    unfold advanceWith
    rw [if_neg hbudget, hconsume, ok_bind]
    dsimp only
    rw [hscan, ok_bind]
    dsimp only
    refine (congrArg (· >>= _) hrounds).trans ?_
    rw [ok_bind, hprioritized]
    rfl
  -- The submit call hands over the first entries of the queue.
  obtain ⟨taken, hdriver⟩ : ∃ taken, p.driver = { d₂ with ring := d₂.ring.submit taken } := by
    by_cases hsubmits : submits = true
    · exact ⟨script.submit, if_pos hsubmits⟩
    · exact ⟨none, if_neg hsubmits⟩
  have hreaches : d.Reaches p.driver := by
    rw [hdriver]
    exact ((hreaches₀.trans htook.reaches).tail (.ready ready fun _ => hready)).tail
      (.ring (d₂.ring.submit taken) (Ring.outstanding_submit _ _))
  have hshared : p.driver.shared = { q.driver.shared with ready := ready } := by
    rw [hdriver]
    rfl
  have hlog : p.log = ts := htook.log
  have hentries : p.driver.ring = d₂.ring.submit taken := by
    rw [hdriver]
  have hring₀ : p₀.driver.ring = { d.ring with completions := d.ring.completions.drop n } := hring
  have hqueue : d₂.ring = { d.ring with
      queue := d.ring.queue ++ ts.flatMap Turn.entries
      completions := d.ring.completions.drop n } := by
    change q.driver.ring = _
    rw [htook.ring, hring₀]
  have hpresent : ∀ i, i ∈ p.driver.shared.ready.contents ↔
      i ∈ q.driver.shared.ready.contents := by
    intro i
    rw [hshared]
    exact hturned.perm.mem_iff.symm
  have hslots : ∀ i, p.driver.slot i = q.driver.slot i := by
    intro i
    unfold slot
    rw [hshared]
  obtain ⟨arrived, harrived⟩ : d.shared.ready.contents <+: s.ready.contents :=
    hcontents₁.trans hcontents₂
  obtain ⟨hblocked, hwaits⟩ := htook.blocked fun i hi => by cases hi
  refine ⟨p, hadvance, hreaches, ?_⟩
  refine
    { completions := ⟨hn.trans (min_le_left _ _), ?_⟩
      submissions := ⟨hsubmissions, ?_⟩
      bytes := ⟨htook.bytes_le (Nat.zero_le _), ?_⟩
      queued := ?_
      round := ⟨?_, ?_⟩
      pass := ?_
      contended := ?_
      room := ?_
      back := ?_
      order := ⟨arrived, ?_, fun w hw hkept => ?_⟩
      first := ?_ }
  · rw [hentries, Ring.submit_completions, hqueue]
  · rw [hlog]
    exact (htook.submissions.trans (Nat.zero_add _)).symm
  · rw [hlog]
    exact (htook.spent.trans (Nat.zero_add _)).symm
  · rw [hentries, Ring.submit_entries, hqueue, hlog, List.append_assoc]
  · rw [hlog]
    exact hdistinct
  · rw [hlog]
    exact htook.single
  · rw [hlog]
    exact length_entries_le hdistinct (fun t ht => (by have hlt := (hround t ht).2; omega)) htook.single
  · rw [hlog]
    exact fun pre t post hts ht => htook.contended hts ht
  · rw [hlog]
    intro pre t post hts e he hreq
    obtain ⟨hqueued, -, hroom⟩ := htook.queued hts
    have hlt := hroom e he hreq
    rw [hqueued, hring₀] at hlt
    exact hlt
  · rw [hlog]
    intro t ht lane hlane
    rw [hslots] at hlane
    have hready := htook.attended (Or.inr ⟨t, ht, rfl⟩) (wanting_of_pendingLane hinv hlane)
    rw [hpresent]
    exact (hinv.shared.ready.present t.index).mp hready
  · rw [harrived]
    exact hinv₀.shared.ready.nodup
  · rw [harrived] at hw ⊢
    rw [hlog] at hkept
    rw [hshared]
    exact (htook.rotated hinv₀ hf hw hkept).trans (isRotated_filter hturned w)
  · rw [hlog]
    intro t ht
    have hfirst : q.blocked = some t.index := by
      rw [hblocked, ht]
      rfl
    have hwait := hwaits t.index hfirst
    obtain ⟨lane, hlane⟩ := hwait.pending
    rw [hshared, hslots]
    exact ⟨hhead t.index hfirst ((hinv.shared.ready.present t.index).mp hwait.present), lane, hlane⟩

end Driver

end Hiway.Uring
