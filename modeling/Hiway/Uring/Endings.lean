import Hiway.Uring.Links

/-!
# The last record of a connection

A connection ends in one record, a rejection or a cancellation. When a host has drained it
there is nothing more to come under that name.

* `Audit.ends_last`: only the last record of a machine can end its connection.
* `run_grown`: what a host has attached and drained, and what was recorded, only grows.
* `run_end_final`: after the end of a connection nothing is recorded or drained under its
  name.
-/

namespace Hiway.Uring

open Exec Target Transport

/-- A connection records nothing after such an outcome. -/
def ends : Outcome → Bool
  | .rejected _ | .cancelled => true
  | .admitted | .completed => false

/-- Whatever stands before another record ends nothing. -/
def EndsLast (records : List Record) : Prop :=
  records.Pairwise fun record _ => ends record.outcome = false

theorem history_ends (frames : List UInt64) (complete : Bool) :
    ∀ record ∈ Transport.history frames complete, ends record.outcome = false := by
  intro record hrecord
  have hexchange : ∀ front : List UInt64, ∀ record ∈ front.flatMap exchange,
      ends record.outcome = false := by
    intro front record hrecord
    obtain ⟨s, -, hrecord⟩ := List.mem_flatMap.mp hrecord
    unfold exchange at hrecord
    simp only [List.mem_cons, List.not_mem_nil, or_false] at hrecord
    rcases hrecord with rfl | rfl <;> rfl
  unfold Transport.history at hrecord
  split at hrecord
  · exact hexchange frames record hrecord
  · rcases List.mem_append.mp hrecord with hrecord | hrecord
    · exact hexchange _ record hrecord
    · obtain ⟨s, -, rfl⟩ := List.mem_map.mp hrecord
      rfl

/-- In the log of a machine only the last record can end it, and then the machine is closed. -/
theorem Audit.ends_last {s : Audit} (h : s.Accounted) :
    s.log.Pairwise (fun record _ => ends record.outcome = false) ∧
      ∀ record ∈ s.log, ends record.outcome = true → s.protocol.closed.isSome = true := by
  have hhistory : ∀ frames complete,
      (Transport.history frames complete).Pairwise fun record _ => ends record.outcome = false := by
    intro frames complete
    refine List.pairwise_of_forall_mem_list fun record hrecord _ _ => ?_
    exact history_ends frames complete record hrecord
  cases hclosed : s.protocol.closed with
  | none =>
    rw [h.running hclosed]
    refine ⟨hhistory _ _, fun record hrecord hends => ?_⟩
    rw [history_ends _ _ record hrecord] at hends
    cases hends
  | some error =>
    obtain ⟨sequence, i, -, hlog⟩ := h.closed error hclosed
    rw [hlog]
    refine ⟨List.pairwise_append.mpr ⟨hhistory _ _, List.pairwise_singleton _ _, ?_⟩,
      fun _ _ _ => rfl⟩
    exact fun record hrecord _ _ => history_ends _ _ record hrecord

/-- Nothing follows a record that ends its connection. -/
theorem EndsLast.unique {records more : List Record} {record : Record}
    (h : EndsLast more) (hgrown : records <+: more) (hmem : record ∈ records)
    (hends : ends record.outcome = true) : more = records := by
  obtain ⟨rest, rfl⟩ := hgrown
  cases rest with
  | nil => exact List.append_nil records
  | cons next rest =>
    have hbefore := (List.pairwise_append.mp h).2.2 record hmem next List.mem_cons_self
    rw [hends] at hbefore
    cases hbefore

theorem recordsOf_mono {records more : List Record} (c : Connection) (h : records <+: more) :
    recordsOf c records <+: recordsOf c more := by
  obtain ⟨rest, rfl⟩ := h
  rw [recordsOf_append]
  exact List.prefix_append _ _

/-! ### The lists of records only grow -/

theorem Shared.Move.produced [Target] {G : Type} {links : Nat} [NeZero links] {s t : Shared G links}
    (h : s.Move t) : s.produced <+: t.produced := by
  cases h with
  | input hp hi hinput =>
    obtain ⟨-, rfl⟩ := Shared.input_eq.mp hinput
    exact List.prefix_append _ _
  | flags | observe | refresh | queue | release | borrow | stop | reclaim | retire =>
    exact List.prefix_refl _

theorem Driver.Move.produced [Target] {G : Type} {links : Nat} [NeZero links] {d d' : Driver G links}
    (h : d.Move d') : d.shared.produced <+: d'.shared.produced := by
  cases h with
  | shared hs => exact hs.produced
  | accept hp hid hphase heffect hpush hinput =>
    obtain ⟨-, rfl⟩ := Shared.input_eq.mp hinput
    exact List.prefix_append _ _
  | complete hp hid hphase hnext hu hinput =>
    obtain ⟨-, rfl⟩ := Shared.input_eq.mp hinput
    exact List.prefix_append _ _
  | ring | ready | hint | prepare | cancel | cancelled => exact List.prefix_refl _

theorem Driver.Reaches.produced [Target] {G : Type} {links : Nat} [NeZero links]
    {d d' : Driver G links} (h : d.Reaches d') : d.shared.produced <+: d'.shared.produced := by
  induction h with
  | refl => exact List.prefix_refl _
  | tail _ hmove ih => exact ih.trans hmove.produced

theorem Shared.popLive_produced {G : Type} {links : Nat} (s : Shared G links)
    (indices : List (Fin links)) : (s.popLive indices).2.produced = s.produced := by
  induction indices generalizing s with
  | nil => rfl
  | cons index rest ih =>
    unfold Shared.popLive
    split
    · exact ih s
    · dsimp only
      split
      · rfl
      · exact ih _

theorem Shared.popRecord_produced {G : Type} {links : Nat} (s : Shared G links) :
    s.popRecord.2.produced = s.produced := by
  unfold Shared.popRecord
  dsimp only
  split
  · rfl
  · exact popLive_produced _ _

namespace Host

/-- A record that ends its connection is the last that is produced and the last that is
drained of it, from `h` on until `h'`. -/
structure Final {G : Type} {links : Nat} (h h' : Host G links) (record : Record) : Prop where
  produced : record ∈ h.driver.shared.produced →
    recordsOf record.connection h'.driver.shared.produced =
      recordsOf record.connection h.driver.shared.produced
  drained : record ∈ h.drained →
    recordsOf record.connection h'.drained = recordsOf record.connection h.drained
  closed : record ∈ h.driver.shared.produced → ∀ index p,
    (h'.driver.slot index).protocol = some p →
      record.connection = ⟨index.val, (h'.driver.slot index).generation⟩ → p.closed.isSome = true

/-- The records that a host can see, each list as it grows. -/
structure Grown {G : Type} {links : Nat} (h h' : Host G links) : Prop where
  produced : h.driver.shared.produced <+: h'.driver.shared.produced
  drained : h.drained <+: h'.drained

variable [Target] {G : Type} {links bytes : Nat} {h h' : Host G links}

theorem Accompanied.ends_last {c : Connection} {x : Course} (hx : h.Accompanied bytes c x) :
    EndsLast (recordsOf c h.driver.shared.produced) ∧
      ∀ record ∈ recordsOf c h.driver.shared.produced, ends record.outcome = true →
        x.audit.protocol.closed.isSome = true := by
  obtain ⟨hlast, hclosed⟩ := Audit.ends_last hx.accounted
  rw [hx.records]
  refine ⟨List.pairwise_map.mpr hlast, fun record hrecord hends => ?_⟩
  obtain ⟨frame, hframe, rfl⟩ := List.mem_map.mp hrecord
  exact hclosed frame hframe hends

variable [NeZero links]

theorem Did.grown (hdid : Did bytes h h') : h.Grown h' := by
  cases hdid with
  | moved hd => exact ⟨hd.produced, List.prefix_refl _⟩
  | attached => exact ⟨List.prefix_refl _, List.prefix_refl _⟩
  | drained =>
    refine ⟨?_, List.prefix_append _ _⟩
    change _ <+: h.driver.shared.popRecord.2.produced
    rw [Shared.popRecord_produced]

theorem run_grown (hf : Fits links bytes) (hinv : h.driver.Inv) (more : List (Event G links)) :
    ∃ h', steps (step bytes) h more = .ok h' ∧ h'.driver.Inv ∧ h.Grown h' := by
  refine steps_invariant (P := fun h' : Host G links => h'.driver.Inv ∧ h.Grown h')
    (fun h' e hh => ?_) ⟨hinv, List.prefix_refl _, List.prefix_refl _⟩ more
  obtain ⟨hinv', hgrown⟩ := hh
  obtain ⟨h'', hstep, hdid⟩ := step_did hf hinv' e
  have hnext := hdid.grown
  exact ⟨h'', hstep, hdid.inv hf hinv', hgrown.produced.trans hnext.produced,
    hgrown.drained.trans hnext.drained⟩

/-- Once a connection has ended, nothing more is recorded under its name, and once the host
has drained its end, nothing more is drained. -/
theorem run_end_final (hf : Fits links bytes) (capacity cqEntries : Nat) (room : 2 ≤ capacity)
    (events more : List (Event G links)) :
    ∃ h h', run bytes capacity cqEntries room events = .ok h ∧
      run bytes capacity cqEntries room (events ++ more) = .ok h' ∧
      ∀ record, ends record.outcome = true → h.Final h' record := by
  obtain ⟨h, hrun, hinv, -⟩ := run_followed hf capacity cqEntries room events
  obtain ⟨h', hmore, -, hgrown⟩ := run_grown hf hinv more
  have hrun' := steps_append hrun hmore
  obtain ⟨h₁, hrun₁, -, hkept, hfollowed⟩ :=
    run_followed hf capacity cqEntries room (events ++ more)
  obtain rfl : h' = h₁ := Except.ok.inj (hrun'.symm.trans hrun₁)
  have hlast : ∀ record ∈ h.driver.shared.produced, ∃ x : Course,
      h'.Accompanied bytes record.connection x ∧
        record ∈ recordsOf record.connection h'.driver.shared.produced := by
    intro record hrecord
    have hproduced := hgrown.produced.subset hrecord
    obtain ⟨b, hb⟩ := hkept
    obtain ⟨x, hx⟩ := accompanied hfollowed (hb.balanced.attributed record hproduced)
    exact ⟨x, hx, List.mem_filter.mpr ⟨hproduced, decide_eq_true rfl⟩⟩
  refine ⟨h, h', hrun, hrun', fun record hends => ⟨fun hrecord => ?_, fun hrecord => ?_,
    fun hrecord index p hp heq => ?_⟩⟩
  · obtain ⟨x, hx, -⟩ := hlast record hrecord
    exact hx.ends_last.1.unique (recordsOf_mono _ hgrown.produced)
      (List.mem_filter.mpr ⟨hrecord, decide_eq_true rfl⟩) hends
  · have haccounted := hkept.accounted
    have hdrained := hgrown.drained.subset hrecord
    obtain ⟨x, hx⟩ := accompanied hfollowed (haccounted.attributed record hdrained).2
    exact EndsLast.unique (hx.ends_last.1.sublist (haccounted.order _))
      (recordsOf_mono _ hgrown.drained) (List.mem_filter.mpr ⟨hrecord, decide_eq_true rfl⟩) hends
  · obtain ⟨x, hx, hmem⟩ := hlast record hrecord
    rw [hx.current index p hp heq]
    exact hx.ends_last.2 record hmem hends

end Host

namespace Host

/-- The end of the connection is drained, and the host goes on. -/
theorem run_end_final_exchanged : let _ := Target.x64
    ∃ h h', run 64 4 16 (by decide) exchanged = .ok h ∧
      run 64 4 16 (by decide) (exchanged ++ [.act (.close ⟨0, Nat.zero_lt_two⟩ .revoked),
        .popRecord]) = .ok h' ∧
      (∀ record, ends record.outcome = true → h.Final h' record) ∧
      h.drained.map (fun record => ends record.outcome) = [false, false, true] := by
  intro _
  have hf : Fits 2 64 := ⟨by decide, by decide, by decide, by decide, by decide⟩
  obtain ⟨h, h', hrun, hrun', hfinal⟩ := run_end_final (G := Unit) hf 4 16 (by decide) exchanged
    [.act (.close ⟨0, Nat.zero_lt_two⟩ .revoked), .popRecord]
  refine ⟨h, h', hrun, hrun', hfinal, ?_⟩
  have hresult : (run 64 4 16 (by decide) exchanged).map
      (fun h => h.drained.map fun record => ends record.outcome) = .ok [false, false, true] := by
    decide +kernel
  rw [hrun] at hresult
  exact Except.ok.inj hresult

end Host

end Hiway.Uring
