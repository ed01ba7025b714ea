import Hiway.Local.Accesses

/-!
# No waiter is stranded

Slots of the waiter table and futures that hold one correspond one to one, and a future
that is parked has been woken, or has to wait, or is announced to the next notification.
Every operation is made of an access to the state, a notification, and a change of one
future; `Waits` is kept by each of these.

* `Attended.woken`: what is announced is woken by the next notification.
* `Waits.poll_pending`: a poll that has to wait parks its future.
* `inv_step`: every operation succeeds and keeps the invariant, and one that is not strict
  notifies.
* `run_unstranded`: whatever tasks do on a new stream, slots and parked futures correspond,
  and no waiter is stranded.
-/

namespace Hiway.Local

open Exec Target

variable {α β : Type} {cap : Nat}

namespace StaticStream

/-! ## The table of waiters -/

/-- A notification takes wakers, and nothing else, out of slots. -/
theorem flush_waiters {s : StaticStream α cap} {state : State α cap} {j : Nat} {slot : Waiter}
    (h : s.waiters[j]? = some slot) :
    (s.flush state).waiters[j]? = some
      (if wakes s.contended state.changed slot then { slot with waker := none } else slot) := by
  change (s.waiters.map _)[j]? = _
  rw [List.getElem?_map, h]
  rfl

theorem occupied_flush {s : StaticStream α cap} {state : State α cap} {j : Nat} {slot : Waiter}
    (h : (s.flush state).waiters[j]? = some slot) :
    ∃ slot', s.waiters[j]? = some slot' ∧ slot'.occupied = slot.occupied := by
  change (s.waiters.map _)[j]? = _ at h
  rw [List.getElem?_map, Option.map_eq_some_iff] at h
  obtain ⟨slot', h', rfl⟩ := h
  refine ⟨slot', h', ?_⟩
  split <;> rfl

theorem flush_woken (s : StaticStream α cap) (state : State α cap) :
    ∃ woken, (s.flush state).woken = s.woken ++ woken ∧
      ∀ (j : Nat) (slot : Waiter) (w : Waker), s.waiters[j]? = some slot →
        wakes s.contended state.changed slot = true → slot.waker = some w → w ∈ woken := by
  refine ⟨_, rfl, ?_⟩
  intro j slot w hj hw hwaker
  exact List.mem_filterMap.mpr
    ⟨slot, List.mem_filter.mpr ⟨List.mem_of_getElem? hj, hw⟩, hwaker⟩

/-- Without changes there is nothing to notify. -/
theorem flush_idle {s : StaticStream α cap} (hcontended : s.contended = false)
    (hchanged : s.state.changed = 0) : s.flush s.state = s := by
  have hw : ∀ slot, wakes s.contended s.state.changed slot = false := by
    intro slot
    simp [wakes, hcontended, hchanged]
  cases s with
  | mk state waiters contended woken =>
    cases state
    simp only at hcontended hchanged
    subst hcontended hchanged
    simp [flush, notify, hw]

theorem wakes_of_announces {s : State α cap} {slot : Waiter} {interest : Interest}
    (hi : slot.interest = interest.bits) (ha : s.Announces interest) (contended : Bool) :
    wakes contended s.changed slot = true := by
  unfold State.Announces at ha
  unfold wakes
  rw [hi, UInt8.and_comm]
  simp [ha]

/-- The slot of a future that waits. -/
def registered (s : StaticStream α cap) (j : Nat) (interest : Interest) (waker : Waker) :
    StaticStream α cap :=
  { s with waiters := s.waiters.set j ⟨true, interest.bits, some waker⟩ }

/-- The slot of a future that waits no longer. -/
def vacated (s : StaticStream α cap) (j : Nat) (slot : Waiter) : StaticStream α cap :=
  { s with waiters := s.waiters.set j { slot with occupied := false, waker := none } }

theorem cancel_some {s : StaticStream α cap} {j : Nat} {slot : Waiter}
    (h : s.waiters[j]? = some slot) : s.cancel (some j) = .ok (s.vacated j slot) := by
  unfold cancel
  dsimp only
  rw [index_of_getElem? h]
  rfl

/-! ## Polls -/

variable {s : StaticStream α cap} {id : Option Nat} {interest : Interest} {waker : Waker}
  {access : State α cap → Exec (Poll β × State α cap)}

theorem pollWith_ready {state : State α cap} {value : β}
    (h : access s.state = .ok (.ready value, state)) :
    s.pollWith id interest waker access = (do
      let s ← (s.flush state).cancel id
      return (.ok (.ready value), none, s)) := by
  unfold pollWith tryWith withState
  rw [h]
  rfl

/-- An attempt that has to wait, by its interest alone. -/
def Waiting (access : State α cap → Exec (Poll β × State α cap)) (s : State α cap) : Prop :=
  ∀ changed, access { s with changed := changed } = .ok (.pending, { s with changed := changed })

theorem pollWith_full (h : Waiting access s.state)
    (hfull : s.waiters.findIdx? (fun slot => !slot.occupied) = none) :
    s.pollWith none interest waker access = .ok (.error (), none, s.flush s.state) := by
  have hfull' : (s.flush s.state).waiters.findIdx? (fun slot => !slot.occupied) = none := by
    rw [List.findIdx?_eq_none_iff] at hfull ⊢
    intro slot hslot
    obtain ⟨j, hj⟩ := List.getElem?_of_mem hslot
    obtain ⟨slot', hj', heq⟩ := occupied_flush hj
    rw [← heq]
    exact hfull slot' (List.mem_of_getElem? hj')
  have hfirst : access s.state = .ok (.pending, s.state) := h s.state.changed
  unfold pollWith tryWith withState register
  rw [hfirst]
  simp only [ok_bind, pure_eq, Option.none_or, hfull']

/-- The future of a pending poll holds slot `j`. -/
theorem pollWith_pending (h : Waiting access s.state) {j : Nat} {slot : Waiter}
    (hj : s.waiters[j]? = some slot)
    (hslot : (id = some j ∧ slot.occupied = true) ∨
      id = none ∧ s.waiters.findIdx? (fun slot => !slot.occupied) = some j) :
    s.pollWith id interest waker access =
      .ok (.ok .pending, some j, (s.flush s.state).registered j interest waker) := by
  obtain ⟨slot', hj', hocc'⟩ : ∃ slot', (s.flush s.state).waiters[j]? = some slot' ∧
      slot'.occupied = slot.occupied := by
    refine ⟨_, flush_waiters hj, ?_⟩
    split <;> rfl
  have hfirst : access s.state = .ok (.pending, s.state) := h s.state.changed
  have hregister : (s.flush s.state).register id interest waker =
      .ok (.ok j, (s.flush s.state).registered j interest waker) := by
    unfold register registered
    rcases hslot with ⟨rfl, hocc⟩ | ⟨rfl, hfree⟩
    · simp only [Option.some_or, index_of_getElem? hj', ok_bind, pure_eq]
      simp [hocc', hocc]
    · have hfree' : (s.flush s.state).waiters.findIdx? (fun slot => !slot.occupied) = some j := by
        change (s.waiters.map _).findIdx? _ = _
        rw [List.findIdx?_map, ← hfree]
        congr 1
        funext slot
        simp only [Function.comp_apply]
        split <;> rfl
      simp only [Option.none_or, hfree', index_of_getElem? hj', ok_bind, pure_eq]
      simp
  have hsecond : access ((s.flush s.state).registered j interest waker).state =
      .ok (.pending, ((s.flush s.state).registered j interest waker).state) := h 0
  unfold pollWith tryWith withState
  rw [hfirst]
  simp only [ok_bind, pure_eq]
  rw [hregister]
  simp only [ok_bind]
  rw [hsecond]
  simp only [ok_bind]
  rw [flush_idle rfl rfl]

end StaticStream

def Future.interest : Future α → Interest
  | .send _ => .send
  | .receive _ => .receive

namespace Tasks

/-! ## What is kept -/

/-- What a future waits for. -/
def wait (t : Tasks α cap) : Future α → Option State.Wait
  | .send _ => some .send
  | .receive r => t.subscriptions[r]?.map fun sub => .receive sub.key

/-- The waker `w` of slot `j` has been woken since `mark`, or it is registered there, and
then there is still a reason to wait for `k` or the next notification concerns it. -/
structure Attended (stream : StaticStream α cap) (j : Nat) (k : State.Wait) (w : Waker)
    (mark : Nat) : Prop where
  le : mark ≤ stream.woken.length
  slot : ∃ slot, stream.waiters[j]? = some slot ∧ slot.interest = k.interest.bits ∧
    (w ∈ stream.woken.drop mark ∨
      slot.waker = some w ∧ (stream.state.Blocks k ∨ stream.state.Announces k.interest))

/-- Slots and the futures that hold them correspond, exactly the parked futures hold one,
and each of those is attended. -/
structure Waits (t : Tasks α cap) : Prop where
  held : ∀ (f : Nat) (task : Task α) (j : Nat), t.task f = some task → task.waiter = some j →
    ∃ slot, t.stream.waiters[j]? = some slot ∧ slot.occupied = true
  holder : ∀ (j : Nat) (slot : Waiter), t.stream.waiters[j]? = some slot → slot.occupied = true →
    ∃ (f : Nat) (task : Task α), t.task f = some task ∧ task.waiter = some j
  distinct : ∀ (f f' : Nat) (task task' : Task α) (j : Nat), t.task f = some task →
    t.task f' = some task' → task.waiter = some j → task'.waiter = some j → f = f'
  parked : ∀ (f : Nat) (task : Task α), t.task f = some task →
    (task.waiter = none ∧ task.parked = none) ∨
    ∃ j w mark k, task.waiter = some j ∧ task.parked = some (w, mark) ∧
      t.wait task.future = some k ∧ Attended t.stream j k w mark
  borrows : ∀ (f : Nat) (task : Task α) (r : Nat), t.task f = some task →
    task.future = .receive r → ∃ sub, t.receiver r = some sub
  payload : ∀ (f : Nat) (task : Task α), t.task f = some task → task.parked ≠ none →
    task.future ≠ .send none

theorem receiver_eq_some {t : Tasks α cap} {r : Nat} {sub : Subscription α} :
    t.receiver r = some sub ↔ t.subscriptions[r]? = some sub ∧ sub.dropped = false := by
  unfold receiver
  rw [Option.filter_eq_some_iff]
  simp

theorem borrowed_iff {t : Tasks α cap} {r : Nat} :
    t.borrowed r = true ↔ ∃ f task, t.task f = some task ∧ task.future = .receive r := by
  unfold borrowed
  rw [Slots.any_iff]
  refine exists_congr fun f => exists_congr fun task => and_congr_right fun _ => ?_
  cases task.future <;> simp

/-! ## Notifications -/

/-- A notification reaches whom it concerns. -/
theorem Attended.flush {stream : StaticStream α cap} {j : Nat} {k : State.Wait} {w : Waker}
    {mark : Nat} (h : Attended stream j k w mark) :
    Attended (stream.flush stream.state) j k w mark := by
  obtain ⟨slot, hj, hi, hw⟩ := h.slot
  obtain ⟨woken, hwoken, hmem⟩ := stream.flush_woken stream.state
  have hnew : (stream.flush stream.state).woken.drop mark = stream.woken.drop mark ++ woken := by
    rw [hwoken, List.drop_append_of_le_length h.le]
  refine ⟨?_, _, StaticStream.flush_waiters hj, ?_, ?_⟩
  · rw [hwoken, List.length_append]
    exact h.le.trans (Nat.le_add_right _ _)
  · split <;> exact hi
  · rw [hnew]
    rcases hw with hw | ⟨hwaker, hreason⟩
    · exact Or.inl (List.mem_append_left _ hw)
    · by_cases hwakes : StaticStream.wakes stream.contended stream.state.changed slot = true
      · exact Or.inl (List.mem_append_right _ (hmem j slot w hj hwakes hwaker))
      · rw [if_neg hwakes]
        refine Or.inr ⟨hwaker, Or.inl ?_⟩
        rcases hreason with hblocks | hannounces
        · cases k <;> exact hblocks
        · exact absurd (StaticStream.wakes_of_announces hi hannounces _) hwakes

/-- What is announced is woken by the next notification. -/
theorem Attended.woken {stream : StaticStream α cap} {j : Nat} {k : State.Wait} {w : Waker}
    {mark : Nat} (h : Attended stream j k w mark) {state : State α cap}
    (ha : state.Announces k.interest) : w ∈ (stream.flush state).woken.drop mark := by
  obtain ⟨slot, hj, hi, hw⟩ := h.slot
  obtain ⟨woken, hwoken, hmem⟩ := stream.flush_woken state
  rw [hwoken, List.drop_append_of_le_length h.le]
  rcases hw with hw | ⟨hwaker, -⟩
  · exact List.mem_append_left _ hw
  · exact List.mem_append_right _
      (hmem j slot w hj (StaticStream.wakes_of_announces hi ha _) hwaker)

/-- The stream after a notification. -/
def flushed (t : Tasks α cap) : Tasks α cap :=
  { t with stream := t.stream.flush t.stream.state }

theorem Waits.flushed {t : Tasks α cap} (h : t.Waits) : t.flushed.Waits where
  held := by
    intro f task j hf hj
    obtain ⟨slot, hslot, hocc⟩ := h.held f task j hf hj
    refine ⟨_, StaticStream.flush_waiters hslot, ?_⟩
    split <;> exact hocc
  holder := by
    intro j slot hj hocc
    obtain ⟨slot', hj', heq⟩ := StaticStream.occupied_flush hj
    exact h.holder j slot' hj' (heq.trans hocc)
  distinct := h.distinct
  parked := by
    intro f task hf
    rcases h.parked f task hf with hidle | ⟨j, w, mark, k, hj, hp, hk, hatt⟩
    · exact Or.inl hidle
    · exact Or.inr ⟨j, w, mark, k, hj, hp, hk, hatt.flush⟩
  borrows := h.borrows
  payload := h.payload

/-! ## Accesses -/

/-- Another state, and what it means for the records. -/
def accessed (t : Tasks α cap) (state : State α cap) (published : List α)
    (subscriptions : List (Subscription α)) : Tasks α cap :=
  { t with
    stream := { t.stream with state := state }
    published := published
    subscriptions := subscriptions }

theorem Waits.accessed {t : Tasks α cap} (h : t.Waits) (state : State α cap)
    (published : List α) (subscriptions : List (Subscription α))
    (hheard : ∀ (f : Nat) (task : Task α) (k : State.Wait), t.task f = some task →
      t.wait task.future = some k → State.Heard t.stream.state state k)
    (hkeys : ∀ (r : Nat) (sub : Subscription α), t.subscriptions[r]? = some sub →
      ∃ sub', subscriptions[r]? = some sub' ∧ sub'.key = sub.key ∧
        (t.borrowed r = true → sub'.dropped = sub.dropped)) :
    (t.accessed state published subscriptions).Waits where
  held := h.held
  holder := h.holder
  distinct := h.distinct
  parked := by
    intro f task hf
    rcases h.parked f task hf with hidle | ⟨j, w, mark, k, hj, hp, hk, hatt⟩
    · exact Or.inl hidle
    · refine Or.inr ⟨j, w, mark, k, hj, hp, ?_, hatt.le, ?_⟩
      · cases hfuture : task.future with
        | send payload =>
          rw [hfuture] at hk
          exact hk
        | receive r =>
          rw [hfuture] at hk
          obtain ⟨sub, hr, rfl⟩ := Option.map_eq_some_iff.mp hk
          obtain ⟨sub', hr', hkey, -⟩ := hkeys r sub hr
          exact Option.map_eq_some_iff.mpr ⟨sub', hr', congrArg State.Wait.receive hkey⟩
      · obtain ⟨slot, hslot, hi, hw⟩ := hatt.slot
        refine ⟨slot, hslot, hi, ?_⟩
        have hheard := hheard f task k hf hk
        rcases hw with hw | ⟨hwaker, hblocks | hannounces⟩
        · exact Or.inl hw
        · exact Or.inr ⟨hwaker, hheard.blocks hblocks⟩
        · exact Or.inr ⟨hwaker, Or.inr (hheard.announces hannounces)⟩
  borrows := by
    intro f task r hf hfuture
    obtain ⟨sub, hsub⟩ := h.borrows f task r hf hfuture
    obtain ⟨hr, hd⟩ := receiver_eq_some.mp hsub
    obtain ⟨sub', hr', -, hsame⟩ := hkeys r sub hr
    refine ⟨sub', receiver_eq_some.mpr ⟨hr', ?_⟩⟩
    rw [hsame (borrowed_iff.mpr ⟨f, task, hf, hfuture⟩)]
    exact hd
  payload := h.payload

/-! ## Changing one future -/

/-- The future `f` has become `o`, and the waiters are `waiters`. -/
def replaced (t : Tasks α cap) (f : Nat) (o : Option (Task α)) (waiters : List Waiter) :
    Tasks α cap :=
  { t with
    stream := { t.stream with waiters := waiters }
    futures := t.futures.set f o }

theorem task_replaced {t : Tasks α cap} {f : Nat} {o : Option (Task α)} {waiters : List Waiter}
    {task : Task α} (hf : t.task f = some task) (f' : Nat) :
    (t.replaced f o waiters).task f' = if f = f' then o else t.task f' :=
  Slots.entry_set (Slots.lt_of_entry hf)

/-- One future changes, and of the slots at most its own. -/
theorem Waits.replace {t : Tasks α cap} (h : t.Waits) {f : Nat} {task : Task α}
    (hf : t.task f = some task) (o : Option (Task α)) (waiters : List Waiter)
    (hother : ∀ (f' : Nat) (task' : Task α) (j : Nat), f ≠ f' → t.task f' = some task' →
      task'.waiter = some j → waiters[j]? = t.stream.waiters[j]? ∧
        ∀ new, o = some new → new.waiter ≠ some j)
    (hholder : ∀ (j : Nat) (slot : Waiter), waiters[j]? = some slot → slot.occupied = true →
      (∃ new, o = some new ∧ new.waiter = some j) ∨
        t.stream.waiters[j]? = some slot ∧ task.waiter ≠ some j)
    (hparked : ∀ new, o = some new → (new.waiter = none ∧ new.parked = none) ∨
      ∃ j w mark k, new.waiter = some j ∧ new.parked = some (w, mark) ∧
        t.wait new.future = some k ∧ Attended { t.stream with waiters := waiters } j k w mark ∧
        ∃ slot, waiters[j]? = some slot ∧ slot.occupied = true)
    (hfuture : ∀ new r, o = some new → new.future = .receive r → task.future = .receive r)
    (hpayload : ∀ new, o = some new → new.parked ≠ none → new.future ≠ .send none) :
    (t.replaced f o waiters).Waits where
  held := by
    intro f' task' j hf' hj
    rw [task_replaced hf] at hf'
    split at hf'
    · rcases hparked task' hf' with ⟨hidle, -⟩ | ⟨j', w, mark, k, hj', -, -, -, hslot⟩
      · rw [hidle] at hj
        cases hj
      · rw [hj] at hj'
        cases hj'
        exact hslot
    · rename_i hne
      obtain ⟨slot, hslot, hocc⟩ := h.held f' task' j hf' hj
      exact ⟨slot, (hother f' task' j hne hf' hj).1.trans hslot, hocc⟩
  holder := by
    intro j slot hj hocc
    rcases hholder j slot hj hocc with ⟨new, rfl, hw⟩ | ⟨hold, hne⟩
    · exact ⟨f, new, (task_replaced hf f).trans (if_pos rfl), hw⟩
    · obtain ⟨f', task', hf', hw⟩ := h.holder j slot hold hocc
      refine ⟨f', task', ?_, hw⟩
      rw [task_replaced hf, if_neg]
      · exact hf'
      · rintro rfl
        rw [hf] at hf'
        cases hf'
        exact hne hw
  distinct := by
    intro f₁ f₂ task₁ task₂ j h₁ h₂ hj₁ hj₂
    rw [task_replaced hf] at h₁ h₂
    split at h₁
    · rename_i heq
      split at h₂
      · rename_i heq'
        exact heq.symm.trans heq'
      · rename_i hne
        exact absurd hj₁ ((hother f₂ task₂ j hne h₂ hj₂).2 task₁ h₁)
    · rename_i hne
      split at h₂
      · exact absurd hj₂ ((hother f₁ task₁ j hne h₁ hj₁).2 task₂ h₂)
      · exact h.distinct f₁ f₂ task₁ task₂ j h₁ h₂ hj₁ hj₂
  parked := by
    intro f' task' hf'
    rw [task_replaced hf] at hf'
    split at hf'
    · rcases hparked task' hf' with hidle | ⟨j, w, mark, k, hj, hp, hk, hatt, -⟩
      · exact Or.inl hidle
      · exact Or.inr ⟨j, w, mark, k, hj, hp, hk, hatt⟩
    · rename_i hne
      rcases h.parked f' task' hf' with hidle | ⟨j, w, mark, k, hj, hp, hk, hatt⟩
      · exact Or.inl hidle
      · obtain ⟨slot, hslot, hrest⟩ := hatt.slot
        exact Or.inr ⟨j, w, mark, k, hj, hp, hk, hatt.le, slot,
          (hother f' task' j hne hf' hj).1.trans hslot, hrest⟩
  borrows := by
    intro f' task' r hf' hr
    rw [task_replaced hf] at hf'
    split at hf'
    · exact h.borrows f task r hf (hfuture task' r hf' hr)
    · exact h.borrows f' task' r hf' hr
  payload := by
    intro f' task' hf' hp
    rw [task_replaced hf] at hf'
    split at hf'
    · exact hpayload task' hf' hp
    · exact h.payload f' task' hf' hp

/-- What a future becomes that waits no longer. -/
structure Idles (task : Task α) (o : Option (Task α)) : Prop where
  idle : ∀ new, o = some new → new.waiter = none ∧ new.parked = none
  future : ∀ new r, o = some new → new.future = .receive r → task.future = .receive r

/-- A future that has completed. -/
theorem Idles.of_future {task : Task α} {future : Future α}
    (h : ∀ r, future = .receive r → task.future = .receive r) :
    Idles task (some ⟨future, none, none⟩) where
  idle := by
    intro new hnew
    cases hnew
    exact ⟨rfl, rfl⟩
  future := by
    intro new r hnew hr
    cases hnew
    exact h r hr

/-- A future without a slot ends, or begins anew. -/
theorem Waits.idle {t : Tasks α cap} (h : t.Waits) {f : Nat} {task : Task α}
    (hf : t.task f = some task) (hidle : task.waiter = none) {o : Option (Task α)}
    (ho : Idles task o) : (t.replaced f o t.stream.waiters).Waits := by
  refine h.replace hf o _ ?_ ?_ (fun new hnew => Or.inl (ho.idle new hnew)) ho.future ?_
  · intro f' task' j _ _ _
    refine ⟨rfl, fun new hnew => ?_⟩
    rw [(ho.idle new hnew).1]
    exact fun hn => nomatch hn
  · intro j slot hj _
    refine Or.inr ⟨hj, ?_⟩
    rw [hidle]
    exact fun hn => nomatch hn
  · exact fun new hnew hp => absurd (ho.idle new hnew).2 hp

/-- A future gives its slot back. -/
theorem Waits.vacate {t : Tasks α cap} (h : t.Waits) {f : Nat} {task : Task α} {j : Nat}
    (hf : t.task f = some task) (hj : task.waiter = some j) (slot : Waiter)
    {o : Option (Task α)} (ho : Idles task o) :
    (t.replaced f o
      (t.stream.waiters.set j { slot with occupied := false, waker := none })).Waits := by
  refine h.replace hf o _ ?_ ?_ (fun new hnew => Or.inl (ho.idle new hnew)) ho.future ?_
  · intro f' task' j' hne hf' hj'
    refine ⟨List.getElem?_set_ne ?_, fun new hnew => ?_⟩
    · rintro rfl
      exact hne (h.distinct f f' task task' j hf hf' hj hj')
    · rw [(ho.idle new hnew).1]
      exact fun hn => nomatch hn
  · intro j' slot' hj' hocc
    rcases Handles.getElem?_set_cases hj' with ⟨-, rfl⟩ | ⟨hne, hj'⟩
    · cases hocc
    · refine Or.inr ⟨hj', ?_⟩
      rw [hj]
      exact fun hn => hne (Option.some.inj hn).symm
  · exact fun new hnew hp => absurd (ho.idle new hnew).2 hp

/-- A future that has to wait is parked in its slot, or in a free one. -/
theorem Waits.park {t : Tasks α cap} (h : t.Waits) {f : Nat} {task : Task α} {j : Nat}
    {slot : Waiter} (hf : t.task f = some task) (hslot : t.stream.waiters[j]? = some slot)
    (hj : task.waiter = some j ∨ task.waiter = none ∧ slot.occupied = false) {k : State.Wait}
    (hk : t.wait task.future = some k) (hpayload : task.future ≠ .send none)
    (hblocks : t.stream.state.Blocks k) (waker : Waker) :
    (t.replaced f (some ⟨task.future, some j, some (waker, t.stream.woken.length)⟩)
      (t.stream.waiters.set j ⟨true, k.interest.bits, some waker⟩)).Waits := by
  have hset := List.getElem?_set_self (l := t.stream.waiters)
    (a := (⟨true, k.interest.bits, some waker⟩ : Waiter)) (List.getElem?_eq_some_iff.mp hslot).1
  refine h.replace hf _ _ ?_ ?_ ?_ ?_ ?_
  · intro f' task' j' hne hf' hj'
    -- no other future holds this slot
    have hother : j ≠ j' := by
      rintro rfl
      rcases hj with hj | ⟨-, hfree⟩
      · exact hne (h.distinct f f' task task' j hf hf' hj hj')
      · obtain ⟨slot', hslot', hocc⟩ := h.held f' task' j hf' hj'
        rw [hslot] at hslot'
        cases hslot'
        rw [hfree] at hocc
        cases hocc
    refine ⟨List.getElem?_set_ne hother, ?_⟩
    rintro new hnew hw
    cases hnew
    exact hother (Option.some.inj hw)
  · intro j' slot' hj' hocc
    rcases Handles.getElem?_set_cases hj' with ⟨rfl, -⟩ | ⟨hne, hj'⟩
    · exact Or.inl ⟨_, rfl, rfl⟩
    · refine Or.inr ⟨hj', ?_⟩
      rcases hj with hj | ⟨hj, -⟩
      · rw [hj]
        exact fun hn => hne (Option.some.inj hn).symm
      · rw [hj]
        exact fun hn => nomatch hn
  · intro new hnew
    cases hnew
    exact Or.inr ⟨j, waker, t.stream.woken.length, k, rfl, rfl, hk,
      ⟨le_refl _, _, hset, rfl, Or.inr ⟨rfl, Or.inl hblocks⟩⟩, _, hset, rfl⟩
  · intro new r hnew hr
    cases hnew
    exact hr
  · intro new hnew _
    cases hnew
    exact hpayload

/-- A new future has no slot. -/
theorem Waits.start {t : Tasks α cap} (h : t.Waits) {future : Future α}
    (hborrows : ∀ r, future = .receive r → ∃ sub, t.receiver r = some sub) :
    Waits { t with futures := t.futures ++ [some ⟨future, none, none⟩] } := by
  -- a task of the longer list is an old one, or the new one
  have hcases : ∀ (f : Nat) (task : Task α),
      Slots.entry (t.futures ++ [some ⟨future, none, none⟩]) f = some task →
        t.task f = some task ∨ task = ⟨future, none, none⟩ := by
    intro f task hf
    rcases Handles.getElem?_snoc (Slots.entry_eq_some.mp hf) with ⟨hold, -⟩ | ⟨-, hnew⟩
    · exact Or.inl (Slots.entry_eq_some.mpr hold)
    · exact Or.inr (Option.some.inj hnew)
  refine
    { held := ?_
      holder := ?_
      distinct := ?_
      parked := ?_
      borrows := ?_
      payload := ?_ }
  · intro f task j hf hj
    rcases hcases f task hf with hold | rfl
    · exact h.held f task j hold hj
    · cases hj
  · intro j slot hj hocc
    obtain ⟨f, task, hf, hw⟩ := h.holder j slot hj hocc
    refine ⟨f, task, ?_, hw⟩
    have hget := Slots.entry_eq_some.mp hf
    refine Slots.entry_eq_some.mpr ?_
    rw [List.getElem?_append_left (List.getElem?_eq_some_iff.mp hget).1]
    exact hget
  · intro f₁ f₂ task₁ task₂ j h₁ h₂ hj₁ hj₂
    rcases hcases f₁ task₁ h₁ with hold₁ | rfl
    · rcases hcases f₂ task₂ h₂ with hold₂ | rfl
      · exact h.distinct f₁ f₂ task₁ task₂ j hold₁ hold₂ hj₁ hj₂
      · cases hj₂
    · cases hj₁
  · intro f task hf
    rcases hcases f task hf with hold | rfl
    · exact h.parked f task hold
    · exact Or.inl ⟨rfl, rfl⟩
  · intro f task r hf hr
    rcases hcases f task hf with hold | rfl
    · exact h.borrows f task r hold hr
    · exact hborrows r hr
  · intro f task hf hp
    rcases hcases f task hf with hold | rfl
    · exact h.payload f task hold hp
    · exact absurd rfl hp

/-! ## Polls -/

/-- A future lets its slot go, if it has one. -/
theorem Waits.cancel {t : Tasks α cap} (h : t.Waits) {f : Nat} {task : Task α}
    (hf : t.task f = some task) :
    ∃ stream, t.stream.cancel task.waiter = .ok stream ∧ stream.state = t.stream.state ∧
      stream.woken = t.stream.woken ∧ ∀ o, Idles task o →
        Waits { t with stream := stream, futures := t.futures.set f o } := by
  cases hw : task.waiter with
  | none => exact ⟨t.stream, rfl, rfl, rfl, fun o ho => h.idle hf hw ho⟩
  | some j =>
    obtain ⟨slot, hslot, -⟩ := h.held f task j hf hw
    exact ⟨_, StaticStream.cancel_some hslot, rfl, rfl, fun o ho => h.vacate hf hw slot ho⟩

section

variable {t : Tasks α cap} {f : Nat} {task : Task α} {k : State.Wait}
  {access : State α cap → Exec (Poll β × State α cap)}

/-- A poll whose attempt is answered. -/
theorem Waits.poll_ready {state : State α cap} {published : List α}
    {subscriptions : List (Subscription α)}
    (h : (t.accessed state published subscriptions).Waits) (hf : t.task f = some task)
    {value : β} (hready : access t.stream.state = .ok (.ready value, state)) (waker : Waker) :
    ∃ stream, t.stream.pollWith task.waiter k.interest waker access =
        .ok (.ok (.ready value), none, stream) ∧
      stream.state = { state with changed := 0 } ∧
      stream.woken = (t.stream.flush state).woken ∧
      ∀ o, Idles task o → (⟨stream, published, subscriptions, t.futures.set f o⟩ :
        Tasks α cap).Waits := by
  have hf' : (t.accessed state published subscriptions).flushed.task f = some task := hf
  obtain ⟨stream, hcancel, hstate, hwoken, hwaits⟩ := h.flushed.cancel hf'
  refine ⟨stream, ?_, hstate, hwoken, hwaits⟩
  have hcancel : (t.stream.flush state).cancel task.waiter = .ok stream := hcancel
  rw [StaticStream.pollWith_ready hready, hcancel]
  rfl

/-- A poll that has to wait parks the future, unless it has no slot and all are taken. -/
theorem Waits.poll_pending (h : t.Waits) (hf : t.task f = some task)
    (hk : t.wait task.future = some k) (hpayload : task.future ≠ .send none)
    (hblocks : t.stream.state.Blocks k) (haccess : StaticStream.Waiting access t.stream.state)
    (waker : Waker) :
    (∃ j stream, t.stream.pollWith task.waiter k.interest waker access =
        .ok (.ok .pending, some j, stream) ∧
      stream.state = { t.stream.state with changed := 0 } ∧
      stream.woken = (t.stream.flush t.stream.state).woken ∧
      Waits { t with
        stream := stream
        futures := t.futures.set f
          (some ⟨task.future, some j, some (waker, stream.woken.length)⟩) }) ∨
    task.waiter = none ∧ t.stream.pollWith task.waiter k.interest waker access =
      .ok (.error (), none, t.stream.flush t.stream.state) := by
  have hf' : t.flushed.task f = some task := hf
  have hblocks' : t.flushed.stream.state.Blocks k := by
    cases k <;> exact hblocks
  -- the slot of this poll, if there is one
  have hpark : ∀ (j : Nat) (slot : Waiter), t.stream.waiters[j]? = some slot →
      ((task.waiter = some j ∧ slot.occupied = true) ∨ task.waiter = none ∧
        t.stream.waiters.findIdx? (fun slot => !slot.occupied) = some j) →
      (task.waiter = some j ∨ task.waiter = none ∧ slot.occupied = false) →
      ∃ j stream, t.stream.pollWith task.waiter k.interest waker access =
          .ok (.ok .pending, some j, stream) ∧
        stream.state = { t.stream.state with changed := 0 } ∧
        stream.woken = (t.stream.flush t.stream.state).woken ∧
        Waits { t with
          stream := stream
          futures := t.futures.set f
            (some ⟨task.future, some j, some (waker, stream.woken.length)⟩) } := by
    intro j slot hslot hown hfree
    refine ⟨j, _, StaticStream.pollWith_pending haccess hslot hown, rfl, rfl, ?_⟩
    refine h.flushed.park hf' (StaticStream.flush_waiters hslot) ?_ hk hpayload hblocks' waker
    refine hfree.imp id fun hfree => ⟨hfree.1, ?_⟩
    split <;> exact hfree.2
  cases hw : task.waiter with
  | some j =>
    obtain ⟨slot, hslot, hocc⟩ := h.held f task j hf hw
    rw [← hw]
    exact Or.inl (hpark j slot hslot (Or.inl ⟨hw, hocc⟩) (Or.inl hw))
  | none =>
    cases hfree : t.stream.waiters.findIdx? (fun slot => !slot.occupied) with
    | none => exact Or.inr ⟨rfl, StaticStream.pollWith_full haccess hfree⟩
    | some j =>
      obtain ⟨hlt, hocc, -⟩ := List.findIdx?_eq_some_iff_getElem.mp hfree
      rw [← hw]
      exact Or.inl (hpark j _ (List.getElem?_eq_getElem hlt) (Or.inr ⟨hw, hfree⟩)
        (Or.inr ⟨hw, by simpa using hocc⟩))

end

/-! ## Operations -/

structure Inv (delivery : Delivery) (t : Tasks α cap) : Prop where
  delivery : t.stream.state.delivery = delivery
  sound : State.Sound t.published t.subscriptions t.stream.state
  waits : t.Waits

/-- From `t` to `t'` there was a notification, of everything that was announced. -/
def Notified (t t' : Tasks α cap) : Prop :=
  ∃ state : State α cap, t'.stream.woken = (t.stream.flush state).woken ∧
    ∀ interest, t.stream.state.Announces interest → state.Announces interest

variable {delivery : Delivery} {t : Tasks α cap}

theorem Inv.accessed_of (h : t.Inv delivery) {state : State α cap} {published : List α}
    {subscriptions : List (Subscription α)} (hsound : State.Sound published subscriptions state)
    (hdelivery : state.delivery = t.stream.state.delivery)
    (hheard : ∀ (f : Nat) (task : Task α) (k : State.Wait), t.task f = some task →
      t.wait task.future = some k → State.Heard t.stream.state state k)
    (hkeys : ∀ (r : Nat) (sub : Subscription α), t.subscriptions[r]? = some sub →
      ∃ sub', subscriptions[r]? = some sub' ∧ sub'.key = sub.key ∧
        (t.borrowed r = true → sub'.dropped = sub.dropped)) :
    (t.accessed state published subscriptions).Inv delivery :=
  ⟨hdelivery.trans h.delivery, hsound, h.waits.accessed _ _ _ hheard hkeys⟩

/-- What an access keeps when it leaves the keys of subscriptions alone. -/
theorem Inv.accessed (h : t.Inv delivery) {state : State α cap} {published : List α}
    {subscriptions : List (Subscription α)} (hsound : State.Sound published subscriptions state)
    (hdelivery : state.delivery = t.stream.state.delivery)
    (hheard : ∀ k, State.Heard t.stream.state state k)
    (hkeys : ∀ (r : Nat) (sub : Subscription α), t.subscriptions[r]? = some sub →
      ∃ sub', subscriptions[r]? = some sub' ∧ sub'.key = sub.key ∧ sub'.dropped = sub.dropped) :
    (t.accessed state published subscriptions).Inv delivery :=
  h.accessed_of hsound hdelivery (fun _ _ k _ _ => hheard k) fun r sub hr =>
    (hkeys r sub hr).imp fun _ hsub => ⟨hsub.1, hsub.2.1, fun _ => hsub.2.2⟩

theorem Inv.flushed (h : t.Inv delivery) : t.flushed.Inv delivery :=
  ⟨h.delivery, h.sound.announced 0, h.waits.flushed⟩

/-- Only the items of a subscription change. -/
theorem keys_set {subscriptions : List (Subscription α)} {r : Nat} {sub : Subscription α}
    (hr : subscriptions[r]? = some sub) (items : List (StreamItem α)) (r' : Nat)
    (sub' : Subscription α) (hr' : subscriptions[r']? = some sub') :
    ∃ new, (subscriptions.set r { sub with items := items })[r']? = some new ∧
      new.key = sub'.key ∧ new.dropped = sub'.dropped := by
  by_cases heq : r = r'
  · subst heq
    rw [hr] at hr'
    cases hr'
    exact ⟨_, List.getElem?_set_self (List.getElem?_eq_some_iff.mp hr).1, rfl, rfl⟩
  · exact ⟨sub', (List.getElem?_set_ne heq).trans hr', rfl, rfl⟩

theorem Notified.of_heard {t' : Tasks α cap} {state : State α cap}
    (hheard : ∀ k, State.Heard t.stream.state state k)
    (hwoken : t'.stream.woken = (t.stream.flush state).woken) : t.Notified t' := by
  refine ⟨state, hwoken, fun interest => ?_⟩
  cases interest with
  | send => exact (hheard .send).announces
  | receive => exact (hheard (.receive ⟨0, 0⟩)).announces

section

variable [Target] (h : t.Inv delivery) (hcap : 0 < cap) (hword : cap ≤ usizeMax)

include h hcap hword

theorem inv_trySend (value : α) : ∃ t', t.trySend value = .ok t' ∧ t'.Inv delivery := by
  obtain ⟨result, state, he, hsound, hdelivery, hheard, -⟩ := h.sound.send hcap hword value
  refine ⟨_, ?_, h.accessed hsound hdelivery hheard fun r sub hr => ⟨sub, hr, rfl, rfl⟩⟩
  simp only [trySend, StaticStream.trySend, StaticStream.tryLock, he, ok_bind, pure_eq]
  rfl

theorem inv_sendNow (value : α) :
    ∃ t', t.sendNow value = .ok t' ∧ t'.Inv delivery ∧ t.Notified t' := by
  obtain ⟨result, state, he, hsound, hdelivery, hheard, -⟩ := h.sound.send hcap hword value
  have hinv := (h.accessed hsound hdelivery hheard fun r sub hr => ⟨sub, hr, rfl, rfl⟩).flushed
  refine ⟨_, ?_, hinv, Notified.of_heard hheard rfl⟩
  simp only [sendNow, StaticStream.sendNow, StaticStream.withState, he, ok_bind, pure_eq]
  rfl

theorem inv_tryRecv {r : Nat} {sub : Subscription α} (hr : t.receiver r = some sub) :
    ∃ t', t.tryRecv r = .ok t' ∧ t'.Inv delivery := by
  obtain ⟨hget, hd⟩ := receiver_eq_some.mp hr
  obtain ⟨result, state, he, hsound, hdelivery, hheard, -⟩ :=
    h.sound.receive hcap hword hget hd
  refine ⟨_, ?_, h.accessed hsound hdelivery hheard (keys_set hget _)⟩
  simp only [tryRecv, hr, StaticStream.tryRecv, StaticStream.tryLock, he, ok_bind, pure_eq]
  rfl

theorem inv_recvNow {r : Nat} {sub : Subscription α} (hr : t.receiver r = some sub) :
    ∃ t', t.recvNow r = .ok t' ∧ t'.Inv delivery ∧ t.Notified t' := by
  obtain ⟨hget, hd⟩ := receiver_eq_some.mp hr
  obtain ⟨result, state, he, hsound, hdelivery, hheard, -⟩ :=
    h.sound.receive hcap hword hget hd
  have hinv := (h.accessed hsound hdelivery hheard (keys_set hget _)).flushed
  refine ⟨_, ?_, hinv, Notified.of_heard hheard rfl⟩
  simp only [recvNow, hr, StaticStream.recvNow, StaticStream.withState, he, ok_bind, pure_eq]
  rfl

omit [Target] hcap hword in
theorem inv_subscribe (role : SubscriptionRole) :
    ∃ t', t.subscribe role = .ok t' ∧ t'.Inv delivery ∧ t.Notified t' := by
  rcases t.stream.state.subscribe_spec role with
    ⟨error, he⟩ | ⟨index, hopen, hrole, hfree, hmax, he⟩
  · have hinv := (h.accessed h.sound rfl (State.Heard.refl _)
      fun r sub hr => ⟨sub, hr, rfl, rfl⟩).flushed
    refine ⟨_, ?_, hinv, Notified.of_heard (State.Heard.refl _) rfl⟩
    simp only [subscribe, StaticStream.subscribe, StaticStream.withState, he, ok_bind, pure_eq]
    rfl
  · have hheard := State.heard_subscribed hfree (t.stream.state.nextGeneration + 1)
      ⟨t.stream.state.nextGeneration, if t.stream.state.delivery = .latest
        then t.stream.state.tail - 1 else t.stream.state.tail, role⟩
    have hinv := (h.accessed (h.sound.subscribed role hfree) rfl hheard
      fun r sub hr => ⟨sub, ?_, rfl, rfl⟩).flushed
    · refine ⟨_, ?_, hinv, Notified.of_heard hheard rfl⟩
      simp only [subscribe, StaticStream.subscribe, StaticStream.withState, he, ok_bind, pure_eq]
      rfl
    · rw [List.getElem?_append_left (List.getElem?_eq_some_iff.mp hr).1]
      exact hr

omit [Target] hcap hword in
theorem inv_close (reason : CloseReason) :
    ∃ t', t.close reason = .ok t' ∧ t'.Inv delivery ∧ t.Notified t' := by
  have hheard := State.heard_close t.stream.state reason
  have hinv := (h.accessed (h.sound.close reason) rfl hheard
    fun r sub hr => ⟨sub, hr, rfl, rfl⟩).flushed
  exact ⟨_, rfl, hinv, Notified.of_heard hheard rfl⟩

omit [Target] hcap hword in
theorem inv_maintain : ∃ t', t.maintain = .ok t' ∧ t'.Inv delivery ∧ t.Notified t' :=
  ⟨_, rfl, h.flushed, Notified.of_heard (State.Heard.refl _) rfl⟩

omit [Target] hcap hword in
/-- A receiver that is dropped has no futures, so none waits for its cursor. -/
theorem inv_drop {r : Nat} {sub : Subscription α} (hr : t.receiver r = some sub)
    (hb : t.borrowed r = false) :
    ∃ t', t.drop r = .ok t' ∧ t'.Inv delivery ∧ t.Notified t' := by
  obtain ⟨hget, hd⟩ := receiver_eq_some.mp hr
  obtain ⟨c, hk, -⟩ := h.sound.cursor hget hd
  have hi := Slots.lt_of_entry (State.cursor_eq_some.mp hk).1
  have he := State.drop_eq hi
  rw [hk, Option.isSome_some, if_pos rfl] at he
  have hsound := h.sound.dropped hget hd (t.stream.state.changed ||| Interest.send.bits)
  have hinv := h.accessed_of hsound rfl ?_ ?_
  · refine ⟨_, ?_, hinv.flushed, ?_⟩
    · simp only [drop, hr, hb, StaticStream.dropReceiver, StaticStream.withState, he, ok_bind,
        pure_eq, Bool.false_eq_true, if_false]
      rfl
    · exact ⟨_, rfl, fun interest => State.announces_mono rfl⟩
  · intro f task k hf hwait
    refine State.heard_dropped k fun key' hkey hindex => ?_
    subst hkey
    -- the future's receiver is another one, and its cursor another slot
    cases hfuture : task.future with
    | send payload =>
      rw [hfuture] at hwait
      cases hwait
    | receive r' =>
      obtain ⟨sub', hr'⟩ := h.waits.borrows f task r' hf hfuture
      obtain ⟨hget', hd'⟩ := receiver_eq_some.mp hr'
      rw [hfuture] at hwait
      obtain ⟨sub'', hget'', hkey⟩ := Option.map_eq_some_iff.mp hwait
      rw [hget'] at hget''
      cases hget''
      cases hkey
      have hne : r' ≠ r := by
        rintro rfl
        rw [← Bool.not_eq_true] at hb
        exact hb (borrowed_iff.mpr ⟨f, task, hf, hfuture⟩)
      exact absurd hindex.symm (h.sound.owns.index_ne hget hget' (by simp [handles, hd])
        (by simp [handles, hd']) hne)
  · intro r' sub' hget'
    by_cases heq : r = r'
    · subst heq
      rw [hget] at hget'
      cases hget'
      refine ⟨_, List.getElem?_set_self (List.getElem?_eq_some_iff.mp hget).1, rfl, ?_⟩
      rw [hb]
      exact fun hn => by cases hn
    · exact ⟨sub', (List.getElem?_set_ne heq).trans hget', rfl, fun _ => rfl⟩

/-! ### Polls -/

omit h in
theorem waiting_send {s : State α cap} {published : List α}
    {subscriptions : List (Subscription α)} (hsound : State.Sound published subscriptions s)
    (hblocks : s.Blocks .send) (payload : α) :
    StaticStream.Waiting (StaticStream.sendAccess payload) s := by
  intro changed
  obtain ⟨result, state, he, -, -, -, hres⟩ :=
    (hsound.announced changed).send hcap hword payload
  rcases hres with ⟨rfl, -, rfl⟩ | ⟨hnot, -⟩
  · simp only [StaticStream.sendAccess, he, ok_bind, pure_eq, StaticStream.sendPoll]
  · exact absurd hblocks hnot

omit h in
theorem waiting_receive {s : State α cap} {published : List α}
    {subscriptions : List (Subscription α)} (hsound : State.Sound published subscriptions s)
    {r : Nat} {sub : Subscription α} (hr : subscriptions[r]? = some sub)
    (hd : sub.dropped = false) (hblocks : s.Blocks (.receive sub.key)) :
    StaticStream.Waiting (StaticStream.receiveAccess sub.key) s := by
  intro changed
  obtain ⟨result, state, he, -, -, -, hres, -⟩ :=
    (hsound.announced changed).receive hcap hword hr hd
  rcases hres with ⟨rfl, -, rfl⟩ | ⟨hnot, -⟩
  · simp only [StaticStream.receiveAccess, he, ok_bind, pure_eq, StaticStream.receivePoll]
  · exact absurd hblocks hnot

omit [Target] h hcap hword in
theorem sendPoll_ready {result : Except (TrySendError α) Unit}
    (h : ∀ v, result ≠ .error (.full v)) :
    ∃ answer, StaticStream.sendPoll result = .ready answer ∧ answer.isOk = result.isOk := by
  cases result with
  | ok u => exact ⟨_, rfl, rfl⟩
  | error error =>
    cases error with
    | full v => exact absurd rfl (h v)
    | _ => exact ⟨_, rfl, rfl⟩

omit [Target] h hcap hword in
theorem receivePoll_ready {result : Except ReceiveError (Option (StreamItem α))}
    (h : result ≠ .ok none) :
    ∃ answer, StaticStream.receivePoll result = .ready answer ∧
      answer.toOption = result.toOption.join := by
  cases result with
  | error error => exact ⟨_, rfl, rfl⟩
  | ok item =>
    cases item with
    | none => exact absurd rfl h
    | some item => exact ⟨_, rfl, rfl⟩

/-- A poll of a send future is pending if it has to wait and holds a slot. -/
theorem inv_pollSend {f : Nat} {task : Task α} {payload : α} (hf : t.task f = some task)
    (hfuture : task.future = .send (some payload)) (waker : Waker) :
    ∃ poll t', t.pollTask f waker = .ok (poll, t') ∧ t'.Inv delivery ∧ t.Notified t' ∧
      (t.stream.state.Blocks .send → task.waiter ≠ none → poll = .pending) := by
  have hpayload : task.future ≠ .send none := by
    rw [hfuture]
    simp
  have hk : t.wait task.future = some .send := by
    rw [hfuture]
    rfl
  have hidles : Idles task (some (⟨.send none, none, none⟩ : Task α)) :=
    Idles.of_future fun r hn => nomatch hn
  obtain ⟨result, state, he, hsound, hdelivery, hheard, hres⟩ := h.sound.send hcap hword payload
  rcases hres with ⟨rfl, hblocks, rfl⟩ | ⟨hnot, hready⟩
  · have haccess := waiting_send hcap hword h.sound hblocks payload
    rcases h.waits.poll_pending hf hk hpayload hblocks haccess waker with
      ⟨j, stream, hpoll, hstate, hwoken, hwaits⟩ | ⟨hidle, hpoll⟩
    · have hpoll : t.stream.pollWith task.waiter .send waker _ = _ := hpoll
      refine ⟨.pending, _, ?_, ⟨?_, ?_, hwaits⟩, Notified.of_heard hheard hwoken, fun _ _ => rfl⟩
      · simp only [pollTask, hf, hfuture, StaticStream.pollSend, hpoll, ok_bind, pure_eq]
        rfl
      · dsimp only
        rw [hstate]
        exact h.delivery
      · dsimp only
        rw [hstate]
        exact h.sound.announced 0
    · -- all slots are taken, and the future has none
      have hpoll : t.stream.pollWith task.waiter .send waker _ = _ := hpoll
      have hinv : (t.flushed.replaced f _ t.flushed.stream.waiters).Inv delivery :=
        ⟨h.flushed.delivery, h.flushed.sound, h.flushed.waits.idle hf hidle hidles⟩
      refine ⟨.ready (), _, ?_, hinv, Notified.of_heard hheard rfl, fun _ hn => absurd hidle hn⟩
      simp only [pollTask, hf, hfuture, StaticStream.pollSend, hpoll, ok_bind, pure_eq]
      rfl
  · obtain ⟨answer, hanswer, hok⟩ := sendPoll_ready hready
    have hattempt : StaticStream.sendAccess payload t.stream.state = .ok (.ready answer, state) := by
      simp only [StaticStream.sendAccess, he, ok_bind, pure_eq, hanswer]
    have hinv := h.accessed hsound hdelivery hheard fun r sub hr => ⟨sub, hr, rfl, rfl⟩
    obtain ⟨stream, hpoll, hstate, hwoken, hwaits⟩ :=
      hinv.waits.poll_ready (k := .send) hf hattempt waker
    have hpoll : t.stream.pollWith task.waiter .send waker _ = _ := hpoll
    refine ⟨.ready (), _, ?_, ⟨?_, ?_, hwaits _ hidles⟩,
      Notified.of_heard hheard hwoken, fun hblocks => absurd hblocks hnot⟩
    · simp only [pollTask, hf, hfuture, StaticStream.pollSend, hpoll, ok_bind, pure_eq, hok.symm]
      rfl
    · dsimp only
      rw [hstate]
      exact hdelivery.trans h.delivery
    · dsimp only
      rw [hstate]
      exact hsound.announced 0

/-- A poll of a receive future is pending if it has to wait and holds a slot. -/
theorem inv_pollReceive {f : Nat} {task : Task α} {r : Nat} {sub : Subscription α}
    (hf : t.task f = some task) (hfuture : task.future = .receive r)
    (hr : t.receiver r = some sub) (waker : Waker) :
    ∃ poll t', t.pollTask f waker = .ok (poll, t') ∧ t'.Inv delivery ∧ t.Notified t' ∧
      (t.stream.state.Blocks (.receive sub.key) → task.waiter ≠ none → poll = .pending) := by
  obtain ⟨hget, hd⟩ := receiver_eq_some.mp hr
  have hpayload : task.future ≠ .send none := by
    rw [hfuture]
    simp
  have hk : t.wait task.future = some (.receive sub.key) := by
    rw [hfuture]
    exact Option.map_eq_some_iff.mpr ⟨sub, hget, rfl⟩
  have hidles : Idles task (some (⟨.receive r, none, none⟩ : Task α)) :=
    Idles.of_future fun r' hr' => hfuture.trans hr'
  obtain ⟨result, state, he, hsound, hdelivery, hheard, hres, -⟩ :=
    h.sound.receive hcap hword hget hd
  rcases hres with ⟨rfl, hblocks, rfl⟩ | ⟨hnot, hready⟩
  · have haccess := waiting_receive hcap hword h.sound hget hd hblocks
    rcases h.waits.poll_pending hf hk hpayload hblocks haccess waker with
      ⟨j, stream, hpoll, hstate, hwoken, hwaits⟩ | ⟨hidle, hpoll⟩
    · have hpoll : t.stream.pollWith task.waiter .receive waker _ = _ := hpoll
      refine ⟨.pending, _, ?_, ⟨?_, ?_, hwaits⟩, Notified.of_heard hheard hwoken, fun _ _ => rfl⟩
      · simp only [pollTask, hf, hfuture, hr, StaticStream.pollReceive, hpoll, ok_bind, pure_eq]
        rfl
      · dsimp only
        rw [hstate]
        exact h.delivery
      · dsimp only
        rw [hstate]
        exact h.sound.announced 0
    · have hpoll : t.stream.pollWith task.waiter .receive waker _ = _ := hpoll
      have hsame : t.subscriptions.set r { sub with items := sub.items ++ [] } =
          t.subscriptions := by
        rw [List.append_nil]
        exact Slots.set_getElem? hget
      have hinv : (t.flushed.replaced f _ t.flushed.stream.waiters).Inv delivery :=
        ⟨h.flushed.delivery, h.flushed.sound, h.flushed.waits.idle hf hidle hidles⟩
      refine ⟨.ready (), _, ?_, hinv, Notified.of_heard hheard rfl, fun _ hn => absurd hidle hn⟩
      simp only [pollTask, hf, hfuture, hr, StaticStream.pollReceive, hpoll, ok_bind, pure_eq,
        told, Except.toOption, Option.toList_none, hsame]
      rfl
  · obtain ⟨answer, hanswer, htold⟩ := receivePoll_ready hready
    have hattempt : StaticStream.receiveAccess sub.key t.stream.state =
        .ok (.ready answer, state) := by
      simp only [StaticStream.receiveAccess, he, ok_bind, pure_eq, hanswer]
    have hinv := h.accessed hsound hdelivery hheard (keys_set hget _)
    obtain ⟨stream, hpoll, hstate, hwoken, hwaits⟩ :=
      hinv.waits.poll_ready (k := .receive sub.key) hf hattempt waker
    have hpoll : t.stream.pollWith task.waiter .receive waker _ = _ := hpoll
    refine ⟨.ready (), _, ?_, ⟨?_, ?_, hwaits _ hidles⟩, Notified.of_heard hheard hwoken,
      fun hblocks => absurd hblocks hnot⟩
    · simp only [pollTask, hf, hfuture, hr, StaticStream.pollReceive, hpoll, ok_bind, pure_eq,
        htold.symm]
      rfl
    · dsimp only
      rw [hstate]
      exact hdelivery.trans h.delivery
    · dsimp only
      rw [hstate]
      exact hsound.announced 0

/-- A poll of any future but a send that has completed. -/
theorem inv_poll {f : Nat} {task : Task α} (hf : t.task f = some task)
    (hfuture : task.future ≠ .send none) (waker : Waker) :
    ∃ poll t', t.pollTask f waker = .ok (poll, t') ∧ t'.Inv delivery ∧ t.Notified t' ∧
      ∀ k, t.wait task.future = some k → t.stream.state.Blocks k → task.waiter ≠ none →
        poll = .pending := by
  cases hcase : task.future with
  | send payload =>
    cases payload with
    | none => exact absurd hcase hfuture
    | some payload =>
      obtain ⟨poll, t', hpoll, hinv, hnotified, hpending⟩ :=
        inv_pollSend h hcap hword hf hcase waker
      refine ⟨poll, t', hpoll, hinv, hnotified, fun k hk => ?_⟩
      cases hk
      exact hpending
  | receive r =>
    obtain ⟨sub, hr⟩ := h.waits.borrows f task r hf hcase
    obtain ⟨poll, t', hpoll, hinv, hnotified, hpending⟩ :=
      inv_pollReceive h hcap hword hf hcase hr waker
    refine ⟨poll, t', hpoll, hinv, hnotified, fun k hk => ?_⟩
    obtain ⟨sub', hget, rfl⟩ := Option.map_eq_some_iff.mp hk
    rw [(receiver_eq_some.mp hr).1] at hget
    cases hget
    exact hpending

omit [Target] hcap hword in
theorem inv_cancel {f : Nat} {task : Task α} (hf : t.task f = some task) :
    ∃ t', t.cancel f = .ok t' ∧ t'.Inv delivery := by
  obtain ⟨stream, hcancel, hstate, -, hwaits⟩ := h.waits.cancel hf
  refine ⟨_, ?_, ⟨?_, ?_, hwaits none ⟨by simp, by simp⟩⟩⟩
  · simp only [cancel, hf, hcancel, ok_bind, pure_eq]
  · dsimp only
    rw [hstate]
    exact h.delivery
  · dsimp only
    rw [hstate]
    exact h.sound

end

/-! ## Whole sessions -/

/-- An operation that is not strict, on handles that can be used. -/
def dispatches (t : Tasks α cap) : TaskOp α → Prop
  | .subscribe _ | .sendNow _ | .close _ | .maintain => True
  | .recvNow r => (t.receiver r).isSome
  | .drop r => (t.receiver r).isSome ∧ t.borrowed r = false
  | .poll f _ => ∃ task, t.task f = some task ∧ task.future ≠ .send none
  | .trySend _ | .tryRecv _ | .send _ | .recv _ | .cancel _ => False

/-- Every operation succeeds and keeps the invariant, and one that is not strict notifies. -/
theorem inv_step [Target] (h : t.Inv delivery) (hcap : 0 < cap) (hword : cap ≤ usizeMax)
    (op : TaskOp α) :
    ∃ t', t.step op = .ok t' ∧ t'.Inv delivery ∧ (t.dispatches op → t.Notified t') := by
  cases op with
  | subscribe role =>
    obtain ⟨t', he, hinv, hn⟩ := inv_subscribe h role
    exact ⟨t', he, hinv, fun _ => hn⟩
  | trySend value =>
    obtain ⟨t', he, hinv⟩ := inv_trySend h hcap hword value
    exact ⟨t', he, hinv, False.elim⟩
  | sendNow value =>
    obtain ⟨t', he, hinv, hn⟩ := inv_sendNow h hcap hword value
    exact ⟨t', he, hinv, fun _ => hn⟩
  | tryRecv r =>
    cases hr : t.receiver r with
    | none => exact ⟨t, by simp [step, tryRecv, hr], h, False.elim⟩
    | some sub =>
      obtain ⟨t', he, hinv⟩ := inv_tryRecv h hcap hword hr
      exact ⟨t', he, hinv, False.elim⟩
  | recvNow r =>
    cases hr : t.receiver r with
    | none => exact ⟨t, by simp [step, recvNow, hr], h, by simp [dispatches, hr]⟩
    | some sub =>
      obtain ⟨t', he, hinv, hn⟩ := inv_recvNow h hcap hword hr
      exact ⟨t', he, hinv, fun _ => hn⟩
  | drop r =>
    cases hr : t.receiver r with
    | none => exact ⟨t, by simp [step, drop, hr], h, by simp [dispatches, hr]⟩
    | some sub =>
      cases hb : t.borrowed r with
      | true => exact ⟨t, by simp [step, drop, hr, hb], h, by simp [dispatches, hb]⟩
      | false =>
        obtain ⟨t', he, hinv, hn⟩ := inv_drop h hr hb
        exact ⟨t', he, hinv, fun _ => hn⟩
  | close reason =>
    obtain ⟨t', he, hinv, hn⟩ := inv_close h reason
    exact ⟨t', he, hinv, fun _ => hn⟩
  | maintain =>
    obtain ⟨t', he, hinv, hn⟩ := inv_maintain h
    exact ⟨t', he, hinv, fun _ => hn⟩
  | send value =>
    exact ⟨_, rfl, ⟨h.delivery, h.sound, h.waits.start fun r hr => nomatch hr⟩, False.elim⟩
  | recv r =>
    refine ⟨_, rfl, ?_, False.elim⟩
    cases hr : t.receiver r with
    | none =>
      simp only [recv, hr]
      exact h
    | some sub =>
      simp only [recv, hr]
      refine ⟨h.delivery, h.sound, h.waits.start fun r' hr' => ?_⟩
      cases hr'
      exact ⟨sub, hr⟩
  | poll f waker =>
    cases hf : t.task f with
    | none => exact ⟨t, by simp [step, pollTask, hf], h, by simp [dispatches, hf]⟩
    | some task =>
      by_cases hfuture : task.future = .send none
      · exact ⟨t, by simp [step, pollTask, hf, hfuture], h, by simp [dispatches, hf, hfuture]⟩
      · obtain ⟨poll, t', he, hinv, hn, -⟩ := inv_poll h hcap hword hf hfuture waker
        exact ⟨t', by simp [step, he], hinv, fun _ => hn⟩
  | cancel f =>
    cases hf : t.task f with
    | none => exact ⟨t, by simp [step, cancel, hf], h, False.elim⟩
    | some task =>
      obtain ⟨t', he, hinv⟩ := inv_cancel h hf
      exact ⟨t', he, hinv, False.elim⟩

/-- Nobody waits yet. -/
theorem Waits.begin (state : State α cap) (waiters : Nat) :
    (begin ⟨state, List.replicate waiters Waiter.new, false, []⟩).Waits where
  held := fun _ _ _ hf _ => nomatch hf
  holder := by
    intro j slot hj hocc
    rw [List.eq_of_mem_replicate (List.mem_of_getElem? hj)] at hocc
    cases hocc
  distinct := fun _ _ _ _ _ hf _ _ _ => nomatch hf
  parked := fun _ _ hf => nomatch hf
  borrows := fun _ _ _ hf _ => nomatch hf
  payload := fun _ _ hf _ => nomatch hf

theorem inv_begin {subs waiters : Nat} {stream : StaticStream α cap}
    (hstart : StaticStream.withLock delivery subs waiters = .ok stream) :
    0 < cap ∧ (begin stream).Inv delivery := by
  unfold StaticStream.withLock State.withLock Exec.assert at hstart
  by_cases hcap : 0 < cap
  · by_cases hone : delivery ≠ .latest ∨ cap = 1
    · simp only [if_pos hcap, if_pos hone, ok_bind, pure_eq] at hstart
      cases hstart
      refine ⟨hcap, rfl, State.Sound.new delivery subs fun hlatest => ?_, ?_⟩
      · exact hone.resolve_left (not_not.mpr hlatest)
      · exact Waits.begin _ waiters
    · simp only [if_pos hcap, if_neg hone, ok_bind] at hstart
      cases hstart
  · simp only [if_neg hcap] at hstart
    cases hstart

theorem inv_run [Target] {subs waiters : Nat} {stream : StaticStream α cap}
    (hstart : StaticStream.withLock delivery subs waiters = .ok stream) (hword : cap ≤ usizeMax)
    (ops : List (TaskOp α)) : ∃ t, run stream ops = .ok t ∧ t.Inv delivery := by
  obtain ⟨hcap, hinv⟩ := inv_begin hstart
  refine steps_invariant (fun t op h => ?_) hinv ops
  obtain ⟨t', he, hinv', -⟩ := inv_step h hcap hword op
  exact ⟨t', he, hinv'⟩

/-- The future `f` holds the waiter slot `j`. -/
def Holds (t : Tasks α cap) (f j : Nat) : Prop :=
  ∃ task, t.task f = some task ∧ task.waiter = some j

/-- Nobody waits in vain. -/
structure Unstranded [Target] (t : Tasks α cap) : Prop where
  /-- Taken slots and the futures that hold one correspond one to one. -/
  slots : ∀ (j : Nat) (slot : Waiter), t.stream.waiters[j]? = some slot →
    (slot.occupied = true ↔ ∃ f, t.Holds f j) ∧ ∀ f f', t.Holds f j → t.Holds f' j → f = f'
  held : ∀ f j, t.Holds f j → j < t.stream.waiters.length
  /-- A future holds a slot exactly while its last poll returned `Pending`. -/
  parked : ∀ (f : Nat) (task : Task α), t.task f = some task →
    (task.waiter ≠ none ↔ task.parked ≠ none)
  /-- The waker of the last poll has been woken since, or another poll would be pending
  again, or the future's interest is announced, and whatever is not strict wakes it. -/
  attended : ∀ (f : Nat) (task : Task α) (w : Waker) (mark : Nat), t.task f = some task →
    task.parked = some (w, mark) → w ∈ t.stream.woken.drop mark ∨
      (∀ waker, ∃ t', t.pollTask f waker = .ok (.pending, t')) ∨
      t.stream.state.Announces task.future.interest ∧ ∀ op, t.dispatches op →
        ∃ t', t.step op = .ok t' ∧ w ∈ t'.stream.woken.drop mark

theorem Inv.unstranded [Target] (h : t.Inv delivery) (hcap : 0 < cap) (hword : cap ≤ usizeMax) :
    t.Unstranded where
  slots := by
    intro j slot hj
    refine ⟨⟨h.waits.holder j slot hj, ?_⟩, ?_⟩
    · rintro ⟨f, task, hf, hw⟩
      obtain ⟨slot', hj', hocc⟩ := h.waits.held f task j hf hw
      rw [hj] at hj'
      cases hj'
      exact hocc
    · rintro f f' ⟨task, hf, hw⟩ ⟨task', hf', hw'⟩
      exact h.waits.distinct f f' task task' j hf hf' hw hw'
  held := by
    rintro f j ⟨task, hf, hw⟩
    obtain ⟨slot, hj, -⟩ := h.waits.held f task j hf hw
    exact (List.getElem?_eq_some_iff.mp hj).1
  parked := by
    intro f task hf
    rcases h.waits.parked f task hf with ⟨hw, hp⟩ | ⟨j, w, mark, k, hw, hp, -⟩
    · simp [hw, hp]
    · simp [hw, hp]
  attended := by
    intro f task w mark hf hp
    rcases h.waits.parked f task hf with ⟨-, hnone⟩ | ⟨j, w', mark', k, hw, hp', hk, hatt⟩
    · rw [hp] at hnone
      cases hnone
    · rw [hp] at hp'
      cases hp'
      have hinterest : k.interest = task.future.interest := by
        cases hfuture : task.future with
        | send payload =>
          rw [hfuture] at hk
          cases hk
          rfl
        | receive r =>
          rw [hfuture] at hk
          obtain ⟨sub, -, rfl⟩ := Option.map_eq_some_iff.mp hk
          rfl
      obtain ⟨slot, -, -, hwoken | ⟨-, hblocks | hannounces⟩⟩ := hatt.slot
      · exact Or.inl hwoken
      · refine Or.inr (Or.inl fun waker => ?_)
        have hpayload := h.waits.payload f task hf (by simp [hp])
        obtain ⟨poll, t', he, -, -, hpending⟩ := inv_poll h hcap hword hf hpayload waker
        have := hpending k hk hblocks (by simp [hw])
        subst this
        exact ⟨t', he⟩
      · refine Or.inr (Or.inr ⟨hinterest ▸ hannounces, fun op hop => ?_⟩)
        obtain ⟨t', he, -, hnotified⟩ := inv_step h hcap hword op
        obtain ⟨state, hwoken, hkept⟩ := hnotified hop
        refine ⟨t', he, ?_⟩
        rw [hwoken]
        exact hatt.woken (hkept _ hannounces)

/-- **No stranded waiter.** Whatever tasks do on a new stream, no operation panics, slots
and parked futures correspond, and no future waits for something that nobody announces. -/
theorem run_unstranded [Target] {subs waiters : Nat} {stream : StaticStream α cap}
    (hstart : StaticStream.withLock delivery subs waiters = .ok stream) (hword : cap ≤ usizeMax)
    (ops : List (TaskOp α)) : ∃ t, run stream ops = .ok t ∧ t.Unstranded := by
  obtain ⟨t, ht, hinv⟩ := inv_run hstart hword ops
  exact ⟨t, ht, hinv.unstranded (inv_begin hstart).1 hword⟩

/-- A send that a required receiver blocks, and a strict reception that makes room. -/
theorem run_unstranded_deferred :
    let _ := Target.x64
    ∃ stream : StaticStream Nat 1, StaticStream.withLock .ordered 1 1 = .ok stream ∧
      ∃ t, run stream [.subscribe .required, .sendNow 7, .send 8, .poll 0 4, .tryRecv 0,
        .maintain] = .ok t ∧ t.Unstranded := by
  intro _
  exact ⟨_, rfl, @run_unstranded Nat 1 .ordered _ 1 1 _ rfl (by decide) _⟩

example :
    let _ := Target.x64
    ((StaticStream.withLock .ordered 1 1 : Exec (StaticStream Nat 1)).toOption.bind fun stream =>
      (run stream [.subscribe .required, .sendNow 7, .send 8, .poll 0 4, .tryRecv 0]).toOption.map
        fun t => (t.stream.state.changed, t.stream.woken, (t.stream.maintain).toOption.map
          StaticStream.woken)) =
      some (1, [], some [4]) := by
  decide +kernel

end Tasks

end Hiway.Local
