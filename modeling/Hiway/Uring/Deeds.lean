import Hiway.Uring.Walks

/-!
# What the futures of the links can do

A piece of a future changes one slot in one of a few ways. A link that comes to want a
turn by it is queued, and a link that has been barred from admission stays barred.

* `acts_deeds`: what futures do in a callback is a chain of deeds.
* `deeds`: a chain of deeds attends to every link: who comes to want a turn is queued, and
  who is barred stays barred.
* `close_deeds`: a closed link has no machine, or a closed one.
-/

namespace Hiway.Uring

open Exec Transport

namespace Shared

variable [Target] {G : Type} {links : Nat} [NeZero links] {s t u : Shared G links}
  {index : Fin links}

/-- What a piece of a link's future does, with the state it leaves behind. -/
inductive Deed (s : Shared G links) : Shared G links → Prop
  | revoke {index : Fin links} {p q : Protocol} {r : Except Error Unit}
      (hp : (s.slots index).protocol = some p) (hopen : p.closed = none)
      (h : p.input .revoked = .ok (q, r)) : Deed s (s.answered index p .revoked q)
  | register (index : Fin links) (waker : Nat) :
      Deed s (s.update index fun slot => { slot with waker := some waker })
  | observe {index : Fin links} {p : Protocol} (sequence : UInt64)
      (hp : (s.slots index).protocol = some p) (he : p.effect .data = .ok (some .provide)) :
      Deed s (s.update index fun slot => { slot with protocol := some (p.observeSequence sequence) })
  | supply {index : Fin links} {p q : Protocol} {i : Input}
      (hp : (s.slots index).protocol = some p) (hopen : p.closed = none) (hi : isLocal i = true)
      (h : p.input i = .ok (q, .ok ())) : Deed s ((s.answered index p i q).queue index)
  | fail {index : Fin links} {p q : Protocol} {i : Input} {error : Error}
      (hp : (s.slots index).protocol = some p) (hopen : p.closed = none) (hi : isLocal i = true)
      (h : p.input i = .ok (q, .error error)) : Deed s (s.answered index p i q)
  | close {index : Fin links} {p q : Protocol} {r : Except Error Unit} (error : Error)
      (hp : (s.slots index).protocol = some p) (h : p.input (.closed error) = .ok (q, r)) :
      Deed s ((((s.update index (·.wakeIf p.closed.isNone)).answered index p (.closed error) q).update
        index fun slot => { slot with contended := false }).queue index)
  | release (index : Fin links) (hb : s.borrows index = 0)
      (hc : ∀ p, (s.slots index).protocol = some p → p.closed.isSome) :
      Deed s (s.update index fun slot =>
        { slot with
          alive := false
          work := { slot.work with
            reclaim := slot.work.reclaim || (s.detached && slot.idle && slot.isClosed) }
          waker := none })

/-- What pieces of futures do one after the other. -/
abbrev Deeds : Shared G links → Shared G links → Prop := Relation.ReflTransGen Deed

theorem revoke_deeds (h : s.revoke index = .ok t) : s.Deeds t := by
  unfold revoke at h
  split at h
  · rename_i p hp
    split at h
    · rename_i hopen
      obtain ⟨⟨q, r, u⟩, hinput, h⟩ := bind_eq_ok.mp h
      cases h
      obtain ⟨hanswer, rfl⟩ := input_eq.mp hinput
      exact .single (.revoke hp (Option.isNone_iff_eq_none.mp hopen) hanswer)
    · cases h
      exact .refl
  · cases h
    exact .refl

theorem observe_deeds {contract : Contract} {sequence : UInt64}
    (h : s.observe index contract sequence = .ok t) : s.Deeds t := by
  unfold observe at h
  split at h
  · rename_i p hp
    split at h
    · cases h
      exact .refl
    · obtain ⟨effect, he, h⟩ := bind_eq_ok.mp h
      split at h
      · cases h
        exact .refl
      · rename_i hprovide
        cases h
        rw [not_not.mp hprovide] at he
        exact .single (.observe sequence hp he)
  · cases h
    exact .refl

theorem supply_deeds {i : Input} (hi : isLocal i = true) (h : s.supply index i = .ok t) :
    s.Deeds t := by
  unfold supply at h
  split at h
  · rename_i p hp
    split at h
    · cases h
      exact .refl
    · rename_i hopen
      rw [Option.not_isSome_iff_eq_none] at hopen
      obtain ⟨⟨q, r, u⟩, hinput, h⟩ := bind_eq_ok.mp h
      obtain ⟨hanswer, rfl⟩ := input_eq.mp hinput
      cases r with
      | ok _ =>
        cases h
        exact .single (.supply hp hopen hi hanswer)
      | error _ =>
        cases h
        exact .single (.fail hp hopen hi hanswer)
  · cases h
    exact .refl

/-- A closed link has no machine, or a closed one. -/
theorem close_deeds {error : Error} (h : s.close index error = .ok t) :
    s.Deeds t ∧ t.borrows = s.borrows ∧ t.detached = s.detached ∧
      ∀ p, (t.slots index).protocol = some p → p.closed.isSome := by
  unfold close at h
  split at h
  · rename_i p hp
    obtain ⟨⟨q, r, u⟩, hinput, h⟩ := bind_eq_ok.mp h
    cases h
    obtain ⟨hanswer, rfl⟩ := input_eq.mp hinput
    refine ⟨.single (.close error hp hanswer), rfl, rfl, fun p' hp' => ?_⟩
    have hq : some q = some p' := by
      rw [← hp', queue_slots, update_self]
      dsimp only
      rw [answered_self]
    cases hq
    exact closed_of_closing hanswer
  · rename_i hp
    cases h
    refine ⟨.refl, rfl, rfl, fun p hp' => ?_⟩
    rw [hp] at hp'
    cases hp'

theorem act_deeds {a : Act links} (h : s.act a = .ok t) : s.Deeds t := by
  unfold act at h
  split at h
  · cases a with
    | revoked index => exact revoke_deeds h
    | register index waker =>
      cases h
      exact .single (.register index waker)
    | observed index contract sequence => exact observe_deeds h
    | provided index sequence length => exact supply_deeds rfl h
    | admitted index => exact supply_deeds rfl h
    | close index error => exact (close_deeds h).1
    | drop index =>
      dsimp only at h
      split at h
      · rename_i hb
        obtain ⟨u, hclose, h⟩ := bind_eq_ok.mp h
        cases h
        obtain ⟨hdeeds, hborrows, -, hclosed⟩ := close_deeds hclose
        exact hdeeds.tail (.release index (by rw [hborrows]; exact hb) hclosed)
      · cases h
        exact .refl
  · cases h
    exact .refl

theorem acts_deeds {as : List (Act links)} (h : s.acts as = .ok t) : s.Deeds t :=
  steps_preserves (P := s.Deeds) (fun _ _ _ hu hact => hu.trans (act_deeds hact)) .refl h

end Shared

/-! ## Links that want a turn -/

namespace Slot

variable {s t : Slot} {p q : Protocol}

/-- Some lane has something to submit. -/
def Wanting (s : Slot) : Prop := ∃ p, s.protocol = some p ∧ ∃ lane, s.Wants p lane

/-- A link that a pass does not let into admission: it was contended in this pass, or its
machine does not ask for anything. -/
def Barred (s : Slot) : Prop := s.contended = true ∨ s.isOpen = false

theorem Wanting.congr (h : t.Wanting) (hp : t.protocol = s.protocol)
    (ho : t.operations = s.operations) : s.Wanting := by
  obtain ⟨p, hprotocol, lane, hwants⟩ := h
  refine ⟨p, hp ▸ hprotocol, lane, ?_⟩
  unfold Slot.Wants free at hwants ⊢
  rw [ho] at hwants
  exact hwants

/-- A closed machine requests nothing, so the link wants to cancel. -/
theorem Wanting.closing (h : t.Wanting) (ht : t.isClosed = true) (hp : s.protocol = some p)
    (ho : t.operations = s.operations) : s.Wanting := by
  obtain ⟨q, hq, lane, hcancel | ⟨-, e, he, hreq⟩⟩ := h
  · exact ⟨p, hp, lane, Or.inl (ho ▸ hcancel)⟩
  · rw [isClosed_iff hq] at ht
    rw [(Protocol.effect_request he hreq).1] at ht
    cases ht

theorem Wanting.observe {sequence : UInt64} (hp : s.protocol = some p)
    (h : ({ s with protocol := some (p.observeSequence sequence) } : Slot).Wanting) : s.Wanting := by
  obtain ⟨q, hq, lane, hwants⟩ := h
  cases hq
  refine ⟨p, hp, lane, hwants.imp_right fun hrequest => ⟨hrequest.1, ?_⟩⟩
  obtain ⟨e, he, hreq⟩ := hrequest.2
  refine ⟨e, ?_, hreq⟩
  rw [← he]
  rfl

theorem barred_of_closed (hp : s.protocol = some p) (hc : p.closed.isSome = true) : s.Barred := by
  refine Or.inr ?_
  rw [← Bool.not_eq_true, isOpen_iff hp]
  exact Option.isSome_iff_ne_none.mp hc

variable [Target]

/-- An input does not open a machine. -/
theorem Barred.input {i : Input} {r : Except Error Unit} (h : s.Barred) (hp : s.protocol = some p)
    (hinput : p.input i = .ok (q, r)) : ({ s with protocol := some q } : Slot).Barred := by
  apply Or.imp_right _ h
  intro hnot
  rw [← Bool.not_eq_true] at hnot ⊢
  rw [isOpen_iff hp] at hnot
  rw [isOpen_iff rfl]
  exact fun hq => hnot (open_of_open hinput hq)

end Slot

namespace Shared

variable {G : Type} {links : Nat}

/-- Link `i` does not come to want a turn without being queued, and stays barred. -/
structure Attends (i : Fin links) (s t : Shared G links) : Prop where
  present : s.ready.present i = true → t.ready.present i = true
  wanting : (t.slots i).Wanting → (s.slots i).Wanting ∨ t.ready.present i = true
  barred : (s.slots i).Barred → (t.slots i).Barred

namespace Attends

variable {i index : Fin links} {s t u : Shared G links}

theorem refl (i : Fin links) (s : Shared G links) : Attends i s s := ⟨id, Or.inl, id⟩

theorem trans (hst : Attends i s t) (htu : Attends i t u) : Attends i s u where
  present h := htu.present (hst.present h)
  wanting h := (htu.wanting h).elim
    (fun ht => (hst.wanting ht).imp_right htu.present) Or.inr
  barred h := htu.barred (hst.barred h)

/-- Whatever happens to other slots. -/
theorem other (hready : s.ready.present i = true → t.ready.present i = true)
    (hslot : t.slots i = s.slots i) : Attends i s t where
  present := hready
  wanting h := Or.inl (hslot ▸ h)
  barred h := hslot ▸ h

theorem update {f : Slot → Slot} (index : Fin links)
    (hwanting : (f (s.slots index)).Wanting → (s.slots index).Wanting)
    (hbarred : (s.slots index).Barred → (f (s.slots index)).Barred) :
    Attends i s (s.update index f) := by
  by_cases heq : i = index
  · subst heq
    refine ⟨id, fun h => ?_, fun h => ?_⟩
    · rw [update_self] at h
      exact Or.inl (hwanting h)
    · rw [update_self]
      exact hbarred h
  · exact other id (update_of_ne heq)

theorem present_push [NeZero links] {r : Ready links} (h : r.present i = true) :
    (r.push index).present i = true := by
  unfold Ready.push
  split
  · exact h
  · by_cases heq : i = index
    · rw [heq]
      exact Function.update_self ..
    · exact (Function.update_of_ne heq _ _).trans h

theorem present_push_self [NeZero links] (r : Ready links) (index : Fin links) :
    (r.push index).present index = true := by
  unfold Ready.push
  split
  · assumption
  · exact Function.update_self ..

/-- A change of a slot that is queued then. -/
theorem queued [NeZero links] {f : Slot → Slot} (index : Fin links)
    (hbarred : (s.slots index).Barred → (f (s.slots index)).Barred) :
    Attends i s ((s.update index f).queue index) := by
  by_cases heq : i = index
  · subst heq
    refine ⟨fun h => present_push h, fun _ => Or.inr (present_push_self _ _), fun h => ?_⟩
    rw [queue_slots, update_self]
    exact hbarred h
  · exact other (fun h => present_push h) (update_of_ne heq)

/-- Only the slots and the queue matter. -/
theorem congr (h : Attends i s t) (hslots : u.slots = t.slots) (hready : u.ready = t.ready) :
    Attends i s u where
  present hp := hready ▸ h.present hp
  wanting hw := (h.wanting (hslots ▸ hw)).imp_right (hready ▸ ·)
  barred hb := hslots ▸ h.barred hb

variable [Target] [NeZero links]

theorem deed (h : s.Deed t) : Attends i s t := by
  cases h with
  | @revoke index p q r hp hopen hinput =>
    have hclosed := closed_of_revoked hinput
    have hupdate := update (i := i) (f := fun slot => { slot with protocol := some q }) index
      (fun hw => hw.closing ((Slot.isClosed_iff rfl).mpr hclosed) hp rfl)
      fun hb => hb.input hp hinput
    exact hupdate.congr rfl rfl
  | register index waker =>
    exact update (f := fun slot => { slot with waker := some waker }) index
      (fun hw => hw.congr rfl rfl) id
  | @observe index p sequence hp he =>
    refine update (f := fun slot => { slot with protocol := some (p.observeSequence sequence) }) index
      (fun hw => Slot.Wanting.observe hp hw) fun hb => ?_
    unfold Slot.Barred Slot.isOpen at hb ⊢
    rw [hp] at hb
    exact hb
  | @supply index p q input hp hopen hi hinput =>
    have hqueued := queued (i := i) (f := fun slot => { slot with protocol := some q }) index
      fun hb => hb.input hp hinput
    exact hqueued.congr rfl rfl
  | @fail index p q input error hp hopen hi hinput =>
    have hclosed := closed_of_error hinput
    have hupdate := update (i := i) (f := fun slot => { slot with protocol := some q }) index
      (fun hw => hw.closing ((Slot.isClosed_iff rfl).mpr hclosed) hp rfl)
      fun hb => hb.input hp hinput
    exact hupdate.congr rfl rfl
  | @close index p q r error hp hinput =>
    have hclosed := closed_of_closing hinput
    have hslots : ((s.update index (·.wakeIf p.closed.isNone)).update index
        fun slot => { slot with protocol := some q }).update index
          (fun slot => { slot with contended := false }) = s.update index fun slot =>
            { slot.wakeIf p.closed.isNone with protocol := some q, contended := false } := by
      rw [update_update, update_update]
      rfl
    refine (queued (i := i) (s := s) (f := fun slot =>
      { slot.wakeIf p.closed.isNone with protocol := some q, contended := false }) index
        fun _ => Slot.barred_of_closed rfl hclosed).trans (other (fun h => ?_) ?_)
    · exact h
    · rw [← hslots]
      rfl
  | release index hb hc =>
    exact update (f := fun slot =>
      { slot with
        alive := false
        work := { slot.work with
          reclaim := slot.work.reclaim || (s.detached && slot.idle && slot.isClosed) }
        waker := none }) index (fun hw => hw.congr rfl rfl) id

theorem deeds (h : s.Deeds t) : Attends i s t := by
  induction h with
  | refl => exact refl i s
  | tail _ hdeed ih => exact ih.trans (deed hdeed)

end Attends

end Shared

end Hiway.Uring
