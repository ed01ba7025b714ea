import Hiway.Transport.DuplexSides
import Hiway.Uring.Histories

/-!
# A link follows its machine

Seen from one connection, what the driver and the futures do is a sequence of calls to one
machine, whatever happens to other links meanwhile. So what holds of every audit of a
machine holds of every link of every run, and the records that the driver has produced for
a connection are those of its audit.

* `Move.followed`, `Reaches.followed`: what happens to a driver is, for each connection, a
  sequence of calls to its machine.
* `accompanied`: every connection of such a driver has an audit.
* `run_links_accompanied`: in every state of every run the records of each connection are
  those of one audited machine.
-/

namespace Hiway.Uring

open Exec Target Transport

/-- The calls that a connection has seen: how its machine was made, and an audit of it. -/
structure Course where
  contract : Contract
  direction : Direction
  start : Protocol
  calls : List HostCall
  audit : Audit

namespace Course

/-- How the records of the connection are stamped. -/
def stamped (x : Course) (c : Connection) : FrameRecord → Record :=
  stamp (Accountability.new c x.contract x.direction)

/-- The calls have led the machine of the connection to `p`, with these records. -/
structure Leads [Target] (bytes : Nat) (c : Connection) (x : Course) (records : List Record)
    (p : Protocol) : Prop where
  attached : Protocol.withConnection x.contract x.direction bytes c = .ok x.start
  calls : x.start.calls x.calls = .ok p
  run : (Audit.start x.start).run x.calls = .ok x.audit
  protocol : x.audit.protocol = p
  inv : x.audit.Inv x.contract none
  records : records = x.audit.log.map (x.stamped c)
  stamp : ∃ a, p.accountability = some a ∧ stamp a = x.stamped c

/-- Nothing is announced, and the host promises nothing. -/
theorem keeps_none (i : Input) : HostCall.Keeps none (.input i) ∧
    HostCall.announce none (.input i) = none := by
  cases i with
  | provided => exact ⟨fun _ hs => (by cases hs), rfl⟩
  | accepted | completed | revoked | closed => exact ⟨trivial, rfl⟩
  | admitted => exact ⟨rfl, rfl⟩

variable [Target] {bytes : Nat} {c : Connection} {x : Course} {records : List Record}
  {p q : Protocol}

/-- One call more. -/
def snoc (x : Course) (call : HostCall) (audit : Audit) : Course :=
  { x with calls := x.calls ++ [call], audit := audit }

theorem Leads.snoc (h : x.Leads bytes c records p) {call : HostCall} {s : Audit}
    {written : List FrameRecord} (hcall : p.call call = .ok q) (hstep : x.audit.step call = .ok s)
    (hprotocol : s.protocol = q) (hinv : s.Inv x.contract none)
    (hlog : s.log = x.audit.log ++ written)
    (hstamp : ∃ a, q.accountability = some a ∧ Uring.stamp a = x.stamped c) :
    (x.snoc call s).Leads bytes c (records ++ written.map (x.stamped c)) q where
  attached := h.attached
  calls := steps_append h.calls (by rw [steps, hcall, ok_bind, steps])
  run := by
    refine steps_append h.run ?_
    rw [steps, hstep, ok_bind, steps]
    rfl
  protocol := hprotocol
  inv := hinv
  records := by
    change _ = s.log.map (x.stamped c)
    rw [h.records, hlog, List.map_append]
  stamp := hstamp

theorem Leads.input (h : x.Leads bytes c records p) {i : Input} {r : Except Error Unit}
    (hinput : p.input i = .ok (q, r)) :
    (∃ y : Course, y.Leads bytes c (records ++ recorded p i) q) ∧
      ∀ record ∈ recorded p i, record.connection = c := by
  obtain ⟨a, ha, hstamp⟩ := h.stamp
  obtain ⟨notes, -, hq, hwritten, -⟩ := Protocol.input_written ha hinput
  have hrecorded : recorded p i = (Note.writtenAll notes a).map (x.stamped c) := by
    unfold recorded
    rw [ha, hwritten, ← hstamp]
    rfl
  obtain ⟨hkeeps, hannounce⟩ := keeps_none i
  obtain ⟨s, hs, hinv⟩ := Audit.inv_input h.inv hkeeps
  rw [hannounce] at hinv
  have hcall : p.call (.input i) = .ok q := by
    unfold Protocol.call Protocol.next
    dsimp only
    rw [hinput]
    rfl
  have hresult := hs
  have hprotocol := h.protocol
  subst hprotocol
  rw [Audit.input_eq hinput hwritten] at hresult
  have hsame : s.protocol = q ∧ s.log = x.audit.log ++ Note.writtenAll notes a := by
    cases hclosed : q.closed with
    | none =>
      rw [hclosed] at hresult
      cases hresult
      exact ⟨rfl, rfl⟩
    | some error =>
      rw [hclosed] at hresult
      cases hresult
      exact ⟨rfl, rfl⟩
  refine ⟨⟨x.snoc (.input i) s, ?_⟩, fun record hrecord => ?_⟩
  · rw [hrecorded]
    exact h.snoc hcall hs hsame.1 hinv hsame.2 ⟨_, hq, (stamp_applyAll notes a).1.trans hstamp⟩
  · rw [hrecorded] at hrecord
    obtain ⟨frame, -, rfl⟩ := List.mem_map.mp hrecord
    rfl

/-- A call that touches the connection only. -/
theorem Leads.account (h : x.Leads bytes c records p) {call : HostCall}
    {f : Accountability → Accountability} (hcall : p.call call = .ok (p.account f))
    (hstep : x.audit.step call = .ok (x.audit.onProtocol fun p => p.account f))
    (hstamp : ∀ a, Uring.stamp (f a) = Uring.stamp a)
    (hinv : (x.audit.onProtocol fun p => p.account f).Inv x.contract none) :
    ∃ y : Course, y.Leads bytes c records (p.account f) := by
  obtain ⟨a, ha, hsame⟩ := h.stamp
  have hprotocol := h.protocol
  subst hprotocol
  have hsnoc := h.snoc hcall hstep rfl hinv (show _ = _ ++ [] from (List.append_nil _).symm)
    ⟨f a, by rw [Protocol.account, ha]; rfl, (hstamp a).trans hsame⟩
  rw [List.map_nil, List.append_nil] at hsnoc
  exact ⟨_, hsnoc⟩

/-- Only an exporter observes, so the sequence of an importer's connection is its own. -/
theorem Leads.observe (h : x.Leads bytes c records p)
    (heffect : p.effect .data = .ok (some .provide)) (sequence : UInt64) :
    ∃ y : Course, y.Leads bytes c records (p.observeSequence sequence) := by
  have hprotocol := h.protocol
  subst hprotocol
  refine h.account (show x.audit.protocol.call (.observe sequence) = _ from rfl) rfl (fun _ => rfl) ?_
  have hinv : (x.audit.onProtocol fun p => p.account fun a => a.observe sequence).Inv x.contract
      (some sequence) := Audit.inv_account h.inv (fun _ => rfl) fun hp => (by cases hp)
  obtain ⟨a, ha, hterminal, -⟩ := hinv.tracked
  refine { hinv with tracked := ⟨a, ha, hterminal, fun hclosed hdirection _ => ?_⟩ }
  have hstage := ((h.inv.safe.framed hclosed).data.stage)
  rw [Protocol.provide_stage heffect, show x.audit.protocol.direction = .importing from hdirection]
    at hstage
  rcases hstage with hstage | hstage | hstage <;> cases hstage

theorem Leads.pop (h : x.Leads bytes c records p) :
    ∃ y : Course, y.Leads bytes c records p.popRecord.2 := by
  have hprotocol := h.protocol
  subst hprotocol
  have hpop : (fun p : Protocol => p.popRecord.2) = fun p => p.account fun a => a.pop.2 :=
    funext Audit.popRecord_eq
  rw [Audit.popRecord_eq]
  have hcall : x.audit.protocol.call .pop = .ok (x.audit.protocol.account fun a => a.pop.2) := by
    unfold Protocol.call
    dsimp only
    rw [Audit.popRecord_eq]
  refine h.account hcall ?_ (fun _ => rfl)
    (Audit.inv_account h.inv (fun _ => rfl) fun _ => ⟨rfl, fun _ => rfl⟩)
  unfold Audit.step
  dsimp only
  rw [hpop]

/-- A machine that has just been made. -/
theorem Leads.start (hword : bytes ≤ usizeMax) {contract : Contract} {direction : Direction}
    (hp : Protocol.withConnection contract direction bytes c = .ok p) :
    (⟨contract, direction, p, [], Audit.start p⟩ : Course).Leads bytes c [] p := by
  obtain ⟨q, hq, hmade⟩ := Protocol.withConnection_eq hp
  refine ⟨hp, rfl, rfl, rfl, Audit.inv_start hword hp, rfl, _, ?_, rfl⟩
  rw [hmade]

end Course

/-! ## Every link of a driver -/

namespace Shared

variable {G : Type} {links : Nat}

/-- The connection of a slot, as it was attached last. -/
def connection (s : Shared G links) (index : Fin links) : Connection :=
  Book.connection s.generations index

/-- A connection whose machine is still there. -/
def Live (s : Shared G links) (c : Connection) : Prop :=
  ∃ index p, (s.slots index).protocol = some p ∧ c = s.connection index

theorem connection_inj {s : Shared G links} {index other : Fin links}
    (h : s.connection index = s.connection other) : index = other :=
  Fin.ext (congrArg Connection.id h)

/-- Every machine has been led to where it is, and the machines that are gone were closed. -/
structure Followed [Target] (bytes : Nat) (attached : List Connection) (s : Shared G links) :
    Prop where
  live : ∀ index p, (s.slots index).protocol = some p → ∃ x : Course,
    x.Leads bytes (s.connection index) (recordsOf (s.connection index) s.produced) p
  past : ∀ c ∈ attached, ¬s.Live c → ∃ (x : Course) (p : Protocol),
    x.Leads bytes c (recordsOf c s.produced) p ∧ p.closed.isSome = true

namespace Followed

variable [Target] {bytes : Nat} {attached : List Connection} {s t : Shared G links}

/-- Machines, generations and records are as before. -/
theorem congr (h : s.Followed bytes attached) (hgenerations : t.generations = s.generations)
    (hprotocol : ∀ index, (t.slots index).protocol = (s.slots index).protocol)
    (hproduced : t.produced = s.produced) : t.Followed bytes attached := by
  have hconnection : t.connection = s.connection := by
    unfold connection
    rw [hgenerations]
  refine ⟨fun index p hp => ?_, fun c hc hgone => ?_⟩
  · rw [hconnection, hproduced]
    exact h.live index p ((hprotocol index).symm.trans hp)
  · rw [hproduced]
    refine h.past c hc fun hlive => hgone ?_
    obtain ⟨index, p, hp, heq⟩ := hlive
    exact ⟨index, p, (hprotocol index).trans hp, heq.trans (by rw [hconnection])⟩

theorem update (h : s.Followed bytes attached) (index : Fin links) {f : Slot → Slot}
    (hgeneration : (f (s.slots index)).generation = (s.slots index).generation)
    (hprotocol : (f (s.slots index)).protocol = (s.slots index).protocol) :
    (s.update index f).Followed bytes attached := by
  refine h.congr (generations_update hgeneration) (fun other => ?_) rfl
  by_cases heq : other = index
  · subst heq
    rw [update_self]
    exact hprotocol
  · rw [update_of_ne heq]

/-- One machine has been led on. -/
theorem replace (h : s.Followed bytes attached) {index : Fin links} {p q : Protocol}
    {written : List Record} (hp : (s.slots index).protocol = some p)
    (hgenerations : t.generations = s.generations) (hself : (t.slots index).protocol = some q)
    (hother : ∀ other, other ≠ index → (t.slots other).protocol = (s.slots other).protocol)
    (hproduced : t.produced = s.produced ++ written)
    (hown : ∀ record ∈ written, record.connection = s.connection index)
    (hq : ∃ x : Course, x.Leads bytes (s.connection index)
      (recordsOf (s.connection index) s.produced ++ written) q) : t.Followed bytes attached := by
  have hconnection : t.connection = s.connection := by
    unfold connection
    rw [hgenerations]
  have hapart : ∀ c, c ≠ s.connection index → recordsOf c t.produced = recordsOf c s.produced := by
    intro c hne
    rw [hproduced, recordsOf_append, recordsOf_other hown hne, List.append_nil]
  refine ⟨fun other r hr => ?_, fun c hc hgone => ?_⟩
  · rw [hconnection]
    by_cases heq : other = index
    · subst heq
      rw [hself] at hr
      cases hr
      rw [hproduced, recordsOf_append, recordsOf_own hown]
      exact hq
    · rw [hother other heq] at hr
      rw [hapart _ fun hsame => heq (connection_inj hsame)]
      exact h.live other r hr
  · have hnever : ¬s.Live c := by
      rintro ⟨other, r, hr, rfl⟩
      refine hgone ⟨other, ?_⟩
      rw [hconnection]
      by_cases heq : other = index
      · subst heq
        exact ⟨q, hself, rfl⟩
      · exact ⟨r, (hother other heq).trans hr, rfl⟩
    rw [hapart c fun hsame => hnever ⟨index, p, hp, hsame⟩]
    exact h.past c hc hnever

/-- A machine has answered an input. -/
theorem input (h : s.Followed bytes attached) {index : Fin links} {p q : Protocol} {i : Input}
    {r : Except Error Unit} (hp : (s.slots index).protocol = some p)
    (hinput : p.input i = .ok (q, r)) : (s.answered index p i q).Followed bytes attached := by
  obtain ⟨x, hx⟩ := h.live index p hp
  obtain ⟨hleads, hown⟩ := hx.input hinput
  refine h.replace hp (generations_update (s := s)
    (f := fun slot => { slot with protocol := some q }) rfl) ?_ (fun other hne => ?_) rfl hown hleads
  · rw [answered_self]
  · rw [answered_of_ne hne]

/-- A machine has answered for one of its operations. -/
theorem operated (h : s.Followed bytes attached) {index : Fin links} {p q : Protocol} {i : Input}
    {r : Except Error Unit} {lane : Lane} {o : Operation} (hp : (s.slots index).protocol = some p)
    (hinput : p.input i = .ok (q, r)) :
    ((s.update index (·.setOperation lane o)).answered index p i q).Followed bytes attached := by
  refine (h.update index (f := (·.setOperation lane o)) rfl rfl).input ?_ hinput
  rw [update_self]
  exact hp

/-- A call to a machine that records nothing. -/
theorem account (h : s.Followed bytes attached) {index : Fin links} {p q : Protocol}
    (hp : (s.slots index).protocol = some p)
    (hq : ∀ x : Course, ∀ c records, x.Leads bytes c records p →
      ∃ y : Course, y.Leads bytes c records q) :
    (s.update index fun slot => { slot with protocol := some q }).Followed bytes attached := by
  obtain ⟨x, hx⟩ := h.live index p hp
  have hself : ((s.update index fun slot => { slot with protocol := some q }).slots index).protocol =
      some q := by
    rw [update_self]
  refine h.replace hp (generations_update rfl) hself (fun other hne => ?_) (List.append_nil _).symm
    (fun _ hrecord => absurd hrecord List.not_mem_nil) ?_
  · rw [update_of_ne hne]
  · rw [List.append_nil]
    exact hq x _ _ hx

/-- A closed machine is retired. -/
theorem retire (h : s.Followed bytes attached) {index : Fin links} {p : Protocol}
    (hp : (s.slots index).protocol = some p) (hclosed : p.closed.isSome = true)
    (hgenerations : t.generations = s.generations) (hself : (t.slots index).protocol = none)
    (hother : ∀ other, other ≠ index → (t.slots other).protocol = (s.slots other).protocol)
    (hproduced : t.produced = s.produced) : t.Followed bytes attached := by
  have hconnection : t.connection = s.connection := by
    unfold connection
    rw [hgenerations]
  refine ⟨fun other r hr => ?_, fun c hc hgone => ?_⟩
  · have hne : other ≠ index := by
      rintro rfl
      rw [hself] at hr
      cases hr
    rw [hconnection, hproduced]
    exact h.live other r ((hother other hne).symm.trans hr)
  · rw [hproduced]
    by_cases hlive : s.Live c
    · obtain ⟨other, r, hr, rfl⟩ := hlive
      by_cases heq : other = index
      · subst heq
        rw [hp] at hr
        cases hr
        obtain ⟨x, hx⟩ := h.live other p hp
        exact ⟨x, p, hx, hclosed⟩
      · refine absurd ⟨other, r, (hother other heq).trans hr, ?_⟩ hgone
        rw [hconnection]
    · exact h.past c hc hlive

/-- A machine is put into a vacant slot, under a connection without records. -/
theorem attach [NeZero links] (hword : bytes ≤ usizeMax) (h : s.Followed bytes attached)
    {index : Fin links} {a : Attachment G} {p : Protocol}
    (hnone : (s.slots index).protocol = none)
    (hp : Protocol.withConnection a.contract a.direction bytes
      ⟨index.val, (s.slots index).generation + 1⟩ = .ok p)
    (hfresh : recordsOf ⟨index.val, (s.slots index).generation + 1⟩ s.produced = []) :
    (s.attached index a p).Followed bytes
      (attached ++ [⟨index.val, (s.slots index).generation + 1⟩]) := by
  have hself : (s.attached index a p).connection index =
      ⟨index.val, (s.slots index).generation + 1⟩ := by
    unfold connection Book.connection generations
    rw [attached_self]
  have hothers : ∀ other, other ≠ index →
      (s.attached index a p).connection other = s.connection other := by
    intro other hne
    unfold connection Book.connection generations
    rw [attached_of_ne hne]
  refine ⟨fun other r hr => ?_, fun c hc hgone => ?_⟩
  · by_cases heq : other = index
    · subst heq
      rw [attached_self] at hr
      cases hr
      rw [hself]
      refine ⟨⟨a.contract, a.direction, p, [], Audit.start p⟩, ?_⟩
      change Course.Leads bytes _ _ (recordsOf _ s.produced) p
      rw [hfresh]
      exact Course.Leads.start hword hp
    · rw [attached_of_ne heq] at hr
      rw [hothers other heq]
      exact h.live other r hr
  · have hnew : c ≠ ⟨index.val, (s.slots index).generation + 1⟩ := by
      rintro rfl
      refine hgone ⟨index, p, ?_, hself.symm⟩
      rw [attached_self]
    refine h.past c ?_ fun hlive => hgone ?_
    · exact (List.mem_append.mp hc).resolve_right fun hlast => hnew (List.mem_singleton.mp hlast)
    · obtain ⟨other, r, hr, rfl⟩ := hlive
      have hne : other ≠ index := by
        rintro rfl
        rw [hnone] at hr
        cases hr
      refine ⟨other, r, ?_, (hothers other hne).symm⟩
      rw [attached_of_ne hne]
      exact hr

/-! ### Draining -/

theorem popLive (h : s.Followed bytes attached) (indices : List (Fin links)) :
    (s.popLive indices).2.Followed bytes attached := by
  induction indices generalizing s with
  | nil => exact h
  | cons index rest ih =>
    unfold Shared.popLive
    split
    · exact ih h
    · rename_i p hp
      have haccount := h.account hp fun x c records hx => hx.pop
      dsimp only
      split
      · exact haccount
      · exact ih haccount

theorem popRecord (h : s.Followed bytes attached) : s.popRecord.2.Followed bytes attached := by
  have harchived : ({ s with archived := s.archived.pop.2 } : Shared G links).Followed bytes
      attached := h.congr rfl (fun _ => rfl) rfl
  unfold Shared.popRecord
  dsimp only
  split
  · exact harchived
  · exact harchived.popLive _

/-! ### Moves -/

theorem move [NeZero links] (h : s.Followed bytes attached) (hmove : s.Move t) :
    t.Followed bytes attached := by
  cases hmove with
  | flags index f hf => exact h.update index hf.generation hf.protocol
  | input hp hi hinput =>
    obtain ⟨hanswer, rfl⟩ := input_eq.mp hinput
    exact h.input hp hanswer
  | observe sequence hp heffect =>
    exact h.account hp fun x c records hx => hx.observe heffect sequence
  | refresh index =>
    refine h.update index ?_ ?_
    · unfold Slot.refresh
      split <;> rfl
    · unfold Slot.refresh
      split <;> rfl
  | queue | borrow | stop => exact h.congr rfl (fun _ => rfl) rfl
  | release index => exact h.update index (f := fun slot => { slot with alive := false }) rfl rfl
  | reclaim index =>
    have hupdate := h.update index (f := fun slot => { slot with sockets := none }) rfl rfl
    exact hupdate.congr rfl (fun _ => rfl) rfl
  | retire index p hp hclosed =>
    refine h.retire hp hclosed (generations_update (s := s)
      (f := fun slot => { slot with protocol := none }) rfl) ?_ (fun other hne => ?_) rfl
    · dsimp only
      rw [update_self]
    · dsimp only
      rw [update_of_ne hne]

end Followed

end Shared

/-! ## Runs -/

namespace Driver

variable [Target] {G : Type} {links bytes : Nat} [NeZero links] {d d' : Driver G links}
  {attached : List Connection}

theorem Move.followed (h : d.shared.Followed bytes attached) (hmove : d.Move d') :
    d'.shared.Followed bytes attached := by
  cases hmove with
  | shared hs => exact h.move hs
  | ring | ready | hint => exact h.congr rfl (fun _ => rfl) rfl
  | prepare => exact h.update _ (f := (·.setOperation _ _)) rfl rfl
  | accept hp hid hphase heffect hpush hinput =>
    obtain ⟨hanswer, rfl⟩ := Shared.input_eq.mp hinput
    exact h.operated hp hanswer
  | cancel => exact h.update _ (f := (·.setOperation _ _)) rfl rfl
  | complete hp hid hphase hnext hu hinput =>
    obtain ⟨hanswer, rfl⟩ := Shared.input_eq.mp hinput
    exact h.operated hp hanswer
  | cancelled => exact h.update _ (f := (·.setOperation _ _)) rfl rfl

theorem Reaches.followed (h : d.shared.Followed bytes attached) (hreaches : d.Reaches d') :
    d'.shared.Followed bytes attached := by
  induction hreaches with
  | refl => exact h
  | tail _ hmove ih => exact hmove.followed ih

end Driver

namespace Host

variable {G : Type} {links : Nat}

/-- A connection that is new to the host has no records. -/
theorem Kept.fresh {h : Host G links} (hkept : h.Kept) (index : Fin links) :
    recordsOf ⟨index.val, (h.driver.slot index).generation + 1⟩ h.driver.shared.produced = [] := by
  obtain ⟨b, hb⟩ := hkept
  refine List.filter_eq_nil_iff.mpr fun record hrecord heq => ?_
  have hconnection := of_decide_eq_true heq
  have hle := hb.balanced.latest _ (hb.balanced.attributed record hrecord) index
    (by rw [hconnection])
  rw [hconnection] at hle
  exact Nat.not_succ_le_self _ hle

/-- What became of the machine of a connection, and of its records. -/
structure Accompanied [Target] (bytes : Nat) (h : Host G links) (c : Connection) (x : Course) :
    Prop where
  attached : Protocol.withConnection x.contract x.direction bytes c = .ok x.start
  audit : (Audit.start x.start).run x.calls = .ok x.audit
  calls : x.start.calls x.calls = .ok x.audit.protocol
  records : recordsOf c h.driver.shared.produced = x.audit.log.map (x.stamped c)
  accounted : x.audit.Accounted
  disciplined : x.audit.protocol.direction = .importing → x.audit.link.Disciplined x.contract
  /-- The machine of the connection's slot is where the calls have led it. -/
  current : ∀ index p, (h.driver.slot index).protocol = some p →
    c = ⟨index.val, (h.driver.slot index).generation⟩ → p = x.audit.protocol
  /-- A machine that is gone was closed. -/
  retired : (∀ index p, (h.driver.slot index).protocol = some p →
    c ≠ ⟨index.val, (h.driver.slot index).generation⟩) → x.audit.protocol.closed.isSome = true

variable [Target] {bytes : Nat} {h h' : Host G links} {c : Connection} {x : Course} {p : Protocol}

theorem Accompanied.of_leads
    (hx : x.Leads bytes c (recordsOf c h.driver.shared.produced) p)
    (hcurrent : ∀ index q, (h.driver.slot index).protocol = some q →
      c = ⟨index.val, (h.driver.slot index).generation⟩ → q = p)
    (hretired : (∀ index q, (h.driver.slot index).protocol = some q →
      c ≠ ⟨index.val, (h.driver.slot index).generation⟩) → p.closed.isSome = true) :
    h.Accompanied bytes c x := by
  obtain ⟨hattached, hcalls, hrun, rfl, hinv, hrecords, -⟩ := hx
  refine ⟨hattached, hrun, hcalls, hrecords, ⟨fun hopen => ?_, hinv.closed⟩,
    fun hdirection => (hinv.link hdirection).disciplined, hcurrent, hretired⟩
  rw [← hinv.complete hopen]
  exact (hinv.running hopen).2

/-- Every connection of a driver whose links are followed is accompanied. -/
theorem accompanied (hfollowed : h.driver.shared.Followed bytes h.attached) (hc : c ∈ h.attached) :
    ∃ x : Course, h.Accompanied bytes c x := by
  by_cases hlive : h.driver.shared.Live c
  · obtain ⟨index, p, hp, rfl⟩ := hlive
    obtain ⟨x, hx⟩ := hfollowed.live index p hp
    refine ⟨x, .of_leads hx (fun other q hq heq => ?_) fun hgone => absurd rfl (hgone index p hp)⟩
    obtain rfl : index = other := Shared.connection_inj (s := h.driver.shared) heq
    exact Option.some.inj (hq.symm.trans hp)
  · obtain ⟨x, p, hx, hclosed⟩ := hfollowed.past c hc hlive
    exact ⟨x, .of_leads hx (fun other q hq heq => absurd ⟨other, q, hq, heq⟩ hlive)
      fun _ => hclosed⟩

variable [NeZero links]

theorem Did.followed (hf : Fits links bytes) (hkept : h.Kept)
    (hfollowed : h.driver.shared.Followed bytes h.attached) (hdid : Did bytes h h') :
    h'.driver.shared.Followed bytes h'.attached := by
  cases hdid with
  | moved hd => exact hd.followed hfollowed
  | attached hnone hp => exact hfollowed.attach hf.bytes_word hnone hp (hkept.fresh _)
  | drained => exact hfollowed.popRecord

theorem run_followed (hf : Fits links bytes) (capacity cqEntries : Nat) (room : 2 ≤ capacity)
    (events : List (Event G links)) :
    ∃ h, run bytes capacity cqEntries room events = .ok h ∧ h.driver.Inv ∧ h.Kept ∧
      h.driver.shared.Followed bytes h.attached := by
  refine steps_invariant (P := fun h : Host G links =>
      h.driver.Inv ∧ h.Kept ∧ h.driver.shared.Followed bytes h.attached) (fun h e hh => ?_)
    ⟨start_inv capacity cqEntries room, start_kept capacity cqEntries room,
      fun _ _ hp => (by cases hp), fun _ hc => absurd hc List.not_mem_nil⟩ events
  obtain ⟨hinv, hkept, hfollowed⟩ := hh
  obtain ⟨h', hstep, hdid⟩ := step_did hf hinv e
  exact ⟨h', hstep, hdid.inv hf hinv, hdid.kept hkept, hdid.followed hf hkept hfollowed⟩

/-- In every state of every run, each connection that was ever attached is one machine that
its host called, and its records are the ones of that machine's audit. -/
theorem run_links_accompanied (hf : Fits links bytes) (capacity cqEntries : Nat)
    (room : 2 ≤ capacity) (events : List (Event G links)) :
    ∃ h, run bytes capacity cqEntries room events = .ok h ∧
      ∀ c ∈ h.attached, ∃ x : Course, h.Accompanied bytes c x := by
  obtain ⟨h, hrun, -, -, hfollowed⟩ := run_followed hf capacity cqEntries room events
  exact ⟨h, hrun, fun c hc => accompanied hfollowed hc⟩

end Host

namespace Host

/-- An exporting link of a reservation that allows everything. -/
def exporting : Shared.Attachment Unit where
  contract := ⟨⟨7⟩, 1, 1, .ordered⟩
  direction := .exporting
  sockets := (3, 4)
  reservation := ()
  checked := .ok ()
  entered := .ok ()

/-- A frame is sent and credited, and the link closes with its next receive in flight. -/
def exchanged : List (Event Unit 2) :=
  [.attach exporting, .act (.observed ⟨0, Nat.zero_lt_two⟩ ⟨⟨7⟩, 1, 1, .ordered⟩ 3),
    .act (.provided ⟨0, Nat.zero_lt_two⟩ 3 40), .advance .immediate ⟨2, 3, 200⟩ ⟨[], false, some 3⟩,
    .post 0 40 [], .post 0 9 (creditOf 3), .advance .immediate ⟨2, 3, 200⟩ ⟨[], false, some 3⟩,
    .act (.close ⟨0, Nat.zero_lt_two⟩ .closed), .popRecord, .popRecord, .popRecord]

theorem run_links_accompanied_exchanged : let _ := Target.x64
    ∃ h, run 64 4 16 (by decide) exchanged = .ok h ∧ h.attached = [⟨0, 1⟩] ∧
      ∃ x : Course, h.Accompanied 64 ⟨0, 1⟩ x ∧ (x.audit.log.map (x.stamped ⟨0, 1⟩)).map
        (fun record => (record.sequence, record.outcome)) =
          [(some 3, .admitted), (some 3, .completed), (some 3, .cancelled)] := by
  intro _
  have hf : Fits 2 64 := ⟨by decide, by decide, by decide, by decide, by decide⟩
  obtain ⟨h, hrun, hlinks⟩ := run_links_accompanied (G := Unit) hf 4 16 (by decide) exchanged
  have hresult : (run 64 4 16 (by decide) exchanged).map
      (fun h => (h.attached, (recordsOf ⟨0, 1⟩ h.driver.shared.produced).map
        fun record => (record.sequence, record.outcome))) =
        .ok ([⟨0, 1⟩], [(some 3, .admitted), (some 3, .completed), (some 3, .cancelled)]) := by
    decide +kernel
  rw [hrun] at hresult
  have hresult := Except.ok.inj hresult
  have hattached : h.attached = [⟨0, 1⟩] := congrArg Prod.fst hresult
  obtain ⟨x, hx⟩ := hlinks ⟨0, 1⟩ (by rw [hattached]; exact List.mem_singleton_self _)
  refine ⟨h, hrun, hattached, x, hx, ?_⟩
  rw [← hx.records]
  exact congrArg Prod.snd hresult

end Host

end Hiway.Uring
