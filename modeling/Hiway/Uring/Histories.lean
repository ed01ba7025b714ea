import Hiway.Transport.Records
import Hiway.Uring.Book
import Hiway.Uring.Runs

/-!
# What becomes of the records

The rings of the machines and the archive hold what the book says, in every state of every
run. So no record is lost without being counted, and none is drained twice, under another
connection, or out of order.

* `input`, `retire`, `attach`, `popLive`: what the driver does to its records is an entry in
  the book.
* `Reaches.audited`, `Did.kept`: every move and every event keeps the rings and the archive
  as the book says.
* `run_records_conserved`: in every state of every run the records add up, and those of a
  connection are drained under its name and in their order.
-/

namespace Hiway.Uring

open Exec Target Transport

/-! ## Machines -/

/-- The records that the host can drain from a machine. -/
def historyOf (p : Protocol) : List Record :=
  p.accountability.elim [] fun a => a.records.retained.map (stamp a)

/-- A connection and the ring of its records. -/
structure Keeps (a : Accountability) (c : Connection) (records : List Record) (lost : Nat) :
    Prop where
  connection : a.connection = c
  ring : ∃ ring, a.records.Holds ring ∧ ring.map (stamp a) = records
  lost : a.records.lost = min lost u64Max

/-- A machine keeps these records for its connection, and has overwritten that many. -/
def Tracks (p : Protocol) (c : Connection) (records : List Record) (lost : Nat) : Prop :=
  ∃ a, p.accountability = some a ∧ Keeps a c records lost

namespace Tracks

variable {p q : Protocol} {c : Connection} {records : List Record} {lost : Nat}

theorem length_le (h : Tracks p c records lost) : records.length ≤ 8 := by
  obtain ⟨a, -, -, ⟨ring, hholds, rfl⟩, -⟩ := h
  rw [List.length_map, ← hholds.len]
  exact a.records.len_le

theorem lostRecords (h : Tracks p c records lost) : p.lostRecords = min lost u64Max := by
  obtain ⟨a, ha, hkeeps⟩ := h
  rw [Protocol.lostRecords, ha]
  exact hkeeps.lost

theorem history (h : Tracks p c records lost) : historyOf p = records := by
  obtain ⟨a, ha, -, ⟨ring, hholds, rfl⟩, -⟩ := h
  rw [historyOf, ha, Option.elim_some, hholds.retained]

/-- An input writes what is recorded of it at the end of the ring. -/
theorem input [Target] (h : Tracks p c records lost) {i : Input} {r : Except Error Unit}
    (hinput : p.input i = .ok (q, r)) :
    ∃ dropped kept, Tracks q c kept (lost + dropped.length) ∧
      dropped ++ kept = records ++ recorded p i ∧
      ∀ record ∈ recorded p i, record.connection = c := by
  obtain ⟨a, ha, hconnection, ⟨ring, hholds, rfl⟩, hlost⟩ := h
  obtain ⟨notes, -, hq, hwritten, -⟩ := Protocol.input_written ha hinput
  obtain ⟨hstamp, hsame⟩ := stamp_applyAll notes a
  obtain ⟨dropped, kept, hkept, hsplit, hlost'⟩ :=
    hholds.pushAll hlost (Note.writtenAll notes a)
  have hrecorded : recorded p i = (Note.writtenAll notes a).map (stamp a) := by
    unfold recorded
    rw [ha, hwritten]
    rfl
  refine ⟨dropped.map (stamp a), kept.map (stamp a), ⟨_, hq, hsame.trans hconnection,
    ⟨kept, ?_, by rw [hstamp]⟩, ?_⟩, ?_, fun record hrecord => ?_⟩
  · rw [Note.applyAll_records]
    exact hkept
  · rw [Note.applyAll_records, List.length_map]
    exact hlost'
  · rw [hrecorded, ← List.map_append, ← List.map_append, hsplit]
  · rw [hrecorded] at hrecord
    obtain ⟨frame, -, rfl⟩ := List.mem_map.mp hrecord
    exact hconnection

theorem observeSequence (h : Tracks p c records lost) (sequence : UInt64) :
    Tracks (p.observeSequence sequence) c records lost := by
  obtain ⟨a, ha, hconnection, hring, hlost⟩ := h
  exact ⟨a.observe sequence, by rw [Protocol.observeSequence, Protocol.account, ha]; rfl,
    hconnection, hring, hlost⟩

/-- The oldest record of a machine is drained. -/
theorem pop (h : Tracks p c records lost) :
    p.popRecord.1 = records.head? ∧ Tracks p.popRecord.2 c records.tail lost := by
  obtain ⟨a, ha, hconnection, ⟨ring, hholds, rfl⟩, hlost⟩ := h
  obtain ⟨hvalue, hrest, hlost'⟩ := hholds.pop_all
  have hpop : p.popRecord = (a.pop.1, { p with accountability := some a.pop.2 }) := by
    unfold Protocol.popRecord
    rw [ha]
  rw [hpop]
  refine ⟨?_, a.pop.2, rfl, hconnection, ⟨ring.tail, hrest, List.map_tail⟩, hlost'.trans hlost⟩
  change a.records.pop.1.map (stamp a) = _
  rw [hvalue, List.head?_map]

/-- The records of a machine that is retired move into the archive. -/
theorem archive {archived : Records Record 64} {old : List Record} {overwritten fuel : Nat}
    (h : Tracks p c records lost) (hfuel : records.length ≤ fuel) (hold : archived.Holds old)
    (hlost : archived.lost = min overwritten u64Max) :
    ∃ dropped kept, (Shared.archive fuel p archived).2.Holds kept ∧
      dropped ++ kept = old ++ records ∧
      (Shared.archive fuel p archived).2.lost = min (overwritten + dropped.length) u64Max ∧
      (Shared.archive fuel p archived).1.lostRecords = min lost u64Max := by
  induction fuel generalizing p archived old overwritten records with
  | zero =>
    have hnil : records = [] := List.eq_nil_of_length_eq_zero (Nat.le_zero.mp hfuel)
    subst hnil
    exact ⟨[], old, hold, (List.append_nil old).symm, hlost, h.lostRecords⟩
  | succ fuel ih =>
    obtain ⟨hvalue, htracks⟩ := h.pop
    cases records with
    | nil =>
      have hstep : Shared.archive (fuel + 1) p archived = (p.popRecord.2, archived) := by
        rw [Shared.archive]
        split
        · rename_i record q heq
          rw [heq] at hvalue
          cases hvalue
        · rename_i q heq
          rw [heq]
      rw [hstep]
      exact ⟨[], old, hold, (List.append_nil old).symm, hlost, htracks.lostRecords⟩
    | cons record rest =>
      have hstep : Shared.archive (fuel + 1) p archived =
          Shared.archive fuel p.popRecord.2 (archived.push record) := by
        rw [Shared.archive]
        split
        · rename_i first q heq
          rw [heq] at hvalue ⊢
          cases hvalue
          rfl
        · rename_i q heq
          rw [heq] at hvalue
          cases hvalue
      obtain ⟨dropped, kept, hkept, hsplit, hlost'⟩ := hold.pushAll hlost [record]
      obtain ⟨dropped', kept', hkept', hsplit', hlost'', hmachine⟩ :=
        ih htracks (Nat.le_of_succ_le_succ hfuel) hkept hlost'
      rw [hstep]
      refine ⟨dropped ++ dropped', kept', hkept', ?_, ?_, hmachine⟩
      · rw [List.append_assoc, hsplit', ← List.append_assoc, hsplit, List.append_assoc]
        rfl
      · rw [List.length_append, ← Nat.add_assoc]
        exact hlost''

end Tracks

/-! ## The driver keeps a book -/

namespace Shared

variable {G : Type} {links : Nat}

def generations (s : Shared G links) (index : Fin links) : Nat := (s.slots index).generation

/-- Only an attachment gives a slot a new generation. -/
theorem generations_update {s : Shared G links} {index : Fin links} {f : Slot → Slot}
    (h : (f (s.slots index)).generation = (s.slots index).generation) :
    (s.update index f).generations = s.generations := by
  funext other
  unfold generations
  by_cases heq : other = index
  · subst heq
    rw [update_self]
    exact h
  · rw [update_of_ne heq]

/-- The book says what the rings hold. -/
structure Audited (attached : List Connection) (drained : List Record) (s : Shared G links)
    (b : Book links) : Prop where
  balanced : b.Balanced s.generations attached drained s.produced
  machine : ∀ index p, (s.slots index).protocol = some p →
    Tracks p (Book.connection s.generations index) (b.live index) (b.lost index) ∧
      Book.connection s.generations index ∈ attached
  vacant : ∀ index, (s.slots index).protocol = none → b.live index = [] ∧ b.lost index = 0
  archived : s.archived.Holds b.archived
  overwritten : s.archived.lost = min b.overwritten u64Max
  retired : s.retiredLost = min b.retired u64Max

namespace Audited

variable {attached : List Connection} {drained : List Record} {s t : Shared G links}
  {b : Book links}

/-- Nothing that the book is about has changed. -/
theorem congr (h : s.Audited attached drained b)
    (hgeneration : ∀ index, (t.slots index).generation = (s.slots index).generation)
    (hprotocol : ∀ index, (t.slots index).protocol = (s.slots index).protocol)
    (harchived : t.archived = s.archived) (hretired : t.retiredLost = s.retiredLost)
    (hproduced : t.produced = s.produced) : t.Audited attached drained b := by
  have hgenerations : t.generations = s.generations := funext hgeneration
  refine ⟨?_, fun index p hp => ?_, fun index hnone => ?_, ?_, ?_, ?_⟩
  · rw [hgenerations, hproduced]
    exact h.balanced
  · rw [hgenerations]
    exact h.machine index p ((hprotocol index).symm.trans hp)
  · exact h.vacant index ((hprotocol index).symm.trans hnone)
  · rw [harchived]
    exact h.archived
  · rw [harchived]
    exact h.overwritten
  · rw [hretired]
    exact h.retired

/-- A machine in place of another one, and the entry for it. -/
theorem replace (h : s.Audited attached drained b) {index : Fin links} {q : Protocol}
    {records : List Record} {lost : Nat} {drained' : List Record}
    (hgenerations : t.generations = s.generations)
    (hself : (t.slots index).protocol = some q)
    (hother : ∀ other, other ≠ index → (t.slots other).protocol = (s.slots other).protocol)
    (harchived : t.archived = s.archived) (hretired : t.retiredLost = s.retiredLost)
    (hq : Tracks q (Book.connection s.generations index) records lost)
    (hattached : Book.connection s.generations index ∈ attached)
    (hbalanced : (b.set index records lost).Balanced s.generations attached drained' t.produced) :
    t.Audited attached drained' (b.set index records lost) := by
  refine ⟨?_, fun other p hp => ?_, fun other hnone => ?_, ?_, ?_, ?_⟩
  · rw [hgenerations]
    exact hbalanced
  · rw [hgenerations]
    unfold Book.set
    dsimp only
    by_cases heq : other = index
    · subst heq
      rw [hself] at hp
      cases hp
      rw [Function.update_self, Function.update_self]
      exact ⟨hq, hattached⟩
    · rw [hother other heq] at hp
      rw [Function.update_of_ne heq, Function.update_of_ne heq]
      exact h.machine other p hp
  · by_cases heq : other = index
    · subst heq
      rw [hself] at hnone
      cases hnone
    · rw [hother other heq] at hnone
      unfold Book.set
      dsimp only
      rw [Function.update_of_ne heq, Function.update_of_ne heq]
      exact h.vacant other hnone
  · rw [harchived]
    exact h.archived
  · rw [harchived]
    exact h.overwritten
  · rw [hretired]
    exact h.retired

/-- A change of one slot that keeps its machine. -/
theorem update (h : s.Audited attached drained b) (index : Fin links) {f : Slot → Slot}
    (hgeneration : (f (s.slots index)).generation = (s.slots index).generation)
    (hprotocol : (f (s.slots index)).protocol = (s.slots index).protocol) :
    (s.update index f).Audited attached drained b := by
  refine h.congr (congrFun (generations_update hgeneration)) (fun other => ?_) rfl rfl rfl
  · by_cases heq : other = index
    · subst heq
      rw [update_self]
      exact hprotocol
    · rw [update_of_ne heq]

/-- A machine has answered an input. -/
theorem input [Target] (h : s.Audited attached drained b) {index : Fin links} {p q : Protocol}
    {i : Input} {r : Except Error Unit} (hp : (s.slots index).protocol = some p)
    (hinput : p.input i = .ok (q, r)) : ∃ b', (s.answered index p i q).Audited attached drained b' := by
  obtain ⟨htracks, hattached⟩ := h.machine index p hp
  obtain ⟨dropped, kept, hkept, hsplit, hown⟩ := htracks.input hinput
  refine ⟨_, h.replace (generations_update (s := s) (f := fun slot => { slot with protocol := some q })
    rfl) ?_ (fun other hne => ?_) rfl rfl hkept hattached (h.balanced.write hown hattached hsplit)⟩
  · rw [answered_self]
  · rw [answered_of_ne hne]

/-- A machine has answered for one of its operations. -/
theorem operated [Target] (h : s.Audited attached drained b) {index : Fin links} {p q : Protocol}
    {i : Input} {r : Except Error Unit} {lane : Lane} {o : Operation}
    (hp : (s.slots index).protocol = some p) (hinput : p.input i = .ok (q, r)) :
    ∃ b', ((s.update index (·.setOperation lane o)).answered index p i q).Audited attached drained
      b' := by
  refine (h.update index (f := (·.setOperation lane o)) rfl rfl).input ?_ hinput
  rw [update_self]
  exact hp

theorem set_self (b : Book links) (index : Fin links) :
    b.set index (b.live index) (b.lost index) = b := by
  unfold Book.set
  rw [Function.update_eq_self, Function.update_eq_self]

/-- The connection of a machine has observed a sequence. -/
theorem observe (h : s.Audited attached drained b) {index : Fin links} {p : Protocol}
    (hp : (s.slots index).protocol = some p) (sequence : UInt64) :
    (s.update index fun slot =>
      { slot with protocol := some (p.observeSequence sequence) }).Audited attached drained b := by
  obtain ⟨htracks, hattached⟩ := h.machine index p hp
  have hbalanced := h.balanced
  rw [← set_self b index] at hbalanced ⊢
  refine h.replace (generations_update rfl) ?_ (fun other hne => ?_) rfl rfl
    (htracks.observeSequence sequence) hattached hbalanced
  · rw [update_self]
  · rw [update_of_ne hne]

/-- A closed machine whose future is gone is retired. -/
theorem retire (h : s.Audited attached drained b) {index : Fin links} {p : Protocol}
    (hp : (s.slots index).protocol = some p) :
    ∃ b', ({ s.update index fun slot => { slot with protocol := none } with
        archived := (archive 8 p s.archived).2
        retiredLost := saturatingAdd s.retiredLost (archive 8 p s.archived).1.lostRecords } :
      Shared G links).Audited attached drained b' := by
  obtain ⟨htracks, hattached⟩ := h.machine index p hp
  obtain ⟨dropped, kept, hkept, hsplit, hover, hmachine⟩ :=
    htracks.archive htracks.length_le h.archived h.overwritten
  have hgenerations : ({ s.update index fun slot => { slot with protocol := none } with
      archived := (archive 8 p s.archived).2
      retiredLost := saturatingAdd s.retiredLost (archive 8 p s.archived).1.lostRecords } :
        Shared G links).generations = s.generations :=
    generations_update (s := s) (f := fun slot => { slot with protocol := none }) rfl
  refine ⟨{ b.set index [] 0 with
      archived := kept
      overwritten := b.overwritten + dropped.length
      retired := b.retired + b.lost index }, ?_, fun other q hq => ?_, fun other hnone => ?_, hkept,
    hover, ?_⟩
  · rw [hgenerations]
    exact h.balanced.retire hsplit
  · rw [hgenerations]
    by_cases heq : other = index
    · subst heq
      change ((s.update other fun slot => { slot with protocol := none }).slots other).protocol =
        some q at hq
      rw [update_self] at hq
      cases hq
    · change ((s.update index fun slot => { slot with protocol := none }).slots other).protocol =
        some q at hq
      rw [update_of_ne heq] at hq
      unfold Book.set
      dsimp only
      rw [Function.update_of_ne heq, Function.update_of_ne heq]
      exact h.machine other q hq
  · unfold Book.set
    dsimp only
    by_cases heq : other = index
    · subst heq
      rw [Function.update_self, Function.update_self]
      exact ⟨rfl, rfl⟩
    · change ((s.update index fun slot => { slot with protocol := none }).slots other).protocol =
        none at hnone
      rw [update_of_ne heq] at hnone
      rw [Function.update_of_ne heq, Function.update_of_ne heq]
      exact h.vacant other hnone
  · change saturatingAdd s.retiredLost (archive 8 p s.archived).1.lostRecords = _
    rw [hmachine, h.retired]
    change min (min b.retired u64Max + min (b.lost index) u64Max) u64Max =
      min (b.retired + b.lost index) u64Max
    omega

/-- A machine is put into a vacant slot. -/
theorem attach [Target] [NeZero links] (h : s.Audited attached drained b) {index : Fin links}
    {a : Attachment G} {p : Protocol} {bytes : Nat} (hnone : (s.slots index).protocol = none)
    (hp : Protocol.withConnection a.contract a.direction bytes
      ⟨index.val, (s.slots index).generation + 1⟩ = .ok p) :
    (s.attached index a p).Audited
      (attached ++ [⟨index.val, (s.slots index).generation + 1⟩]) drained b := by
  have hgenerations : (s.attached index a p).generations =
      Function.update s.generations index (s.generations index + 1) := by
    funext other
    unfold generations
    by_cases heq : other = index
    · subst heq
      rw [attached_self, Function.update_self]
    · rw [attached_of_ne heq, Function.update_of_ne heq]
  obtain ⟨hlive, hlost⟩ := h.vacant index hnone
  obtain ⟨q, hq, rfl⟩ := Protocol.withConnection_eq hp
  refine ⟨?_, fun other r hr => ?_, fun other hvacant => ?_, h.archived, h.overwritten, h.retired⟩
  · rw [hgenerations]
    exact h.balanced.attach hlive
  · rw [hgenerations]
    unfold Book.connection
    by_cases heq : other = index
    · subst heq
      rw [attached_self] at hr
      cases hr
      rw [Function.update_self, hlive, hlost]
      exact ⟨⟨_, rfl, rfl, ⟨[], Records.new_holds, rfl⟩, rfl⟩,
        List.mem_append_right _ (List.mem_singleton.mpr rfl)⟩
    · rw [attached_of_ne heq] at hr
      rw [Function.update_of_ne heq]
      obtain ⟨htracks, hattached⟩ := h.machine other r hr
      exact ⟨htracks, List.mem_append_left _ hattached⟩
  · by_cases heq : other = index
    · subst heq
      rw [attached_self] at hvacant
      cases hvacant
    · rw [attached_of_ne heq] at hvacant
      exact h.vacant other hvacant

/-! ### Draining -/

/-- The accountability of a machine is read. -/
theorem account (h : s.Audited attached drained b) {index : Fin links} {p : Protocol}
    (hp : (s.slots index).protocol = some p) (drained' : List Record)
    (hbalanced : (b.set index (b.live index).tail (b.lost index)).Balanced s.generations attached
      drained' s.produced) :
    (s.update index fun slot => { slot with protocol := some p.popRecord.2 }).Audited attached
      drained' (b.set index (b.live index).tail (b.lost index)) := by
  obtain ⟨htracks, hattached⟩ := h.machine index p hp
  refine h.replace (generations_update rfl) ?_ (fun other hne => ?_) rfl rfl htracks.pop.2 hattached
    hbalanced
  · rw [update_self]
  · rw [update_of_ne hne]

/-- With nothing archived the host drains the first machine that has a record. -/
theorem popLive (h : s.Audited attached drained b) (harchived : b.archived = [])
    (indices : List (Fin links)) :
    ∃ b', (s.popLive indices).2.Audited attached (drained ++ (s.popLive indices).1.toList) b' := by
  induction indices generalizing s b with
  | nil => exact ⟨b, by rw [Shared.popLive, Option.toList_none, List.append_nil]; exact h⟩
  | cons index rest ih =>
    unfold Shared.popLive
    split
    · exact ih h harchived
    · rename_i p hp
      have hvalue := (h.machine index p hp).1.pop.1
      dsimp only
      split
      · rename_i record hrecord
        rw [hvalue] at hrecord
        obtain ⟨records, hlive⟩ := List.head?_eq_some_iff.mp hrecord
        refine ⟨_, h.account hp _ ?_⟩
        rw [hlive, List.tail_cons]
        exact h.balanced.drainLive harchived hlive
      · rename_i hnone
        rw [hvalue] at hnone
        have hlive := List.head?_eq_none_iff.mp hnone
        have hsame : b.set index (b.live index).tail (b.lost index) = b := by
          rw [hlive, List.tail_nil, ← hlive]
          exact set_self b index
        have haccount := h.account hp drained
        rw [hsame] at haccount
        exact ih (haccount h.balanced) harchived

theorem popRecord (h : s.Audited attached drained b) :
    ∃ b', s.popRecord.2.Audited attached (drained ++ s.popRecord.1.toList) b' := by
  obtain ⟨hvalue, hrest, hlost⟩ := h.archived.pop_all
  have hpopped : ({ s with archived := s.archived.pop.2 } : Shared G links).generations =
      s.generations := rfl
  unfold Shared.popRecord
  dsimp only
  split
  · rename_i record hrecord
    rw [hvalue] at hrecord
    obtain ⟨rest, harchived⟩ := List.head?_eq_some_iff.mp hrecord
    rw [harchived, List.tail_cons] at hrest
    exact ⟨{ b with archived := rest }, h.balanced.drainArchived harchived, h.machine, h.vacant,
      hrest, hlost.trans h.overwritten, h.retired⟩
  · rename_i hnone
    rw [hvalue] at hnone
    have harchived := List.head?_eq_none_iff.mp hnone
    rw [harchived, List.tail_nil, ← harchived] at hrest
    have hpop : ({ s with archived := s.archived.pop.2 } : Shared G links).Audited attached drained
        b := ⟨h.balanced, h.machine, h.vacant, hrest, hlost.trans h.overwritten, h.retired⟩
    exact hpop.popLive harchived _

/-! ### Moves -/

theorem move [Target] [NeZero links] (h : s.Audited attached drained b) (hmove : s.Move t) :
    ∃ b', t.Audited attached drained b' := by
  cases hmove with
  | flags index f hf => exact ⟨b, h.update index hf.generation hf.protocol⟩
  | input hp hi hinput =>
    obtain ⟨hanswer, rfl⟩ := input_eq.mp hinput
    exact h.input hp hanswer
  | observe sequence hp => exact ⟨b, h.observe hp sequence⟩
  | refresh index =>
    refine ⟨b, h.update index ?_ ?_⟩
    · unfold Slot.refresh
      split <;> rfl
    · unfold Slot.refresh
      split <;> rfl
  | queue | borrow | stop =>
    exact ⟨b, h.congr (fun _ => rfl) (fun _ => rfl) rfl rfl rfl⟩
  | release index =>
    exact ⟨b, h.update index (f := fun slot => { slot with alive := false }) rfl rfl⟩
  | reclaim index =>
    have hupdate := h.update index (f := fun slot => { slot with sockets := none }) rfl rfl
    exact ⟨b, hupdate.congr (fun _ => rfl) (fun _ => rfl) rfl rfl rfl⟩
  | retire index p hp => exact h.retire hp

end Audited

end Shared

/-! ## What the host can find -/

namespace Shared

variable {G : Type} {links : Nat} {s : Shared G links} {attached : List Connection}
  {drained : List Record} {b : Book links}

/-- The records that the live machine of a slot still holds. -/
def held (s : Shared G links) (index : Fin links) : List Record :=
  (s.slots index).protocol.elim [] historyOf

theorem Audited.held (h : s.Audited attached drained b) (index : Fin links) :
    s.held index = b.live index := by
  unfold Shared.held
  cases hp : (s.slots index).protocol with
  | none => exact (h.vacant index hp).1.symm
  | some p => exact (h.machine index p hp).1.history

/-- The losses of some slots are added to those counted before. -/
theorem Audited.foldl_lost (h : s.Audited attached drained b) (indices : List (Fin links))
    (lost : Nat) :
    (indices.filterMap fun index => (s.slots index).protocol).foldl
        (fun lost p => saturatingAdd lost p.lostRecords) (min lost u64Max) =
      min (lost + (indices.map b.lost).sum) u64Max := by
  induction indices generalizing lost with
  | nil => rfl
  | cons index rest ih =>
    rw [List.map_cons, List.sum_cons, ← Nat.add_assoc]
    cases hp : (s.slots index).protocol with
    | none =>
      rw [List.filterMap_cons_none (f := fun index => (s.slots index).protocol) hp,
        (h.vacant index hp).2, Nat.add_zero]
      exact ih lost
    | some p =>
      rw [List.filterMap_cons_some (f := fun index => (s.slots index).protocol) hp, List.foldl_cons,
        (h.machine index p hp).1.lostRecords]
      have hadd : saturatingAdd (min lost u64Max) (min (b.lost index) u64Max) =
          min (lost + b.lost index) u64Max := by
        unfold saturatingAdd
        omega
      rw [hadd]
      exact ih (lost + b.lost index)

theorem Audited.lostRecords (h : s.Audited attached drained b) :
    s.lostRecords = min (b.overwritten + b.retired + ∑ index, b.lost index) u64Max := by
  have hstart : saturatingAdd s.retiredLost s.archived.lost =
      min (b.overwritten + b.retired) u64Max := by
    rw [h.retired, h.overwritten]
    unfold saturatingAdd
    omega
  unfold Shared.lostRecords
  rw [hstart, h.foldl_lost, Fin.sum_univ_def]

end Shared

/-! ## Runs -/

namespace Driver

variable [Target] {G : Type} {links : Nat} [NeZero links] {d d' : Driver G links}
  {attached : List Connection} {drained : List Record} {b : Book links}

theorem Move.audited (h : d.shared.Audited attached drained b) (hmove : d.Move d') :
    ∃ b', d'.shared.Audited attached drained b' := by
  cases hmove with
  | shared hs => exact h.move hs
  | ring | ready | hint => exact ⟨b, h.congr (fun _ => rfl) (fun _ => rfl) rfl rfl rfl⟩
  | prepare => exact ⟨b, h.update _ (f := (·.setOperation _ _)) rfl rfl⟩
  | accept hp hid hphase heffect hpush hinput =>
    obtain ⟨hanswer, rfl⟩ := Shared.input_eq.mp hinput
    exact h.operated hp hanswer
  | cancel => exact ⟨b, h.update _ (f := (·.setOperation _ _)) rfl rfl⟩
  | complete hp hid hphase hnext hu hinput =>
    obtain ⟨hanswer, rfl⟩ := Shared.input_eq.mp hinput
    exact h.operated hp hanswer
  | cancelled => exact ⟨b, h.update _ (f := (·.setOperation _ _)) rfl rfl⟩

theorem Reaches.audited (h : d.shared.Audited attached drained b) (hreaches : d.Reaches d') :
    ∃ b', d'.shared.Audited attached drained b' := by
  induction hreaches with
  | refl => exact ⟨b, h⟩
  | tail _ hmove ih =>
    obtain ⟨b', h'⟩ := ih
    exact hmove.audited h'

end Driver

namespace Host

variable {G : Type} {links : Nat}

/-- The book of a host is kept. -/
def Kept (h : Host G links) : Prop :=
  ∃ b, h.driver.shared.Audited h.attached h.drained b

/-- What has become of the records of a run. -/
structure Accounted (h : Host G links) : Prop where
  /-- A record is drained, held by a live machine, archived, or lost and counted. -/
  conserved : h.driver.shared.lostRecords < u64Max →
    h.driver.shared.produced.length = h.drained.length +
      (∑ index, (h.driver.shared.held index).length) + h.driver.shared.archived.retained.length +
        h.driver.shared.lostRecords
  /-- The counters of the losses saturate and do nothing else wrong. -/
  saturating : ∃ lost, h.driver.shared.lostRecords = min lost u64Max ∧
    h.driver.shared.produced.length = h.drained.length +
      (∑ index, (h.driver.shared.held index).length) + h.driver.shared.archived.retained.length +
        lost
  order : ∀ c, (recordsOf c h.drained).Sublist (recordsOf c h.driver.shared.produced)
  attributed : ∀ record ∈ h.drained, record ∈ h.driver.shared.produced ∧
    record.connection ∈ h.attached
  /-- A machine records under what its attachment returned. -/
  connection : ∀ index p, (h.driver.slot index).protocol = some p → ∃ a,
    p.accountability = some a ∧ a.connection = ⟨index.val, (h.driver.slot index).generation⟩ ∧
      a.connection ∈ h.attached
  increasing : h.attached.Pairwise fun c c' => c.id = c'.id → c.generation < c'.generation

theorem Kept.accounted {h : Host G links} (hkept : h.Kept) : h.Accounted := by
  obtain ⟨b, hb⟩ := hkept
  have hheld : (∑ index, (h.driver.shared.held index).length) =
      ∑ index, (b.live index).length := by
    apply Finset.sum_congr rfl
    intro index _
    rw [hb.held]
  have hlost := hb.lostRecords
  have hcount := hb.balanced.count
  rw [← hheld, ← hb.archived.retained] at hcount
  have horder : ∀ c, (recordsOf c h.drained).Sublist (recordsOf c h.driver.shared.produced) := by
    intro c
    refine List.Sublist.trans ?_ (hb.balanced.order c)
    rw [recordsOf_append]
    exact List.sublist_append_left _ _
  refine ⟨fun hlt => by omega, ⟨_, hlost, by omega⟩, horder, fun record hrecord => ?_,
    fun index p hp => ?_, hb.balanced.increasing⟩
  · have hmem : record ∈ recordsOf record.connection h.drained :=
      List.mem_filter.mpr ⟨hrecord, decide_eq_true rfl⟩
    have hproduced := List.mem_of_mem_filter ((horder record.connection).subset hmem)
    exact ⟨hproduced, hb.balanced.attributed record hproduced⟩
  · obtain ⟨⟨a, ha, hkeeps⟩, hattached⟩ := hb.machine index p hp
    refine ⟨a, ha, hkeeps.connection, ?_⟩
    rw [hkeeps.connection]
    exact hattached

variable [NeZero links]

theorem start_kept (capacity cqEntries : Nat) (room : 2 ≤ capacity) :
    (start capacity cqEntries room : Host G links).Kept :=
  ⟨Book.start, Book.start_balanced, fun _ _ hp => (by cases hp), fun _ _ => ⟨rfl, rfl⟩,
    Records.new_holds, rfl, rfl⟩

variable [Target] {bytes : Nat} {h h' : Host G links}

theorem Did.kept (hkept : h.Kept) (hdid : Did bytes h h') : h'.Kept := by
  obtain ⟨b, hb⟩ := hkept
  cases hdid with
  | moved hd => exact hd.audited hb
  | attached hnone hp => exact ⟨b, hb.attach hnone hp⟩
  | drained => exact hb.popRecord

/-- In every state of every run the records add up, and those of a connection are drained
under its name and in their order. -/
theorem run_records_conserved (hf : Fits links bytes) (capacity cqEntries : Nat)
    (room : 2 ≤ capacity) (events : List (Event G links)) :
    ∃ h, run bytes capacity cqEntries room events = .ok h ∧ h.Accounted := by
  have hsteps : ∃ h : Host G links, run bytes capacity cqEntries room events = .ok h ∧
      h.driver.Inv ∧ h.Kept := by
    refine steps_invariant (P := fun h : Host G links => h.driver.Inv ∧ h.Kept)
      (fun h e hh => ?_) ⟨start_inv capacity cqEntries room, start_kept capacity cqEntries room⟩
      events
    obtain ⟨h', hstep, hdid⟩ := step_did hf hh.1 e
    exact ⟨h', hstep, hdid.inv hf hh.1, hdid.kept hh.2⟩
  obtain ⟨h, hrun, -, hkept⟩ := hsteps
  exact ⟨h, hrun, hkept.accounted⟩

end Host

namespace Host

/-- A link closes, its slot is attached again, and the host drains one record of each. -/
def reused : List (Event Unit 2) :=
  [.attach importing, .act (.close ⟨0, Nat.zero_lt_two⟩ .closed), .act (.drop ⟨0, Nat.zero_lt_two⟩),
    .advance .immediate ⟨1, 1, 64⟩ ⟨[], false, none⟩, .dispatch 2 [], .attach importing,
    .act (.close ⟨0, Nat.zero_lt_two⟩ .revoked), .popRecord, .popRecord]

theorem run_records_conserved_reused : let _ := Target.x64
    ∃ h, run 64 4 16 (by decide) reused = .ok h ∧ h.Accounted ∧
      h.attached = [⟨0, 1⟩, ⟨0, 2⟩] ∧ h.drained.map Record.connection = [⟨0, 1⟩, ⟨0, 2⟩] := by
  intro _
  have hf : Fits 2 64 := ⟨by decide, by decide, by decide, by decide, by decide⟩
  obtain ⟨h, hrun, haccounted⟩ := run_records_conserved (G := Unit) hf 4 16 (by decide) reused
  have hresult : (run 64 4 16 (by decide) reused).map
      (fun h => (h.attached, h.drained.map Record.connection)) =
        .ok ([⟨0, 1⟩, ⟨0, 2⟩], [⟨0, 1⟩, ⟨0, 2⟩]) := by
    decide +kernel
  rw [hrun] at hresult
  have hresult := Except.ok.inj hresult
  exact ⟨h, hrun, haccounted, congrArg Prod.fst hresult, congrArg Prod.snd hresult⟩

end Host

end Hiway.Uring
