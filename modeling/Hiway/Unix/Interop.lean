import Hiway.Transport.Inlet
import Hiway.Transport.Outlet
import Hiway.Unix.Inlet

/-!
# Links and machines

A link of the Unix backend at one end of a connection and a machine of the transport at the
other, in both directions. Each of the four ends keeps to the format on its own, so any
exporter is understood by any importer, whatever ends either of them.

* `Matches.format`: the ends of matching contracts write one format.
* `run_link_to_machine`: a link exports and a machine imports.
* `run_machine_to_link`: a machine exports and a link imports.
* `run_machine_to_machine`: a machine exports and a machine imports, while hosts close them
  and operations fail.
-/

namespace Hiway.Unix

open Exec Target Transport

variable {α β G : Type}

/-- What an importer has admitted of the items that an exporter was given. -/
structure Conveyed (E : WireCodec α) (provided : List (UInt64 × α)) (admitted : List Frame) :
    Prop where
  carried : ∃ items, items <+: provided ∧ List.Forall₂ (Frame.Carries E) admitted items
  window : provided.length ≤ admitted.length + 1

theorem conveyed {E : WireCodec α} {provided : List (UInt64 × α)} {started admitted : List Frame}
    (hcarried : List.Forall₂ (Frame.Carries E) started provided)
    (hdelivered : admitted <+: started) (hwindow : started.length ≤ admitted.length + 1) :
    Conveyed E provided admitted := by
  refine ⟨⟨provided.take admitted.length, List.take_prefix _ _, ?_⟩, ?_⟩
  · have hfront := List.forall₂_take admitted.length hcarried
    rwa [← List.prefix_iff_eq_take.mp hdelivered] at hfront
  · rw [← hcarried.length_eq]
    exact hwindow

/-- The values that a link decodes are those of the items. -/
theorem Conveyed.values [Target] {E : WireCodec α} {c : Contract} {decode : Decode β G}
    {translate : α → β} {provided : List (UInt64 × α)} {admitted : List (Accepted β)}
    {maxPayload : Nat} (h : Conveyed E provided (admitted.map Accepted.frame))
    (htranslate : Pair.Translates E decode translate)
    (hsound : ∀ a ∈ admitted, a.Sound c decode maxPayload) :
    admitted.map (fun a => (a.sequence, a.value)) <+:
      provided.map fun x => (x.1, translate x.2) := by
  obtain ⟨items, hitems, hcarried⟩ := h.carried
  have hvalues : admitted.map (fun a => (a.sequence, a.value)) =
      items.map fun x => (x.1, translate x.2) := by
    rw [List.forall₂_map_left_iff] at hcarried
    clear h hitems
    induction hcarried with
    | nil => rfl
    | cons hx _ ih =>
      obtain ⟨hsequence, hrevision, storage, hencode⟩ := hx
      obtain ⟨grant, hdecode⟩ := (hsound _ List.mem_cons_self).decoded
      rw [show headerRevision _ = E.contract.revision from hrevision] at hdecode
      have hvalue := htranslate _ storage _ grant _ hencode hdecode
      have hrest := ih fun b hb => hsound b (List.mem_cons_of_mem _ hb)
      rw [List.map_cons, List.map_cons, hrest, hvalue]
      exact congrArg (fun n => (n, _) :: _) hsequence
  rw [hvalues]
  exact hitems.map _

/-- The ends of matching contracts write one format. -/
theorem Matches.format [Target] {source target : Contract} (h : Matches source target) :
    wireFormat target = wireFormat source := by
  obtain ⟨hevent, hmajor, hdelivery⟩ := h
  cases source
  cases target
  cases hevent
  cases hmajor
  cases hdelivery
  rfl

section

variable (E : WireCodec α) {c : Contract} {decode : Decode β G} {translate : α → β}

/-- **A link exports, a machine imports.** However the two ends and the kernel take turns,
however reads and writes are cut, and whatever ends either of them, the frames that the
machine has handed out carry the items the link was given, in their order, at most the last
is missing, and neither end closes with a protocol error. -/
theorem run_link_to_machine [Target] (hmatch : Matches E.contract c) (connection : Connection)
    {maxPayload capacity : Nat} (hword : maxPayload ≤ usizeMax) (hcapacity : capacity ≤ usizeMax)
    {importer : Protocol} (hp : Protocol.Provisioned c .importing capacity importer)
    {storage : PerLane (List UInt8)}
    (hs : ∀ lane, (storage.get lane).length = lane.bufferCapacity capacity)
    (turns : List (Dialogue.Turn (Action α) Incoming)) :
    ∃ p, steps (Dialogue.step (Outlet.sender E) Inlet.receiver)
        ⟨Outlet.start E connection maxPayload, Inlet.start importer storage⟩ turns = .ok p ∧
      Conveyed E p.sender.provided p.receiver.admitted ∧
      p.sender.exported.link.outcome ≠ some (some .protocol) ∧
      p.receiver.side.protocol.closed ≠ some .protocol := by
  have hA := Outlet.sender_keeps E hword
  have hB := Inlet.receiver_keeps c
  rw [hmatch.format] at hB
  have hstart := Dialogue.understood_start (A := Outlet.sender E) (B := Inlet.receiver)
    (w := wireFormat E.contract) (Outlet.start_inv E connection maxPayload)
    (Inlet.start_inv hcapacity hp hs) rfl rfl
  obtain ⟨p, hrun, h⟩ := hstart.run hA hB turns
  exact ⟨p, hrun, conveyed h.sender.carried (h.delivered hA hB) (h.window hA hB),
    h.sender.agrees, h.receiver.closed_ne⟩

/-- The byte of the first frame is handed out and credited in two parts, and then the
connection of the machine is revoked. -/
theorem run_link_to_machine_revoked :
    let _ := Target.x64
    let c := Duplex.byteCodec.contract
    let storage : PerLane (List UInt8) :=
      ⟨List.replicate 64 0, List.replicate 9 0, List.replicate 9 0⟩
    let turns : List (Dialogue.Turn (Action UInt8) Incoming) :=
      [.sender (.received 5 42), .sender (.wrote 38), .sender (.wrote 1),
        .receiver (.accept .data ⟨0, 1⟩), .receiver (.receive (header c 5 1)),
        .receiver (.complete ⟨0, 1⟩), .receiver (.accept .data ⟨0, 2⟩),
        .receiver (.receive [42]), .receiver (.complete ⟨0, 2⟩), .receiver .admission,
        .receiver (.accept .creditSend ⟨1, 1⟩), .receiver (.transmit 4),
        .sender (.read ((creditOf 5).take 4)), .receiver (.transmit 9),
        .sender (.read ((creditOf 5).drop 4)), .receiver (.stop none)]
    ∃ y p, Protocol.new c .importing 64 = .ok y ∧
      steps (Dialogue.step (Outlet.sender Duplex.byteCodec) Inlet.receiver)
        ⟨Outlet.start Duplex.byteCodec ⟨1, 1⟩ 4, Inlet.start y storage⟩ turns = .ok p ∧
      Conveyed Duplex.byteCodec p.sender.provided p.receiver.admitted ∧
      p.receiver.admitted = [⟨5, 1, [42]⟩] ∧
      p.sender.exported.frames.map Started.credited = [true] ∧
      p.receiver.side.protocol.closed = some .revoked := by
  intro _ c storage turns
  obtain ⟨y, hy⟩ : ∃ y, Protocol.new c .importing 64 = .ok y := ⟨_, rfl⟩
  have hstorage : ∀ lane, (storage.get lane).length = lane.bufferCapacity 64 := by
    intro lane
    cases lane <;> rfl
  obtain ⟨p, hrun, hconveyed, -⟩ := run_link_to_machine Duplex.byteCodec ⟨rfl, rfl, rfl⟩ ⟨1, 1⟩
    (show 4 ≤ usizeMax by decide) (by decide) (Or.inl hy) hstorage turns
  have hend : (steps (Dialogue.step (Outlet.sender Duplex.byteCodec) Inlet.receiver)
      ⟨Outlet.start Duplex.byteCodec ⟨1, 1⟩ 4, Inlet.start y storage⟩ turns).map
      (fun p => (p.receiver.admitted, p.sender.exported.frames.map Started.credited,
        p.receiver.side.protocol.closed)) = .ok ([⟨5, 1, [42]⟩], [true], some .revoked) := by
    cases hy
    decide +kernel
  rw [hrun] at hend
  obtain ⟨hadmitted, hrest⟩ := Prod.mk.inj (Except.ok.inj hend)
  obtain ⟨hcredited, hclosed⟩ := Prod.mk.inj hrest
  exact ⟨y, p, hy, hrun, hconveyed, hadmitted, hcredited, hclosed⟩

/-- **A machine exports, a link imports.** However the two ends and the kernel take turns,
however reads and writes are cut, and whatever ends either of them, the link has accepted the
values of the items the machine was given, in their order, at most the last is missing, and
neither end closes with a protocol error. -/
theorem run_machine_to_link [Target] (hmatch : Matches E.contract c)
    (htranslate : Pair.Translates E decode translate) (connection : Connection)
    (maxPayload : Nat) {capacity : Nat} (hcapacity : capacity ≤ usizeMax)
    {exporter : Protocol} (hp : Protocol.Provisioned E.contract .exporting capacity exporter)
    {storage : PerLane (List UInt8)}
    (hs : ∀ lane, (storage.get lane).length = lane.bufferCapacity capacity)
    (turns : List (Dialogue.Turn (Outgoing α) (Arrival G))) :
    ∃ p, steps (Dialogue.step (Transport.Outlet.sender E) (Imported.receiver c decode))
        ⟨Transport.Outlet.start exporter storage, Imported.start c connection maxPayload⟩ turns =
          .ok p ∧
      p.receiver.admitted.map (fun a => (a.sequence, a.value)) <+:
        p.sender.provided.map (fun x => (x.1, translate x.2)) ∧
      p.sender.provided.length ≤ p.receiver.admitted.length + 1 ∧
      p.sender.side.protocol.closed ≠ some .protocol ∧
      p.receiver.link.outcome ≠ some (some .protocol) := by
  have hA := Transport.Outlet.sender_keeps (E := E)
  have hB := Imported.receiver_keeps c decode
  rw [hmatch.format] at hB
  have hstart := Dialogue.understood_start (A := Transport.Outlet.sender E)
    (B := Imported.receiver c decode) (w := wireFormat E.contract)
    (Transport.Outlet.start_inv hcapacity hp hs)
    (Imported.start_proper c decode connection maxPayload) rfl rfl
  obtain ⟨p, hrun, h⟩ := hstart.run hA hB turns
  have hconveyed := conveyed h.sender.carried (h.delivered hA hB) (h.window hA hB)
  refine ⟨p, hrun, hconveyed.values htranslate h.receiver.settles.sound, ?_, h.sender.closed_ne,
    h.receiver.agrees⟩
  have hwindow := hconveyed.window
  rwa [show (Imported.receiver c decode).admitted p.receiver =
    p.receiver.admitted.map Accepted.frame from rfl, List.length_map] at hwindow

/-- A frame arrives in three parts and its credit comes back, and then the link is dropped with
the next frame on its way. -/
theorem run_machine_to_link_dropped :
    let _ := Target.x64
    let c := Duplex.byteCodec.contract
    let storage : PerLane (List UInt8) :=
      ⟨List.replicate 64 0, List.replicate 9 0, List.replicate 9 0⟩
    let turns : List (Dialogue.Turn (Outgoing UInt8) (Arrival Unit)) :=
      [.sender (.provide 5 42), .sender (.accept .data ⟨0, 1⟩), .sender (.transmit 20),
        .receiver (.read ((header c 5 1).take 20) ()), .sender (.transmit 39),
        .sender (.complete ⟨0, 1⟩), .receiver (.read ((header c 5 1).drop 20) ()),
        .receiver (.read [42] ()), .receiver .sent, .sender (.accept .creditReceive ⟨1, 1⟩),
        .receiver (.wrote 9), .sender (.receive (creditOf 5)), .sender (.complete ⟨1, 1⟩),
        .sender (.provide 6 43), .receiver .dropped]
    ∃ x p, Protocol.new c .exporting 64 = .ok x ∧
      steps (Dialogue.step (Transport.Outlet.sender Duplex.byteCodec)
        (Imported.receiver c Pair.decodeByte))
        ⟨Transport.Outlet.start x storage, Imported.start c ⟨2, 1⟩ 4⟩ turns = .ok p ∧
      p.receiver.admitted.map (fun a => (a.sequence, a.value)) <+:
        p.sender.provided.map (fun x => (x.1, id x.2)) ∧
      p.receiver.admitted.map (fun a => (a.sequence, a.value)) = [(5, 42)] ∧
      p.sender.provided = [(5, 42), (6, 43)] := by
  intro _ c storage turns
  obtain ⟨x, hx⟩ : ∃ x, Protocol.new c .exporting 64 = .ok x := ⟨_, rfl⟩
  have hstorage : ∀ lane, (storage.get lane).length = lane.bufferCapacity 64 := by
    intro lane
    cases lane <;> rfl
  obtain ⟨p, hrun, hvalues, -⟩ := run_machine_to_link Duplex.byteCodec (c := c) ⟨rfl, rfl, rfl⟩
    Pair.translates_byte ⟨2, 1⟩ 4 (by decide) (Or.inl hx) hstorage turns
  have hend : (steps (Dialogue.step (Transport.Outlet.sender Duplex.byteCodec)
      (Imported.receiver c Pair.decodeByte))
      ⟨Transport.Outlet.start x storage, Imported.start c ⟨2, 1⟩ 4⟩ turns).map
      (fun p => (p.receiver.admitted.map (fun a => (a.sequence, a.value)), p.sender.provided)) =
        .ok ([(5, 42)], [(5, 42), (6, 43)]) := by
    cases hx
    decide +kernel
  rw [hrun] at hend
  obtain ⟨hadmitted, hprovided⟩ := Prod.mk.inj (Except.ok.inj hend)
  exact ⟨x, p, hx, hrun, hvalues, hadmitted, hprovided⟩

/-- **A machine exports, a machine imports.** The hosts may close either machine and the
kernel may fail any operation. What was handed out carries the items that were provided, in
their order, and at most the last is missing. -/
theorem run_machine_to_machine [Target] (hmatch : Matches E.contract c) {capacity room : Nat}
    (hcapacity : capacity ≤ usizeMax) (hroom : room ≤ usizeMax) {exporter importer : Protocol}
    (hx : Protocol.Provisioned E.contract .exporting capacity exporter)
    (hy : Protocol.Provisioned c .importing room importer)
    {source target : PerLane (List UInt8)}
    (hsource : ∀ lane, (source.get lane).length = lane.bufferCapacity capacity)
    (htarget : ∀ lane, (target.get lane).length = lane.bufferCapacity room)
    (turns : List (Dialogue.Turn (Outgoing α) Incoming)) :
    ∃ p, steps (Dialogue.step (Transport.Outlet.sender E) Inlet.receiver)
        ⟨Transport.Outlet.start exporter source, Inlet.start importer target⟩ turns = .ok p ∧
      Conveyed E p.sender.provided p.receiver.admitted ∧
      p.sender.side.protocol.closed ≠ some .protocol ∧
      p.receiver.side.protocol.closed ≠ some .protocol := by
  have hA := Transport.Outlet.sender_keeps (E := E)
  have hB := Inlet.receiver_keeps c
  rw [hmatch.format] at hB
  have hstart := Dialogue.understood_start (A := Transport.Outlet.sender E) (B := Inlet.receiver)
    (w := wireFormat E.contract) (Transport.Outlet.start_inv hcapacity hx hsource)
    (Inlet.start_inv hroom hy htarget) rfl rfl
  obtain ⟨p, hrun, h⟩ := hstart.run hA hB turns
  exact ⟨p, hrun, conveyed h.sender.carried (h.delivered hA hB) (h.window hA hB),
    h.sender.closed_ne, h.receiver.closed_ne⟩

/-- The connection of the exporter is revoked while its frame arrives, and the kernel fails the
credit of the importer. -/
theorem run_machine_to_machine_failed :
    let _ := Target.x64
    let c := Duplex.byteCodec.contract
    let storage : PerLane (List UInt8) :=
      ⟨List.replicate 64 0, List.replicate 9 0, List.replicate 9 0⟩
    let turns : List (Dialogue.Turn (Outgoing UInt8) Incoming) :=
      [.sender (.provide 5 42), .sender (.accept .data ⟨0, 1⟩), .sender (.transmit 39),
        .receiver (.accept .data ⟨0, 1⟩), .receiver (.receive (header c 5 1)),
        .receiver (.complete ⟨0, 1⟩), .receiver (.accept .data ⟨0, 2⟩), .sender (.stop none),
        .receiver (.receive [42]), .receiver (.complete ⟨0, 2⟩), .receiver .admission,
        .receiver (.accept .creditSend ⟨1, 1⟩), .receiver (.fail ⟨1, 1⟩ (some 32))]
    ∃ x y p, Protocol.new c .exporting 64 = .ok x ∧ Protocol.new c .importing 64 = .ok y ∧
      steps (Dialogue.step (Transport.Outlet.sender Duplex.byteCodec) Inlet.receiver)
        ⟨Transport.Outlet.start x storage, Inlet.start y storage⟩ turns = .ok p ∧
      Conveyed Duplex.byteCodec p.sender.provided p.receiver.admitted ∧
      p.receiver.admitted = [⟨5, 1, [42]⟩] ∧
      p.sender.side.protocol.closed = some .revoked ∧
      p.receiver.side.protocol.closed = some (.io 32) := by
  intro _ c storage turns
  obtain ⟨x, hx⟩ : ∃ x, Protocol.new c .exporting 64 = .ok x := ⟨_, rfl⟩
  obtain ⟨y, hy⟩ : ∃ y, Protocol.new c .importing 64 = .ok y := ⟨_, rfl⟩
  have hstorage : ∀ lane, (storage.get lane).length = lane.bufferCapacity 64 := by
    intro lane
    cases lane <;> rfl
  obtain ⟨p, hrun, hconveyed, -⟩ := run_machine_to_machine Duplex.byteCodec ⟨rfl, rfl, rfl⟩
    (by decide) (by decide) (Or.inl hx) (Or.inl hy) hstorage hstorage turns
  have hend : (steps (Dialogue.step (Transport.Outlet.sender Duplex.byteCodec) Inlet.receiver)
      ⟨Transport.Outlet.start x storage, Inlet.start y storage⟩ turns).map
      (fun p => (p.receiver.admitted, p.sender.side.protocol.closed,
        p.receiver.side.protocol.closed)) =
        .ok ([⟨5, 1, [42]⟩], some .revoked, some (.io 32)) := by
    cases hx
    cases hy
    decide +kernel
  rw [hrun] at hend
  obtain ⟨hadmitted, hrest⟩ := Prod.mk.inj (Except.ok.inj hend)
  obtain ⟨hclosed, hclosed'⟩ := Prod.mk.inj hrest
  exact ⟨x, y, p, hx, hy, hrun, hconveyed, hadmitted, hclosed, hclosed'⟩

end

end Hiway.Unix
