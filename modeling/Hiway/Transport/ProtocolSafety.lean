import Hiway.Transport.Protocol

/-!
# The protocol machine cannot panic

`Framed` ties the stage of an open machine to its offsets, its frame length and
its accepted operations: an accepted operation is still exactly the request that
the machine would make. `Safe` adds what survives closure. Every input keeps
`Safe`, whatever it is, so no subtraction, `expect` or `unreachable!` of the
source can fail, and every request stays inside its lane's buffer.

* `offer_spec`, `effect_spec`: no subtraction underflows in `effect`, and what it asks for
  is in bounds.
* `framed_accept`: accepting exactly what the machine offers keeps it framed.
* `input_safe`: every input is answered, and keeps the machine safe.
* `run_requests_inBuffer`: no sequence of inputs makes the machine panic, and each request
  is nonempty and inside its buffer.
-/

namespace Hiway.Transport

open Exec Target

/-- The size of the buffer that a lane's requests address, of `bytes` for data. -/
def Lane.bufferCapacity (bytes : Nat) : Lane → Nat
  | .data => bytes
  | .creditSend | .creditReceive => creditBytes

/-- How many bytes a request asks for. -/
def Effect.requested : Effect → Nat
  | .receive _ _ length | .transmit _ _ length => length
  | _ => 0

namespace Protocol

/-! ## Account changes records only -/

section Account

variable (p : Protocol) (f : Accountability → Accountability)

@[simp] theorem account_contract : (p.account f).contract = p.contract := rfl

@[simp] theorem account_direction : (p.account f).direction = p.direction := rfl

@[simp] theorem account_capacity : (p.account f).capacity = p.capacity := rfl

@[simp] theorem account_stage : (p.account f).stage = p.stage := rfl

@[simp] theorem account_active : (p.account f).active = p.active := rfl

@[simp] theorem account_offsets : (p.account f).offsets = p.offsets := rfl

@[simp] theorem account_length : (p.account f).length = p.length := rfl

@[simp] theorem account_sequence : (p.account f).sequence = p.sequence := rfl

@[simp] theorem account_previous : (p.account f).previous = p.previous := rfl

@[simp] theorem account_revision : (p.account f).revision = p.revision := rfl

@[simp] theorem account_credited : (p.account f).credited = p.credited := rfl

@[simp] theorem account_closed : (p.account f).closed = p.closed := rfl

@[simp] theorem account_offer (lane : Lane) : (p.account f).offer lane = p.offer lane := rfl

end Account

@[simp] theorem observeSequence_eq (p : Protocol) (s : UInt64) :
    p.observeSequence s = p.account fun a => a.observe s := rfl

/-! ## The invariant -/

/-- The stages a direction can be in. -/
def StageOf : Direction → Stage → Prop
  | .importing, s => s = .header ∨ s = .payload ∨ s = .admission
  | .exporting, s => s = .source ∨ s = .sending ∨ s = .credit

/-- The data lane: the stage fits the direction and the offset has not reached the
end of what the stage is moving. -/
structure DataLane (p : Protocol) : Prop where
  stage : StageOf p.direction p.stage
  length_ge : headerBytes ≤ p.length
  length_le : p.length ≤ p.capacity
  sending : p.stage = .sending → p.offsets.data < p.length
  header : p.stage = .header → p.offsets.data < headerBytes
  payload : p.stage = .payload → p.offsets.data < p.length
  active : ∀ id e, p.active.data = some (id, e) → p.offer .data = .ok (some e)

/-- The credit-send lane: a credit that is owed is not completely sent, and it
names an admitted frame. -/
structure SendLane (p : Protocol) : Prop where
  credited : p.direction = .importing → p.credited = true →
    p.offsets.creditSend < creditBytes ∧ p.previous.isSome = true
  active : ∀ id e, p.active.creditSend = some (id, e) → p.offer .creditSend = .ok (some e)

/-- The credit-receive lane: an exporter collects one credit at a time, an importer
only watches the socket. -/
structure ReceiveLane (p : Protocol) : Prop where
  exporting : p.direction = .exporting → p.offsets.creditReceive < creditBytes
  importing : p.direction = .importing → p.offsets.creditReceive = 0
  active : ∀ id e, p.active.creditReceive = some (id, e) → p.offer .creditReceive = .ok (some e)

/-- The framing state of an open machine. -/
structure Framed (p : Protocol) : Prop where
  data : p.DataLane
  send : p.SendLane
  receive : p.ReceiveLane

/-- What holds of every reachable machine, open or closed. -/
structure Safe [Target] (p : Protocol) : Prop where
  capacity_ge : headerBytes ≤ p.capacity
  capacity_le : p.capacity ≤ usizeMax
  request : ∀ lane id e, p.active.get lane = some (id, e) → e.isRequest = true
  framed : p.closed = none → p.Framed

theorem Framed.active {p : Protocol} (h : p.Framed) {lane : Lane} {id : OpId} {e : Effect}
    (ha : p.active.get lane = some (id, e)) : p.offer lane = .ok (some e) := by
  cases lane with
  | data => exact h.data.active id e ha
  | creditSend => exact h.send.active id e ha
  | creditReceive => exact h.receive.active id e ha

theorem framed_account {p : Protocol} (f : Accountability → Accountability) (h : p.Framed) :
    (p.account f).Framed where
  data := ⟨h.data.stage, h.data.length_ge, h.data.length_le, h.data.sending, h.data.header,
    h.data.payload, h.data.active⟩
  send := ⟨h.send.credited, h.send.active⟩
  receive := ⟨h.receive.exporting, h.receive.importing, h.receive.active⟩

/-- The credit-send lane reads nothing of a frame but its admission. -/
theorem SendLane.congr {p q : Protocol} (h : p.SendLane) (hd : q.direction = p.direction)
    (hc : q.credited = p.credited) (ho : q.offsets.creditSend = p.offsets.creditSend)
    (hp : q.previous = p.previous) (ha : q.active.creditSend = p.active.creditSend) :
    q.SendLane where
  credited := by
    rw [hd, hc, ho, hp]
    exact h.credited
  active := by
    intro id e he
    rw [ha] at he
    rw [← h.active id e he]
    simp [offer, hd, hc, ho]

theorem ReceiveLane.congr {p q : Protocol} (h : p.ReceiveLane) (hd : q.direction = p.direction)
    (ho : q.offsets.creditReceive = p.offsets.creditReceive)
    (ha : q.active.creditReceive = p.active.creditReceive) : q.ReceiveLane where
  exporting := by
    rw [hd, ho]
    exact h.exporting
  importing := by
    rw [hd, ho]
    exact h.importing
  active := by
    intro id e he
    rw [ha] at he
    rw [← h.active id e he]
    simp [offer, hd, ho]

/-- The data lane sees credit only through the admission it holds back. -/
theorem DataLane.congr {p q : Protocol} (h : p.DataLane) (hd : q.direction = p.direction)
    (hcap : q.capacity = p.capacity) (hs : q.stage = p.stage) (hl : q.length = p.length)
    (ho : q.offsets.data = p.offsets.data) (ha : q.active.data = p.active.data)
    (hc : p.stage = .admission → p.active.data = none) : q.DataLane where
  stage := by
    rw [hd, hs]
    exact h.stage
  length_ge := hl ▸ h.length_ge
  length_le := by
    rw [hl, hcap]
    exact h.length_le
  sending := by
    rw [hs, ho, hl]
    exact h.sending
  header := by
    rw [hs, ho]
    exact h.header
  payload := by
    rw [hs, ho, hl]
    exact h.payload
  active := by
    intro id e he
    rw [ha] at he
    rw [← h.active id e he]
    cases hst : p.stage with
    | admission =>
      rw [hc hst] at he
      cases he
    | source | sending | credit | header | payload => simp [offer, hs, hst, hl, ho, hcap]

/-! ## Requests of a framed machine -/

/-- A request of at least one byte inside the lane's buffer. -/
def InBuffer (p : Protocol) (lane : Lane) (offset length : Nat) : Prop :=
  1 ≤ length ∧ offset + length ≤ lane.bufferCapacity p.capacity

/-- What a machine may ask of a lane. -/
def Bounded (p : Protocol) (lane : Lane) : Effect → Prop
  | .receive l offset length => l = lane ∧ offset = p.offsets.get lane ∧ p.InBuffer lane offset length
  | .transmit l offset length => l = lane ∧ offset = p.offsets.get lane ∧ p.InBuffer lane offset length
  | .provide => lane = .data
  | .admission length _ => lane = .data ∧ headerBytes + length ≤ p.capacity
  | .cancel _ _ => False

/-- No subtraction in `effect` underflows, and what it asks for is in bounds. -/
theorem offer_spec {p : Protocol} (hc : headerBytes ≤ p.capacity) (h : p.Framed) (lane : Lane) :
    ∃ e, p.offer lane = .ok e ∧ ∀ e' ∈ e, p.Bounded lane e' := by
  have hge := h.data.length_ge
  have hle := h.data.length_le
  cases lane with
  | data =>
    cases hs : p.stage with
    | source => exact ⟨some .provide, by simp [offer, hs], by simp [Bounded]⟩
    | sending =>
      have hlt := h.data.sending hs
      refine ⟨some (.transmit .data p.offsets.data (p.length - p.offsets.data)), ?_, ?_⟩
      · simp [offer, hs, sub_of_le hlt.le]
      · simp [Bounded, InBuffer, Lane.bufferCapacity]
        omega
    | header =>
      have hlt := h.data.header hs
      have hoff : p.offsets.data ≤ p.capacity := by omega
      refine ⟨some (.receive .data p.offsets.data (p.capacity - p.offsets.data)), ?_, ?_⟩
      · simp [offer, hs, sub_of_le hoff]
      · simp [Bounded, InBuffer, Lane.bufferCapacity]
        omega
    | payload =>
      have hlt := h.data.payload hs
      refine ⟨some (.receive .data p.offsets.data (p.length - p.offsets.data)), ?_, ?_⟩
      · simp [offer, hs, sub_of_le hlt.le]
      · simp [Bounded, InBuffer, Lane.bufferCapacity]
        omega
    | admission =>
      cases hcr : p.credited with
      | true => exact ⟨none, by simp [offer, hs, hcr], by simp⟩
      | false =>
        refine ⟨some (.admission (p.length - headerBytes) p.revision), ?_, ?_⟩
        · simp [offer, hs, hcr, sub_of_le hge]
        · simp [Bounded]
          omega
    | credit => exact ⟨none, by simp [offer, hs], by simp⟩
  | creditSend =>
    by_cases hcs : p.direction = .importing ∧ p.credited = true
    · have hlt := (h.send.credited hcs.1 hcs.2).1
      refine ⟨some (.transmit .creditSend p.offsets.creditSend
        (creditBytes - p.offsets.creditSend)), ?_, ?_⟩
      · simp [offer, hcs, sub_of_le hlt.le]
      · simp [Bounded, InBuffer, Lane.bufferCapacity]
        omega
    · exact ⟨none, by simp only [offer, if_neg hcs], by simp⟩
  | creditReceive =>
    cases hd : p.direction with
    | importing =>
      have hz := h.receive.importing hd
      refine ⟨some (.receive .creditReceive p.offsets.creditReceive 1), ?_, ?_⟩
      · simp [offer, hd]
      · simp [Bounded, InBuffer, Lane.bufferCapacity, hz, creditBytes]
    | exporting =>
      have hlt := h.receive.exporting hd
      refine ⟨some (.receive .creditReceive p.offsets.creditReceive
        (creditBytes - p.offsets.creditReceive)), ?_, ?_⟩
      · simp [offer, hd, sub_of_le hlt.le]
      · simp [Bounded, InBuffer, Lane.bufferCapacity]
        omega

theorem offer_bounded {p : Protocol} (hc : headerBytes ≤ p.capacity) (h : p.Framed) {lane : Lane}
    {e : Effect} (he : p.offer lane = .ok (some e)) : p.Bounded lane e := by
  obtain ⟨e', he', hb⟩ := offer_spec hc h lane
  rw [he] at he'
  cases he'
  exact hb e rfl

/-! ## One completion -/

/-- What a step may not touch: the provisioning and the closing error. -/
structure Keeps (p q : Protocol) : Prop where
  contract : q.contract = p.contract
  direction : q.direction = p.direction
  capacity : q.capacity = p.capacity
  closed : q.closed = p.closed
  active : q.active = p.active

theorem Keeps.refl (p : Protocol) : p.Keeps p := ⟨rfl, rfl, rfl, rfl, rfl⟩

theorem parseHeader_keeps [Target] (p : Protocol) (offset : Nat) (buffer : List UInt8) :
    p.Keeps (p.parseHeader offset buffer).1 := by
  unfold parseHeader
  split
  · exact Keeps.refl p
  · dsimp only
    split
    · exact ⟨rfl, rfl, rfl, rfl, rfl⟩
    · split
      · exact ⟨rfl, rfl, rfl, rfl, rfl⟩
      · split
        · exact ⟨rfl, rfl, rfl, rfl, rfl⟩
        · split
          · exact ⟨rfl, rfl, rfl, rfl, rfl⟩
          · split <;> exact ⟨rfl, rfl, rfl, rfl, rfl⟩

/-- An accepted header fixes the frame length within the buffer. Either the frame
is complete, or some of its payload is still missing. -/
theorem parseHeader_ok [Target] {p q : Protocol} {offset : Nat} {buffer : List UInt8}
    (h : p.parseHeader offset buffer = (q, .ok ())) :
    q.offsets = p.offsets ∧ q.credited = p.credited ∧ q.previous = p.previous ∧
      headerBytes ≤ q.length ∧ q.length ≤ q.capacity ∧ offset ≤ q.length ∧
      q.stage = if offset = q.length then .admission else .payload := by
  unfold parseHeader at h
  split at h
  · cases h
  · dsimp only at h
    split at h
    · cases h
    · split at h
      · cases h
      · rename_i length hlen
        obtain ⟨-, hval⟩ := checkedAdd_eq_some.mp hlen
        split at h
        · cases h
        · rename_i hcap
          split at h
          · cases h
          · rename_i hoff
            split at h
            · cases h
            · cases h
              simp only [observeSequence_eq, account_capacity] at hcap hoff
              refine ⟨rfl, rfl, rfl, ?_, ?_, ?_, rfl⟩
              · simp only
                omega
              · simpa using hcap
              · simpa using hoff

theorem parseCredit_keeps (p : Protocol) (buffer : List UInt8) :
    p.Keeps (p.parseCredit buffer).1 := by
  unfold parseCredit
  split
  · exact Keeps.refl p
  · dsimp only
    split
    · exact Keeps.refl p
    · split <;> exact ⟨rfl, rfl, rfl, rfl, rfl⟩

/-- An accepted credit rearms its lane and frees a frame that was waiting for it. -/
theorem parseCredit_ok {p q : Protocol} {buffer : List UInt8}
    (h : p.parseCredit buffer = (q, .ok ())) :
    p.credited = false ∧ (p.stage = .sending ∨ p.stage = .credit) ∧
      q.credited = true ∧ q.offsets = p.offsets.set .creditReceive 0 ∧
      q.length = p.length ∧ q.previous = p.previous ∧
      q.stage = if p.stage = .credit then .source else p.stage := by
  unfold parseCredit at h
  split at h
  · cases h
  · dsimp only at h
    split at h
    · cases h
    · rename_i hok
      push Not at hok
      obtain ⟨-, -, hcr, hst⟩ := hok
      split at h <;> rename_i hs
      · cases h
        exact ⟨by simpa using hcr, hst, rfl, rfl, rfl, rfl, by simp [hs]⟩
      · cases h
        exact ⟨by simpa using hcr, hst, rfl, rfl, rfl, rfl, by simp [hs]⟩

/-- The state between taking a completed operation out of its lane and acting on it:
`count` more bytes of the request at `lane` have moved. -/
def advance (p : Protocol) (lane : Lane) (count : Nat) : Protocol :=
  (p.release lane).move lane (p.offsets.get lane + count)

theorem active_of_advance {p : Protocol} {lane other : Lane} {count : Nat} {id : OpId} {e : Effect}
    (h : (p.advance lane count).active.get other = some (id, e)) :
    other ≠ lane ∧ p.active.get other = some (id, e) := by
  by_cases ho : other = lane
  · subst ho
    simp [advance, release, move] at h
  · refine ⟨ho, ?_⟩
    simpa only [advance, release, move, PerLane.get_set_of_ne _ _ ho] using h

/-- A request of the data lane exists only while a frame is moving. -/
theorem offer_data_request {p : Protocol} {e : Effect} (h : p.offer .data = .ok (some e))
    (hr : e.isRequest = true) :
    (p.stage = .sending ∧ p.offsets.data ≤ p.length ∧
      e = .transmit .data p.offsets.data (p.length - p.offsets.data)) ∨
    (p.stage = .header ∧ p.offsets.data ≤ p.capacity ∧
      e = .receive .data p.offsets.data (p.capacity - p.offsets.data)) ∨
    (p.stage = .payload ∧ p.offsets.data ≤ p.length ∧
      e = .receive .data p.offsets.data (p.length - p.offsets.data)) := by
  cases hs : p.stage <;> simp only [offer, hs, bind_eq_ok, sub_eq_ok, PerLane.get_data] at h
  case source =>
    cases h
    cases hr
  case sending =>
    obtain ⟨_, ⟨hle, rfl⟩, h⟩ := h
    cases h
    exact Or.inl ⟨rfl, hle, rfl⟩
  case credit => cases h
  case header =>
    obtain ⟨_, ⟨hle, rfl⟩, h⟩ := h
    cases h
    exact Or.inr (Or.inl ⟨rfl, hle, rfl⟩)
  case payload =>
    obtain ⟨_, ⟨hle, rfl⟩, h⟩ := h
    cases h
    exact Or.inr (Or.inr ⟨rfl, hle, rfl⟩)
  case admission =>
    split at h
    · cases h
    · obtain ⟨_, -, h⟩ := bind_eq_ok.mp h
      cases h
      cases hr

theorem offer_creditSend_request {p : Protocol} {e : Effect}
    (h : p.offer .creditSend = .ok (some e)) :
    p.direction = .importing ∧ p.credited = true ∧ p.offsets.creditSend ≤ creditBytes ∧
      e = .transmit .creditSend p.offsets.creditSend (creditBytes - p.offsets.creditSend) := by
  simp only [offer, PerLane.get_creditSend] at h
  split at h
  · rename_i hd
    obtain ⟨length, hsub, h⟩ := bind_eq_ok.mp h
    obtain ⟨hle, rfl⟩ := sub_eq_ok.mp hsub
    cases h
    exact ⟨hd.1, hd.2, hle, rfl⟩
  · cases h

theorem offer_creditReceive_request {p : Protocol} {e : Effect}
    (h : p.offer .creditReceive = .ok (some e)) :
    (p.direction = .exporting ∧ p.offsets.creditReceive ≤ creditBytes ∧
      e = .receive .creditReceive p.offsets.creditReceive
        (creditBytes - p.offsets.creditReceive)) ∨
    (p.direction = .importing ∧ e = .receive .creditReceive p.offsets.creditReceive 1) := by
  simp only [offer, PerLane.get_creditReceive] at h
  split at h
  · rename_i hd
    obtain ⟨length, hsub, h⟩ := bind_eq_ok.mp h
    obtain ⟨hle, rfl⟩ := sub_eq_ok.mp hsub
    cases h
    exact Or.inl ⟨hd, hle, rfl⟩
  · rename_i hd
    cases h
    cases hp : p.direction with
    | importing => exact Or.inr ⟨rfl, rfl⟩
    | exporting => exact absurd hp hd

/-! ## Data completions -/

theorem DataLane.rest {q : Protocol} (hst : StageOf q.direction q.stage)
    (hr : q.stage = .source ∨ q.stage = .credit ∨ q.stage = .admission)
    (hge : headerBytes ≤ q.length) (hle : q.length ≤ q.capacity) (ha : q.active.data = none) :
    q.DataLane where
  stage := hst
  length_ge := hge
  length_le := hle
  sending := by
    intro hs
    simp [hs] at hr
  header := by
    intro hs
    simp [hs] at hr
  payload := by
    intro hs
    simp [hs] at hr
  active := by
    intro id e he
    rw [ha] at he
    cases he

theorem DataLane.moving {q : Protocol} (hst : StageOf q.direction q.stage)
    (hge : headerBytes ≤ q.length) (hle : q.length ≤ q.capacity) (ha : q.active.data = none)
    (hlt : q.offsets.data < q.length) (hh : q.stage = .header → q.offsets.data < headerBytes) :
    q.DataLane where
  stage := hst
  length_ge := hge
  length_le := hle
  sending := fun _ => hlt
  header := hh
  payload := fun _ => hlt
  active := by
    intro id e he
    rw [ha] at he
    cases he

theorem progress_data [Target] {p : Protocol} (h : p.Framed) {id : OpId} {e : Effect}
    {count : Nat} (ha : p.active.data = some (id, e)) (he : e.isRequest = true)
    (hn : count ≤ e.requested) (buffer : List UInt8) :
    ∃ q r, (p.advance .data count).progress .data buffer = .ok (q, r) ∧
      (p.advance .data count).Keeps q ∧ (r = .ok () → q.Framed) := by
  have hge := h.data.length_ge
  have hle := h.data.length_le
  have hsend : (p.advance .data count).SendLane := h.send.congr rfl rfl rfl rfl rfl
  have hrecv : (p.advance .data count).ReceiveLane := h.receive.congr rfl rfl rfl
  rcases offer_data_request (h.data.active id e ha) he with
    ⟨hs, hoff, rfl⟩ | ⟨hs, hoff, rfl⟩ | ⟨hs, hoff, rfl⟩ <;> simp only [Effect.requested] at hn
  · -- a frame being sent
    have hd : p.direction = .exporting := by
      cases hp : p.direction with
      | exporting => rfl
      | importing => simpa [StageOf, hp, hs] using h.data.stage
    by_cases hfull : p.offsets.data + count = p.length
    · cases hcr : p.credited with
      | true =>
        refine ⟨Protocol.account { p.advance .data count with stage := .source }
          fun a => a.completed p.sequence, .ok (), ?_, ⟨rfl, rfl, rfl, rfl, rfl⟩, ?_⟩
        · simp [progress, advance, release, move, hs, hfull, hcr, PerLane.set]
        · intro _
          exact framed_account _ ⟨DataLane.rest (by simp [advance, release, move, hd, StageOf])
            (Or.inl rfl) hge hle rfl, hsend.congr rfl rfl rfl rfl rfl, hrecv.congr rfl rfl rfl⟩
      | false =>
        refine ⟨{ p.advance .data count with stage := .credit }, .ok (), ?_,
          ⟨rfl, rfl, rfl, rfl, rfl⟩, ?_⟩
        · simp [progress, advance, release, move, hs, hfull, hcr, PerLane.set]
        · intro _
          exact ⟨DataLane.rest (by simp [advance, release, move, hd, StageOf]) (Or.inr (Or.inl rfl))
            hge hle rfl, hsend.congr rfl rfl rfl rfl rfl, hrecv.congr rfl rfl rfl⟩
    · refine ⟨p.advance .data count, .ok (), ?_, Keeps.refl _, ?_⟩
      · simp [progress, advance, release, move, hs, hfull, PerLane.set]
      · intro _
        refine ⟨DataLane.moving h.data.stage hge hle rfl ?_ ?_, hsend, hrecv⟩
        · change p.offsets.data + count < p.length
          omega
        · intro hh
          exact absurd (hs.symm.trans hh) (by simp)
  · -- a header being received
    by_cases hfull : headerBytes ≤ p.offsets.data + count
    · refine ⟨((p.advance .data count).parseHeader (p.offsets.data + count) buffer).1,
        ((p.advance .data count).parseHeader (p.offsets.data + count) buffer).2, ?_,
        parseHeader_keeps _ _ _, ?_⟩
      · simp [progress, advance, release, move, hs, hfull, PerLane.set]
      · intro hr
        have hk := parseHeader_keeps (p.advance .data count) (p.offsets.data + count) buffer
        generalize hq : (p.advance .data count).parseHeader (p.offsets.data + count) buffer = out
        rw [hq] at hr hk
        obtain ⟨q, r⟩ := out
        dsimp only at hr hk ⊢
        subst hr
        obtain ⟨ho, hc, hp, hlen, hcap, hoffle, hst⟩ := parseHeader_ok hq
        have hd : q.direction = .importing := by
          rw [hk.direction]
          change p.direction = .importing
          cases hp : p.direction with
          | importing => rfl
          | exporting => simpa [StageOf, hp, hs] using h.data.stage
        have hactive : q.active.data = none := by
          rw [hk.active]
          rfl
        have hoffset : q.offsets.data = p.offsets.data + count := by
          rw [ho]
          rfl
        refine ⟨?_, hsend.congr hk.direction hc (by rw [ho]) hp (by rw [hk.active]),
          hrecv.congr hk.direction (by rw [ho]) (by rw [hk.active])⟩
        by_cases hdone : p.offsets.data + count = q.length
        · rw [if_pos hdone] at hst
          exact DataLane.rest (by simp [hd, hst, StageOf]) (Or.inr (Or.inr hst)) hlen hcap hactive
        · rw [if_neg hdone] at hst
          exact DataLane.moving (by simp [hd, hst, StageOf]) hlen hcap hactive (by omega)
            (by simp [hst])
    · refine ⟨p.advance .data count, .ok (), ?_, Keeps.refl _, ?_⟩
      · simp [progress, advance, release, move, hs, hfull, PerLane.set]
      · intro _
        refine ⟨DataLane.moving h.data.stage hge hle rfl ?_ ?_, hsend, hrecv⟩
        · change p.offsets.data + count < p.length
          omega
        · intro _
          change p.offsets.data + count < headerBytes
          omega
  · -- a payload being received
    by_cases hfull : p.offsets.data + count = p.length
    · refine ⟨{ p.advance .data count with stage := .admission }, .ok (), ?_,
        ⟨rfl, rfl, rfl, rfl, rfl⟩, ?_⟩
      · simp [progress, advance, release, move, hs, hfull, PerLane.set]
      · intro _
        have hd : p.direction = .importing := by
          cases hp : p.direction with
          | importing => rfl
          | exporting => simpa [StageOf, hp, hs] using h.data.stage
        exact ⟨DataLane.rest (by simp [advance, release, move, hd, StageOf]) (Or.inr (Or.inr rfl))
          hge hle rfl, hsend.congr rfl rfl rfl rfl rfl, hrecv.congr rfl rfl rfl⟩
    · refine ⟨p.advance .data count, .ok (), ?_, Keeps.refl _, ?_⟩
      · simp [progress, advance, release, move, hs, hfull, PerLane.set]
      · intro _
        refine ⟨DataLane.moving h.data.stage hge hle rfl ?_ ?_, hsend, hrecv⟩
        · change p.offsets.data + count < p.length
          omega
        · intro hh
          exact absurd (hs.symm.trans hh) (by simp)

/-! ## Credit completions -/

/-- Data is not being received while the machine waits for an admission. -/
theorem Framed.idle_of_admission {p : Protocol} (h : p.Framed)
    (hr : ∀ lane id e, p.active.get lane = some (id, e) → e.isRequest = true)
    (hs : p.stage = .admission) : p.active.data = none := by
  cases ha : p.active.data with
  | none => rfl
  | some a =>
    obtain ⟨id, e⟩ := a
    have he := hr .data id e ha
    rcases offer_data_request (h.data.active id e ha) he with ⟨h', -⟩ | ⟨h', -⟩ | ⟨h', -⟩ <;>
      simp [hs] at h'

theorem progress_creditSend [Target] {p : Protocol} (h : p.Framed)
    (hr : ∀ lane id e, p.active.get lane = some (id, e) → e.isRequest = true) {id : OpId}
    {e : Effect} {count : Nat} (ha : p.active.creditSend = some (id, e))
    (hn : count ≤ e.requested) (buffer : List UInt8) :
    ∃ q r, (p.advance .creditSend count).progress .creditSend buffer = .ok (q, r) ∧
      (p.advance .creditSend count).Keeps q ∧ (r = .ok () → q.Framed) := by
  have hdata : (p.advance .creditSend count).DataLane :=
    h.data.congr rfl rfl rfl rfl rfl rfl (h.idle_of_admission hr)
  have hrecv : (p.advance .creditSend count).ReceiveLane := h.receive.congr rfl rfl rfl
  obtain ⟨hd, hcr, hoff, rfl⟩ := offer_creditSend_request (h.send.active id e ha)
  obtain ⟨-, hprev⟩ := h.send.credited hd hcr
  obtain ⟨last, hlast⟩ := Option.isSome_iff_exists.mp hprev
  simp only [Effect.requested] at hn
  have hnone : (p.advance .creditSend count).active.creditSend = none := rfl
  by_cases hfull : p.offsets.creditSend + count = creditBytes
  · have hq : Protocol.Framed { p.advance .creditSend count with credited := false } :=
      ⟨hdata.congr rfl rfl rfl rfl rfl rfl (h.idle_of_admission hr),
        ⟨fun _ hc => absurd hc Bool.false_ne_true, fun _ _ he => by rw [hnone] at he; cases he⟩,
        hrecv.congr rfl rfl rfl⟩
    cases hacc : p.accountability with
    | none =>
      refine ⟨{ p.advance .creditSend count with credited := false }, .ok (), ?_,
        ⟨rfl, rfl, rfl, rfl, rfl⟩, fun _ => hq⟩
      simp [progress, advance, release, move, hfull, PerLane.set, hacc]
    | some a =>
      refine ⟨Protocol.account { p.advance .creditSend count with credited := false }
        fun a => a.completed last, .ok (), ?_, ⟨rfl, rfl, rfl, rfl, rfl⟩,
        fun _ => framed_account _ hq⟩
      simp [progress, advance, release, move, hfull, PerLane.set, hacc, hlast]
  · refine ⟨p.advance .creditSend count, .ok (), ?_, Keeps.refl _, fun _ => ⟨hdata, ?_, hrecv⟩⟩
    · simp [progress, advance, release, move, hfull, PerLane.set]
    · refine ⟨fun _ _ => ⟨?_, hprev⟩, ?_⟩
      · change p.offsets.creditSend + count < creditBytes
        omega
      · intro id e he
        rw [hnone] at he
        cases he

theorem progress_creditReceive [Target] {p : Protocol} (h : p.Framed)
    (hr : ∀ lane id e, p.active.get lane = some (id, e) → e.isRequest = true) {id : OpId}
    {e : Effect} {count : Nat} (ha : p.active.creditReceive = some (id, e))
    (hn : count ≤ e.requested) (buffer : List UInt8) :
    ∃ q r, (p.advance .creditReceive count).progress .creditReceive buffer = .ok (q, r) ∧
      (p.advance .creditReceive count).Keeps q ∧ (r = .ok () → q.Framed) := by
  have hdata : (p.advance .creditReceive count).DataLane :=
    h.data.congr rfl rfl rfl rfl rfl rfl (h.idle_of_admission hr)
  have hsend : (p.advance .creditReceive count).SendLane := h.send.congr rfl rfl rfl rfl rfl
  have hnone : (p.advance .creditReceive count).active.creditReceive = none := rfl
  rcases offer_creditReceive_request (h.receive.active id e ha) with ⟨hd, hoff, rfl⟩ | ⟨hd, rfl⟩
  · simp only [Effect.requested] at hn
    by_cases hfull : p.offsets.creditReceive + count = creditBytes
    · refine ⟨((p.advance .creditReceive count).parseCredit buffer).1,
        ((p.advance .creditReceive count).parseCredit buffer).2, ?_,
        parseCredit_keeps _ _, ?_⟩
      · simp [progress, advance, release, move, hd, hfull, PerLane.set]
      · intro hok
        have hk := parseCredit_keeps (p.advance .creditReceive count) buffer
        generalize hq : (p.advance .creditReceive count).parseCredit buffer = out
        rw [hq] at hok hk
        obtain ⟨q, r⟩ := out
        dsimp only at hok hk ⊢
        subst hok
        obtain ⟨-, -, hc, ho, hlen, hp, hst⟩ := parseCredit_ok hq
        have hqd : q.direction = .exporting := by
          rw [hk.direction]
          exact hd
        have hqdata : q.offsets.data = p.offsets.data := by
          rw [ho]
          rfl
        refine ⟨?_, ⟨?_, ?_⟩, ⟨?_, ?_, ?_⟩⟩
        · by_cases hs : p.stage = .credit
          · rw [if_pos (show (p.advance .creditReceive count).stage = .credit from hs)] at hst
            refine DataLane.rest (by simp [hqd, hst, StageOf]) (Or.inl hst)
              (hlen ▸ hdata.length_ge) ?_ ?_
            · rw [hlen, hk.capacity]
              exact hdata.length_le
            · rw [hk.active]
              change p.active.data = none
              cases hda : p.active.data with
              | none => rfl
              | some a =>
                obtain ⟨id', e'⟩ := a
                have := h.data.active id' e' hda
                simp [offer, hs] at this
          · rw [if_neg (show (p.advance .creditReceive count).stage ≠ .credit from hs)] at hst
            exact hdata.congr hk.direction hk.capacity hst hlen hqdata (by rw [hk.active])
              (h.idle_of_admission hr)
        · intro hi
          simp [hqd] at hi
        · intro id' e' he'
          rw [hk.active] at he'
          have := hsend.active id' e' he'
          simp [offer, advance, release, move, hd] at this
        · intro _
          rw [ho]
          simp [PerLane.set, creditBytes]
        · intro hi
          simp [hqd] at hi
        · intro id' e' he'
          rw [hk.active, hnone] at he'
          cases he'
    · refine ⟨p.advance .creditReceive count, .ok (), ?_, Keeps.refl _,
        fun _ => ⟨hdata, hsend, ⟨?_, ?_, ?_⟩⟩⟩
      · simp [progress, advance, release, move, hd, hfull, PerLane.set]
      · intro _
        change p.offsets.creditReceive + count < creditBytes
        omega
      · intro hi
        rw [show (p.advance .creditReceive count).direction = p.direction from rfl, hd] at hi
        cases hi
      · intro id e he
        rw [hnone] at he
        cases he
  · refine ⟨p.advance .creditReceive count, .error .protocol, ?_, Keeps.refl _,
      fun hok => by cases hok⟩
    simp [progress, advance, release, move, hd]

/-! ## Inputs -/

/-- The bounds on a request leave room in the machine word. -/
theorem requested_le {p : Protocol} (hc : headerBytes ≤ p.capacity) (h : p.Framed) {lane : Lane}
    {id : OpId} {e : Effect} (ha : p.active.get lane = some (id, e)) (hr : e.isRequest = true) :
    p.offsets.get lane + e.requested ≤ p.capacity := by
  have hb := offer_bounded hc h (h.active ha)
  have hcb : creditBytes ≤ headerBytes := by decide
  have hsize : lane.bufferCapacity p.capacity ≤ p.capacity := by
    cases lane <;> simp only [Lane.bufferCapacity] <;> omega
  cases e with
  | receive l offset length =>
    obtain ⟨-, rfl, -, hle⟩ := hb
    exact hle.trans hsize
  | transmit l offset length =>
    obtain ⟨-, rfl, -, hle⟩ := hb
    exact hle.trans hsize
  | provide | admission | cancel => cases hr

theorem active_release (p : Protocol) (lane other : Lane) {id : OpId} {e : Effect}
    (h : (p.release lane).active.get other = some (id, e)) :
    p.active.get other = some (id, e) := by
  by_cases ho : other = lane
  · subst ho
    simp [release] at h
  · rwa [release, PerLane.get_set_of_ne _ _ ho] at h

theorem framed_release {p : Protocol} (h : p.Framed) (lane : Lane) : (p.release lane).Framed where
  data := ⟨h.data.stage, h.data.length_ge, h.data.length_le, h.data.sending, h.data.header,
    h.data.payload, fun id e he => h.data.active id e (active_release p lane .data he)⟩
  send := ⟨h.send.credited,
    fun id e he => h.send.active id e (active_release p lane .creditSend he)⟩
  receive := ⟨h.receive.exporting, h.receive.importing,
    fun id e he => h.receive.active id e (active_release p lane .creditReceive he)⟩

theorem progress_safe [Target] {p : Protocol} (h : p.Framed)
    (hr : ∀ lane id e, p.active.get lane = some (id, e) → e.isRequest = true) {lane : Lane}
    {id : OpId} {e : Effect} {count : Nat} (ha : p.active.get lane = some (id, e))
    (hn : count ≤ e.requested) (buffer : List UInt8) :
    ∃ q r, (p.advance lane count).progress lane buffer = .ok (q, r) ∧
      (p.advance lane count).Keeps q ∧ (r = .ok () → q.Framed) := by
  cases lane with
  | data => exact progress_data h ha (hr .data id e ha) hn buffer
  | creditSend => exact progress_creditSend h hr ha hn buffer
  | creditReceive => exact progress_creditReceive h hr ha hn buffer

/-- What an input leaves of a safe machine: its provisioning, requests only in its
lanes, and a framed state unless it failed. -/
structure StepSafe (p q : Protocol) (r : Except Error Unit) : Prop where
  contract : q.contract = p.contract
  direction : q.direction = p.direction
  capacity : q.capacity = p.capacity
  request : ∀ lane id e, q.active.get lane = some (id, e) → e.isRequest = true
  framed : q.closed = none → r = .ok () → q.Framed

theorem complete_safe [Target] {p : Protocol} (h : p.Safe) {lane : Lane} {id : OpId} {e : Effect}
    (ha : p.active.get lane = some (id, e)) (result : IoResult) (buffer : List UInt8) :
    ∃ q r, (p.release lane).complete lane e result buffer = .ok (q, r) ∧ StepSafe p q r := by
  have hreq : ∀ other id e, (p.release lane).active.get other = some (id, e) →
      e.isRequest = true := fun other id e he => h.request other id e (active_release p lane other he)
  have hkeep : ∀ r, StepSafe p (p.release lane) r := fun r =>
    ⟨rfl, rfl, rfl, hreq, fun hc _ => framed_release (h.framed hc) lane⟩
  cases hclosed : p.closed with
  | some error =>
    exact ⟨p.release lane, .ok (), by simp [complete, release, hclosed], hkeep _⟩
  | none =>
    have hf := h.framed hclosed
    have hopen : (p.release lane).closed = none := hclosed
    cases result with
    | retry => exact ⟨p.release lane, .ok (), by simp [complete, hopen], hkeep _⟩
    | failed code => exact ⟨p.release lane, .error (.io code), by simp [complete, hopen], hkeep _⟩
    | bytes count =>
      cases count with
      | zero => exact ⟨p.release lane, .error .closed, by simp [complete, hopen], hkeep _⟩
      | succ n =>
        by_cases hn : n + 1 ≤ e.requested
        · have hadd : p.offsets.get lane + (n + 1) ≤ usizeMax := by
            have := requested_le h.capacity_ge hf ha (h.request lane id e ha)
            have := h.capacity_le
            omega
          obtain ⟨q, r, hq, hk, hqf⟩ := progress_safe hf h.request ha hn buffer
          refine ⟨q, r, ?_, ⟨hk.contract, hk.direction, hk.capacity, ?_, fun _ => hqf⟩⟩
          · rw [← hq]
            have her := h.request lane id e ha
            have hnot : ¬ n + 1 > e.requested := by omega
            cases e with
            | receive l o length | transmit l o length =>
              simp only [Effect.requested] at hnot
              simp only [complete, hopen, Option.isSome_none, Bool.false_eq_true, if_false,
                if_neg hnot]
              have hoff : (p.release lane).offsets = p.offsets := rfl
              rw [hoff, add_of_le hadd, ok_bind]
              rfl
            | provide | admission | cancel => cases her
          · intro other id' e' he'
            rw [hk.active] at he'
            exact h.request other id' e' (active_of_advance he').2
        · refine ⟨p.release lane, .error .protocol, ?_, hkeep _⟩
          have her := h.request lane id e ha
          have hlt : n + 1 > e.requested := by omega
          cases e with
          | receive l o length | transmit l o length =>
            simp only [Effect.requested] at hlt
            simp only [complete, hopen, Option.isSome_none, Bool.false_eq_true, if_false,
              if_pos hlt]
          | provide | admission | cancel => cases her

theorem laneOf_some {p : Protocol} {op : OpId} {lane : Lane} (h : p.laneOf op = some lane) :
    ∃ e, p.active.get lane = some (op, e) := by
  have hp := List.find?_some h
  cases ha : p.active.get lane with
  | none => simp [ha] at hp
  | some a =>
    obtain ⟨id, e⟩ := a
    simp only [ha, Option.any_some, decide_eq_true_eq] at hp
    exact ⟨e, by rw [hp]⟩

theorem active_set {p : Protocol} {lane other : Lane} {op id : OpId} {e e' : Effect}
    (h : (p.active.set lane (some (op, e))).get other = some (id, e')) :
    (other = lane ∧ id = op ∧ e' = e) ∨ (other ≠ lane ∧ p.active.get other = some (id, e')) := by
  by_cases ho : other = lane
  · subst ho
    rw [PerLane.get_set_self] at h
    cases h
    exact Or.inl ⟨rfl, rfl, rfl⟩
  · rw [PerLane.get_set_of_ne _ _ ho] at h
    exact Or.inr ⟨ho, h⟩

/-- Accepting exactly what the machine offers keeps it framed. -/
theorem framed_accept {p : Protocol} (h : p.Framed) {lane : Lane} {op : OpId} {e : Effect}
    (he : p.offer lane = .ok (some e)) :
    (p.accept lane op e).Framed := by
  have key : ∀ other id e', (p.active.set lane (some (op, e))).get other = some (id, e') →
      p.offer other = .ok (some e') := by
    intro other id e' ha
    rcases active_set ha with ⟨rfl, -, rfl⟩ | ⟨-, ha⟩
    · exact he
    · exact h.active ha
  exact ⟨⟨h.data.stage, h.data.length_ge, h.data.length_le, h.data.sending, h.data.header,
    h.data.payload, fun id e => key .data id e⟩, ⟨h.send.credited, fun id e => key .creditSend id e⟩,
    ⟨h.receive.exporting, h.receive.importing, fun id e => key .creditReceive id e⟩⟩

/-- `effect` returns: a cancellation of a closed machine's operation, or the offer of
an open machine's free lane. -/
theorem effect_spec [Target] {p : Protocol} (h : p.Safe) (lane : Lane) :
    ∃ e, p.effect lane = .ok e ∧ ∀ e' ∈ e,
      (∃ target, e' = .cancel lane target) ∨
      (p.closed = none ∧ p.active.get lane = none ∧ p.offer lane = .ok (some e') ∧
        p.Bounded lane e') := by
  unfold effect
  cases ha : p.active.get lane with
  | some a =>
    refine ⟨_, rfl, ?_⟩
    intro e' he'
    obtain ⟨_, -, rfl⟩ := Option.map_eq_some_iff.mp he'
    exact Or.inl ⟨_, rfl⟩
  | none =>
    cases hc : p.closed with
    | some error => exact ⟨none, by simp, by simp⟩
    | none =>
      obtain ⟨e, he, hb⟩ := offer_spec h.capacity_ge (h.framed hc) lane
      refine ⟨e, by simp [he], fun e' he' => Or.inr ⟨rfl, rfl, ?_, hb e' he'⟩⟩
      rw [he]
      exact congrArg _ he'

theorem transition_safe [Target] {p : Protocol} (h : p.Safe) (i : Input) :
    ∃ q r, p.transition i = .ok (q, r) ∧ StepSafe p q r := by
  have hself : ∀ r, StepSafe p p r := fun r => ⟨rfl, rfl, rfl, h.request, fun hc _ => h.framed hc⟩
  have hshut : ∀ error r, StepSafe p (p.shut error) r := fun error r =>
    ⟨rfl, rfl, rfl, h.request, fun hc => by cases hp : p.closed <;> simp [shut, hp] at hc⟩
  cases i with
  | revoked => exact ⟨_, _, rfl, hshut _ _⟩
  | closed error => exact ⟨_, _, rfl, hshut _ _⟩
  | accepted lane op =>
    obtain ⟨e, he, hspec⟩ := effect_spec h lane
    simp only [transition, he, ok_bind]
    cases e with
    | none => exact ⟨p, _, rfl, hself _⟩
    | some e =>
      by_cases hreq : e.isRequest = false
      · exact ⟨p, .error .protocol, by simp only [if_pos hreq]; rfl, hself _⟩
      · by_cases hdup : (p.laneOf op).isSome = true
        · exact ⟨p, .error .protocol, by simp only [if_neg hreq, if_pos hdup]; rfl, hself _⟩
        · refine ⟨p.accept lane op e, .ok (), by simp only [if_neg hreq, if_neg hdup]; rfl,
            rfl, rfl, rfl, ?_, ?_⟩
          · intro other id e' ha
            rcases active_set ha with ⟨-, -, rfl⟩ | ⟨-, ha⟩
            · simpa using hreq
            · exact h.request other id e' ha
          · intro hc _
            rcases hspec e rfl with ⟨target, rfl⟩ | ⟨-, -, hoffer, -⟩
            · exact absurd rfl hreq
            · exact framed_accept (h.framed hc) hoffer
  | completed op result buffer =>
    cases hl : p.laneOf op with
    | none => exact ⟨p, .ok (), by simp only [transition, hl], hself _⟩
    | some lane =>
      obtain ⟨e, ha⟩ := laneOf_some hl
      obtain ⟨q, r, hq, hs⟩ := complete_safe h ha result buffer
      refine ⟨q, r, ?_, hs⟩
      simp only [transition, hl, ha, unwrap_some, ok_bind]
      exact hq
  | provided sequence length =>
    cases hc : p.closed with
    | some error => exact ⟨p, .error error, by simp only [transition, hc], hself _⟩
    | none =>
      by_cases hbad : p.stage ≠ .source ∨ length < headerBytes ∨ length > p.capacity
      · exact ⟨p, .error .protocol, by simp only [transition, hc, if_pos hbad], hself _⟩
      · refine ⟨p.provide sequence length, .ok (), by simp only [transition, hc, if_neg hbad],
          rfl, rfl, rfl, h.request, ?_⟩
        push Not at hbad
        obtain ⟨hs, hge, hle⟩ := hbad
        have hf := h.framed hc
        have hd : p.direction = .exporting := by
          cases hp : p.direction with
          | exporting => rfl
          | importing => simpa [StageOf, hp, hs] using hf.data.stage
        have hidle : p.active.data = none := by
          cases ha : p.active.data with
          | none => rfl
          | some a =>
            obtain ⟨id, e⟩ := a
            rcases offer_data_request (hf.data.active id e ha) (h.request .data id e ha) with
              ⟨h', -⟩ | ⟨h', -⟩ | ⟨h', -⟩ <;> simp [hs] at h'
        intro _ _
        refine framed_account _ ⟨DataLane.moving ?_ hge hle hidle ?_ ?_, ⟨?_, ?_⟩,
          hf.receive.congr rfl rfl rfl⟩
        · simp [StageOf, hd]
        · simp [PerLane.set, headerBytes] at hge ⊢
          omega
        · intro hh
          cases hh
        · intro _ hcr
          cases hcr
        · intro id e he
          obtain ⟨hi, -⟩ := offer_creditSend_request (hf.send.active id e he)
          simp [hd] at hi
  | admitted =>
    cases hc : p.closed with
    | some error => exact ⟨p, .error error, by simp only [transition, hc], hself _⟩
    | none =>
      by_cases hbad : p.stage ≠ .admission ∨ p.credited = true
      · exact ⟨p, .error .protocol, by simp only [transition, hc, if_pos hbad], hself _⟩
      · refine ⟨p.admitFrame, .ok (), by simp only [transition, hc, if_neg hbad],
          rfl, rfl, rfl, h.request, ?_⟩
        push Not at hbad
        obtain ⟨hs, hcr⟩ := hbad
        have hf := h.framed hc
        have hd : p.direction = .importing := by
          cases hp : p.direction with
          | importing => rfl
          | exporting => simpa [StageOf, hp, hs] using hf.data.stage
        have hidle := hf.idle_of_admission h.request hs
        intro _ _
        refine ⟨DataLane.moving ?_ (le_refl _) h.capacity_ge hidle ?_ ?_, ⟨?_, ?_⟩,
          hf.receive.congr rfl rfl rfl⟩
        · change StageOf p.direction .header
          simp [StageOf, hd]
        · change 0 < headerBytes
          decide
        · intro _
          change 0 < headerBytes
          decide
        · intro _ _
          exact ⟨show 0 < creditBytes by decide, rfl⟩
        · intro id e he
          obtain ⟨-, hcr', -⟩ := offer_creditSend_request (hf.send.active id e he)
          exact absurd hcr' hcr

theorem settle_eq (p : Protocol) (i : Input) :
    p.settle i = p ∨ ∃ f, p.settle i = p.account f := by
  unfold settle
  cases p.closed with
  | none => exact Or.inl rfl
  | some error =>
    right
    dsimp only
    split <;> exact ⟨_, rfl⟩

theorem safe_account [Target] {p : Protocol} (h : p.Safe) (f : Accountability → Accountability) :
    (p.account f).Safe :=
  ⟨h.capacity_ge, h.capacity_le, h.request, fun hc => framed_account f (h.framed hc)⟩

theorem StepSafe.conclude [Target] {p q : Protocol} {r : Except Error Unit} (h : p.Safe)
    (hs : StepSafe p q r) : (q.conclude r).Safe := by
  cases r with
  | error error =>
    refine ⟨hs.capacity ▸ h.capacity_ge, hs.capacity ▸ h.capacity_le, hs.request, ?_⟩
    intro hc
    cases hp : q.closed <;> simp [Protocol.conclude, shut, hp] at hc
  | ok u =>
    exact ⟨hs.capacity ▸ h.capacity_ge, hs.capacity ▸ h.capacity_le, hs.request,
      fun hc => hs.framed hc rfl⟩

/-- Every input of whatever kind is answered, and keeps the machine safe. -/
theorem input_safe [Target] {p : Protocol} (h : p.Safe) (i : Input) :
    ∃ q r, p.input i = .ok (q, r) ∧ q.Safe ∧ q.contract = p.contract ∧
      q.direction = p.direction ∧ q.capacity = p.capacity := by
  obtain ⟨q, r, hq, hs⟩ := transition_safe h i
  have hsafe := hs.conclude h
  have hprov : (q.conclude r).contract = p.contract ∧ (q.conclude r).direction = p.direction ∧
      (q.conclude r).capacity = p.capacity := by
    cases r <;> exact ⟨hs.contract, hs.direction, hs.capacity⟩
  refine ⟨(q.conclude r).settle i, r, by simp only [input, hq, ok_bind]; rfl, ?_⟩
  rcases settle_eq (q.conclude r) i with he | ⟨f, he⟩
  · rw [he]
    exact ⟨hsafe, hprov⟩
  · rw [he]
    exact ⟨safe_account hsafe f, hprov⟩

/-! ## Whole runs -/

theorem new_safe [Target] {contract : Contract} {direction : Direction} {capacity : Nat}
    {p : Protocol} (hword : capacity ≤ usizeMax)
    (h : new contract direction capacity = .ok p) : p.Safe ∧ p.capacity = capacity := by
  unfold new at h
  split at h
  · cases h
  · rename_i hbad
    push Not at hbad
    cases h
    refine ⟨⟨hbad.1, hword, ?_, fun _ => ⟨?_, ⟨?_, ?_⟩, ⟨?_, ?_, ?_⟩⟩⟩, rfl⟩
    · intro lane id e he
      simp at he
    · refine DataLane.congr (p := ⟨contract, direction, capacity, _, PerLane.fill none,
        PerLane.fill 0, headerBytes, 0, none, contract.revision, false, none, none⟩)
        ?_ rfl rfl rfl rfl rfl rfl (fun _ => rfl)
      cases direction with
      | importing =>
        exact DataLane.moving (Or.inl rfl) (le_refl _) hbad.1 rfl
          (show 0 < headerBytes by decide) (fun _ => show 0 < headerBytes by decide)
      | exporting => exact DataLane.rest (Or.inl rfl) (Or.inl rfl) (le_refl _) hbad.1 rfl
    · intro _ hc
      cases hc
    · intro id e he
      cases he
    · intro _
      exact show 0 < creditBytes by decide
    · intro _
      rfl
    · intro id e he
      cases he

theorem withConnection_eq [Target] {contract : Contract} {direction : Direction}
    {capacity : Nat} {connection : Connection} {p : Protocol}
    (h : withConnection contract direction capacity connection = .ok p) :
    ∃ q, new contract direction capacity = .ok q ∧
      p = { q with accountability := some (Accountability.new connection contract direction) } := by
  unfold withConnection at h
  cases hn : new contract direction capacity with
  | error error => rw [hn] at h; cases h
  | ok q =>
    rw [hn] at h
    cases h
    exact ⟨q, rfl, rfl⟩

/-- A provisioned machine, tracked or not. -/
def Provisioned [Target] (contract : Contract) (direction : Direction) (capacity : Nat)
    (p : Protocol) : Prop :=
  new contract direction capacity = .ok p ∨
    ∃ connection, withConnection contract direction capacity connection = .ok p

theorem provisioned_safe [Target] {contract : Contract} {direction : Direction} {capacity : Nat}
    {p : Protocol} (hword : capacity ≤ usizeMax) (h : Provisioned contract direction capacity p) :
    p.Safe ∧ p.capacity = capacity := by
  rcases h with h | ⟨connection, h⟩
  · exact new_safe hword h
  · obtain ⟨q, hq, rfl⟩ := withConnection_eq h
    obtain ⟨hs, hc⟩ := new_safe hword hq
    refine ⟨⟨hs.capacity_ge, hs.capacity_le, hs.request, fun hclosed => ?_⟩, hc⟩
    have hf := hs.framed hclosed
    exact ⟨hf.data.congr rfl rfl rfl rfl rfl rfl (hf.idle_of_admission hs.request),
      hf.send.congr rfl rfl rfl rfl rfl, hf.receive.congr rfl rfl rfl⟩

/-- The machine after an input, whether the input fails or not. -/
def next [Target] (p : Protocol) (i : Input) : Exec Protocol := do
  let (q, _) ← p.input i
  return q

/-- The machine after a sequence of inputs, errors included. -/
def run [Target] (p : Protocol) (inputs : List Input) : Exec Protocol := steps next p inputs

theorem safe_run [Target] {p : Protocol} (h : p.Safe) (inputs : List Input) :
    ∃ q, p.run inputs = .ok q ∧ q.Safe ∧ q.capacity = p.capacity := by
  refine steps_invariant (P := fun q : Protocol => q.Safe ∧ q.capacity = p.capacity) ?_ ⟨h, rfl⟩
    inputs
  rintro s i ⟨hs, hcap⟩
  obtain ⟨q, r, hq, hsafe, -, -, hc⟩ := input_safe hs i
  exact ⟨q, by simp only [next, hq, ok_bind, pure_eq], hsafe, hc.trans hcap⟩

/-- No input sequence makes the machine panic, and in every state it reaches each
request is nonempty and inside the buffer of its lane. -/
theorem run_requests_inBuffer [Target] (contract : Contract) (direction : Direction)
    (capacity : Nat) (hword : capacity ≤ usizeMax) (p : Protocol)
    (hp : Provisioned contract direction capacity p) (inputs : List Input) :
    ∃ q, p.run inputs = .ok q ∧ ∀ lane, ∃ e, q.effect lane = .ok e ∧
      (∀ l offset length,
        e = some (.receive l offset length) ∨ e = some (.transmit l offset length) →
        l = lane ∧ 1 ≤ length ∧ offset + length ≤ lane.bufferCapacity capacity) ∧
      (∀ length revision, e = some (.admission length revision) →
        headerBytes + length ≤ capacity) := by
  obtain ⟨hs, rfl⟩ := provisioned_safe hword hp
  obtain ⟨q, hq, hsq, hcap⟩ := safe_run hs inputs
  refine ⟨q, hq, fun lane => ?_⟩
  obtain ⟨e, he, hspec⟩ := effect_spec hsq lane
  refine ⟨e, he, ?_, ?_⟩
  · rintro l offset length (rfl | rfl)
    all_goals
      rcases hspec _ rfl with ⟨target, h⟩ | ⟨-, -, -, hl, -, h1, hle⟩
      · cases h
      · exact ⟨hl, h1, hcap ▸ hle⟩
  · rintro length revision rfl
    rcases hspec _ rfl with ⟨target, h⟩ | ⟨-, -, -, -, hle⟩
    · cases h
    · exact hcap ▸ hle

/-- A revocation that races an accepted header read leaves the read to be cancelled. -/
theorem run_requests_inBuffer_revoked :
    let _ := Target.x64
    ∃ p q : Protocol, new ⟨⟨7⟩, 1, 1, .ordered⟩ .importing 64 = .ok p ∧
      p.run [.accepted .data ⟨0, 1⟩, .revoked, .provided 3 40] = .ok q ∧
      ∀ lane, ∃ e, q.effect lane = .ok e ∧
        (∀ l offset length,
          e = some (.receive l offset length) ∨ e = some (.transmit l offset length) →
          l = lane ∧ 1 ≤ length ∧ offset + length ≤ lane.bufferCapacity 64) ∧
        (∀ length revision, e = some (.admission length revision) → headerBytes + length ≤ 64) := by
  intro _
  obtain ⟨p, hp⟩ : ∃ p, new ⟨⟨7⟩, 1, 1, .ordered⟩ .importing 64 = .ok p := ⟨_, rfl⟩
  obtain ⟨q, hq⟩ := run_requests_inBuffer ⟨⟨7⟩, 1, 1, .ordered⟩ .importing 64 (by decide) p
    (Or.inl hp) [.accepted .data ⟨0, 1⟩, .revoked, .provided 3 40]
  exact ⟨p, q, hp, hq⟩

end Protocol

end Hiway.Transport
