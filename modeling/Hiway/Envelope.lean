import Hiway.Event
import Hiway.Lib.Bytes

/-!
# Envelope headers

An envelope header is written field after field into a buffer of the caller and read back
in the same order. The largest value of a field stands for absence where the field is
optional, so a header that carries this value cannot be written.

* `decode_layout`: what is decoded is what was encoded, whatever follows it.
* `layout_inj`: headers that can be written have different bytes.
* `envelope_bijection`: both round trips, the errors of both directions, and that `encode`
  touches nothing behind the header.
-/

namespace Hiway

open Exec

/-- `ENVELOPE_HEADER_BYTES`. -/
def envelopeHeaderBytes : Nat := 70

/-- `u32::MAX`. -/
def maxU32 : UInt32 := 4294967295

/-- `u64::MAX`. -/
def maxU64 : UInt64 := 18446744073709551615

/-- Stable origin identity used for deduplication and loop prevention. -/
structure OriginId where
  bytes : Vector UInt8 16
  deriving DecidableEq, Repr

/-- Metadata carried with every routed event. -/
structure EventMetadata where
  origin : OriginId
  sequence : UInt64
  originTime : UInt64
  ttl : Option UInt32
  fabricSequence : Option UInt64
  deriving DecidableEq, Repr

/-- Fixed-size header preceding one encoded payload. -/
structure EnvelopeHeader where
  event : EventId
  wireMajor : WireMajor
  schemaRevision : SchemaRevision
  metadata : EventMetadata
  payloadLen : UInt32
  deriving DecidableEq, Repr

/-- `put(&mut output[cursor..], value)`, which panics unless the value fits. -/
def put (output : List UInt8) (cursor : Nat) (value : List UInt8) : Exec (List UInt8) :=
  if cursor + value.length ≤ output.length then .ok (Bytes.write output cursor value)
  else .error .bounds

/-- `read`: the next bytes, and the cursor behind them. -/
def read (n : Nat) (input : List UInt8) (cursor : Nat) : Exec (Vector UInt8 n × Nat) :=
  if h : cursor + n ≤ input.length then
    .ok (⟨(Bytes.slice input cursor (cursor + n)).toArray, by
      rw [List.size_toArray, Bytes.length_slice]; omega⟩, cursor + n)
  else .error .bounds

/-- An integer of an optional field: its largest value means that there is none. -/
def present {α : Type} [DecidableEq α] (absent value : α) : Option α :=
  if value = absent then none else some value

namespace EnvelopeHeader

/-- The result, and the buffer as the call leaves it. -/
def encode (h : EnvelopeHeader) (output : List UInt8) :
    Exec (Except WireError Unit × List UInt8) :=
  if output.length < envelopeHeaderBytes then .ok (.error .bufferTooSmall, output)
  else if h.metadata.ttl = some maxU32 ∨ h.metadata.fabricSequence = some maxU64 then
    .ok (.error .invalidHeader, output)
  else do
    let cursor := 0
    let output ← put output cursor (Bytes.toLe 16 h.event.asU128)
    let cursor := cursor + 16
    let output ← put output cursor (Bytes.toLe 2 h.wireMajor.toNat)
    let cursor := cursor + 2
    let output ← put output cursor (Bytes.toLe 4 h.schemaRevision.toNat)
    let cursor := cursor + 4
    let output ← put output cursor h.metadata.origin.bytes.toList
    let cursor := cursor + 16
    let output ← put output cursor (Bytes.toLe 8 h.metadata.sequence.toNat)
    let cursor := cursor + 8
    let output ← put output cursor (Bytes.toLe 8 h.metadata.originTime.toNat)
    let cursor := cursor + 8
    let output ← put output cursor (Bytes.toLe 4 (h.metadata.ttl.getD maxU32).toNat)
    let cursor := cursor + 4
    let output ← put output cursor (Bytes.toLe 8 (h.metadata.fabricSequence.getD maxU64).toNat)
    let cursor := cursor + 8
    let output ← put output cursor (Bytes.toLe 4 h.payloadLen.toNat)
    return (.ok (), output)

def decode (input : List UInt8) : Exec (Except WireError EnvelopeHeader) :=
  if input.length < envelopeHeaderBytes then .ok (.error .truncated)
  else do
    let cursor := 0
    let (event, cursor) ← read 16 input cursor
    let (wireMajor, cursor) ← read 2 input cursor
    let (schemaRevision, cursor) ← read 4 input cursor
    let (origin, cursor) ← read 16 input cursor
    let (sequence, cursor) ← read 8 input cursor
    let (originTime, cursor) ← read 8 input cursor
    let (ttl, cursor) ← read 4 input cursor
    let (fabricSequence, cursor) ← read 8 input cursor
    let (payloadLen, _) ← read 4 input cursor
    return .ok
      { event := ⟨BitVec.ofNat 128 (Bytes.ofLe event.toList)⟩
        wireMajor := UInt16.ofNat (Bytes.ofLe wireMajor.toList)
        schemaRevision := UInt32.ofNat (Bytes.ofLe schemaRevision.toList)
        metadata :=
          { origin := ⟨origin⟩
            sequence := UInt64.ofNat (Bytes.ofLe sequence.toList)
            originTime := UInt64.ofNat (Bytes.ofLe originTime.toList)
            ttl := present maxU32 (UInt32.ofNat (Bytes.ofLe ttl.toList))
            fabricSequence := present maxU64 (UInt64.ofNat (Bytes.ofLe fabricSequence.toList)) }
        payloadLen := UInt32.ofNat (Bytes.ofLe payloadLen.toList) }

/-! ## The bytes of a header -/

/-- No optional field carries the value that stands for absence. -/
structure Encodable (h : EnvelopeHeader) : Prop where
  ttl : h.metadata.ttl ≠ some maxU32
  fabricSequence : h.metadata.fabricSequence ≠ some maxU64

/-- The nine fields one after the other. -/
def layout (h : EnvelopeHeader) : List UInt8 :=
  Bytes.toLe 16 h.event.asU128 ++ Bytes.toLe 2 h.wireMajor.toNat ++
    Bytes.toLe 4 h.schemaRevision.toNat ++ h.metadata.origin.bytes.toList ++
    Bytes.toLe 8 h.metadata.sequence.toNat ++ Bytes.toLe 8 h.metadata.originTime.toNat ++
    Bytes.toLe 4 (h.metadata.ttl.getD maxU32).toNat ++
    Bytes.toLe 8 (h.metadata.fabricSequence.getD maxU64).toNat ++
    Bytes.toLe 4 h.payloadLen.toNat

theorem length_layout (h : EnvelopeHeader) : h.layout.length = envelopeHeaderBytes := by
  simp [layout, envelopeHeaderBytes]

/-- A field right behind what has been written. -/
theorem put_next {output written value : List UInt8} {cursor : Nat}
    (hcursor : cursor = written.length)
    (hfit : written.length + value.length ≤ output.length) :
    put (Bytes.write output 0 written) cursor value =
      .ok (Bytes.write output 0 (written ++ value)) := by
  have hlen : (Bytes.write output 0 written).length = output.length :=
    Bytes.length_write (by omega)
  have hwrite := @Bytes.write_write output written value 0 (by omega)
  rw [Nat.zero_add] at hwrite
  unfold put
  rw [hlen, hcursor, if_pos hfit, hwrite]

theorem encode_ok {h : EnvelopeHeader} (hh : h.Encodable) {output : List UInt8}
    (hfit : envelopeHeaderBytes ≤ output.length) :
    h.encode output = .ok (.ok (), h.layout ++ output.drop envelopeHeaderBytes) := by
  have hguard : ¬ (h.metadata.ttl = some maxU32 ∨ h.metadata.fabricSequence = some maxU64) :=
    not_or.mpr ⟨hh.ttl, hh.fabricSequence⟩
  unfold encode
  rw [if_neg (Nat.not_lt.mpr hfit), if_neg hguard]
  unfold envelopeHeaderBytes at hfit
  have hfirst : put output 0 (Bytes.toLe 16 h.event.asU128) =
      .ok (Bytes.write output 0 (Bytes.toLe 16 h.event.asU128)) :=
    if_pos (by rw [Bytes.length_toLe]; omega)
  dsimp only
  rw [hfirst, ok_bind]
  iterate 7 rw [put_next (by simp) (by simp; omega), ok_bind]
  rw [put_next (by simp) (by simp; omega), ok_bind]
  have hlen := h.length_layout
  unfold envelopeHeaderBytes at hlen
  have hwrite : Bytes.write output 0 h.layout =
      h.layout ++ output.drop envelopeHeaderBytes := by
    unfold Bytes.write
    rw [List.take_zero, List.nil_append, hlen]
    rfl
  exact congrArg (fun bytes => Except.ok (Except.ok (), bytes)) hwrite

/-! ## Reading -/

theorem read_ok (n : Nat) (input : List UInt8) (cursor : Nat)
    (hfit : cursor + n ≤ input.length) :
    ∃ value : Vector UInt8 n, read n input cursor = .ok (value, cursor + n) ∧
      value.toList = Bytes.slice input cursor (cursor + n) := by
  unfold read
  rw [dif_pos hfit]
  exact ⟨_, rfl, rfl⟩

/-- A field holds the bytes of the integer that they encode. -/
theorem toLe_ofLe_mod {n : Nat} (value : Vector UInt8 n) :
    Bytes.toLe n (Bytes.ofLe value.toList % 256 ^ n) = value.toList := by
  have hlt := Bytes.ofLe_lt value.toList
  have hback := Bytes.toLe_ofLe value.toList
  rw [Vector.length_toList] at hlt hback
  rw [Nat.mod_eq_of_lt hlt, hback]

theorem getD_present {α : Type} [DecidableEq α] (absent value : α) :
    (present absent value).getD absent = value := by
  unfold present
  split
  · rename_i h
    exact h.symm
  · rfl

theorem present_ne {α : Type} [DecidableEq α] (absent value : α) :
    present absent value ≠ some absent := by
  unfold present
  split
  · exact Option.some_ne_none _ |>.symm
  · rename_i h
    exact fun heq => h (Option.some.inj heq)

theorem decode_ok (input : List UInt8) (hfit : envelopeHeaderBytes ≤ input.length) :
    ∃ h, decode input = .ok (.ok h) ∧ h.Encodable ∧ h.layout = input.take envelopeHeaderBytes := by
  have h70 : 70 ≤ input.length := hfit
  obtain ⟨event, hevent, hevent'⟩ := read_ok 16 input 0 (by omega)
  obtain ⟨major, hmajor, hmajor'⟩ := read_ok 2 input 16 (by omega)
  obtain ⟨revision, hrevision, hrevision'⟩ :=
    read_ok 4 input 18 (by omega)
  obtain ⟨origin, horigin, horigin'⟩ :=
    read_ok 16 input 22 (by omega)
  obtain ⟨sequence, hsequence, hsequence'⟩ :=
    read_ok 8 input 38 (by omega)
  obtain ⟨time, htime, htime'⟩ := read_ok 8 input 46 (by omega)
  obtain ⟨ttl, httl, httl'⟩ := read_ok 4 input 54 (by omega)
  obtain ⟨fabric, hfabric, hfabric'⟩ := read_ok 8 input 58 (by omega)
  obtain ⟨length, hlength, hlength'⟩ := read_ok 4 input 66 (by omega)
  refine ⟨⟨⟨BitVec.ofNat 128 (Bytes.ofLe event.toList)⟩, UInt16.ofNat (Bytes.ofLe major.toList),
    UInt32.ofNat (Bytes.ofLe revision.toList),
    ⟨⟨origin⟩, UInt64.ofNat (Bytes.ofLe sequence.toList), UInt64.ofNat (Bytes.ofLe time.toList),
      present maxU32 (UInt32.ofNat (Bytes.ofLe ttl.toList)),
      present maxU64 (UInt64.ofNat (Bytes.ofLe fabric.toList))⟩,
    UInt32.ofNat (Bytes.ofLe length.toList)⟩, ?_, ⟨present_ne _ _, present_ne _ _⟩, ?_⟩
  · unfold decode
    rw [if_neg (Nat.not_lt.mpr hfit)]
    dsimp only
    rw [hevent, ok_bind, hmajor, ok_bind, hrevision, ok_bind, horigin, ok_bind, hsequence, ok_bind,
      htime, ok_bind, httl, ok_bind, hfabric, ok_bind, hlength, ok_bind]
    rfl
  · have h16 := toLe_ofLe_mod event
    have h2 := toLe_ofLe_mod major
    have h4 := toLe_ofLe_mod revision
    have h8 := toLe_ofLe_mod sequence
    have h8' := toLe_ofLe_mod time
    have h4' := toLe_ofLe_mod ttl
    have h8'' := toLe_ofLe_mod fabric
    have h4'' := toLe_ofLe_mod length
    norm_num only at h16 h2 h4 h8 h8' h4' h8'' h4''
    unfold layout EventId.asU128
    simp only [getD_present, BitVec.toNat_ofNat, UInt16.toNat_ofNat', UInt32.toNat_ofNat',
      UInt64.toNat_ofNat', Nat.reducePow]
    rw [h16, h2, h4, h8, h8', h4', h8'', h4'', hevent', hmajor', hrevision', horigin', hsequence',
      htime', httl', hfabric', hlength']
    simp only [Nat.zero_add, Nat.reduceAdd]
    iterate 8 rw [Bytes.slice_append_slice (by omega) (by omega)]
    rw [Bytes.slice_eq_drop_take, List.drop_zero]
    rfl

theorem toLe_inj {k a b : Nat} (ha : a < 256 ^ k) (hb : b < 256 ^ k)
    (h : Bytes.toLe k a = Bytes.toLe k b) : a = b := by
  rw [← Bytes.ofLe_toLe_of_lt ha, h, Bytes.ofLe_toLe_of_lt hb]

theorem getD_inj {α : Type} [DecidableEq α] {absent : α} {a b : Option α} (ha : a ≠ some absent)
    (hb : b ≠ some absent) (h : a.getD absent = b.getD absent) : a = b := by
  cases a <;> cases b <;> simp_all

/-- Headers that can be written have different bytes. -/
theorem layout_inj {h h' : EnvelopeHeader} (hh : h.Encodable) (hh' : h'.Encodable)
    (heq : h.layout = h'.layout) : h = h' := by
  unfold layout at heq
  obtain ⟨heq, hpayload⟩ := List.append_inj' heq (by simp)
  obtain ⟨heq, hfabric⟩ := List.append_inj' heq (by simp)
  obtain ⟨heq, httl⟩ := List.append_inj' heq (by simp)
  obtain ⟨heq, htime⟩ := List.append_inj' heq (by simp)
  obtain ⟨heq, hsequence⟩ := List.append_inj' heq (by simp)
  obtain ⟨heq, horigin⟩ := List.append_inj' heq (by simp)
  obtain ⟨heq, hrevision⟩ := List.append_inj' heq (by simp)
  obtain ⟨hevent, hmajor⟩ := List.append_inj' heq (by simp)
  have hevent := EventId.asU128_inj.mp (toLe_inj h.event.raw.isLt h'.event.raw.isLt hevent)
  have hmajor := UInt16.toNat_inj.mp (toLe_inj h.wireMajor.toNat_lt h'.wireMajor.toNat_lt hmajor)
  have hrevision := UInt32.toNat_inj.mp
    (toLe_inj h.schemaRevision.toNat_lt h'.schemaRevision.toNat_lt hrevision)
  have horigin := Vector.toList_inj.mp horigin
  have hsequence := UInt64.toNat_inj.mp
    (toLe_inj h.metadata.sequence.toNat_lt h'.metadata.sequence.toNat_lt hsequence)
  have htime := UInt64.toNat_inj.mp
    (toLe_inj h.metadata.originTime.toNat_lt h'.metadata.originTime.toNat_lt htime)
  have httl := getD_inj hh.ttl hh'.ttl
    (UInt32.toNat_inj.mp (toLe_inj (UInt32.toNat_lt _) (UInt32.toNat_lt _) httl))
  have hfabric := getD_inj hh.fabricSequence hh'.fabricSequence
    (UInt64.toNat_inj.mp (toLe_inj (UInt64.toNat_lt _) (UInt64.toNat_lt _) hfabric))
  have hpayload := UInt32.toNat_inj.mp
    (toLe_inj h.payloadLen.toNat_lt h'.payloadLen.toNat_lt hpayload)
  obtain ⟨event, major, revision, ⟨⟨origin⟩, sequence, time, ttl, fabric⟩, length⟩ := h
  obtain ⟨event', major', revision', ⟨⟨origin'⟩, sequence', time', ttl', fabric'⟩, length'⟩ := h'
  subst hevent hmajor hrevision horigin hsequence htime httl hfabric hpayload
  rfl

/-- What is decoded is what was encoded, behind whatever follows it. -/
theorem decode_layout {h : EnvelopeHeader} (hh : h.Encodable) (rest : List UInt8) :
    decode (h.layout ++ rest) = .ok (.ok h) := by
  have hlen := h.length_layout
  obtain ⟨h', hdecode, hh', hlayout⟩ := decode_ok (h.layout ++ rest)
    (by rw [List.length_append]; omega)
  rw [← hlen, List.take_left] at hlayout
  rw [hdecode, layout_inj hh' hh hlayout]

/-- Headers that can be written and strings of 70 bytes are in bijection, by `encode` and
`decode`. -/
theorem envelope_bijection :
    (∀ (h : EnvelopeHeader) (output : List UInt8), h.Encodable →
      envelopeHeaderBytes ≤ output.length →
      ∃ bytes, bytes.length = envelopeHeaderBytes ∧
        h.encode output = .ok (.ok (), bytes ++ output.drop envelopeHeaderBytes) ∧
        decode (bytes ++ output.drop envelopeHeaderBytes) = .ok (.ok h)) ∧
    (∀ input : List UInt8, envelopeHeaderBytes ≤ input.length →
      ∃ h, decode input = .ok (.ok h) ∧ h.Encodable ∧
        ∀ output : List UInt8, envelopeHeaderBytes ≤ output.length →
          h.encode output =
            .ok (.ok (), input.take envelopeHeaderBytes ++ output.drop envelopeHeaderBytes)) ∧
    (∀ (h : EnvelopeHeader) (output : List UInt8), output.length < envelopeHeaderBytes →
      h.encode output = .ok (.error .bufferTooSmall, output)) ∧
    (∀ (h : EnvelopeHeader) (output : List UInt8), envelopeHeaderBytes ≤ output.length →
      ¬ h.Encodable → h.encode output = .ok (.error .invalidHeader, output)) ∧
    ∀ input : List UInt8, input.length < envelopeHeaderBytes →
      decode input = .ok (.error .truncated) := by
  refine ⟨fun h output hh hfit => ?_, fun input hfit => ?_, fun h output hshort => ?_,
    fun h output hfit hh => ?_, fun input hshort => ?_⟩
  · exact ⟨h.layout, h.length_layout, encode_ok hh hfit, decode_layout hh _⟩
  · obtain ⟨h, hdecode, hh, hlayout⟩ := decode_ok input hfit
    refine ⟨h, hdecode, hh, fun output hroom => ?_⟩
    rw [encode_ok hh hroom, hlayout]
  · unfold encode
    rw [if_pos hshort]
  · unfold encode
    rw [if_neg (Nat.not_lt.mpr hfit), if_pos]
    by_contra hguard
    obtain ⟨httl, hfabric⟩ := not_or.mp hguard
    exact hh ⟨httl, hfabric⟩
  · unfold decode
    rw [if_pos hshort]

end EnvelopeHeader

end Hiway
