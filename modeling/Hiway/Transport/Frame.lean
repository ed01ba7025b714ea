import Hiway.Transport.Protocol

/-!
# Frame encoding

`encode_frame` writes the payload first and the header fields around it in place.
A frame it returns is a header followed by a body of the announced length, and the
importer's header checks read back exactly what was written.

* `encodeFrame_ok`: a frame that `encode_frame` returns fits its storage and is the header
  of its sequence followed by the encoded payload.
* `headerMatches_header`: the header checks read back what was written.
-/

namespace Hiway.Transport

open Target

/-- What `encode_frame` uses of an event's wire codec. `encode` receives the storage
of the body and leaves bytes of the same length in it, also when it fails. -/
structure WireCodec (α : Type) where
  contract : Contract
  encodedLen : α → Nat
  encode : α → List UInt8 → Except WireError Nat × List UInt8
  encode_length : ∀ payload body, (encode payload body).2.length = body.length

variable {α : Type}

/-- The header fields, written one after the other over the front of the storage. -/
def writeHeader (c : Contract) (sequence : UInt64) (length : Nat) (output : List UInt8) :
    List UInt8 :=
  let output := Bytes.write output 0 magic
  let output := Bytes.write output 4 (Bytes.toLe 16 c.event.raw.toNat)
  let output := Bytes.write output 20 (Bytes.toLe 2 c.major.toNat)
  let output := Bytes.write output 22 (Bytes.toLe 4 c.revision.toNat)
  let output := Bytes.write output 26 (Bytes.toLe 8 sequence.toNat)
  Bytes.write output 34 (Bytes.toLe 4 length)

/-- The result, and the storage as the call leaves it. -/
def encodeFrame [Target] (E : WireCodec α) (sequence : UInt64) (payload : α)
    (output : List UInt8) : Except Error Nat × List UInt8 :=
  let length := E.encodedLen payload
  match checkedAdd headerBytes length with
  | none => (.error .capacity, output)
  | some total =>
    if total > output.length then (.error .capacity, output)
    else if u32Max < length then (.error .capacity, output)
    else
      let body := E.encode payload (Bytes.slice output headerBytes total)
      let output := Bytes.write output headerBytes body.2
      match body.1 with
      | .error error => (.error (.wire error), output)
      | .ok written =>
        if written ≠ length then (.error (.wire .invalidPayload), output)
        else (.ok total, writeHeader E.contract sequence length output)

/-! ## What an encoded frame contains -/

@[simp] theorem length_header (c : Contract) (s : UInt64) (n : Nat) :
    (header c s n).length = headerBytes := by
  simp [header, magic, headerBytes]

theorem writeHeader_eq {c : Contract} {s : UInt64} {n : Nat} {output : List UInt8}
    (h : headerBytes ≤ output.length) :
    writeHeader c s n output = header c s n ++ output.drop headerBytes := by
  have h38 : 38 ≤ output.length := h
  have hm : magic.length = 4 := rfl
  have h4 := @Bytes.write_write output magic (Bytes.toLe 16 c.event.raw.toNat) 0 (by omega)
  have h20 := @Bytes.write_write output (magic ++ Bytes.toLe 16 c.event.raw.toNat)
    (Bytes.toLe 2 c.major.toNat) 0
    (by simp only [List.length_append, Bytes.length_toLe]; omega)
  have h22 := @Bytes.write_write output
    (magic ++ Bytes.toLe 16 c.event.raw.toNat ++ Bytes.toLe 2 c.major.toNat)
    (Bytes.toLe 4 c.revision.toNat) 0
    (by simp only [List.length_append, Bytes.length_toLe]; omega)
  have h26 := @Bytes.write_write output
    (magic ++ Bytes.toLe 16 c.event.raw.toNat ++ Bytes.toLe 2 c.major.toNat ++
      Bytes.toLe 4 c.revision.toNat) (Bytes.toLe 8 s.toNat) 0
    (by simp only [List.length_append, Bytes.length_toLe]; omega)
  have h34 := @Bytes.write_write output
    (magic ++ Bytes.toLe 16 c.event.raw.toNat ++ Bytes.toLe 2 c.major.toNat ++
      Bytes.toLe 4 c.revision.toNat ++ Bytes.toLe 8 s.toNat) (Bytes.toLe 4 n) 0
    (by simp only [List.length_append, Bytes.length_toLe]; omega)
  simp only [List.length_append, Bytes.length_toLe, hm, Nat.zero_add, Nat.reduceAdd]
    at h4 h20 h22 h26 h34
  unfold writeHeader
  simp only [h4, h20, h22, h26, h34]
  simp [Bytes.write, header, headerBytes, magic]

/-- The header in front of a body that has been written behind it. -/
theorem writeHeader_write {c : Contract} {s : UInt64} {n : Nat} {output body : List UInt8}
    (h : headerBytes + body.length ≤ output.length) :
    writeHeader c s n (Bytes.write output headerBytes body) =
      header c s n ++ (body ++ output.drop (headerBytes + body.length)) := by
  have hdrop : (Bytes.write output headerBytes body).drop headerBytes =
      body ++ output.drop (headerBytes + body.length) := by
    unfold Bytes.write
    rw [List.append_assoc, List.drop_left' (by simp; omega)]
  rw [writeHeader_eq (by rw [Bytes.length_write h]; omega), hdrop]

theorem take_writeHeader_write {c : Contract} {s : UInt64} {n : Nat} {output body : List UInt8}
    (h : headerBytes + body.length ≤ output.length) :
    (writeHeader c s n (Bytes.write output headerBytes body)).take (headerBytes + body.length) =
      header c s n ++ body := by
  rw [writeHeader_write h, ← List.append_assoc, List.take_left' (by simp)]

/-- A frame that `encode_frame` returns is the header of its sequence followed by what the
codec wrote. -/
theorem encodeFrame_body [Target] {E : WireCodec α} {s : UInt64} {payload : α}
    {output out : List UInt8} {total : Nat}
    (h : encodeFrame E s payload output = (.ok total, out)) :
    let body := (E.encode payload (Bytes.slice output headerBytes total)).2
    body.length = E.encodedLen payload ∧ out.take total = header E.contract s body.length ++ body ∧
      total = headerBytes + body.length ∧ total ≤ usizeMax ∧ body.length ≤ u32Max ∧
        total ≤ output.length ∧ out.length = output.length := by
  unfold encodeFrame at h
  dsimp only at h
  split at h
  · cases h
  · rename_i total' htotal
    obtain ⟨hmax, htot⟩ := checkedAdd_eq_some.mp htotal
    split at h
    · cases h
    · rename_i hfit
      split at h
      · cases h
      · rename_i hu32
        split at h
        · cases h
        · split at h
          · cases h
          · have hret := congrArg Prod.fst h
            have hout := congrArg Prod.snd h
            simp only [Except.ok.injEq] at hret hout
            subst hret
            intro body
            have hlen : body.length = (Bytes.slice output headerBytes total').length :=
              E.encode_length payload _
            have hbody : body.length = E.encodedLen payload := by
              rw [hlen]
              simp only [Bytes.slice, List.length_take, List.length_drop]
              omega
            have hout : writeHeader E.contract s body.length (Bytes.write output headerBytes body) =
                out := hbody ▸ hout
            refine ⟨hbody, ?_, by omega, by omega, by omega, by omega, ?_⟩
            · rw [← hout, htot, ← hbody, take_writeHeader_write (by omega)]
            · rw [← hout, writeHeader_write (by omega)]
              simp
              omega

/-- A frame that `encode_frame` returns fits its storage and is the header of its
sequence followed by the encoded body. -/
theorem encodeFrame_ok [Target] {E : WireCodec α} {s : UInt64} {payload : α}
    {output out : List UInt8} {total : Nat}
    (h : encodeFrame E s payload output = (.ok total, out)) :
    ∃ body, out.take total = header E.contract s body.length ++ body ∧
      total = headerBytes + body.length ∧ total ≤ usizeMax ∧ body.length ≤ u32Max ∧
      total ≤ output.length ∧ out.length = output.length :=
  ⟨_, (encodeFrame_body h).2⟩

/-! ## What the importer reads back -/

theorem slice_header_sequence (c : Contract) (s : UInt64) (n : Nat) :
    Bytes.slice (header c s n) 26 34 = Bytes.toLe 8 s.toNat := by
  apply Bytes.slice_field <;> simp [magic]

theorem slice_header_length (c : Contract) (s : UInt64) (n : Nat) :
    Bytes.slice (header c s n) 34 38 = Bytes.toLe 4 n := by
  have h := @Bytes.slice_field
    (magic ++ Bytes.toLe 16 c.event.raw.toNat ++ Bytes.toLe 2 c.major.toNat ++
      Bytes.toLe 4 c.revision.toNat ++ Bytes.toLe 8 s.toNat) (Bytes.toLe 4 n) [] 34 38
    (by simp [magic]) (by simp [magic])
  rwa [List.append_nil] at h

theorem slice_header_revision (c : Contract) (s : UInt64) (n : Nat) :
    Bytes.slice (header c s n) 22 26 = Bytes.toLe 4 c.revision.toNat := by
  unfold header
  rw [Bytes.slice_append_left (by simp [magic])]
  apply Bytes.slice_field <;> simp [magic]

@[simp] theorem headerSequence_header (c : Contract) (s : UInt64) (n : Nat) :
    headerSequence (header c s n) = s := by
  have hs : s.toNat < 256 ^ 8 := by
    have := s.toNat_lt
    norm_num
    omega
  rw [headerSequence, slice_header_sequence, Bytes.ofLe_toLe_of_lt hs]
  simp

@[simp] theorem headerRevision_header (c : Contract) (s : UInt64) (n : Nat) :
    headerRevision (header c s n) = c.revision := by
  have hr : c.revision.toNat < 256 ^ 4 := by
    have := c.revision.toNat_lt
    norm_num
    omega
  rw [headerRevision, slice_header_revision, Bytes.ofLe_toLe_of_lt hr]
  simp

theorem headerLength_header [Target] (c : Contract) (s : UInt64) {n : Nat} (h : n ≤ u32Max)
    (hu : n ≤ usizeMax) : headerLength (header c s n) = n := by
  have hn : n < 256 ^ 4 := by
    unfold u32Max at h
    norm_num
    omega
  rw [headerLength, slice_header_length, Bytes.ofLe_toLe_of_lt hn, asUsize_of_le hu]

@[simp] theorem headerMatches_header (c : Contract) (s : UInt64) (n : Nat) :
    headerMatches c (header c s n) = true := by
  have hmagic : Bytes.slice (header c s n) 0 4 = magic := by
    simp only [header, List.append_assoc]
    exact Bytes.slice_field (a := []) rfl rfl
  have hevent : Bytes.slice (header c s n) 4 20 = Bytes.toLe 16 c.event.raw.toNat := by
    simp only [header, List.append_assoc (magic ++ _)]
    apply Bytes.slice_field <;> simp [magic]
  have hmajor : Bytes.slice (header c s n) 20 22 = Bytes.toLe 2 c.major.toNat := by
    simp only [header, List.append_assoc (magic ++ _ ++ _)]
    apply Bytes.slice_field <;> simp [magic]
  simp [headerMatches, hmagic, hevent, hmajor]

end Hiway.Transport
