import Hiway.Lib.Dialogue
import Hiway.Transport.Delivery

/-!
# Frames as a format

A header announces the length of what follows it, so frames can be told apart in what was
written one behind the other. A frame carries the revision of its writer, which may be
another one than that of its reader.

* `Frame.code_inj`: frames with the same code are the same.
* `Frame.eq_of_head`: a header and as many bytes as it announces are a frame.
* `encodeFrame_carries`: a frame that is returned carries its payload.
-/

namespace Hiway.Transport

open Target

/-- The encoding of a frame at its own revision. -/
def Frame.code (c : Contract) (f : Frame) : List UInt8 := f.bytes { c with revision := f.revision }

/-- The header of a frame at its own revision. -/
def Frame.head (c : Contract) (f : Frame) : List UInt8 :=
  header { c with revision := f.revision } f.sequence f.payload.length

theorem Frame.code_eq (c : Contract) (f : Frame) : f.code c = f.head c ++ f.payload := rfl

@[simp] theorem Frame.length_head (c : Contract) (f : Frame) : (f.head c).length = headerBytes :=
  length_header _ _ _

@[simp] theorem Frame.length_code (c : Contract) (f : Frame) :
    (f.code c).length = headerBytes + f.payload.length :=
  Frame.length_bytes _ f

theorem Frame.take_code (c : Contract) (f : Frame) : (f.code c).take headerBytes = f.head c :=
  List.take_left' (f.length_head c)

/-- The announced length is read back. -/
def Frame.Short [Target] (f : Frame) : Prop :=
  f.payload.length ≤ u32Max ∧ f.payload.length ≤ usizeMax

theorem Frame.headerMatches_head {c : Contract} (f : Frame) : headerMatches c (f.head c) = true :=
  headerMatches_header { c with revision := f.revision } f.sequence f.payload.length

section

variable [Target] {c : Contract} {f g : Frame}

theorem Frame.headerLength_head (hf : f.Short) : headerLength (f.head c) = f.payload.length :=
  headerLength_header _ _ hf.1 hf.2

/-- A header and as many bytes as it announces are a frame. -/
theorem Frame.eq_of_head (hf : f.Short) (hg : g.Short) (hhead : f.head c = g.head c)
    (hpayload : f.payload.length = g.payload.length → f.payload = g.payload) : f = g := by
  have hsequence := congrArg headerSequence hhead
  have hrevision := congrArg headerRevision hhead
  have hlength := congrArg headerLength hhead
  rw [headerLength_head hf, headerLength_head hg] at hlength
  rw [head, head, headerSequence_header, headerSequence_header] at hsequence
  rw [head, head, headerRevision_header, headerRevision_header] at hrevision
  cases f
  cases g
  rw [Frame.mk.injEq]
  exact ⟨hsequence, hrevision, hpayload hlength⟩

theorem Frame.code_inj {x y : List UInt8} (hf : f.Short) (hg : g.Short)
    (h : f.code c ++ x = g.code c ++ y) : f = g := by
  rw [code_eq, code_eq, List.append_assoc, List.append_assoc] at h
  obtain ⟨hhead, hrest⟩ := List.append_inj h (by rw [length_head, length_head])
  exact eq_of_head hf hg hhead fun hlength => (List.append_inj hrest hlength).1

/-- The codec wrote the payload of the frame for this item. -/
def Frame.Carries {α : Type} (E : WireCodec α) (f : Frame) (item : UInt64 × α) : Prop :=
  f.sequence = item.1 ∧ f.revision = E.contract.revision ∧
    ∃ storage, E.encode item.2 storage = (.ok f.payload.length, f.payload)

omit [Target] in
/-- Items are provided in the order of their frames. -/
theorem Frame.Carries.ordered {α : Type} {E : WireCodec α} {fs : List Frame}
    {items : List (UInt64 × α)} (h : List.Forall₂ (Frame.Carries E) fs items) :
    fs.map Frame.sequence = items.map Prod.fst := by
  induction h with
  | nil => rfl
  | cons hf _ ih => rw [List.map_cons, List.map_cons, hf.1, ih]

/-- A frame that is returned carries its payload. -/
theorem encodeFrame_carries {α : Type} {E : WireCodec α} {s : UInt64} {payload : α}
    {output out : List UInt8} {total : Nat}
    (h : encodeFrame E s payload output = (.ok total, out)) :
    let f : Frame := ⟨s, E.contract.revision, Bytes.slice out headerBytes total⟩
    f.Short ∧ f.Carries E (s, payload) ∧ out.take total = f.code E.contract ∧
      total = (f.code E.contract).length ∧ total ≤ output.length ∧ out.length = output.length := by
  obtain ⟨hlen, htake, htotal, hword, hshort, hfit, hsame⟩ := encodeFrame_body h
  have hret : (E.encode payload (Bytes.slice output headerBytes total)).1 =
      .ok (E.encodedLen payload) := by
    unfold encodeFrame at h
    dsimp only at h
    split at h
    · cases h
    · split at h
      · cases h
      · split at h
        · cases h
        · split at h
          · cases h
          · rename_i written henc
            split at h
            · cases h
            · rename_i heq
              push Not at heq
              cases h
              rw [henc, heq]
  obtain ⟨body, hbody⟩ : ∃ body,
      (E.encode payload (Bytes.slice output headerBytes total)).2 = body := ⟨_, rfl⟩
  rw [hbody] at hlen htake htotal hshort
  have hslice : Bytes.slice out headerBytes total = body := by
    rw [← Bytes.slice_take (le_refl total), htake, Bytes.slice_append_right (by simp),
      length_header]
    exact Bytes.slice_self (by omega)
  intro f
  have hf : f = ⟨s, E.contract.revision, body⟩ := congrArg (Frame.mk s E.contract.revision) hslice
  rw [hf]
  refine ⟨⟨hshort, by dsimp only; omega⟩, ⟨rfl, rfl, _, Prod.ext ?_ hbody⟩, htake, ?_, hfit, hsame⟩
  · rw [hret, ← hlen]
  · rw [Frame.length_code]
    exact htotal

omit [Target] in
theorem Frame.code_ne (f : Frame) (c : Contract) : f.code c ≠ [] := by
  intro hnil
  have hlen := f.length_code c
  rw [hnil, List.length_nil, headerBytes] at hlen
  omega

omit [Target] in
theorem creditBytes_pos : 0 < creditBytes := by
  decide

/-- Frames and credits as the two channels of a connection carry them. -/
def wireFormat (c : Contract) : Dialogue.Format Frame UInt8 where
  valid := Frame.Short
  follows f g := c.delivery.follows f.sequence g.sequence = true
  code := Frame.code c
  ack f := creditOf f.sequence
  width := creditBytes
  code_ne f _ := f.code_ne c
  code_inj _ _ _ _ hf hg h := Frame.code_inj hf hg h
  ack_length f := length_creditOf f.sequence
  width_pos := creditBytes_pos

end

end Hiway.Transport
