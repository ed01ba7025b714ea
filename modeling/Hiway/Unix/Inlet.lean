import Hiway.Unix.Outlet

/-!
# An importing link on its own

A link that imports, whatever is at the other end. As long as what it reads are frames in
their order, each one begun when the credit of the last one had left, it admits exactly these
and does not end with a protocol error.

* `Proper.takes`, `Proper.admits`, `Proper.pays`: a read, an admission and a write.
* `Proper.step`: every action keeps the link a receiver.
* `receiver_keeps`: an importing link is a receiver that keeps to the format.
-/

namespace Hiway.Unix

open Exec Target Transport

variable {β G : Type}

/-- The frame as its peer has sent it. -/
def Accepted.frame (a : Accepted β) : Frame :=
  ⟨a.sequence, headerRevision a.header, a.payload⟩

namespace Imported

/-- A write takes some of what it is offered, and a read returns no more than it has asked
for. Nothing is written to the control socket at the other end. -/
def turn [Target] (c : Contract) (decode : Decode β G) (s : Imported β) :
    Arrival G → Exec (Imported β)
  | .wrote (count + 1) =>
    let bytes := s.offered.take (count + 1)
    if bytes = [] then .ok s else .ok (s.step c decode (.wrote bytes.length : Arrival G))
  | .read (b :: rest) grant =>
    let bytes := (b :: rest).take s.room
    if bytes = [] then .ok s else .ok (s.step c decode (.read bytes grant))
  | .control (_ :: _) => .ok s
  | arrival => .ok (s.step c decode arrival)

/-- The frames whose values were accepted. -/
def frames (s : Imported β) : List Frame := s.admitted.map Accepted.frame

/-- As a receiver of frames. -/
def receiver [Target] (c : Contract) (decode : Decode β G) :
    Dialogue.Receiver (Imported β) (Arrival G) Frame UInt8 where
  step := turn c decode
  admitted := frames
  consumed := consumed
  sent := sent

variable [Target]

/-- The invariant of a link whose peer keeps to the format. -/
structure Proper (c : Contract) (decode : Decode β G) (s : Imported β) : Prop where
  keeps : s.Keeps c decode
  faithful : ∀ a ∈ s.admitted, a.frame.Short ∧ a.frame.code c = a.bytes
  agrees : s.link.outcome ≠ some (some .protocol)

variable {c : Contract} {decode : Decode β G} {s : Imported β}

theorem Proper.settles (h : s.Proper c decode) : s.Settles c decode :=
  h.keeps.elim (fun hinv => hinv.settles) And.right

theorem Proper.open (h : s.Proper c decode) (hopened : s.link.outcome = none) : s.Inv c decode :=
  h.keeps.resolve_right fun hended => hended.1 hopened

theorem Proper.codes (h : s.Proper c decode) :
    (wireFormat c).codes s.frames = s.admitted.flatMap Accepted.bytes := by
  show (s.admitted.map Accepted.frame).flatMap _ = _
  rw [List.flatMap_map]
  exact List.flatMap_congr fun a ha => (h.faithful a ha).2

theorem acks_eq (s : Imported β) (c : Contract) : (wireFormat c).acks s.frames = s.credits := by
  show (s.admitted.map Accepted.frame).flatMap _ = _
  rw [List.flatMap_map]
  rfl

/-! ## One arrival -/

/-- An arrival that admits nothing and moves no bytes. -/
theorem Proper.idles (h : s.Proper c decode) {s' : Imported β} (hkeeps : s'.Keeps c decode)
    (hidles : s.Idles s') : s'.Proper c decode ∧ s'.consumed = s.consumed ∧ s'.sent = s.sent := by
  refine ⟨⟨hkeeps, ?_, fun hp => h.agrees (hidles.agrees hp)⟩, ?_, hidles.sent⟩
  · rw [hidles.admitted]
    exact h.faithful
  · rw [consumed, consumed, hidles.admitted, hidles.arriving]

theorem Proper.quiet (h : s.Proper c decode) {a : Arrival G} (hquiet : Quiet a) :
    (s.step c decode a).Proper c decode ∧ (s.step c decode a).consumed = s.consumed ∧
      (s.step c decode a).sent = s.sent := by
  apply h.idles (h.keeps.step a)
  rcases h.keeps with hinv | ⟨hended, -⟩
  · exact hinv.idles hquiet
  · exact idles_of_ended hended a

/-- What a proper peer sends is the front of a frame that may come next. -/
theorem Proper.next (h : s.Proper c decode) (hopened : s.link.outcome = none)
    {arriving : List UInt8} (hproper : (wireFormat c).Proper s.frames s.sent
      (s.admitted.flatMap Accepted.bytes ++ arriving)) (hsome : arriving ≠ []) :
    ∃ f : Frame, f.Short ∧
      (∀ last ∈ s.link.previous, c.delivery.follows last f.sequence = true) ∧
      arriving <+: f.code c := by
  rw [← h.codes] at hproper
  rcases hproper with hall | ⟨f, hshort, hfollows, -, hcode⟩
  · exact absurd (List.append_right_eq_self.mp hall) hsome
  · refine ⟨f, hshort, ?_, (List.prefix_append_right_inj _).mp hcode⟩
    intro last hlast
    rw [(h.open hopened).previous] at hlast
    obtain ⟨a, ha, rfl⟩ := Option.map_eq_some_iff.mp hlast
    refine hfollows a.frame ?_
    rw [frames, List.getLast?_map, Option.mem_def, ha]
    rfl

/-- A read takes the next bytes of a frame. -/
theorem Proper.takes (h : s.Proper c decode) {bytes : List UInt8} (hsome : bytes ≠ [])
    (hroom : bytes.length ≤ s.room) (grant : G) :
    let s' := s.step c decode (.read bytes grant)
    s'.consumed = s.consumed ++ bytes ∧ s'.sent = s.sent ∧
      ((wireFormat c).Proper s.frames s.sent s'.consumed → s'.Proper c decode) := by
  have hopened : s.link.outcome = none := by
    by_contra hended
    obtain ⟨outcome, houtcome⟩ := Option.ne_none_iff_exists'.mp hended
    simp only [room, houtcome, Nat.le_zero] at hroom
    exact hsome (List.eq_nil_of_length_eq_zero hroom)
  obtain ⟨hadmitted, harriving, hsent, -, hprotocol⟩ :=
    (h.open hopened).takes hsome hroom grant
  have hconsumed : (s.step c decode (.read bytes grant)).consumed = s.consumed ++ bytes := by
    rw [consumed, hadmitted, harriving, consumed, List.append_assoc]
  refine ⟨hconsumed, hsent, fun hproper => ⟨h.keeps.step _, ?_, fun hp => ?_⟩⟩
  · rw [hadmitted]
    exact h.faithful
  · obtain ⟨hlen, haccept⟩ := hprotocol hp
    rw [hconsumed, consumed, List.append_assoc] at hproper
    obtain ⟨f, hshort, hfollows, hcode⟩ := h.next hopened hproper (by simp [hsome])
    have hhead : s.arriving ++ bytes = f.head c := by
      rw [← f.take_code, ← hlen]
      exact List.prefix_iff_eq_take.mp hcode
    rw [hhead] at haccept
    have hmatch : Matches { c with revision := f.revision } c := ⟨rfl, rfl, rfl⟩
    exact hmatch.accepts hshort.1 hshort.2 hfollows haccept

/-- The value of the next frame is accepted. -/
theorem Proper.admits (h : s.Proper c decode) (hopened : s.link.outcome = none)
    {sequence : UInt64} {value : β} (hi : s.link.importing = .sending sequence value) :
    let s' := s.step c decode (.sent : Arrival G)
    s'.consumed = s.consumed ∧ s'.sent = s.sent ∧
      ((wireFormat c).Proper s.frames s.sent s.consumed → s'.Proper c decode) := by
  obtain ⟨harriving, hsent, houtcome, -, a, hadmitted, hbytes, hlen, hlength⟩ :=
    (h.open hopened).admits (G := G) hi
  have hconsumed : (s.step c decode (.sent : Arrival G)).consumed = s.consumed := by
    rw [consumed, hadmitted, harriving, List.append_nil, List.flatMap_append,
      List.flatMap_singleton, hbytes, consumed]
  refine ⟨hconsumed, hsent, fun hproper => ⟨h.keeps.step _, ?_, fun hp => ?_⟩⟩
  · rw [consumed, ← hbytes] at hproper
    have hsome : a.bytes ≠ [] := by
      intro hnil
      have hzero := congrArg List.length hnil
      rw [Accepted.bytes, List.length_append, hlen, List.length_nil, headerBytes] at hzero
      omega
    obtain ⟨f, hshort, -, hcode⟩ := h.next hopened hproper hsome
    obtain ⟨rest, hrest⟩ := hcode
    rw [Accepted.bytes, Frame.code_eq, List.append_assoc] at hrest
    obtain ⟨hhead, htail⟩ := List.append_inj hrest (by rw [hlen, Frame.length_head])
    have hpayload : a.payload = f.payload := by
      refine (List.append_inj (htail.trans (List.append_nil _).symm) ?_).1
      rw [← hlength, hhead, Frame.headerLength_head hshort]
    have hframe : a.frame = f := by
      rw [Accepted.frame, Accepted.sequence, hhead, hpayload, Frame.head, headerSequence_header,
        headerRevision_header]
    intro b hb
    rw [hadmitted] at hb
    rcases List.mem_append.mp hb with hb | hb
    · exact h.faithful b hb
    · rw [List.mem_singleton.mp hb, hframe, Frame.code_eq, ← hhead, ← hpayload]
      exact ⟨hshort, rfl⟩
  · rw [houtcome] at hp
    cases hp

/-- A write takes the next bytes of a credit. -/
theorem Proper.pays (h : s.Proper c decode) {count : Nat} (hsome : s.offered.take count ≠ []) :
    let s' := s.step c decode (.wrote (s.offered.take count).length : Arrival G)
    s'.Proper c decode ∧ s'.consumed = s.consumed ∧ s.sent <+: s'.sent := by
  have hopened : s.link.outcome = none := by
    by_contra hended
    obtain ⟨outcome, houtcome⟩ := Option.ne_none_iff_exists'.mp hended
    simp [offered, houtcome] at hsome
  obtain ⟨hadmitted, harriving, hsent, houtcome, -⟩ :=
    (h.open hopened).pays (G := G) hsome
  refine ⟨⟨h.keeps.step _, ?_, ?_⟩, ?_, ?_⟩
  · rw [hadmitted]
    exact h.faithful
  · rw [houtcome]
    simp
  · rw [consumed, consumed, hadmitted, harriving]
  · rw [hsent]
    exact List.prefix_append _ _

theorem Proper.step (h : s.Proper c decode) (a : Arrival G) :
    ∃ s', turn c decode s a = .ok s' ∧ s.consumed <+: s'.consumed ∧
      ((wireFormat c).Proper s.frames s.sent s'.consumed →
        s'.Proper c decode ∧ s.sent <+: s'.sent) := by
  have hquiet : ∀ a : Arrival G, Quiet a →
      s.consumed <+: (s.step c decode a).consumed ∧
        ((wireFormat c).Proper s.frames s.sent (s.step c decode a).consumed →
          (s.step c decode a).Proper c decode ∧ s.sent <+: (s.step c decode a).sent) := by
    intro a ha
    obtain ⟨h', hconsumed, hsent⟩ := h.quiet ha
    exact ⟨hconsumed ▸ List.prefix_rfl, fun _ => ⟨h', hsent ▸ List.prefix_rfl⟩⟩
  have hsame : s.consumed <+: s.consumed ∧
      ((wireFormat c).Proper s.frames s.sent s.consumed →
        s.Proper c decode ∧ s.sent <+: s.sent) :=
    ⟨List.prefix_rfl, fun _ => ⟨h, List.prefix_rfl⟩⟩
  cases a with
  | wrote count =>
    cases count with
    | zero => exact ⟨_, rfl, hquiet _ rfl⟩
    | succ count =>
      simp only [Imported.turn]
      split
      · exact ⟨s, rfl, hsame⟩
      · rename_i hsome
        obtain ⟨h', hconsumed, hsent⟩ := h.pays (G := G) hsome
        exact ⟨_, rfl, hconsumed ▸ List.prefix_rfl, fun _ => ⟨h', hsent⟩⟩
  | read bytes grant =>
    cases bytes with
    | nil => exact ⟨_, rfl, hquiet _ rfl⟩
    | cons b rest =>
      simp only [Imported.turn]
      split
      · exact ⟨s, rfl, hsame⟩
      · rename_i hsome
        obtain ⟨hconsumed, hsent, h'⟩ := h.takes hsome (List.length_take_le _ _) grant
        refine ⟨_, rfl, ?_, fun hproper => ⟨h' hproper, hsent ▸ List.prefix_rfl⟩⟩
        rw [hconsumed]
        exact List.prefix_append _ _
  | control bytes =>
    cases bytes with
    | nil => exact ⟨_, rfl, hquiet _ rfl⟩
    | cons b rest => exact ⟨s, rfl, hsame⟩
  | sent =>
    refine ⟨_, rfl, ?_⟩
    by_cases hi : s.link.outcome = none ∧
        ∃ sequence value, s.link.importing = .sending sequence value
    · obtain ⟨hopened, sequence, value, hi⟩ := hi
      obtain ⟨hconsumed, hsent, h'⟩ := h.admits (G := G) hopened hi
      rw [hconsumed]
      exact ⟨List.prefix_rfl, fun hproper => ⟨h' hproper, hsent ▸ List.prefix_rfl⟩⟩
    · have hidles : s.Idles (s.step c decode (.sent : Arrival G)) := by
        rcases h.keeps with hinv | ⟨hended, -⟩
        · exact hinv.idles_sent fun sequence value hs => hi ⟨hinv.opened, sequence, value, hs⟩
        · exact idles_of_ended hended .sent
      obtain ⟨h', hconsumed, hsent⟩ := h.idles (h.keeps.step _) hidles
      exact ⟨hconsumed ▸ List.prefix_rfl, fun _ => ⟨h', hsent ▸ List.prefix_rfl⟩⟩
  | _ => exact ⟨_, rfl, hquiet _ trivial⟩

/-- An importing link is a receiver that keeps to the format. -/
theorem receiver_keeps (c : Contract) (decode : Decode β G) :
    (receiver c decode).Keeps (wireFormat c) (Proper c decode) where
  valid s h f hf := by
    obtain ⟨a, ha, rfl⟩ := List.mem_map.mp hf
    exact (h.faithful a ha).1
  consumed s h := by
    show (wireFormat c).codes s.frames <+: _
    rw [h.codes]
    exact List.prefix_append _ _
  sent s h := by
    obtain ⟨owed, howed, -⟩ := h.settles.credits
    show s.sent <+: (wireFormat c).acks s.frames
    rw [acks_eq, ← howed]
    exact List.prefix_append _ _
  step _ a h := h.step a

theorem start_proper (c : Contract) (decode : Decode β G) (connection : Connection)
    (maxPayload : Nat) : (start c connection maxPayload).Proper c decode :=
  ⟨Or.inl (start_inv decode connection maxPayload), by simp [start], fun h => by cases h⟩

end Imported

end Hiway.Unix
