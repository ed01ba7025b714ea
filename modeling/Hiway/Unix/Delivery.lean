import Hiway.Unix.Sides

/-!
# What a pair of links delivers

The importing link has admitted a front of the frames that the exporting link has started,
and at most one frame is behind it. What it has read of that frame and what is still on the
way are together what was written of it. While the exporting link goes on, the credits it
has read and those on the way are what the importing link wrote. So every credit that
arrives is the expected one and every header is accepted, unless it announces more than the
importing link has room for.

* `Joined.step`: every event of either link keeps the pair joined.
* `Joined.admits`: the value of the frame under way is admitted.
* `Joined.expects`: a credit that was read to its end is the one of the last frame.
* `Joined.rest_le`: at most one frame was not admitted.
* `run_pair_delivers`: the values admitted are a front of those provided, whatever the links
  and sockets do.
-/

namespace Hiway.Unix

open Target Transport

/-! ## Frames on the way -/

def Started.key (f : Started) : UInt64 × List UInt8 := (f.sequence, f.bytes)

def Accepted.key {β : Type} (a : Accepted β) : UInt64 × List UInt8 := (a.sequence, a.bytes)

def Started.credit (f : Started) : List UInt8 := creditOf f.sequence

/-- The frame that was started for an item, in a buffer of `m` bytes. -/
def Encodes {α : Type} (E : WireCodec α) (m : Nat) (f : Started) (x : UInt64 × α) : Prop :=
  f.sequence = x.1 ∧ ∃ output body, E.encode x.2 output = (.ok body.length, body) ∧
    body.length ≤ u32Max ∧ body.length ≤ m ∧
    f.bytes = header E.contract f.sequence body.length ++ body

/-- The contract of the importing link accepts the headers of the exporting one. -/
structure Matches (source target : Contract) : Prop where
  event : target.event = source.event
  major : target.major = source.major
  delivery : target.delivery = source.delivery

theorem Matches.header {source target : Contract} (h : Matches source target) (sequence : UInt64)
    (length : Nat) : headerMatches target (header source sequence length) = true := by
  have hsame := headerMatches_header source sequence length
  unfold headerMatches at hsame ⊢
  rw [h.event, h.major]
  exact hsame

/-- A header of the source that follows the last frame is at most too large. -/
theorem Matches.accepts [Target] {source target : Contract} (h : Matches source target)
    {sequence : UInt64} {length m : Nat} {previous : Option UInt64} (hu : length ≤ u32Max)
    (hword : length ≤ usizeMax)
    (hfollows : ∀ last ∈ previous, source.delivery.follows last sequence = true) :
    acceptHeader target (Transport.header source sequence length) m previous ≠
      .error .protocol := by
  have hlen := length_header source sequence length
  have hmatches := h.header sequence length
  have hlength := headerLength_header source sequence hu hword
  by_cases hfit : length ≤ m
  · have haccept : acceptHeader target (Transport.header source sequence length) m previous =
        .ok (sequence, source.revision, length) := by
      rw [acceptHeader_eq_ok hlen, hlength]
      refine ⟨hmatches, hfit, ?_, headerSequence_header .., headerRevision_header .., rfl⟩
      rw [headerSequence_header, h.delivery]
      exact hfollows
    rw [haccept]
    simp
  · rw [acceptHeader_oversized hlen hmatches (by omega)]
    simp

theorem length_flatMap_credit {β : Type} (l : List β) (f : β → UInt64) :
    (l.flatMap fun x => creditOf (f x)).length = l.length * creditBytes := by
  induction l with
  | nil => exact (Nat.zero_mul _).symm
  | cons x rest ih =>
    rw [List.flatMap_cons, List.length_append, length_creditOf, ih, List.length_cons, Nat.succ_mul,
      Nat.add_comm]

/-- What a read takes of the bytes on the way, and the rest of them. -/
theorem take_drop_length {α : Type} (l : List α) (n : Nat) :
    l = l.take n ++ l.drop (l.take n).length := by
  rw [List.length_take]
  rcases Nat.le_total n l.length with hle | hle
  · rw [Nat.min_eq_left hle, List.take_append_drop]
  · rw [Nat.min_eq_right hle, List.take_of_length_le hle, List.drop_length, List.append_nil]

/-- The last frame changes, but not for those it was started for. -/
theorem forall₂_last {α β : Type} {R : α → β → Prop} {front : List α} {last last' : α}
    {xs : List β} (h : List.Forall₂ R (front ++ [last]) xs) (hlast : ∀ x, R last x → R last' x) :
    List.Forall₂ R (front ++ [last']) xs := by
  induction front generalizing xs with
  | nil =>
    cases h with
    | cons hx hnil => exact List.Forall₂.cons (hlast _ hx) hnil
  | cons f front ih =>
    cases h with
    | cons hx hrest => exact List.Forall₂.cons hx (ih hrest)

/-- What becomes of the last frame does not change what it was started for. -/
theorem encodes_of_same {α : Type} {E : WireCodec α} {m : Nat} {f f' : Started}
    (hsequence : f'.sequence = f.sequence) (hbytes : f'.bytes = f.bytes) (x : UInt64 × α)
    (h : Encodes E m f x) : Encodes E m f' x := by
  unfold Encodes at h ⊢
  rw [hsequence, hbytes]
  exact h

/-- The front of a frame that is long enough is its header. -/
theorem header_of_flight {α : Type} {E : WireCodec α} {m : Nat} {f : Started} {x : UInt64 × α}
    (hf : Encodes E m f x) (hbegun : f.written <+: f.bytes) {head more : List UInt8}
    (hlen : head.length = headerBytes)
    (hwritten : f.written = head ++ more) :
    ∃ body : List UInt8, head = header E.contract f.sequence body.length ∧
      body.length ≤ u32Max ∧ body.length ≤ m ∧
      f.bytes = header E.contract f.sequence body.length ++ body ∧ more <+: body := by
  obtain ⟨-, -, body, -, hu, hword, hbytes⟩ := hf
  obtain ⟨missing, hmissing⟩ := hbegun
  rw [hwritten, List.append_assoc, hbytes] at hmissing
  obtain ⟨hhead, hmore⟩ := List.append_inj hmissing (by rw [hlen, length_header])
  exact ⟨body, hhead, hu, hword, hbytes, missing, hmore⟩

namespace Pair

variable {α β G : Type}

/-! ## The invariant -/

/-- The frames that were admitted, and the one that was not. -/
structure Splits (p : Pair α β) (front rest : List Started) : Prop where
  frames : p.exporter.frames = front ++ rest
  admitted : front.map Started.key = p.importer.admitted.map Accepted.key
  written : ∀ f ∈ front, f.written = f.bytes
  flight : rest.flatMap Started.written = p.importer.arriving ++ p.data

/-- The frames whose credit was read. -/
def acknowledged (p : Pair α β) : List Started := p.exporter.frames.filter Started.credited

/-- A pair between two events. -/
structure Joined [Target] (E : WireCodec α) (c : Contract) (decode : Decode β G) (m n : Nat)
    (p : Pair α β) : Prop where
  exporter : p.exporter.Keeps
  importer : p.importer.Keeps c decode
  word : m ≤ usizeMax
  buffer : p.exporter.link.buffer.length = m
  room : p.importer.link.maxPayload = n
  encoded : List.Forall₂ (Encodes E m) p.exporter.frames p.provided
  order : p.provided.IsChain fun x y => E.contract.delivery.follows x.1 y.1 = true
  splits : ∃ front rest, p.Splits front rest
  credited : p.acknowledged.length ≤ p.importer.admitted.length
  control : p.exporter.link.outcome = none → p.importer.sent =
    p.acknowledged.flatMap Started.credit ++ (p.exporter.link.crediting.read ++ p.control)
  exporterAgrees : p.exporter.link.outcome ≠ some (some .protocol)
  importerAgrees : p.importer.link.outcome ≠ some (some .protocol)

variable {p : Pair α β} {front rest : List Started}

theorem Splits.length (h : p.Splits front rest) : front.length = p.importer.admitted.length := by
  have hlen := congrArg List.length h.admitted
  rwa [List.length_map, List.length_map] at hlen

theorem Splits.sequences (h : p.Splits front rest) :
    front.map Started.sequence = p.importer.admitted.map Accepted.sequence := by
  have hfst := congrArg (List.map Prod.fst) h.admitted
  rwa [List.map_map, List.map_map] at hfst

theorem Splits.credits (h : p.Splits front rest) :
    front.flatMap Started.credit = p.importer.credits := by
  have hsequences := congrArg (List.flatMap creditOf) h.sequences
  rw [List.flatMap_map, List.flatMap_map] at hsequences
  exact hsequences

section

variable [Target] {E : WireCodec α} {c : Contract} {decode : Decode β G} {m n : Nat}

theorem Joined.settles (h : p.Joined E c decode m n) : p.exporter.Settles :=
  h.exporter.elim Exported.Inv.settles And.right

theorem Joined.earlier (h : p.Joined E c decode m n) :
    ∀ f ∈ p.exporter.frames.dropLast, f.credited = true := by
  intro f hf
  have hcomplete := h.settles.earlier f hf
  simp only [Started.complete, Bool.and_eq_true] at hcomplete
  exact hcomplete.1

/-- Only the last frame may wait for its credit. -/
theorem Joined.acknowledged_eq (h : p.Joined E c decode m n) {before : List Started}
    {last : Started} (hframes : p.exporter.frames = before ++ [last]) :
    p.acknowledged = before ++ (bif last.credited then [last] else []) := by
  have hearlier := h.earlier
  rw [hframes, List.dropLast_concat] at hearlier
  rw [acknowledged, hframes, List.filter_append, List.filter_singleton,
    List.filter_eq_self.mpr hearlier]

/-- Every frame but the last has its credit, so at most one was not admitted. -/
theorem Joined.rest_le (h : p.Joined E c decode m n) (hs : p.Splits front rest) :
    rest.length ≤ 1 := by
  have hearlier := h.earlier
  have hcount : p.exporter.frames.dropLast.length ≤ p.acknowledged.length := by
    have hsub : p.exporter.frames.dropLast.filter Started.credited = p.exporter.frames.dropLast :=
      List.filter_eq_self.mpr hearlier
    rw [← hsub]
    exact ((List.dropLast_sublist _).filter _).length_le
  have hle := h.credited
  have hlen := hs.length
  rw [hs.frames, List.length_dropLast, List.length_append] at hcount
  omega

/-! ## Events that move nothing -/

theorem Joined.exporterIdles (h : p.Joined E c decode m n) {exporter : Exported}
    (hkeeps : exporter.Keeps) (hidles : p.exporter.Idles exporter) :
    Joined E c decode m n { p with exporter := exporter } where
  exporter := hkeeps
  importer := h.importer
  word := h.word
  buffer := by
    show exporter.link.buffer.length = m
    rw [hidles.buffer]
    exact h.buffer
  room := h.room
  encoded := by
    show List.Forall₂ (Encodes E m) exporter.frames p.provided
    rw [hidles.frames]
    exact h.encoded
  order := h.order
  splits := by
    obtain ⟨front, rest, hs⟩ := h.splits
    exact ⟨front, rest, hidles.frames.trans hs.frames, hs.admitted, hs.written, hs.flight⟩
  credited := by
    show (exporter.frames.filter Started.credited).length ≤ _
    rw [hidles.frames]
    exact h.credited
  control := by
    intro hopened
    obtain ⟨hbefore, hread⟩ := hidles.opened hopened
    show _ = (exporter.frames.filter Started.credited).flatMap Started.credit ++
      (exporter.link.crediting.read ++ p.control)
    rw [hidles.frames, hread]
    exact h.control hbefore
  exporterAgrees := fun hp => h.exporterAgrees (hidles.agrees hp)
  importerAgrees := h.importerAgrees

theorem Joined.importerIdles (h : p.Joined E c decode m n) {importer : Imported β}
    (hkeeps : importer.Keeps c decode)
    (hroom : importer.link.maxPayload = p.importer.link.maxPayload)
    (hidles : p.importer.Idles importer) :
    Joined E c decode m n { p with importer := importer } where
  exporter := h.exporter
  importer := hkeeps
  word := h.word
  buffer := h.buffer
  room := hroom.trans h.room
  encoded := h.encoded
  order := h.order
  splits := by
    obtain ⟨front, rest, hs⟩ := h.splits
    refine ⟨front, rest, hs.frames, ?_, hs.written, ?_⟩
    · show _ = importer.admitted.map Accepted.key
      rw [hidles.admitted]
      exact hs.admitted
    · show _ = importer.arriving ++ p.data
      rw [hidles.arriving]
      exact hs.flight
  credited := by
    show _ ≤ importer.admitted.length
    rw [hidles.admitted]
    exact h.credited
  control := by
    intro hopened
    show importer.sent = _
    rw [hidles.sent]
    exact h.control hopened
  exporterAgrees := h.exporterAgrees
  importerAgrees := fun hp => h.importerAgrees (hidles.agrees hp)

/-! ## An item starts a frame -/

theorem Joined.exporterInv (h : p.Joined E c decode m n)
    (hopened : p.exporter.link.outcome = none) : p.exporter.Inv := by
  rcases h.exporter with hinv | ⟨hended, -⟩
  · exact hinv
  · exact absurd hopened hended

theorem Joined.importerInv (h : p.Joined E c decode m n)
    (hopened : p.importer.link.outcome = none) : p.importer.Inv c decode := by
  rcases h.importer with hinv | ⟨hended, -⟩
  · exact hinv
  · exact absurd hopened hended

theorem Joined.provide (h : p.Joined E c decode m n) (sequence : UInt64) (payload : α) :
    (p.provide E sequence payload).Joined E c decode m n := by
  unfold Pair.provide
  split
  · rename_i hfollows
    have hkeeps := h.exporter.step (E := E) (.received sequence payload)
    cases hopened : p.exporter.link.outcome with
    | some outcome =>
      refine h.exporterIdles hkeeps (Exported.idles_of_ended ?_ _)
      rw [hopened]
      simp
    | none =>
      have hinv := h.exporterInv hopened
      cases hr : p.exporter.link.exporting with
      | receiving =>
        cases hencode : encodeData E sequence payload p.exporter.link.buffer with
        | error error => exact h.exporterIdles hkeeps (hinv.rejects hr hencode)
        | ok made =>
          obtain ⟨head, body⟩ := made
          obtain ⟨hgoes, hcrediting, hframes⟩ := hinv.starts hr hencode
          have hall := hinv.all_credited hr
          have hacknowledged : p.acknowledged = p.exporter.frames := List.filter_eq_self.mpr hall
          have hnew : (p.exporter.frames ++ [Started.mk sequence (head ++ body) [] false]).filter
              Started.credited = p.exporter.frames := by
            rw [List.filter_append, List.filter_eq_self.mpr hall]
            exact List.append_nil _
          obtain ⟨hfit, hu, henc, rfl⟩ := encodeData_eq_ok.mp hencode
          have hbody := E.encode_length payload (p.exporter.link.buffer.take (E.encodedLen payload))
          rw [henc, List.length_take, Nat.min_eq_left hfit] at hbody
          dsimp only at hbody
          obtain ⟨front, rest, hs⟩ := h.splits
          have hrest : rest = [] := by
            have hle := h.credited
            rw [hacknowledged, hs.frames, List.length_append, ← hs.length] at hle
            exact List.eq_nil_of_length_eq_zero (by omega)
          subst hrest
          refine
            { exporter := hkeeps
              importer := h.importer
              word := h.word
              buffer := hgoes.buffer.trans h.buffer
              room := h.room
              encoded := ?_
              order := ?_
              splits := ⟨front,
                [⟨sequence, header E.contract sequence (E.encodedLen payload) ++ body, [], false⟩],
                ?_, hs.admitted, hs.written, hs.flight⟩
              credited := ?_
              control := fun _ => ?_
              exporterAgrees := ?_
              importerAgrees := h.importerAgrees }
          · show List.Forall₂ (Encodes E m) (p.exporter.step E _).frames (p.provided ++ [_])
            rw [hframes]
            refine List.rel_append h.encoded (List.Forall₂.cons ?_ List.Forall₂.nil)
            refine ⟨rfl, _, body, hbody ▸ henc, hbody ▸ hu, ?_, by rw [hbody]⟩
            rw [hbody]
            exact hfit.trans h.buffer.le
          · refine List.IsChain.append h.order (List.IsChain.singleton _) ?_
            intro x hx y hy
            cases Option.mem_def.mp hy
            rw [Option.mem_def.mp hx] at hfollows
            exact hfollows
          · show (p.exporter.step E _).frames = _
            rw [hframes, hs.frames, List.append_nil]
          · show ((p.exporter.step E _).frames.filter Started.credited).length ≤ _
            rw [hframes, hnew, ← hacknowledged]
            exact h.credited
          · show _ =
              ((p.exporter.step E _).frames.filter Started.credited).flatMap Started.credit ++
              ((p.exporter.step E _).link.crediting.read ++ p.control)
            rw [hframes, hnew, hcrediting, ← hacknowledged]
            exact h.control hopened
          · show (p.exporter.step E _).link.outcome ≠ _
            rw [hgoes.outcome]
            simp
      | _ =>
        refine h.exporterIdles hkeeps (hinv.idles_received ?_ _ _)
        rw [hr]
        simp
  · exact h

/-! ## Bytes of a frame -/

theorem Joined.sendData (h : p.Joined E c decode m n) {count : Nat}
    (hsome : p.exporter.offered.take count ≠ []) :
    Joined E c decode m n { p with
      exporter := p.exporter.step E (.wrote (p.exporter.offered.take count).length)
      data := p.data ++ p.exporter.offered.take count } := by
  have hopened : p.exporter.link.outcome = none := by
    by_contra hended
    obtain ⟨outcome, houtcome⟩ := Option.ne_none_iff_exists'.mp hended
    refine hsome ?_
    simp [Exported.offered, houtcome]
  obtain ⟨hgoes, hcrediting, -, before, last, hframes, hunwritten, hafter⟩ :=
    (h.exporterInv hopened).sends (E := E) hsome
  obtain ⟨front, rest, hs⟩ := h.splits
  obtain ⟨rfl, rfl⟩ : front = before ∧ rest = [last] := by
    have hle := h.rest_le hs
    have heq := hs.frames.symm.trans hframes
    cases rest with
    | nil =>
      rw [List.append_nil] at heq
      have hmem : last ∈ front := by
        rw [heq]
        exact List.mem_append_right _ List.mem_cons_self
      exact absurd (hs.written last hmem) hunwritten
    | cons f rest =>
      obtain rfl : rest = [] := List.eq_nil_of_length_eq_zero (by simpa using hle)
      obtain ⟨hfront, hlast⟩ := List.append_inj' heq rfl
      exact ⟨hfront, hlast⟩
  have hearlier := h.earlier
  rw [hframes, List.dropLast_concat] at hearlier
  have hsame : (p.exporter.step E (.wrote (p.exporter.offered.take count).length)).frames.filter
      Started.credited = front ++
        (bif last.credited then
          [{ last with written := last.written ++ p.exporter.offered.take count }] else []) := by
    rw [hafter, List.filter_append, List.filter_singleton, List.filter_eq_self.mpr hearlier]
  have hbefore := h.acknowledged_eq hframes
  refine
    { exporter := h.exporter.step (.wrote (p.exporter.offered.take count).length)
      importer := h.importer
      word := h.word
      buffer := hgoes.buffer.trans h.buffer
      room := h.room
      encoded := ?_
      order := h.order
      splits := ⟨front, [{ last with written := last.written ++ p.exporter.offered.take count }],
        hafter, hs.admitted, hs.written, ?_⟩
      credited := ?_
      control := fun _ => ?_
      exporterAgrees := ?_
      importerAgrees := h.importerAgrees }
  · show List.Forall₂ (Encodes E m) (p.exporter.step E _).frames p.provided
    rw [hafter]
    have hencoded := h.encoded
    rw [hframes] at hencoded
    exact forall₂_last hencoded (encodes_of_same rfl rfl)
  · have hflight := hs.flight
    rw [List.flatMap_singleton] at hflight ⊢
    show last.written ++ p.exporter.offered.take count =
      p.importer.arriving ++ (p.data ++ p.exporter.offered.take count)
    rw [hflight, List.append_assoc]
  · have hle := h.credited
    show ((p.exporter.step E _).frames.filter Started.credited).length ≤ _
    rw [hsame]
    rw [hbefore] at hle
    cases hc : last.credited with
    | false =>
      rw [hc] at hle
      exact hle
    | true =>
      rw [hc, cond_true, List.length_append] at hle
      rw [cond_true, List.length_append]
      exact hle
  · have hcontrol := h.control hopened
    show _ = ((p.exporter.step E _).frames.filter Started.credited).flatMap Started.credit ++
      ((p.exporter.step E _).link.crediting.read ++ p.control)
    rw [hsame, hcrediting]
    rw [hbefore] at hcontrol
    cases hc : last.credited with
    | false =>
      rw [hc] at hcontrol
      exact hcontrol
    | true =>
      rw [hc, cond_true, List.flatMap_append] at hcontrol
      rw [cond_true, List.flatMap_append]
      exact hcontrol
  · show (p.exporter.step E _).link.outcome ≠ _
    rw [hgoes.outcome]
    simp

theorem Joined.encodes_last (h : p.Joined E c decode m n) {f : Started}
    (hframes : p.exporter.frames = front ++ [f]) : ∃ x, Encodes E m f x := by
  have hlast := List.forall₂_drop front.length h.encoded
  rw [hframes, List.drop_left] at hlast
  generalize p.provided.drop front.length = xs at hlast
  cases hlast with
  | cons hx _ => exact ⟨_, hx⟩

/-- The frame under way. -/
theorem Joined.flying (h : p.Joined E c decode m n) (hs : p.Splits front rest)
    (hsome : p.importer.arriving ++ p.data ≠ []) :
    ∃ f x, rest = [f] ∧ Encodes E m f x ∧ f.written <+: f.bytes ∧
      f.written = p.importer.arriving ++ p.data ∧
      ∀ last ∈ p.importer.admitted.getLast?.map Accepted.sequence,
        E.contract.delivery.follows last f.sequence = true := by
  have hflight := hs.flight
  have hle := h.rest_le hs
  cases rest with
  | nil => exact absurd hflight.symm hsome
  | cons f rest =>
    obtain rfl : rest = [] := List.eq_nil_of_length_eq_zero (by simpa using hle)
    rw [List.flatMap_singleton] at hflight
    have hmem : f ∈ p.exporter.frames := by
      rw [hs.frames]
      exact List.mem_append_right _ List.mem_cons_self
    have hsequences : p.exporter.frames.map Started.sequence = p.provided.map Prod.fst := by
      rw [← List.forall₂_eq_eq_eq, List.forall₂_map_left_iff, List.forall₂_map_right_iff]
      exact h.encoded.imp fun _ _ hx => hx.1
    have hchain : (p.exporter.frames.map Started.sequence).IsChain fun a b =>
        E.contract.delivery.follows a b = true := by
      rw [hsequences, List.isChain_map]
      exact h.order
    obtain ⟨x, hx⟩ := h.encodes_last hs.frames
    refine ⟨f, x, rfl, hx, h.settles.written f hmem, hflight, ?_⟩
    rw [hs.frames, List.map_append, List.isChain_append] at hchain
    intro last hlast
    rw [← List.getLast?_map, ← hs.sequences] at hlast
    exact hchain.2.2 last hlast f.sequence rfl

theorem Joined.receiveData (h : p.Joined E c decode m n) (hmatch : Matches E.contract c)
    {bytes more : List UInt8} (hdata : p.data = bytes ++ more) (hsome : bytes ≠ [])
    (hroom : bytes.length ≤ p.importer.room) (grant : G) :
    Joined E c decode m n { p with
      importer := p.importer.step c decode (.read bytes grant)
      data := more } := by
  have hopened : p.importer.link.outcome = none := by
    by_contra hended
    obtain ⟨outcome, houtcome⟩ := Option.ne_none_iff_exists'.mp hended
    simp only [Imported.room, houtcome] at hroom
    exact hsome (List.eq_nil_of_length_eq_zero (Nat.le_zero.mp hroom))
  have hinv := h.importerInv hopened
  obtain ⟨hadmitted, harriving, hsent, -, hagrees⟩ := hinv.takes hsome hroom grant
  obtain ⟨front, rest, hs⟩ := h.splits
  have harrived : p.importer.arriving ++ p.data = p.importer.arriving ++ bytes ++ more := by
    rw [hdata, List.append_assoc]
  refine
    { exporter := h.exporter
      importer := h.importer.step (.read bytes grant)
      word := h.word
      buffer := h.buffer
      room := (Imported.step_maxPayload _ _).trans h.room
      encoded := h.encoded
      order := h.order
      splits := ⟨front, rest, hs.frames, ?_, hs.written, ?_⟩
      credited := ?_
      control := fun hexporter => ?_
      exporterAgrees := h.exporterAgrees
      importerAgrees := fun hp => ?_ }
  · show _ = (p.importer.step c decode (.read bytes grant)).admitted.map Accepted.key
    rw [hadmitted]
    exact hs.admitted
  · show _ = (p.importer.step c decode (.read bytes grant)).arriving ++ more
    rw [harriving, ← harrived]
    exact hs.flight
  · show _ ≤ (p.importer.step c decode (.read bytes grant)).admitted.length
    rw [hadmitted]
    exact h.credited
  · show (p.importer.step c decode (.read bytes grant)).sent = _
    rw [hsent]
    exact h.control hexporter
  · obtain ⟨hlen, haccept⟩ := hagrees hp
    have hflying : p.importer.arriving ++ p.data ≠ [] := by
      rw [harrived]
      intro hnil
      rw [List.append_eq_nil_iff.mp hnil |>.1] at hlen
      cases hlen
    obtain ⟨f, x, -, hf, hbegun, hwritten, hfollows⟩ := h.flying hs hflying
    obtain ⟨body, hhead, hu, hfit, -⟩ :=
      header_of_flight hf hbegun hlen (hwritten.trans harrived)
    rw [hhead, hinv.previous] at haccept
    exact hmatch.accepts hu (hfit.trans h.word) hfollows haccept

/-- The value of the frame under way is admitted. -/
theorem Joined.admits (h : p.Joined E c decode m n) (hopened : p.importer.link.outcome = none)
    {sequence : UInt64} {value : β} (hi : p.importer.link.importing = .sending sequence value) :
    Joined E c decode m n { p with importer := p.importer.step c decode (.sent : Arrival G) } := by
  have hinv := h.importerInv hopened
  obtain ⟨harriving, hsent, houtcome, -, a, hadmitted, hbytes, hlen, hlength⟩ := hinv.admits hi
  obtain ⟨front, rest, hs⟩ := h.splits
  have hflying : p.importer.arriving ++ p.data ≠ [] := by
    rw [← hbytes, Accepted.bytes]
    intro hnil
    rw [(List.append_eq_nil_iff.mp (List.append_eq_nil_iff.mp hnil).1).1] at hlen
    cases hlen
  obtain ⟨f, x, rfl, hf, hbegun, hwritten, -⟩ := h.flying hs hflying
  have hsplit : f.written = a.header ++ (a.payload ++ p.data) := by
    rw [hwritten, ← hbytes, Accepted.bytes, List.append_assoc]
  obtain ⟨body, hhead, hu, hfit, hframe, more, hmore⟩ := header_of_flight hf hbegun hlen hsplit
  -- the header announces the payload, so nothing of the frame is left
  rw [hhead, headerLength_header _ _ hu (hfit.trans h.word)] at hlength
  rw [List.append_assoc] at hmore
  have hpayload : a.payload = body := by
    have hall := congrArg List.length hmore
    rw [List.length_append] at hall
    have hnil : p.data ++ more = [] := List.eq_nil_of_length_eq_zero (by omega)
    rwa [hnil, List.append_nil] at hmore
  have hdone : p.data = [] := by
    rw [hpayload] at hmore
    exact (List.append_eq_nil_iff.mp (List.append_right_eq_self.mp hmore)).1
  have hall : a.bytes = f.bytes := by
    rw [Accepted.bytes, hhead, hpayload, hframe]
  have hkey : f.key = a.key := by
    rw [Started.key, Accepted.key, hall, Accepted.sequence, hhead, headerSequence_header]
  refine
    { exporter := h.exporter
      importer := h.importer.step .sent
      word := h.word
      buffer := h.buffer
      room := (Imported.step_maxPayload _ _).trans h.room
      encoded := h.encoded
      order := h.order
      splits := ⟨front ++ [f], [], ?_, ?_, ?_, ?_⟩
      credited := ?_
      control := fun hexporter => ?_
      exporterAgrees := h.exporterAgrees
      importerAgrees := ?_ }
  · rw [List.append_nil]
    exact hs.frames
  · show _ = (p.importer.step c decode .sent).admitted.map Accepted.key
    rw [hadmitted, List.map_append, List.map_append, hs.admitted, List.map_singleton,
      List.map_singleton, hkey]
  · intro g hg
    rcases List.mem_append.mp hg with hg | hg
    · exact hs.written g hg
    · cases List.mem_singleton.mp hg
      rw [hwritten, hdone, List.append_nil, ← hbytes, hall]
  · show [] = (p.importer.step c decode .sent).arriving ++ p.data
    rw [harriving, hdone]
    rfl
  · show _ ≤ (p.importer.step c decode .sent).admitted.length
    rw [hadmitted, List.length_append]
    exact h.credited.trans (Nat.le_add_right _ _)
  · show (p.importer.step c decode .sent).sent = _
    rw [hsent]
    exact h.control hexporter
  · show (p.importer.step c decode .sent).link.outcome ≠ _
    rw [houtcome]
    simp

/-! ## Bytes of a credit -/

theorem Joined.sendCredit (h : p.Joined E c decode m n) {count : Nat}
    (hsome : p.importer.offered.take count ≠ []) :
    Joined E c decode m n { p with
      importer := p.importer.step c decode (.wrote (p.importer.offered.take count).length)
      control := p.control ++ p.importer.offered.take count } := by
  have hopened : p.importer.link.outcome = none := by
    by_contra hended
    obtain ⟨outcome, houtcome⟩ := Option.ne_none_iff_exists'.mp hended
    refine hsome ?_
    simp [Imported.offered, houtcome]
  obtain ⟨hadmitted, harriving, hsent, houtcome, -⟩ := (h.importerInv hopened).pays hsome
  obtain ⟨front, rest, hs⟩ := h.splits
  refine
    { exporter := h.exporter
      importer := h.importer.step (.wrote (p.importer.offered.take count).length)
      word := h.word
      buffer := h.buffer
      room := (Imported.step_maxPayload _ _).trans h.room
      encoded := h.encoded
      order := h.order
      splits := ⟨front, rest, hs.frames, ?_, hs.written, ?_⟩
      credited := ?_
      control := fun hexporter => ?_
      exporterAgrees := h.exporterAgrees
      importerAgrees := ?_ }
  · show _ = (p.importer.step c decode (.wrote _)).admitted.map Accepted.key
    rw [hadmitted]
    exact hs.admitted
  · show _ = (p.importer.step c decode (.wrote _)).arriving ++ p.data
    rw [harriving]
    exact hs.flight
  · show _ ≤ (p.importer.step c decode (.wrote _)).admitted.length
    rw [hadmitted]
    exact h.credited
  · show (p.importer.step c decode (.wrote _)).sent = p.acknowledged.flatMap Started.credit ++
      (p.exporter.link.crediting.read ++ (p.control ++ p.importer.offered.take count))
    rw [hsent, h.control hexporter]
    simp only [List.append_assoc]
  · show (p.importer.step c decode (.wrote _)).link.outcome ≠ _
    rw [houtcome]
    simp

/-- A credit that was read to its end is the one of the last frame, which is admitted. -/
theorem Joined.expects (h : p.Joined E c decode m n) (hopened : p.exporter.link.outcome = none)
    {frame more : List UInt8} (hread : p.exporter.link.crediting.read ++ p.control = frame ++ more)
    (hlen : frame.length = creditBytes) :
    ∃ before last, p.exporter.frames = before ++ [last] ∧ p.acknowledged = before ∧
      last.credited = false ∧ frame = creditOf last.sequence ∧
      p.Splits p.exporter.frames [] ∧ more = [] := by
  obtain ⟨front, rest, hs⟩ := h.splits
  have hpaid : ∃ owed, p.importer.sent ++ owed = p.importer.credits := by
    have himporter : p.importer.Settles c decode :=
      h.importer.elim (fun hinv => hinv.settles) And.right
    obtain ⟨owed, howed, -⟩ := himporter.credits
    exact ⟨owed, howed⟩
  obtain ⟨owed, howed⟩ := hpaid
  rw [h.control hopened, hread, ← hs.credits] at howed
  have hcount := congrArg List.length howed
  simp only [List.length_append, hlen] at hcount
  rw [show (p.acknowledged.flatMap Started.credit).length = p.acknowledged.length * creditBytes from
      length_flatMap_credit _ _,
    show (front.flatMap Started.credit).length = front.length * creditBytes from
      length_flatMap_credit _ _] at hcount
  have hmore : p.acknowledged.length < front.length := by
    by_contra hle
    have hmul := Nat.mul_le_mul_right creditBytes (Nat.le_of_not_lt hle)
    have hpos : 0 < creditBytes := by decide
    omega
  have hframes : front.length ≤ p.exporter.frames.length := by
    rw [hs.frames, List.length_append]
    omega
  cases hlast : p.exporter.frames.getLast? with
  | none =>
    rw [List.getLast?_eq_none_iff.mp hlast] at hframes
    exact absurd hmore (by have := Nat.le_zero.mp hframes; omega)
  | some last =>
    obtain ⟨before, hbefore⟩ := List.getLast?_eq_some_iff.mp hlast
    have hacknowledged := h.acknowledged_eq hbefore
    cases hcredited : last.credited with
    | true =>
      rw [hcredited, cond_true, ← hbefore] at hacknowledged
      rw [hacknowledged] at hmore
      exact absurd hmore (Nat.not_lt.mpr hframes)
    | false =>
      rw [hcredited, cond_false, List.append_nil] at hacknowledged
      have hrest : rest = [] := by
        have htotal := congrArg List.length (hs.frames.symm.trans hbefore)
        rw [List.length_append, List.length_append, List.length_singleton] at htotal
        rw [hacknowledged] at hmore
        exact List.eq_nil_of_length_eq_zero (by omega)
      subst hrest
      have hfront : front = before ++ [last] := by
        rw [← hbefore, hs.frames, List.append_nil]
      rw [hacknowledged, hfront, List.flatMap_append, List.flatMap_singleton, List.append_assoc,
        List.append_cancel_left_eq, List.append_assoc] at howed
      have hcredit : frame ++ (more ++ owed) = creditOf last.sequence := howed
      have hnil : more ++ owed = [] := by
        have hsize := congrArg List.length hcredit
        rw [List.length_append, hlen, length_creditOf] at hsize
        exact List.eq_nil_of_length_eq_zero (by omega)
      rw [hnil, List.append_nil] at hcredit
      refine ⟨before, last, hbefore, hacknowledged, hcredited, hcredit, ?_,
        (List.append_eq_nil_iff.mp hnil).1⟩
      rw [hbefore, ← hfront]
      exact hs

theorem Joined.receiveCredit (h : p.Joined E c decode m n) {bytes more : List UInt8}
    (hcontrol : p.control = bytes ++ more) (hsome : bytes ≠ [])
    (hroom : bytes.length ≤ p.exporter.room) :
    Joined E c decode m n { p with
      exporter := p.exporter.step E (.read bytes)
      control := more } := by
  have hopened : p.exporter.link.outcome = none := by
    by_contra hended
    obtain ⟨outcome, houtcome⟩ := Option.ne_none_iff_exists'.mp hended
    simp only [Exported.room, houtcome] at hroom
    exact hsome (List.eq_nil_of_length_eq_zero (Nat.le_zero.mp hroom))
  obtain ⟨hle, -, hshort, hfull⟩ := (h.exporterInv hopened).reads (E := E) hsome hroom
  have hkeeps := h.exporter.step (E := E) (.read bytes)
  have hread : p.exporter.link.crediting.read ++ p.control =
      p.exporter.link.crediting.read ++ bytes ++ more := by
    rw [hcontrol, List.append_assoc]
  rcases Nat.lt_or_eq_of_le hle with hlt | heq
  · obtain ⟨hgoes, hframes, hreading⟩ := hshort hlt
    obtain ⟨front, rest, hs⟩ := h.splits
    refine
      { exporter := hkeeps
        importer := h.importer
        word := h.word
        buffer := hgoes.buffer.trans h.buffer
        room := h.room
        encoded := ?_
        order := h.order
        splits := ⟨front, rest, hframes.trans hs.frames, hs.admitted, hs.written, hs.flight⟩
        credited := ?_
        control := fun _ => ?_
        exporterAgrees := ?_
        importerAgrees := h.importerAgrees }
    · show List.Forall₂ (Encodes E m) (p.exporter.step E _).frames p.provided
      rw [hframes]
      exact h.encoded
    · show ((p.exporter.step E _).frames.filter Started.credited).length ≤ _
      rw [hframes]
      exact h.credited
    · show _ = ((p.exporter.step E _).frames.filter Started.credited).flatMap Started.credit ++
        ((p.exporter.step E _).link.crediting.read ++ more)
      rw [hframes, hreading, ← hread]
      exact h.control hopened
    · show (p.exporter.step E _).link.outcome ≠ _
      rw [hgoes.outcome]
      simp
  · obtain ⟨before, last, hbefore, hacknowledged, hcredited, hcredit, hs, rfl⟩ :=
      h.expects hopened hread heq
    obtain ⟨hgoes, hafter, hreading⟩ := hfull before last hbefore hcredited hcredit
    have hnow : (p.exporter.step E (.read bytes)).frames.filter Started.credited =
        before ++ [{ last with credited := true }] := by
      have hearlier := h.earlier
      rw [hbefore, List.dropLast_concat] at hearlier
      rw [hafter, List.filter_append, List.filter_eq_self.mpr hearlier]
      rfl
    refine
      { exporter := hkeeps
        importer := h.importer
        word := h.word
        buffer := hgoes.buffer.trans h.buffer
        room := h.room
        encoded := ?_
        order := h.order
        splits := ⟨before ++ [{ last with credited := true }], [], ?_, ?_, ?_, hs.flight⟩
        credited := ?_
        control := fun _ => ?_
        exporterAgrees := ?_
        importerAgrees := h.importerAgrees }
    · show List.Forall₂ (Encodes E m) (p.exporter.step E _).frames p.provided
      rw [hafter]
      have hencoded := h.encoded
      rw [hbefore] at hencoded
      exact forall₂_last hencoded (encodes_of_same rfl rfl)
    · rw [List.append_nil]
      exact hafter
    · have hadmitted := hs.admitted
      rw [hbefore, List.map_append] at hadmitted
      rw [List.map_append]
      exact hadmitted
    · intro f hf
      rcases List.mem_append.mp hf with hf | hf
      · exact hs.written f (by rw [hbefore]; exact List.mem_append_left _ hf)
      · cases List.mem_singleton.mp hf
        exact hs.written last (by rw [hbefore]; exact List.mem_append_right _ List.mem_cons_self)
    · show ((p.exporter.step E _).frames.filter Started.credited).length ≤ _
      rw [hnow, ← hs.length, hbefore, List.length_append, List.length_append]
      exact Nat.le_refl _
    · show _ = ((p.exporter.step E _).frames.filter Started.credited).flatMap Started.credit ++
        ((p.exporter.step E _).link.crediting.read ++ [])
      rw [hnow, hreading, h.control hopened, hacknowledged, hread, List.flatMap_append]
      simp only [List.append_nil]
      rw [hcredit]
      rfl
    · show (p.exporter.step E _).link.outcome ≠ _
      rw [hgoes.outcome]
      simp

/-! ## Every event -/

theorem Joined.exporterQuiet (h : p.Joined E c decode m n) {a : Action α}
    (hquiet : Exported.Quiet a) :
    Joined E c decode m n { p with exporter := p.exporter.step E a } := by
  refine h.exporterIdles (h.exporter.step a) ?_
  rcases h.exporter with hinv | ⟨hended, -⟩
  · exact hinv.idles hquiet
  · exact Exported.idles_of_ended hended a

theorem Joined.importerQuiet (h : p.Joined E c decode m n) {a : Arrival G}
    (hquiet : Imported.Quiet a) :
    Joined E c decode m n { p with importer := p.importer.step c decode a } := by
  refine h.importerIdles (h.importer.step a) (Imported.step_maxPayload _ _) ?_
  rcases h.importer with hinv | ⟨hended, -⟩
  · exact hinv.idles hquiet
  · exact Imported.idles_of_ended hended a

theorem Joined.importerSent (h : p.Joined E c decode m n) :
    Joined E c decode m n { p with importer := p.importer.step c decode (.sent : Arrival G) } := by
  by_cases hopened : p.importer.link.outcome = none
  · by_cases hi : ∃ sequence value, p.importer.link.importing = .sending sequence value
    · obtain ⟨sequence, value, hi⟩ := hi
      exact h.admits hopened hi
    · refine h.importerIdles (h.importer.step .sent) (Imported.step_maxPayload _ _)
        ((h.importerInv hopened).idles_sent ?_)
      intro sequence value hsending
      exact hi ⟨sequence, value, hsending⟩
  · exact h.importerIdles (h.importer.step .sent) (Imported.step_maxPayload _ _)
      (Imported.idles_of_ended hopened .sent)

theorem Joined.step (h : p.Joined E c decode m n) (hmatch : Matches E.contract c)
    (event : Event α G) : (p.step E c decode event).Joined E c decode m n := by
  cases event with
  | exporter action =>
    cases action with
    | received sequence payload => exact h.provide sequence payload
    | wrote count =>
      cases count with
      | zero => exact h.exporterQuiet rfl
      | succ count => exact h
    | read bytes =>
      cases bytes with
      | nil => exact h.exporterQuiet rfl
      | cons b rest => exact h
    | _ => exact h.exporterQuiet trivial
  | importer arrival =>
    cases arrival with
    | sent => exact h.importerSent
    | wrote count =>
      cases count with
      | zero => exact h.importerQuiet rfl
      | succ count => exact h
    | read bytes grant =>
      cases bytes with
      | nil => exact h.importerQuiet rfl
      | cons b rest => exact h
    | control bytes =>
      cases bytes with
      | nil => exact h.importerQuiet rfl
      | cons b rest => exact h
    | _ => exact h.importerQuiet trivial
  | sendData count =>
    simp only [Pair.step]
    split
    · exact h
    · rename_i hsome
      exact h.sendData hsome
  | receiveData count grant =>
    simp only [Pair.step]
    split
    · exact h
    · rename_i hsome
      refine h.receiveData hmatch (take_drop_length _ _) hsome ?_ grant
      exact (List.length_take_le _ _).trans (Nat.min_le_right _ _)
  | sendCredit count =>
    simp only [Pair.step]
    split
    · exact h
    · rename_i hsome
      exact h.sendCredit hsome
  | receiveCredit count =>
    simp only [Pair.step]
    split
    · exact h
    · rename_i hsome
      refine h.receiveCredit (take_drop_length _ _) hsome ?_
      exact (List.length_take_le _ _).trans (Nat.min_le_right _ _)

theorem start_joined (E : WireCodec α) (c : Contract) (decode : Decode β G)
    (source target : Connection) {sourcePayload : Nat} (targetPayload : Nat)
    (hword : sourcePayload ≤ usizeMax) :
    (start E c source target sourcePayload targetPayload).Joined E c decode sourcePayload
      targetPayload where
  exporter := Or.inl (Exported.start_inv E source sourcePayload)
  importer := Or.inl (Imported.start_inv decode target targetPayload)
  word := hword
  buffer := List.length_replicate
  room := rfl
  encoded := List.Forall₂.nil
  order := List.IsChain.nil
  splits := ⟨[], [], rfl, rfl, (by simp), rfl⟩
  credited := Nat.le_refl 0
  control := fun _ => rfl
  exporterAgrees := fun h => by cases h
  importerAgrees := fun h => by cases h

theorem joined_run (hmatch : Matches E.contract c) (source target : Connection)
    {sourcePayload : Nat} (targetPayload : Nat) (hword : sourcePayload ≤ usizeMax)
    (events : List (Event α G)) :
    ((start E c source target sourcePayload targetPayload).run E c decode events).Joined
      E c decode sourcePayload targetPayload :=
  List.foldlRecOn events _ (start_joined E c decode source target targetPayload hword)
    fun _ h event _ => h.step hmatch event

/-! ## Delivery -/

/-- What the codec at the importing end makes of the bytes of the one at the exporting end. -/
def Translates (E : WireCodec α) (decode : Decode β G) (translate : α → β) : Prop :=
  ∀ (payload : α) (output body : List UInt8) (grant : G) (value : β),
    E.encode payload output = (.ok body.length, body) →
    decode body E.contract.revision grant = .ok value → value = translate payload

/-- The value of an admitted frame is the one that the frame was started for. -/
theorem value_of_encodes {translate : α → β} (htranslate : Translates E decode translate)
    {f : Started} {x : UInt64 × α} (hf : Encodes E m f x) {a : Accepted β} {maxPayload : Nat}
    (ha : a.Sound c decode maxPayload) (hkey : f.key = a.key) :
    (a.sequence, a.value) = (x.1, translate x.2) := by
  obtain ⟨hsequence, output, body, hencode, -, -, hbytes⟩ := hf
  obtain ⟨hsame, hall⟩ := Prod.mk.inj hkey
  rw [hbytes, Accepted.bytes] at hall
  obtain ⟨hhead, hpayload⟩ := List.append_inj hall (by rw [length_header, ha.length])
  obtain ⟨grant, hdecode⟩ := ha.decoded
  rw [← hhead, ← hpayload, headerRevision_header] at hdecode
  rw [← hsame, hsequence, htranslate x.2 output body grant a.value hencode hdecode]

theorem admitted_values {translate : α → β} (htranslate : Translates E decode translate)
    {maxPayload : Nat} {front : List Started} {xs : List (UInt64 × α)}
    {admitted : List (Accepted β)}
    (hencoded : List.Forall₂ (Encodes E m) front xs)
    (hkeys : front.map Started.key = admitted.map Accepted.key)
    (hsound : ∀ a ∈ admitted, a.Sound c decode maxPayload) :
    admitted.map (fun a => (a.sequence, a.value)) = xs.map fun x => (x.1, translate x.2) := by
  induction hencoded generalizing admitted with
  | nil =>
    cases admitted with
    | nil => rfl
    | cons a rest => cases hkeys
  | cons hx _ ih =>
    cases admitted with
    | nil => cases hkeys
    | cons a rest =>
      rw [List.map_cons, List.map_cons, List.cons.injEq] at hkeys
      rw [List.map_cons, List.map_cons,
        value_of_encodes htranslate hx (hsound a List.mem_cons_self) hkeys.1,
        ih hkeys.2 fun a ha => hsound a (List.mem_cons_of_mem _ ha)]

/-- What a pair has delivered. -/
structure Delivers (translate : α → β) (p : Pair α β) : Prop where
  values : p.importer.admitted.map (fun a => (a.sequence, a.value)) <+:
    p.provided.map fun x => (x.1, translate x.2)
  window : p.provided.length ≤ p.importer.admitted.length + 1
  acknowledged : (p.exporter.frames.filter Started.credited).map Started.key <+:
    p.importer.admitted.map Accepted.key
  completed : (p.exporter.log.filter fun r => r.outcome = .completed).map (·.sequence) <+:
    p.importer.admitted.map (some ·.sequence)
  agrees : p.exporter.link.outcome ≠ some (some .protocol) ∧
    p.importer.link.outcome ≠ some (some .protocol)

theorem Joined.delivers {translate : α → β} (h : p.Joined E c decode m n)
    (htranslate : Translates E decode translate) : p.Delivers translate := by
  obtain ⟨front, rest, hs⟩ := h.splits
  have himporter : p.importer.Settles c decode :=
    h.importer.elim (fun hinv => hinv.settles) And.right
  have hcount := h.encoded.length_eq
  rw [hs.frames, List.length_append, hs.length] at hcount
  have hlasts : p.acknowledged <+: front ∧ p.exporter.frames.filter Started.complete <+: front := by
    cases hlast : p.exporter.frames.getLast? with
    | none =>
      have hnil := List.getLast?_eq_none_iff.mp hlast
      rw [acknowledged, hnil]
      exact And.intro List.nil_prefix List.nil_prefix
    | some last =>
      obtain ⟨before, hbefore⟩ := List.getLast?_eq_some_iff.mp hlast
      have hacknowledged := h.acknowledged_eq hbefore
      have hcomplete : p.exporter.frames.filter Started.complete =
          before ++ (bif last.complete then [last] else []) := by
        have hearlier := h.settles.earlier
        rw [hbefore, List.dropLast_concat] at hearlier
        rw [hbefore, List.filter_append, List.filter_singleton, List.filter_eq_self.mpr hearlier]
      have hframes : p.acknowledged <+: p.exporter.frames := by
        rw [hacknowledged, hbefore, List.prefix_append_right_inj]
        cases last.credited with
        | false => exact List.nil_prefix
        | true => exact List.prefix_rfl
      have hfront : p.acknowledged <+: front := by
        refine List.prefix_of_prefix_length_le hframes ⟨rest, hs.frames.symm⟩ ?_
        rw [hs.length]
        exact h.credited
      refine ⟨hfront, List.IsPrefix.trans ?_ hfront⟩
      rw [hcomplete, hacknowledged, List.prefix_append_right_inj, Started.complete]
      cases last.credited with
      | false => exact List.nil_prefix
      | true =>
        cases decide (last.written = last.bytes) with
        | false => exact List.nil_prefix
        | true => exact List.prefix_rfl
  refine ⟨?_, ?_, ?_, ?_, h.exporterAgrees, h.importerAgrees⟩
  · have hencoded := List.forall₂_take front.length h.encoded
    rw [hs.frames, List.take_left] at hencoded
    rw [admitted_values htranslate hencoded hs.admitted himporter.sound]
    exact (List.take_prefix _ _).map _
  · have hle := h.rest_le hs
    omega
  · rw [← hs.admitted]
    exact hlasts.1.map _
  · have hsequences := congrArg (List.map some) hs.sequences
    rw [List.map_map, List.map_map] at hsequences
    rw [h.settles.completed]
    show _ <+: p.importer.admitted.map (some ∘ Accepted.sequence)
    rw [← hsequences]
    exact hlasts.2.map _

end

/-- **Delivery over sockets.** However the two links and the sockets between them take turns,
however reads and writes are cut, and whatever ends a link, the values that the importing
link has admitted are those the exporting link was given, in their order with their
sequences, and at most the last is missing. A frame is credited, and recorded as completed,
only when its value was admitted, and neither link ends with a protocol error. -/
theorem run_pair_delivers [Target] (E : WireCodec α) {c : Contract} (hmatch : Matches E.contract c)
    {decode : Decode β G} {translate : α → β} (htranslate : Translates E decode translate)
    (source target : Connection) {sourcePayload : Nat} (targetPayload : Nat)
    (hword : sourcePayload ≤ usizeMax) (events : List (Event α G)) :
    ((start E c source target sourcePayload targetPayload).run E c decode events).Delivers
      translate :=
  (joined_run hmatch source target targetPayload hword events).delivers htranslate

/-- A byte, as the codec of one-byte payloads writes it. -/
def decodeByte : Decode UInt8 Unit
  | [b], _, _ => .ok b
  | _, _, _ => .error (.wire .invalidPayload)

theorem translates_byte : Translates Duplex.byteCodec decodeByte id := by
  intro payload output body grant value hencode hdecode
  have hbody : output.map (fun _ => payload) = body := congrArg Prod.snd hencode
  have hlen : Except.ok 1 = Except.ok body.length := congrArg Prod.fst hencode
  obtain ⟨b, rfl⟩ := List.length_eq_one_iff.mp (Except.ok.inj hlen).symm
  cases hdecode
  cases output with
  | nil => cases hbody
  | cons x rest => exact (List.cons.inj hbody).1.symm

/-- The first frame is credited, and half of the second is on its way when the second link
is dropped. -/
theorem run_pair_delivers_dropped :
    let _ := Target.x64
    let p := (start Duplex.byteCodec Duplex.byteCodec.contract ⟨1, 1⟩ ⟨2, 1⟩ 4 4 :
      Pair UInt8 UInt8).run Duplex.byteCodec Duplex.byteCodec.contract decodeByte
      [.exporter (.received 5 42), .sendData 7, .receiveData 3 (), .sendData 38, .sendData 1,
        .receiveData 38 (), .receiveData 1 (), .importer .sent, .sendCredit 4, .sendCredit 9,
        .receiveCredit 9, .exporter .exportResumed, .exporter (.received 6 43), .sendData 20,
        .importer .dropped]
    p.Delivers id ∧ p.importer.admitted.map (fun a => (a.sequence, a.value)) = [(5, 42)] ∧
      p.provided = [(5, 42), (6, 43)] := by
  intro _ p
  exact ⟨run_pair_delivers Duplex.byteCodec ⟨rfl, rfl, rfl⟩ translates_byte ⟨1, 1⟩ ⟨2, 1⟩ 4
    (by decide) _, by decide +kernel, by decide +kernel⟩

end Pair

end Hiway.Unix
