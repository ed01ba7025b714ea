import Hiway.Transport.Format
import Hiway.Unix.Delivery

/-!
# An exporting link on its own

A link that exports with the bytes that it has read, whatever is at the other end. As long as
these are credits of its own frames in their order, it starts the next frame only when the
credit of the last one was read, and does not end with a protocol error.

* `Inv.starts`: a frame is started when every frame before it has its credit.
* `Inv.sends`, `Inv.reads`: a write and a read.
* `Inv.step`: every action keeps the link a sender.
* `sender_keeps`: an exporting link is a sender that keeps to the format.
-/

namespace Hiway.Unix

open Exec Target Transport

variable {α : Type}

/-- The frame as its peer reads it. -/
def Started.frame (c : Contract) (f : Started) : Frame :=
  ⟨f.sequence, c.revision, f.bytes.drop headerBytes⟩

theorem Encodes.frame {E : WireCodec α} {m : Nat} {f : Started} {item : UInt64 × α}
    (h : Encodes E m f item) :
    (f.frame E.contract).Carries E item ∧ (f.frame E.contract).code E.contract = f.bytes ∧
      (f.frame E.contract).payload.length ≤ u32Max ∧
      (f.frame E.contract).payload.length ≤ m := by
  obtain ⟨hsequence, storage, body, hencode, hu, hm, hbytes⟩ := h
  have hbody : f.bytes.drop headerBytes = body := by
    rw [hbytes, List.drop_left' (length_header _ _ _)]
  have hframe : f.frame E.contract = ⟨f.sequence, E.contract.revision, body⟩ :=
    congrArg (Frame.mk f.sequence E.contract.revision) hbody
  rw [hframe]
  exact ⟨⟨hsequence, rfl, storage, hencode⟩, hbytes.symm, hu, hm⟩

structure Outlet (α : Type) where
  exported : Exported
  provided : List (UInt64 × α)
  read : List UInt8

namespace Outlet

/-- The local stream yields its items in an order that their delivery allows. -/
def provide (E : WireCodec α) (o : Outlet α) (sequence : UInt64) (payload : α) : Outlet α :=
  if o.provided.getLast?.all fun x => E.contract.delivery.follows x.1 sequence then
    { o with
      exported := o.exported.step E (.received sequence payload)
      provided :=
        match o.exported.link.outcome, o.exported.link.exporting,
          encodeData E sequence payload o.exported.link.buffer with
        | none, .receiving, .ok _ => o.provided ++ [(sequence, payload)]
        | _, _, _ => o.provided }
  else o

/-- A write takes some of what it is offered, and a read returns no more than it has asked
for. -/
def step (E : WireCodec α) (o : Outlet α) : Action α → Exec (Outlet α)
  | .received sequence payload => .ok (o.provide E sequence payload)
  | .wrote (count + 1) =>
    let bytes := o.exported.offered.take (count + 1)
    if bytes = [] then .ok o
    else .ok { o with exported := o.exported.step E (.wrote bytes.length) }
  | .read (b :: rest) =>
    let bytes := (b :: rest).take o.exported.room
    if bytes = [] then .ok o
    else .ok { o with exported := o.exported.step E (.read bytes), read := o.read ++ bytes }
  | action => .ok { o with exported := o.exported.step E action }

def start (E : WireCodec α) (connection : Connection) (maxPayload : Nat) : Outlet α :=
  ⟨Exported.start E connection maxPayload, [], []⟩

/-- The frames it has started. -/
def started (E : WireCodec α) (o : Outlet α) : List Frame :=
  o.exported.frames.map (Started.frame E.contract)

def written (o : Outlet α) : List UInt8 := o.exported.frames.flatMap Started.written

/-- As a sender of frames. -/
def sender (E : WireCodec α) : Dialogue.Sender (Outlet α) (Action α) Frame UInt8 where
  step := step E
  started := started E
  written := written
  read := read

/-- The frames whose credit was read. -/
def acknowledged (o : Outlet α) : List Started := o.exported.frames.filter Started.credited

/-- The invariant of a link with a buffer of `m` bytes. -/
structure Inv (E : WireCodec α) (m : Nat) (o : Outlet α) : Prop where
  keeps : o.exported.Keeps
  buffer : o.exported.link.buffer.length = m
  encoded : List.Forall₂ (Encodes E m) o.exported.frames o.provided
  ordered : o.provided.IsChain fun x y => E.contract.delivery.follows x.1 y.1 = true
  reading : o.exported.link.outcome = none →
    o.read = o.acknowledged.flatMap Started.credit ++ o.exported.link.crediting.read
  paid : o.exported.frames.dropLast.flatMap Started.credit <+: o.read
  agrees : o.exported.link.outcome ≠ some (some .protocol)

variable {E : WireCodec α} {m : Nat} {o : Outlet α}

theorem Inv.settles (h : o.Inv E m) : o.exported.Settles :=
  h.keeps.elim Exported.Inv.settles And.right

theorem Inv.open (h : o.Inv E m) (hopened : o.exported.link.outcome = none) : o.exported.Inv :=
  h.keeps.resolve_right fun hended => hended.1 hopened

theorem Inv.earlier (h : o.Inv E m) : ∀ f ∈ o.exported.frames.dropLast, f.credited = true := by
  intro f hf
  have hcomplete := h.settles.earlier f hf
  simp only [Started.complete, Bool.and_eq_true] at hcomplete
  exact hcomplete.1

/-- Only the last frame may wait for its credit. -/
theorem Inv.acknowledged_eq (h : o.Inv E m) {front : List Started} {last : Started}
    (hframes : o.exported.frames = front ++ [last]) :
    o.acknowledged = front ++ (bif last.credited then [last] else []) := by
  have hearlier := h.earlier
  rw [hframes, List.dropLast_concat] at hearlier
  rw [acknowledged, hframes, List.filter_append, List.filter_singleton,
    List.filter_eq_self.mpr hearlier]

/-! ## As a sender -/

theorem acks_frames (c : Contract) [Target] (frames : List Started) :
    (wireFormat c).acks (frames.map (Started.frame c)) = frames.flatMap Started.credit := by
  show (frames.map (Started.frame c)).flatMap _ = _
  rw [List.flatMap_map]
  rfl

theorem Inv.carried (h : o.Inv E m) : List.Forall₂ (Frame.Carries E) (o.started E) o.provided := by
  rw [started, List.forall₂_map_left_iff]
  exact h.encoded.imp fun _ _ hencodes => hencodes.frame.1

theorem codes_frames [Target] {frames : List Started} {items : List (UInt64 × α)}
    (h : List.Forall₂ (Encodes E m) frames items) :
    (wireFormat E.contract).codes (frames.map (Started.frame E.contract)) =
      frames.flatMap Started.bytes := by
  induction h with
  | nil => rfl
  | cons hf _ ih =>
    rw [List.flatMap_cons, ← ih, ← hf.frame.2.1]
    rfl

theorem Inv.valid [Target] (h : o.Inv E m) (hword : m ≤ usizeMax) :
    ∀ f ∈ o.started E, f.Short := by
  intro f hf
  obtain ⟨g, hg, rfl⟩ := List.mem_map.mp hf
  obtain ⟨i, hi, rfl⟩ := List.getElem_of_mem hg
  have hencodes := h.encoded.get hi (h.encoded.length_eq ▸ hi)
  obtain ⟨-, -, hu, hm⟩ := hencodes.frame
  exact ⟨hu, hm.trans hword⟩

theorem Inv.chain [Target] (h : o.Inv E m) :
    (o.started E).IsChain (wireFormat E.contract).follows := by
  have hsequences := Frame.Carries.ordered h.carried
  have hordered : (o.provided.map Prod.fst).IsChain
      fun a b => E.contract.delivery.follows a b = true :=
    List.isChain_map_of_isChain Prod.fst (fun _ _ hf => hf) h.ordered
  rw [← hsequences] at hordered
  exact List.isChain_of_isChain_map Frame.sequence (fun _ _ hf => hf) hordered

theorem Inv.written_prefix [Target] (h : o.Inv E m) :
    o.written <+: (wireFormat E.contract).codes (o.started E) := by
  rw [started, codes_frames h.encoded, written]
  have hsettles := h.settles
  rcases List.eq_nil_or_concat o.exported.frames with hnil | ⟨front, last, hframes⟩
  · rw [hnil]
    exact List.nil_prefix
  · rw [List.concat_eq_append] at hframes
    have hearlier := hsettles.earlier
    rw [hframes, List.dropLast_concat] at hearlier
    have hsame : front.flatMap Started.written = front.flatMap Started.bytes := by
      refine List.flatMap_congr fun f hf => ?_
      have hcomplete := hearlier f hf
      simp only [Started.complete, Bool.and_eq_true, decide_eq_true_eq] at hcomplete
      exact hcomplete.2
    rw [hframes, List.flatMap_append, List.flatMap_append, hsame, List.prefix_append_right_inj,
      List.flatMap_singleton, List.flatMap_singleton]
    exact hsettles.written last (by rw [hframes]; exact List.mem_concat_self)

/-! ## One action -/

/-- An action that starts no frame and moves no bytes. -/
theorem Inv.idles (h : o.Inv E m) {exported : Exported} (hkeeps : exported.Keeps)
    (hidles : o.exported.Idles exported) : Inv E m { o with exported := exported } where
  keeps := hkeeps
  buffer := by
    show exported.link.buffer.length = m
    rw [hidles.buffer]
    exact h.buffer
  encoded := by
    show List.Forall₂ (Encodes E m) exported.frames o.provided
    rw [hidles.frames]
    exact h.encoded
  ordered := h.ordered
  reading := by
    intro hopened
    obtain ⟨hbefore, hread⟩ := hidles.opened hopened
    show o.read = (exported.frames.filter Started.credited).flatMap Started.credit ++
      exported.link.crediting.read
    rw [hidles.frames, hread]
    exact h.reading hbefore
  paid := by
    show exported.frames.dropLast.flatMap Started.credit <+: o.read
    rw [hidles.frames]
    exact h.paid
  agrees := fun hp => h.agrees (hidles.agrees hp)

theorem Inv.quiet (h : o.Inv E m) {a : Action α} (hquiet : Exported.Quiet a) :
    Inv E m { o with exported := o.exported.step E a } := by
  apply h.idles (h.keeps.step a)
  rcases h.keeps with hinv | ⟨hended, -⟩
  · exact hinv.idles hquiet
  · exact Exported.idles_of_ended hended a

theorem written_of_idles {s s' : Exported} (h : s.Idles s') :
    s.frames.flatMap Started.written <+: s'.frames.flatMap Started.written := by
  rw [h.frames]

/-- A frame is started when every frame before it has its credit. -/
theorem Inv.starts (h : o.Inv E m) (hopened : o.exported.link.outcome = none)
    (hr : o.exported.link.exporting = .receiving) {sequence : UInt64} {payload : α}
    {head body : List UInt8}
    (hencode : encodeData E sequence payload o.exported.link.buffer = .ok (head, body))
    (hfollows : o.provided.getLast?.all
      (fun x => E.contract.delivery.follows x.1 sequence) = true) :
    Inv E m { o with
      exported := o.exported.step E (.received sequence payload)
      provided := o.provided ++ [(sequence, payload)] } := by
  have hinv := h.open hopened
  obtain ⟨hgoes, hcrediting, hframes⟩ := hinv.starts hr hencode
  have hall := hinv.all_credited hr
  have hread := h.reading hopened
  rw [acknowledged, List.filter_eq_self.mpr hall] at hread
  obtain ⟨hfit, hu, henc, rfl⟩ := encodeData_eq_ok.mp hencode
  have hbody := E.encode_length payload (o.exported.link.buffer.take (E.encodedLen payload))
  rw [henc, List.length_take, Nat.min_eq_left hfit] at hbody
  dsimp only at hbody
  refine
    { keeps := h.keeps.step (E := E) (.received sequence payload)
      buffer := hgoes.buffer.trans h.buffer
      encoded := ?_
      ordered := ?_
      reading := fun _ => ?_
      paid := ?_
      agrees := ?_ }
  · show List.Forall₂ (Encodes E m) (o.exported.step E _).frames _
    rw [hframes]
    refine List.rel_append h.encoded (.cons ⟨rfl,
      o.exported.link.buffer.take (E.encodedLen payload), body, ?_, ?_, ?_, ?_⟩ .nil)
    · rw [hbody]
      exact henc
    · rw [hbody]
      exact hu
    · rw [hbody, ← h.buffer]
      exact hfit
    · rw [hbody]
  · refine h.ordered.append (List.IsChain.singleton _) fun x hx y hy => ?_
    cases hy
    rw [Option.mem_def] at hx
    rw [hx] at hfollows
    simpa using hfollows
  · show o.read = ((o.exported.step E _).frames.filter Started.credited).flatMap Started.credit ++
      (o.exported.step E _).link.crediting.read
    rw [hframes, hcrediting, List.filter_append, List.filter_eq_self.mpr hall]
    simpa using hread
  · show (o.exported.step E _).frames.dropLast.flatMap Started.credit <+: o.read
    rw [hframes, List.dropLast_concat, hread]
    exact List.prefix_append _ _
  · show (o.exported.step E _).link.outcome ≠ _
    rw [hgoes.outcome]
    simp

theorem Inv.provide (h : o.Inv E m) (sequence : UInt64) (payload : α) :
    (o.provide E sequence payload).Inv E m ∧
      (o.provide E sequence payload).read = o.read ∧
      o.written <+: (o.provide E sequence payload).written := by
  unfold Outlet.provide
  split
  swap
  · exact ⟨h, rfl, List.prefix_rfl⟩
  rename_i hfollows
  have hkeeps := h.keeps.step (E := E) (.received sequence payload)
  cases hopened : o.exported.link.outcome with
  | some outcome =>
    have hidles := Exported.idles_of_ended (E := E) (s := o.exported) (by simp [hopened])
      (.received sequence payload)
    exact ⟨h.idles hkeeps hidles, rfl, written_of_idles hidles⟩
  | none =>
    cases hr : o.exported.link.exporting with
    | receiving =>
      cases hencode : encodeData E sequence payload o.exported.link.buffer with
      | error error =>
        have hidles := (h.open hopened).rejects hr hencode
        exact ⟨h.idles hkeeps hidles, rfl, written_of_idles hidles⟩
      | ok made =>
        obtain ⟨head, body⟩ := made
        refine ⟨h.starts hopened hr hencode hfollows, rfl, ?_⟩
        obtain ⟨-, -, hframes⟩ := (h.open hopened).starts hr hencode
        show _ <+: (o.exported.step E _).frames.flatMap Started.written
        rw [hframes, List.flatMap_append]
        exact List.prefix_append _ _
    | _ =>
      have hidles := (h.open hopened).idles_received (E := E) (by simp [hr]) sequence payload
      exact ⟨h.idles hkeeps hidles, rfl, written_of_idles hidles⟩

/-- A write takes the next bytes of the last frame. -/
theorem Inv.sends (h : o.Inv E m) {count : Nat} (hsome : o.exported.offered.take count ≠ []) :
    let exported := o.exported.step E (.wrote (o.exported.offered.take count).length)
    Inv E m { o with exported := exported } ∧
      o.written <+: exported.frames.flatMap Started.written := by
  have hopened : o.exported.link.outcome = none := by
    by_contra hended
    obtain ⟨outcome, houtcome⟩ := Option.ne_none_iff_exists'.mp hended
    simp [Exported.offered, houtcome] at hsome
  obtain ⟨hgoes, hcrediting, -, front, last, hbefore, -, hafter⟩ := (h.open hopened).sends hsome
  have hcredited : ∀ last' : Started, last'.credited = last.credited →
      last'.sequence = last.sequence →
      ((front ++ [last']).filter Started.credited).flatMap Started.credit =
        o.acknowledged.flatMap Started.credit := by
    intro last' hc hs
    have hcredit : last'.credit = last.credit := congrArg creditOf hs
    rw [acknowledged, hbefore, List.filter_append, List.filter_append, List.flatMap_append,
      List.flatMap_append, List.filter_singleton, List.filter_singleton, hc]
    cases last.credited with
    | false => rfl
    | true => simp [hcredit]
  refine ⟨
    { keeps := h.keeps.step (E := E) (.wrote _)
      buffer := hgoes.buffer.trans h.buffer
      encoded := ?_
      ordered := h.ordered
      reading := fun _ => ?_
      paid := ?_
      agrees := ?_ }, ?_⟩
  · show List.Forall₂ (Encodes E m) (o.exported.step E _).frames _
    rw [hafter]
    have hencoded := h.encoded
    rw [hbefore] at hencoded
    exact forall₂_last hencoded (encodes_of_same rfl rfl)
  · show o.read = ((o.exported.step E _).frames.filter Started.credited).flatMap Started.credit ++
      (o.exported.step E _).link.crediting.read
    have hsame := hcredited
      { last with written := last.written ++ o.exported.offered.take count } rfl rfl
    rw [hafter, hcrediting, hsame]
    exact h.reading hopened
  · show (o.exported.step E _).frames.dropLast.flatMap Started.credit <+: o.read
    have hpaid := h.paid
    rw [hbefore, List.dropLast_concat] at hpaid
    rw [hafter, List.dropLast_concat]
    exact hpaid
  · show (o.exported.step E _).link.outcome ≠ _
    rw [hgoes.outcome]
    simp
  · show o.exported.frames.flatMap Started.written <+: _
    rw [hafter, hbefore, List.flatMap_append, List.flatMap_append, List.prefix_append_right_inj]
    simp

/-- What a proper peer completes is the credit of the last frame. -/
theorem Inv.due (h : o.Inv E m) (hopened : o.exported.link.outcome = none) {bytes : List UInt8}
    (hproper : o.read ++ bytes <+: o.exported.frames.flatMap Started.credit)
    (hsome : bytes ≠ []) :
    ∃ front last, o.exported.frames = front ++ [last] ∧ last.credited = false ∧
      o.exported.link.crediting.read ++ bytes <+: creditOf last.sequence := by
  have hread := h.reading hopened
  have hne : o.acknowledged ≠ o.exported.frames := by
    intro hall
    have hle := hproper.length_le
    rw [hread, hall, List.length_append, List.length_append] at hle
    exact hsome (List.eq_nil_of_length_eq_zero (by omega))
  rcases List.eq_nil_or_concat o.exported.frames with hnil | ⟨front, last, hframes⟩
  · exact absurd (by rw [acknowledged, hnil]; rfl) hne
  · rw [List.concat_eq_append] at hframes
    have hack := h.acknowledged_eq hframes
    cases hcredited : last.credited with
    | true =>
      rw [hcredited] at hack
      exact absurd (hack.trans hframes.symm) hne
    | false =>
      rw [hcredited, cond_false, List.append_nil] at hack
      rw [hread, hack, hframes, List.flatMap_append, List.append_assoc,
        List.prefix_append_right_inj, List.flatMap_singleton] at hproper
      exact ⟨front, last, hframes, hcredited, hproper⟩

/-- A read takes the next bytes of a credit. -/
theorem Inv.reads (h : o.Inv E m) {bytes : List UInt8} (hsome : bytes ≠ [])
    (hroom : bytes.length ≤ o.exported.room)
    (hproper : o.read ++ bytes <+: o.exported.frames.flatMap Started.credit) :
    let exported := o.exported.step E (.read bytes)
    Inv E m { o with exported := exported, read := o.read ++ bytes } ∧
      o.written <+: exported.frames.flatMap Started.written := by
  have hopened : o.exported.link.outcome = none := by
    by_contra hended
    obtain ⟨outcome, houtcome⟩ := Option.ne_none_iff_exists'.mp hended
    simp only [Exported.room, houtcome, Nat.le_zero] at hroom
    exact hsome (List.eq_nil_of_length_eq_zero hroom)
  have hread := h.reading hopened
  obtain ⟨front, last, hbefore, hcredited, hcredit⟩ := h.due hopened hproper hsome
  obtain ⟨hlen, -, hshort, hfull⟩ := (h.open hopened).reads (E := E) hsome hroom
  have hpaid : o.exported.frames.dropLast.flatMap Started.credit <+: o.read ++ bytes :=
    h.paid.trans (List.prefix_append _ _)
  rcases Nat.lt_or_eq_of_le hlen with hlt | heq
  · obtain ⟨hgoes, hframes, hreading⟩ := hshort hlt
    refine ⟨
      { keeps := h.keeps.step (E := E) (.read bytes)
        buffer := hgoes.buffer.trans h.buffer
        encoded := ?_
        ordered := h.ordered
        reading := fun _ => ?_
        paid := ?_
        agrees := ?_ }, ?_⟩
    · show List.Forall₂ (Encodes E m) (o.exported.step E _).frames _
      rw [hframes]
      exact h.encoded
    · show o.read ++ bytes = ((o.exported.step E _).frames.filter Started.credited).flatMap
        Started.credit ++ (o.exported.step E _).link.crediting.read
      rw [hframes, hreading, hread, List.append_assoc]
      rfl
    · show (o.exported.step E _).frames.dropLast.flatMap Started.credit <+: _
      rw [hframes]
      exact hpaid
    · show (o.exported.step E _).link.outcome ≠ _
      rw [hgoes.outcome]
      simp
    · show o.exported.frames.flatMap Started.written <+: _
      rw [hframes]
  · have hall : o.exported.link.crediting.read ++ bytes = creditOf last.sequence :=
      hcredit.eq_of_length (by rw [heq, length_creditOf])
    obtain ⟨hgoes, hafter, hreading⟩ := hfull front last hbefore hcredited hall
    have hack := h.acknowledged_eq hbefore
    rw [hcredited, cond_false, List.append_nil] at hack
    have hearlier := h.earlier
    rw [hbefore, List.dropLast_concat] at hearlier
    refine ⟨
      { keeps := h.keeps.step (E := E) (.read bytes)
        buffer := hgoes.buffer.trans h.buffer
        encoded := ?_
        ordered := h.ordered
        reading := fun _ => ?_
        paid := ?_
        agrees := ?_ }, ?_⟩
    · show List.Forall₂ (Encodes E m) (o.exported.step E _).frames _
      rw [hafter]
      have hencoded := h.encoded
      rw [hbefore] at hencoded
      exact forall₂_last hencoded (encodes_of_same rfl rfl)
    · show o.read ++ bytes = ((o.exported.step E _).frames.filter Started.credited).flatMap
        Started.credit ++ (o.exported.step E _).link.crediting.read
      rw [hafter, hreading, hread, hack, List.append_assoc, hall, List.append_nil,
        List.filter_append, List.filter_eq_self.mpr hearlier, List.flatMap_append]
      rfl
    · show (o.exported.step E _).frames.dropLast.flatMap Started.credit <+: _
      rw [hbefore, List.dropLast_concat] at hpaid
      rw [hafter, List.dropLast_concat]
      exact hpaid
    · show (o.exported.step E _).link.outcome ≠ _
      rw [hgoes.outcome]
      simp
    · show o.exported.frames.flatMap Started.written <+: _
      rw [hafter, hbefore, List.flatMap_append, List.flatMap_append]
      exact List.prefix_rfl

theorem Inv.step [Target] (h : o.Inv E m) (a : Action α) :
    ∃ o', o.step E a = .ok o' ∧ (o'.read <+: (wireFormat E.contract).acks (o.started E) →
      o'.Inv E m ∧ o.written <+: o'.written) := by
  have hquiet : ∀ a : Action α, Exported.Quiet a →
      Inv E m { o with exported := o.exported.step E a } ∧
        o.written <+: (o.exported.step E a).frames.flatMap Started.written := by
    intro a ha
    refine ⟨h.quiet ha, written_of_idles ?_⟩
    rcases h.keeps with hinv | ⟨hended, -⟩
    · exact hinv.idles ha
    · exact Exported.idles_of_ended hended a
  cases a with
  | received sequence payload =>
    obtain ⟨h', -, hwritten⟩ := h.provide sequence payload
    exact ⟨_, rfl, fun _ => ⟨h', hwritten⟩⟩
  | wrote count =>
    cases count with
    | zero => exact ⟨_, rfl, fun _ => hquiet _ rfl⟩
    | succ count =>
      simp only [Outlet.step]
      split
      · exact ⟨o, rfl, fun _ => ⟨h, List.prefix_rfl⟩⟩
      · rename_i hsome
        exact ⟨_, rfl, fun _ => h.sends hsome⟩
  | read bytes =>
    cases bytes with
    | nil => exact ⟨_, rfl, fun _ => hquiet _ rfl⟩
    | cons b rest =>
      simp only [Outlet.step]
      split
      · exact ⟨o, rfl, fun _ => ⟨h, List.prefix_rfl⟩⟩
      · rename_i hsome
        refine ⟨_, rfl, fun hproper => h.reads hsome (List.length_take_le _ _) ?_⟩
        rw [started, acks_frames] at hproper
        exact hproper
  | _ => exact ⟨_, rfl, fun _ => hquiet _ trivial⟩

variable (E) in
/-- An exporting link is a sender that keeps to the format. -/
theorem sender_keeps [Target] (hword : m ≤ usizeMax) :
    (sender E).Keeps (wireFormat E.contract) (Inv E m) where
  valid _ h := h.valid hword
  ordered _ h := h.chain
  written _ h := h.written_prefix
  paid o h := by
    show (wireFormat E.contract).acks (o.started E).dropLast <+: _
    rw [started, ← List.map_dropLast, acks_frames]
    exact h.paid
  step _ a h := h.step a

variable (E) in
theorem start_inv (connection : Connection) (maxPayload : Nat) :
    (start E connection maxPayload).Inv E maxPayload where
  keeps := Or.inl (Exported.start_inv E connection maxPayload)
  buffer := List.length_replicate
  encoded := .nil
  ordered := .nil
  reading := fun _ => rfl
  paid := List.prefix_rfl
  agrees := fun h => by cases h

end Outlet

end Hiway.Unix
