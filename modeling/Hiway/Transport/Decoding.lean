import Hiway.Transport.Frame
import Hiway.Transport.ProtocolSteps

/-!
# Decoding in pieces

The bytes of one frame reach an importing machine in any number of receives. The state
after some of them is computed from these bytes alone, so that it does not depend on
how they were cut: `After` says what it is, and each receive takes it to the state of
the bytes with those received.

* `After.step`: each attempt takes the machine to the state of the bytes that have arrived.
* `After.ends`: a whole frame ends in one way, however it is cut.
* `surplus_of_run`: an attempt that cannot leave the machine open closes it.
* `run_decodes`: from every boundary between two frames decoding inverts encoding, however
  the bytes are cut.
-/

namespace Hiway.Transport

open Exec Target

/-- One receive into the data lane: it is accepted, and completed when the host has
`count` more bytes in its buffer. No byte at all is a `Retry`. -/
structure Attempt where
  op : OpId
  count : Nat
  buffer : List UInt8
  deriving DecidableEq, Repr

def Attempt.result (a : Attempt) : IoResult := if a.count = 0 then .retry else .bytes a.count

def Attempt.inputs (a : Attempt) : List Input :=
  [.accepted .data a.op, .completed a.op a.result a.buffer]

/-- The attempts deliver the bytes of `w` from the `k`th on, none of them once all have
arrived. -/
def Delivers (w : List UInt8) : Nat → List Attempt → Prop
  | k, [] => k = w.length
  | k, a :: rest =>
    k < w.length ∧ k + a.count ≤ w.length ∧ w.take (k + a.count) <+: a.buffer ∧
      Delivers w (k + a.count) rest

/-- The last attempt leaves all the bytes in its buffer. -/
theorem prefix_of_delivers {w : List UInt8} {k : Nat} {attempts : List Attempt} {a : Attempt}
    (hd : Delivers w k attempts) (ha : attempts.getLast? = some a) : w <+: a.buffer := by
  induction attempts generalizing k with
  | nil => cases ha
  | cons b rest ih =>
    obtain ⟨-, -, hb, hrest⟩ := hd
    cases rest with
    | nil =>
      cases ha
      rw [show k + b.count = w.length from hrest, List.take_length] at hb
      exact hb
    | cons c rest => exact ih hrest (by rwa [List.getLast?_cons_cons] at ha)

/-! ## What a header says -/

/-- The length of the frame that a header announces, or why it is refused. -/
def verdict [Target] (c : Contract) (capacity : Nat) (previous : Option UInt64)
    (header : List UInt8) : Except Error Nat :=
  if headerMatches c header = false then .error .protocol
  else
    match checkedAdd headerBytes (headerLength header) with
    | none => .error .capacity
    | some total =>
      if total > capacity then .error .capacity
      else if previous.any fun last => !c.delivery.follows last (headerSequence header) then
        .error .protocol
      else .ok total

/-- A refused header is all there is of its frame. -/
def frameBytes [Target] (c : Contract) (capacity : Nat) (previous : Option UInt64)
    (header : List UInt8) : Nat :=
  match verdict c capacity previous header with
  | .ok total => total
  | .error _ => headerBytes

section

variable [Target] {c : Contract} {capacity total : Nat} {previous : Option UInt64}
  {header : List UInt8}

theorem verdict_ok (h : verdict c capacity previous header = .ok total) :
    headerMatches c header = true ∧ checkedAdd headerBytes (headerLength header) = some total ∧
      total = headerBytes + headerLength header ∧ total ≤ capacity ∧
        previous.any (fun last => !c.delivery.follows last (headerSequence header)) = false := by
  unfold verdict at h
  split at h
  · cases h
  · rename_i hm
    split at h
    · cases h
    · rename_i n hadd
      split at h
      · cases h
      · rename_i hcap
        split at h
        · cases h
        · rename_i hany
          cases h
          exact ⟨by simpa using hm, hadd, (checkedAdd_eq_some.mp hadd).2, Nat.le_of_not_lt hcap,
            by simpa using hany⟩

/-- Nothing of a frame lies beyond what its header declares. -/
theorem frameBytes_le : frameBytes c capacity previous header ≤
    headerBytes + headerLength header := by
  unfold frameBytes
  split
  · rename_i hv
    exact (verdict_ok hv).2.2.1.le
  · exact Nat.le_add_right _ _

end

namespace Protocol

/-! ## The machine after some bytes -/

/-- The machine once the header is in and `k` bytes have arrived of `total`. -/
def received (p : Protocol) (header : List UInt8) (total k : Nat) : Protocol :=
  { (p.move .data k).observeSequence (headerSequence header) with
    revision := headerRevision header
    sequence := headerSequence header
    length := total
    stage := if k = total then .admission else .payload }

/-- The records speak of the sequence that a header carries. -/
def Observed (p : Protocol) (header : List UInt8) : Prop :=
  ∀ a, p.accountability = some a → a.sequence = some (headerSequence header)

/-- The machine that began as `p` after the first `k` bytes of `w`. -/
inductive After [Target] (p : Protocol) (w : List UInt8) : Nat → Protocol → Prop
  | header {k : Nat} (hk : k < headerBytes) : After p w k (p.move .data k)
  | body {k total : Nat} (hk : headerBytes ≤ k)
      (hv : verdict p.contract p.capacity p.previous (w.take headerBytes) = .ok total)
      (hle : k ≤ total) : After p w k (p.received (w.take headerBytes) total k)
  | refused {q : Protocol} {error : Error}
      (hv : verdict p.contract p.capacity p.previous (w.take headerBytes) = .error error)
      (hc : q.closed = some error) (ho : q.Observed (w.take headerBytes)) : After p w headerBytes q
  | surplus {k : Nat} {q : Protocol}
      (hw : frameBytes p.contract p.capacity p.previous (w.take headerBytes) < w.length)
      (hc : q.closed.isSome) : After p w k q

/-! ## The header -/

/-- The buffer holds the header in front. -/
theorem take_of_isPrefix {buffer header : List UInt8} (hlen : header.length = headerBytes) 
    (hb : header <+: buffer) :
    buffer.take headerBytes = header ∧ ¬ buffer.length < headerBytes :=
  ⟨hlen ▸ (List.prefix_iff_eq_take.mp hb).symm, Nat.not_lt.mpr (hlen ▸ hb.length_le)⟩

section

variable [Target] {p : Protocol} {offset total : Nat} {buffer header : List UInt8}

theorem parseHeader_of_ok (hlen : header.length = headerBytes) (hb : header <+: buffer)
    (hv : verdict p.contract p.capacity p.previous header = .ok total) (hle : offset ≤ total) :
    p.parseHeader offset buffer =
      ({ p.observeSequence (headerSequence header) with
          revision := headerRevision header
          sequence := headerSequence header
          length := total
          stage := if offset = total then .admission else .payload }, .ok ()) := by
  obtain ⟨htake, hlong⟩ := take_of_isPrefix hlen hb
  obtain ⟨hm, hadd, -, hcap, hany⟩ := verdict_ok hv
  simp only [parseHeader, hlong, htake, observeSequence_eq, account_contract, account_previous,
    account_capacity, hm, hadd, hany, Nat.not_lt.mpr hcap, Nat.not_lt.mpr hle,
    Bool.true_eq_false, Bool.false_eq_true, if_false]

theorem parseHeader_of_error {error : Error} (hlen : header.length = headerBytes)
    (hb : header <+: buffer)
    (hv : verdict p.contract p.capacity p.previous header = .error error) :
    ∃ q, p.parseHeader headerBytes buffer = (q, .error error) ∧ q.closed = p.closed ∧
      q.accountability = p.accountability.map fun a => a.observe (headerSequence header) := by
  obtain ⟨htake, hlong⟩ := take_of_isPrefix hlen hb
  simp only [parseHeader, hlong, htake, observeSequence_eq, account_contract, account_previous,
    account_capacity, if_false]
  unfold verdict at hv
  split at hv
  · rename_i hm
    cases hv
    exact ⟨_, if_pos hm, rfl, rfl⟩
  · rename_i hm
    rw [if_neg hm]
    cases hadd : checkedAdd headerBytes (headerLength header) with
    | none =>
      rw [hadd] at hv
      cases hv
      exact ⟨_, rfl, rfl, rfl⟩
    | some total =>
      rw [hadd] at hv
      have hle : ¬ headerBytes > total := by
        rw [(checkedAdd_eq_some.mp hadd).2]
        exact Nat.not_lt.mpr (Nat.le_add_right _ _)
      dsimp only at hv ⊢
      split at hv
      · rename_i hcap
        cases hv
        exact ⟨_, if_pos hcap, rfl, rfl⟩
      · rename_i hcap
        rw [if_neg hcap, if_neg hle]
        split at hv
        · rename_i hany
          cases hv
          exact ⟨_, if_pos hany, rfl, rfl⟩
        · cases hv

/-- A header that is parsed is accepted, and nothing beyond its frame has arrived. -/
theorem verdict_of_parseHeader {q : Protocol} (hlen : header.length = headerBytes)
    (hb : header <+: buffer) (h : p.parseHeader offset buffer = (q, .ok ())) :
    ∃ total, verdict p.contract p.capacity p.previous header = .ok total ∧ offset ≤ total := by
  obtain ⟨htake, hlong⟩ := take_of_isPrefix hlen hb
  simp only [parseHeader, hlong, htake, observeSequence_eq, account_contract, account_previous,
    account_capacity, if_false] at h
  split at h
  · cases h
  · rename_i hm
    split at h
    · cases h
    · rename_i total hadd
      split at h
      · cases h
      · rename_i hcap
        split at h
        · cases h
        · rename_i hoff
          split at h
          · cases h
          · rename_i hany
            refine ⟨total, ?_, Nat.le_of_not_lt hoff⟩
            simp only [verdict, if_neg hm, hadd, if_neg hcap, if_neg hany]

end

/-! ## One attempt -/

theorem laneOf_accept {p : Protocol} (op : OpId) (e : Effect) :
    (p.accept .data op e).laneOf op = some .data := by
  simp [laneOf, Lane.all, accept, PerLane.set]

theorem advance_accept {p : Protocol} {k : Nat} (hfree : p.active.get .data = none)
    (hk : p.offsets.data = k) (op : OpId) (e : Effect) (count : Nat) :
    (p.accept .data op e).advance .data count =
      p.move .data (k + count) := by
  obtain ⟨_, _, _, _, ⟨d, _, _⟩, _, _, _, _, _, _, _, _⟩ := p
  cases hfree
  cases hk
  rfl

section

variable [Target] {p : Protocol} {k length : Nat} {a : Attempt}

/-- A machine whose data lane waits for at most `length` bytes from the `k`th on. -/
structure Reading [Target] (p : Protocol) (k length : Nat) : Prop where
  safe : p.Safe
  isOpen : p.closed = none
  free : p.active.get .data = none
  offset : p.offsets.data = k
  offer : p.offer .data = .ok (some (.receive .data k length))

theorem Reading.run_accepted (h : p.Reading k length) (hop : p.laneOf a.op = none) :
    p.input (.accepted .data a.op) = .ok (p.accept .data a.op (.receive .data k length), .ok ()) :=
  input_accepted h.isOpen h.free h.offer rfl hop

theorem run_inputs {i j : Input} {p₁ p₂ : Protocol} {r₁ : Except Error Unit}
    (r₂ : Except Error Unit) (h₁ : p.input i = .ok (p₁, r₁)) (h₂ : p₁.input j = .ok (p₂, r₂)) :
    p.run [i, j] = .ok p₂ := by
  simp only [run, steps, next, h₁, h₂, ok_bind, pure_eq]

/-- An attempt that moves nothing changes nothing. -/
theorem Reading.retry (h : p.Reading k length) (hop : p.laneOf a.op = none) (hcount : a.count = 0) :
    p.run a.inputs = .ok p := by
  have hrelease : (p.accept .data a.op (.receive .data k length)).release .data = p := by
    have hfree := h.free
    obtain ⟨_, _, _, _, ⟨d, _, _⟩, _, _, _, _, _, _, _, _⟩ := p
    cases hfree
    rfl
  have hretry := input_retry (p := p.accept .data a.op (.receive .data k length)) h.isOpen
    (laneOf_accept a.op _) a.buffer
  rw [hrelease] at hretry
  refine run_inputs (.ok ()) (h.run_accepted hop) ?_
  rw [Attempt.result, if_pos hcount]
  exact hretry

/-- An attempt that moves bytes ends as `progress` does. -/
theorem Reading.bytes (h : p.Reading k length) (hop : p.laneOf a.op = none) (hpos : 0 < a.count)
    (hle : a.count ≤ length) {q : Protocol} {r : Except Error Unit}
    (hq : (p.move .data (k + a.count)).progress .data a.buffer = .ok (q, r)) :
    p.run a.inputs =
      .ok ((q.conclude r).settle (.completed a.op (.bytes a.count) a.buffer)) := by
  have hin := h.run_accepted hop
  obtain ⟨q', r', hin', hsafe, -⟩ := input_safe h.safe (.accepted .data a.op)
  rw [hin] at hin'
  cases hin'
  refine run_inputs r hin ?_
  rw [Attempt.result, if_neg hpos.ne']
  have hactive : (p.accept .data a.op (.receive .data k length)).active.get .data =
      some (a.op, .receive .data k length) := PerLane.get_set_self p.active .data _
  refine input_progress hsafe h.isOpen (laneOf_accept a.op _) hactive hpos hle ?_
  rw [advance_accept h.free h.offset]
  exact hq

theorem run_closed {inputs : List Input} {q : Protocol} (hc : p.closed.isSome)
    (h : p.run inputs = .ok q) : q.closed.isSome := by
  induction inputs generalizing p with
  | nil =>
    cases h
    exact hc
  | cons i rest ih =>
    obtain ⟨p', hp', h⟩ := bind_eq_ok.mp h
    obtain ⟨⟨p'', r⟩, hi, hp'⟩ := bind_eq_ok.mp hp'
    cases hp'
    obtain ⟨error, hc⟩ := Option.isSome_iff_exists.mp hc
    exact ih (Option.isSome_of_eq_some (input_closed hc hi)) h

/-- An attempt that leaves the machine open was offered and moved what was asked for. -/
theorem open_of_run {q : Protocol} (h : p.run a.inputs = .ok q) (hq : q.closed = none) :
    ∃ e, p.offer .data = .ok (some e) ∧ e.isRequest = true ∧
      (a.count = 0 ∨ a.count ≤ e.requested ∧
        ∃ p', (p'.advance .data a.count).progress .data a.buffer = .ok (q, .ok ()) ∧
          p' = p.accept .data a.op e) := by
  obtain ⟨p', hp', h⟩ := bind_eq_ok.mp h
  obtain ⟨q', hq', h⟩ := bind_eq_ok.mp h
  cases h
  obtain ⟨⟨_, r₁⟩, hi₁, hp'⟩ := bind_eq_ok.mp hp'
  cases hp'
  obtain ⟨⟨_, r₂⟩, hi₂, hq'⟩ := bind_eq_ok.mp hq'
  cases hq'
  obtain ⟨hopen, -, hsecond⟩ := input_open hi₂ hq
  obtain ⟨-, -, hfirst⟩ := input_open hi₁ hopen
  cases hfirst with
  | accept hfree he hr hp =>
    rename_i e
    refine ⟨e, he, hr, ?_⟩
    subst hp
    by_cases hcount : a.count = 0
    · exact Or.inl hcount
    · right
      rw [Attempt.result, if_neg hcount] at hsecond
      cases hsecond with
      | stale hl =>
        rw [laneOf_accept] at hl
        cases hl
      | bytes hl ha hpos hle hprogress =>
        rw [laneOf_accept] at hl
        cases hl
        obtain rfl : _ = e := (congrArg Prod.snd (Option.some.inj
          ((PerLane.get_set_self p.active .data (some (a.op, e))).symm.trans ha))).symm
        exact ⟨hle, _, hprogress, rfl⟩

end

/-- A machine that ends in an error has it, and keeps the sequence that it observed. -/
theorem refused_spec {q : Protocol} {header : List UInt8} {i : Input} {error : Error}
    (hc : q.closed = none)
    (ho : q.Observed header) :
    ((q.conclude (.error error)).settle i).closed = some error ∧
      ((q.conclude (.error error)).settle i).Observed header := by
  refine ⟨by simp [conclude, shut, hc], fun b hb => ?_⟩
  have hclosed : (q.conclude (.error error)).closed = some error := by
    simp [conclude, shut, hc]
  unfold settle at hb
  rw [hclosed] at hb
  dsimp only at hb
  split at hb
  all_goals
    obtain ⟨a, ha, rfl⟩ := Option.map_eq_some_iff.mp hb
    have hseq := ho a ha
    simp only [Accountability.cancel, Accountability.finish, Accountability.record]
    split <;> exact hseq

/-! ## One attempt of a delivery -/

/-- A machine between two frames. -/
structure Boundary [Target] (p : Protocol) : Prop where
  safe : p.Safe
  isOpen : p.closed = none
  stage : p.stage = .header
  free : p.active.get .data = none
  offset : p.offsets.data = 0

section

variable [Target] {p q : Protocol} {w : List UInt8} {k total : Nat} {a : Attempt}

theorem Boundary.reading (h : p.Boundary) (hk : k < headerBytes) (hsafe : (p.move .data k).Safe) :
    (p.move .data k).Reading k (p.capacity - k) where
  safe := hsafe
  isOpen := h.isOpen
  free := h.free
  offset := rfl
  offer := by
    have hle : k ≤ p.capacity := hk.le.trans h.safe.capacity_ge
    have hstage : (p.move .data k).stage = .header := h.stage
    have hoffset : (p.move .data k).offsets.get .data = k := rfl
    have hcapacity : (p.move .data k).capacity = p.capacity := rfl
    simp only [offer, hstage, hoffset, hcapacity, sub_of_le hle, ok_bind, pure_eq]

theorem Boundary.reading_received (h : p.Boundary) {header : List UInt8} (hk : k < total)
    (hsafe : (p.received header total k).Safe) :
    (p.received header total k).Reading k (total - k) where
  safe := hsafe
  isOpen := h.isOpen
  free := h.free
  offset := rfl
  offer := by
    have hstage : (p.received header total k).stage = .payload := if_neg hk.ne
    have hoffset : (p.received header total k).offsets.get .data = k := rfl
    have hlength : (p.received header total k).length = total := rfl
    simp only [offer, hstage, hoffset, hlength, sub_of_le hk.le, ok_bind, pure_eq]

theorem Boundary.progress_header (h : p.Boundary) (hk : k < headerBytes) (buffer : List UInt8) :
    (p.move .data k).progress .data buffer = .ok (p.move .data k, .ok ()) := by
  have hstage : (p.move .data k).stage = .header := h.stage
  have hoffset : (p.move .data k).offsets.get .data = k := rfl
  simp only [progress, hstage, hoffset, if_neg (Nat.not_le.mpr hk)]

theorem Boundary.progress_parse (h : p.Boundary) (hk : headerBytes ≤ k) (buffer : List UInt8) :
    (p.move .data k).progress .data buffer = .ok ((p.move .data k).parseHeader k buffer) := by
  have hstage : (p.move .data k).stage = .header := h.stage
  have hoffset : (p.move .data k).offsets.get .data = k := rfl
  simp only [progress, hstage, hoffset, if_pos hk]

theorem progress_received {header : List UInt8} {n : Nat} (hk : k < total)
    (buffer : List UInt8) :
    ((p.received header total k).move .data n).progress .data buffer =
      .ok (p.received header total n, .ok ()) := by
  have hstage : ((p.received header total k).move .data n).stage = .payload := if_neg hk.ne
  have hoffset : ((p.received header total k).move .data n).offsets.get .data = n := rfl
  have hlength : ((p.received header total k).move .data n).length = total := rfl
  simp only [progress, hstage, hoffset, hlength]
  by_cases hn : n = total
  · rw [if_pos hn]
    simp only [received, hn, if_true]
    rfl
  · rw [if_neg hn]
    simp only [received, if_neg hk.ne, if_neg hn]
    rfl

/-- An attempt that cannot leave the machine open closes it. -/
theorem surplus_of_run (hsafe : q.Safe)
    (hw : frameBytes p.contract p.capacity p.previous (w.take headerBytes) < w.length)
    (hnot : ∀ q', q.run a.inputs = .ok q' → q'.closed = none → False) (n : Nat) :
    ∃ q', q.run a.inputs = .ok q' ∧ After p w n q' := by
  obtain ⟨q', hq', -⟩ := safe_run hsafe a.inputs
  refine ⟨q', hq', .surplus hw ?_⟩
  cases hc : q'.closed with
  | none => exact (hnot q' hq' hc).elim
  | some error => rfl

/-- The machine stays open through the header only when nothing beyond its frame comes. -/
theorem Boundary.open_of_cross (h : p.Boundary) (hk : k < headerBytes)
    (hsafe : (p.move .data k).Safe) (hcross : headerBytes ≤ k + a.count)
    (hlen : (w.take headerBytes).length = headerBytes) (hb : w.take headerBytes <+: a.buffer)
    (hq : (p.move .data k).run a.inputs = .ok q) (hopen : q.closed = none) :
    ∃ total, verdict p.contract p.capacity p.previous (w.take headerBytes) = .ok total ∧
      k + a.count ≤ total := by
  have hreading := h.reading hk hsafe
  obtain ⟨e, he, -, hcount | ⟨-, p', hprogress, rfl⟩⟩ := open_of_run hq hopen
  · omega
  · rw [advance_accept hreading.free hreading.offset] at hprogress
    have hparse := (h.progress_parse hcross a.buffer).symm.trans hprogress
    exact verdict_of_parseHeader (p := p.move .data (k + a.count)) hlen hb (Except.ok.inj hparse)

/-- The attempt that completes the header. -/
theorem Boundary.cross (h : p.Boundary) (hk : k < headerBytes) (hsafe : (p.move .data k).Safe)
    (hop : p.laneOf a.op = none) (hcross : headerBytes ≤ k + a.count)
    (hle : k + a.count ≤ w.length) (hb : w.take (k + a.count) <+: a.buffer) :
    ∃ q, (p.move .data k).run a.inputs = .ok q ∧ After p w (k + a.count) q := by
  have hreading := h.reading hk hsafe
  have hpos : 0 < a.count := by omega
  have hlen : (w.take headerBytes).length = headerBytes := by
    rw [List.length_take]
    omega
  have hheader : w.take headerBytes <+: a.buffer :=
    (List.take_prefix_take_left hcross).trans hb
  have hroom := h.safe.capacity_ge
  cases hv : verdict p.contract p.capacity p.previous (w.take headerBytes) with
  | ok total =>
    by_cases htotal : k + a.count ≤ total
    · have hcapacity := (verdict_ok hv).2.2.2.1
      have hparse := parseHeader_of_ok (p := p.move .data (k + a.count)) hlen hheader hv htotal
      have hrun := hreading.bytes hop hpos (by omega)
        ((h.progress_parse hcross a.buffer).trans (congrArg Except.ok hparse))
      refine ⟨_, hrun, ?_⟩
      rw [conclude, settle_of_open]
      · exact .body hcross hv htotal
      · exact h.isOpen
    · refine surplus_of_run hsafe ?_ (fun q' hq' hopen => ?_) _
      · rw [frameBytes, hv]
        exact lt_of_lt_of_le (Nat.lt_of_not_le htotal) hle
      · obtain ⟨total', hv', htotal'⟩ := h.open_of_cross hk hsafe hcross hlen hheader hq' hopen
        rw [hv] at hv'
        cases hv'
        exact htotal htotal'
  | error error =>
    by_cases hexact : k + a.count = headerBytes
    · obtain ⟨q, hparse, hclosed, haccount⟩ :=
        parseHeader_of_error (p := p.move .data headerBytes) hlen hheader hv
      have hparse : (p.move .data (k + a.count)).parseHeader (k + a.count) a.buffer =
          (q, .error error) := by
        rw [hexact]
        exact hparse
      have hrun := hreading.bytes hop hpos (by omega)
        ((h.progress_parse hcross a.buffer).trans (congrArg Except.ok hparse))
      have hobserved : q.Observed (w.take headerBytes) := by
        intro b hb
        rw [haccount] at hb
        obtain ⟨c, -, rfl⟩ := Option.map_eq_some_iff.mp hb
        rfl
      obtain ⟨hc, ho⟩ := refused_spec (i := .completed a.op (.bytes a.count) a.buffer)
        (hclosed.trans h.isOpen) hobserved
      refine ⟨_, hrun, ?_⟩
      rw [hexact]
      exact .refused hv hc ho
    · refine surplus_of_run hsafe ?_ (fun q' hq' hopen => ?_) _
      · rw [frameBytes, hv]
        exact lt_of_lt_of_le (lt_of_le_of_ne hcross (Ne.symm hexact)) hle
      · obtain ⟨total', hv', -⟩ := h.open_of_cross hk hsafe hcross hlen hheader hq' hopen
        rw [hv] at hv'
        cases hv'

/-- An attempt while the payload is under way, or beyond it. -/
theorem Boundary.step_received (h : p.Boundary) {header : List UInt8}
    (hheader : header = w.take headerBytes) (hk : headerBytes ≤ k) (hkt : k ≤ total)
    (hv : verdict p.contract p.capacity p.previous header = .ok total)
    (hsafe : (p.received header total k).Safe) (hop : p.laneOf a.op = none) (hkw : k < w.length)
    (hle : k + a.count ≤ w.length) :
    ∃ q, (p.received header total k).run a.inputs = .ok q ∧ After p w (k + a.count) q := by
  subst hheader
  by_cases hdone : k = total
  · refine surplus_of_run hsafe ?_ (fun q' hq' hopen => ?_) _
    · rw [frameBytes, hv]
      exact hdone ▸ hkw
    · obtain ⟨e, he, hr, -⟩ := open_of_run hq' hopen
      have hstage : (p.received (w.take headerBytes) total k).stage = .admission := if_pos hdone
      simp only [offer, hstage] at he
      split at he
      · cases he
      · obtain ⟨n, -, he⟩ := bind_eq_ok.mp he
        cases he
        cases hr
  · have hlt : k < total := lt_of_le_of_ne hkt hdone
    have hreading := h.reading_received hlt hsafe
    by_cases hcount : a.count = 0
    · refine ⟨_, hreading.retry hop hcount, ?_⟩
      rw [hcount]
      exact .body hk hv hkt
    · by_cases hfit : k + a.count ≤ total
      · have hrun := hreading.bytes hop (Nat.pos_of_ne_zero hcount) (by omega)
          (progress_received hlt a.buffer)
        refine ⟨_, hrun, ?_⟩
        rw [conclude, settle_of_open]
        · exact .body (by omega) hv hfit
        · exact h.isOpen
      · refine surplus_of_run hsafe ?_ (fun q' hq' hopen => ?_) _
        · rw [frameBytes, hv]
          exact lt_of_lt_of_le (Nat.lt_of_not_le hfit) hle
        · obtain ⟨e, he, -, hzero | ⟨hrequested, -⟩⟩ := open_of_run hq' hopen
          · exact hcount hzero
          · rw [hreading.offer] at he
            cases he
            have : a.count ≤ total - k := hrequested
            omega

/-- Each attempt takes the machine to the state of the bytes that have arrived. -/
theorem After.step (ha : After p w k q) (h : p.Boundary) (hsafe : q.Safe)
    (hop : p.laneOf a.op = none) (hkw : k < w.length) (hle : k + a.count ≤ w.length)
    (hb : w.take (k + a.count) <+: a.buffer) :
    ∃ q', q.run a.inputs = .ok q' ∧ After p w (k + a.count) q' := by
  cases ha with
  | header hk =>
    by_cases hcount : a.count = 0
    · refine ⟨_, (h.reading hk hsafe).retry hop hcount, ?_⟩
      rw [hcount]
      exact .header hk
    · by_cases hcross : headerBytes ≤ k + a.count
      · exact h.cross hk hsafe hop hcross hle hb
      · have hroom := h.safe.capacity_ge
        have hrun := (h.reading hk hsafe).bytes hop (Nat.pos_of_ne_zero hcount) (by omega)
          (h.progress_header (Nat.lt_of_not_le hcross) a.buffer)
        refine ⟨_, hrun, ?_⟩
        rw [conclude, settle_of_open]
        · exact .header (Nat.lt_of_not_le hcross)
        · exact h.isOpen
  | body hk hv hkt => exact h.step_received rfl hk hkt hv hsafe hop hkw hle
  | refused hv hc ho =>
    obtain ⟨q', hq', -⟩ := safe_run hsafe a.inputs
    refine ⟨q', hq', .surplus ?_ (run_closed (Option.isSome_of_eq_some hc) hq')⟩
    rw [frameBytes, hv]
    exact hkw
  | surplus hw hc =>
    obtain ⟨q', hq', -⟩ := safe_run hsafe a.inputs
    exact ⟨q', hq', .surplus hw (run_closed hc hq')⟩

theorem After.run (h : p.Boundary) {attempts : List Attempt}
    (hfresh : ∀ a ∈ attempts, p.laneOf a.op = none) (ha : After p w k q) (hsafe : q.Safe)
    (hd : Delivers w k attempts) :
    ∃ q', q.run (attempts.flatMap Attempt.inputs) = .ok q' ∧ After p w w.length q' := by
  induction attempts generalizing k q with
  | nil => exact ⟨q, rfl, hd ▸ ha⟩
  | cons a rest ih =>
    obtain ⟨hk, hle, hb, hrest⟩ := hd
    obtain ⟨q₁, hq₁, ha₁⟩ := ha.step h hsafe (hfresh a List.mem_cons_self) hk hle hb
    obtain ⟨q₁', hq₁', hsafe₁, -⟩ := safe_run hsafe a.inputs
    rw [hq₁] at hq₁'
    cases hq₁'
    obtain ⟨q₂, hq₂, ha₂⟩ := ih (fun b hb => hfresh b (List.mem_cons_of_mem a hb)) ha₁ hsafe₁ hrest
    exact ⟨q₂, steps_append hq₁ hq₂, ha₂⟩

/-! ## Frames -/

/-- How a frame ends that the header `header` begins: it is admitted, or refused. -/
structure Ends [Target] (p : Protocol) (header : List UInt8) (q : Protocol) : Prop where
  admitted : ∀ total, verdict p.contract p.capacity p.previous header = .ok total →
    q.closed = none ∧ q.stage = .admission ∧ q.length = total ∧
      q.sequence = headerSequence header ∧ q.credited = p.credited ∧ q.previous = p.previous ∧
        (q.credited = false → q.effect .data =
          .ok (some (.admission (total - headerBytes) (headerRevision header))))
  refused : ∀ error, verdict p.contract p.capacity p.previous header = .error error →
    q.closed = some error
  observed : q.Observed header

theorem Boundary.ends_received (h : p.Boundary) {header : List UInt8}
    (hv : verdict p.contract p.capacity p.previous header = .ok total) :
    p.Ends header (p.received header total total) := by
  refine ⟨fun total' hv' => ?_, fun error hv' => ?_, fun a ha => ?_⟩
  · rw [hv] at hv'
    cases hv'
    refine ⟨h.isOpen, if_pos rfl, rfl, rfl, rfl, rfl, fun hc => ?_⟩
    have hclosed : (p.received header total total).closed = none := h.isOpen
    have hfree : (p.received header total total).active.get .data = none := h.free
    have hstage : (p.received header total total).stage = .admission := if_pos rfl
    have hlength : (p.received header total total).length = total := rfl
    have hrevision : (p.received header total total).revision = headerRevision header := rfl
    have hle : headerBytes ≤ total := (verdict_ok hv).2.2.1 ▸ Nat.le_add_right _ _
    simp only [effect, hfree, hclosed, offer, hstage, hc, hlength, hrevision, sub_of_le hle,
      Option.isSome_none, Bool.false_eq_true, if_false, ok_bind, pure_eq]
  · rw [hv] at hv'
    cases hv'
  · obtain ⟨b, -, rfl⟩ := Option.map_eq_some_iff.mp ha
    rfl

/-- A whole frame ends in one way, however it is cut. -/
theorem After.ends (h : p.Boundary)
    (hw : w.length = frameBytes p.contract p.capacity p.previous (w.take headerBytes))
    (ha : After p w w.length q) : p.Ends (w.take headerBytes) q := by
  generalize hk : w.length = k at ha
  cases ha with
  | header hlt =>
    rw [hk, frameBytes] at hw
    split at hw
    · rename_i hv
      rw [(verdict_ok hv).2.2.1] at hw
      omega
    · omega
  | body _ hv hle =>
    rw [hk, frameBytes, hv] at hw
    subst hw
    exact h.ends_received hv
  | refused hv hc ho =>
    refine ⟨fun total hv' => ?_, fun error hv' => ?_, ho⟩
    · rw [hv] at hv'
      cases hv'
    · rw [hv] at hv'
      cases hv'
      exact hc
  | surplus hlt hc => exact absurd hw hlt.ne'

/-- Decoding from the boundary between two frames. -/
structure Decodes [Target] (p : Protocol) : Prop where
  segments : ∀ w attempts, (∀ a ∈ attempts, p.laneOf a.op = none) → Delivers w 0 attempts →
    w.length = frameBytes p.contract p.capacity p.previous (w.take headerBytes) →
      ∃ q, p.run (attempts.flatMap Attempt.inputs) = .ok q ∧ p.Ends (w.take headerBytes) q
  encoded : ∀ {α : Type} (E : WireCodec α) (s : UInt64) (payload : α) (output out : List UInt8)
    (total : Nat) (attempts : List Attempt), E.contract = p.contract →
      encodeFrame E s payload output = (.ok total, out) → total ≤ p.capacity →
        (∀ last, p.previous = some last → p.contract.delivery.follows last s = true) →
          (∀ a ∈ attempts, p.laneOf a.op = none) → Delivers (out.take total) 0 attempts →
            ∃ q, p.run (attempts.flatMap Attempt.inputs) = .ok q ∧ q.closed = none ∧
              q.stage = .admission ∧ q.sequence = s ∧ q.Observed (out.take headerBytes) ∧
                (q.credited = false → q.effect .data =
                  .ok (some (.admission (E.encodedLen payload) E.contract.revision))) ∧
                ∀ a, attempts.getLast? = some a →
                  Bytes.slice a.buffer headerBytes (headerBytes + E.encodedLen payload) =
                    (E.encode payload (Bytes.slice output headerBytes total)).2
  surplus : ∀ w attempts, (∀ a ∈ attempts, p.laneOf a.op = none) → Delivers w 0 attempts →
    headerBytes + headerLength (w.take headerBytes) < w.length →
      ∃ q, p.run (attempts.flatMap Attempt.inputs) = .ok q ∧ q.closed.isSome

theorem Boundary.after_zero (h : p.Boundary) (w : List UInt8) : After p w 0 p := by
  have hmove : p.move .data 0 = p := by
    have hoffset := h.offset
    obtain ⟨_, _, _, _, _, ⟨d, _, _⟩, _, _, _, _, _, _, _⟩ := p
    cases hoffset
    rfl
  have ha : After p w 0 (p.move .data 0) := .header (by decide)
  rwa [hmove] at ha

/-- The header of an encoded frame is accepted. -/
theorem verdict_header {c : Contract} {capacity n : Nat} {previous : Option UInt64} {s : UInt64}
    (hu32 : n ≤ u32Max) (hmax : headerBytes + n ≤ usizeMax) (hfit : headerBytes + n ≤ capacity)
    (hfollows : ∀ last, previous = some last → c.delivery.follows last s = true) :
    verdict c capacity previous (header c s n) = .ok (headerBytes + n) := by
  have hlength : headerLength (header c s n) = n := headerLength_header c s hu32 (by omega)
  have hadd : checkedAdd headerBytes n = some (headerBytes + n) :=
    checkedAdd_eq_some.mpr ⟨hmax, rfl⟩
  have hany : previous.any (fun last => !c.delivery.follows last s) = false := by
    cases previous with
    | none => rfl
    | some last => simp [hfollows last rfl]
  simp only [verdict, headerMatches_header, headerSequence_header, hlength, hadd, hany,
    Nat.not_lt.mpr hfit, Bool.true_eq_false, Bool.false_eq_true, if_false]

theorem Boundary.decodes (h : p.Boundary) : p.Decodes where
  segments w attempts hfresh hd hw := by
    obtain ⟨q, hq, ha⟩ := After.run h hfresh (h.after_zero w) h.safe hd
    exact ⟨q, hq, ha.ends h hw⟩
  surplus w attempts hfresh hd hw := by
    obtain ⟨q, hq, ha⟩ := After.run h hfresh (h.after_zero w) h.safe hd
    refine ⟨q, hq, ?_⟩
    have hlt : frameBytes p.contract p.capacity p.previous (w.take headerBytes) < w.length :=
      lt_of_le_of_lt frameBytes_le hw
    generalize hk : w.length = k at ha
    cases ha with
    | header hk' => omega
    | body _ hv hle =>
      rw [frameBytes, hv] at hlt
      exact absurd (hk ▸ hlt) (Nat.not_lt.mpr hle)
    | refused hv hc => exact Option.isSome_of_eq_some hc
    | surplus _ hc => exact hc
  encoded E s payload output out total attempts hc he hfit hfollows hfresh hd := by
    obtain ⟨hbody, htake, htotal, hmax, hu32, -, -⟩ := encodeFrame_body he
    generalize (E.encode payload (Bytes.slice output headerBytes total)).2 = body at *
    have hheader : (out.take total).take headerBytes = header E.contract s body.length := by
      rw [htake, List.take_left' (length_header _ _ _)]
    have hv : verdict p.contract p.capacity p.previous (header E.contract s body.length) =
        .ok total := by
      rw [htotal, hc]
      exact verdict_header hu32 (htotal ▸ hmax) (htotal ▸ hfit) hfollows
    obtain ⟨q, hq, ha⟩ := After.run h hfresh (h.after_zero _) h.safe hd
    have hends := ha.ends h (by
      rw [hheader, frameBytes, hv, htake, List.length_append, length_header, htotal])
    rw [hheader] at hends
    obtain ⟨hclosed, hstage, -, hsequence, -, -, heffect⟩ := hends.admitted total hv
    refine ⟨q, hq, hclosed, hstage, hsequence.trans (headerSequence_header _ _ _), ?_, ?_, ?_⟩
    · rw [show out.take headerBytes = header E.contract s body.length from ?_]
      · exact hends.observed
      · rw [← hheader, List.take_take, htotal, Nat.min_eq_left (Nat.le_add_right _ _)]
    · rw [htotal, Nat.add_sub_cancel_left, headerRevision_header, hbody] at heffect
      exact heffect
    · intro a ha
      have hprefix := prefix_of_delivers hd ha
      rw [htake] at hprefix
      obtain ⟨rest, hrest⟩ := hprefix
      rw [← hrest]
      exact Bytes.slice_field (length_header _ _ _).symm (by rw [length_header, hbody])

end

/-- From every boundary between two frames that an importing machine reaches, decoding
inverts encoding, however the bytes are cut. -/
theorem run_decodes [Target] (contract : Contract) (capacity : Nat) (hword : capacity ≤ usizeMax)
    (p₀ : Protocol) (hp : Provisioned contract .importing capacity p₀) (inputs : List Input) :
    ∃ p, p₀.run inputs = .ok p ∧ p.contract = contract ∧ p.capacity = capacity ∧
      (p.closed = none → p.stage = .header → p.active.data = none → p.offsets.data = 0 →
        p.Decodes) := by
  obtain ⟨hsafe, -⟩ := provisioned_safe hword hp
  have hstart : p₀.Safe ∧ p₀.contract = contract ∧ p₀.capacity = capacity := by
    refine ⟨hsafe, ?_⟩
    obtain ⟨a, rfl⟩ := provisioned_eq hp
    exact ⟨rfl, rfl⟩
  have hstep : ∀ (p : Protocol) (i : Input),
      (p.Safe ∧ p.contract = contract ∧ p.capacity = capacity) →
        ∃ q, p.next i = .ok q ∧ q.Safe ∧ q.contract = contract ∧ q.capacity = capacity := by
    rintro p i ⟨hs, hc, hcap⟩
    obtain ⟨q, r, hq, hsq, hcq, -, hcapq⟩ := input_safe hs i
    exact ⟨q, by simp only [next, hq, ok_bind, pure_eq], hsq, hcq.trans hc, hcapq.trans hcap⟩
  obtain ⟨p, hrun, hp, hcontract, hcapacity⟩ := steps_invariant hstep hstart inputs
  exact ⟨p, hrun, hcontract, hcapacity, fun hopen hstage hfree hoffset =>
    Boundary.decodes ⟨hp, hopen, hstage, hfree, hoffset⟩⟩

/-- A credit of an earlier frame is still to be sent when the next frame comes. -/
theorem run_decodes_next :
    let _ := Target.x64
    ∃ p₀ p : Protocol, new ⟨⟨7⟩, 1, 1, .ordered⟩ .importing 64 = .ok p₀ ∧
      p₀.run [.accepted .data ⟨0, 1⟩, .completed ⟨0, 1⟩ (.bytes 38)
        (header ⟨⟨7⟩, 1, 1, .ordered⟩ 3 0), .admitted] = .ok p ∧ p.previous = some 3 ∧
          p.credited = true ∧ p.Decodes := by
  intro _
  obtain ⟨p₀, hp₀⟩ : ∃ p, new ⟨⟨7⟩, 1, 1, .ordered⟩ .importing 64 = .ok p := ⟨_, rfl⟩
  obtain ⟨p, hp, -, -, hdecodes⟩ := run_decodes ⟨⟨7⟩, 1, 1, .ordered⟩ 64 (by decide) p₀ (Or.inl hp₀)
    [.accepted .data ⟨0, 1⟩, .completed ⟨0, 1⟩ (.bytes 38)
      (header ⟨⟨7⟩, 1, 1, .ordered⟩ 3 0), .admitted]
  obtain ⟨q, hq, htest⟩ : ∃ q, p₀.run [.accepted .data ⟨0, 1⟩, .completed ⟨0, 1⟩ (.bytes 38)
      (header ⟨⟨7⟩, 1, 1, .ordered⟩ 3 0), .admitted] = .ok q ∧
        (q.previous == some 3 && q.credited && q.closed.isNone && q.stage == .header &&
          q.active.data.isNone && q.offsets.data == 0) = true := by
    cases hp₀
    exact Exec.of_any (by decide +kernel)
  rw [hp] at hq
  cases hq
  simp only [Bool.and_eq_true, beq_iff_eq, Option.isNone_iff_eq_none] at htest
  obtain ⟨⟨⟨⟨⟨hprevious, hcredited⟩, hopen⟩, hstage⟩, hfree⟩, hoffset⟩ := htest
  exact ⟨p₀, p, hp₀, hp, hprevious, hcredited, hdecodes hopen hstage hfree hoffset⟩

end Protocol

end Hiway.Transport
