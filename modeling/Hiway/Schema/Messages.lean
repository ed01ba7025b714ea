import Hiway.Schema.Evolution

/-!
# Messages of two revisions

A message gives values to tags. What one revision writes the other can read, in both
directions, and the conditions under which a revision may not follow are those that its
check looks for.

* `readable_by_previous`: a reader of the previous revision takes in what the next one
  writes.
* `readable_by_next`: a reader of the next revision takes in what the previous one has
  written.
* `validateEvolution_compatible`: an accepted revision is compatible in both directions, and
  a refused one breaks one of the conditions.
-/

namespace Hiway

/-! ## Messages -/

/-- Values by tag. -/
abbrev Message (Value : Type) := UInt32 → Option Value

namespace Schema

variable {Value : Type}

/-- The message has every field that has to be there. -/
def Complete (s : Schema) (message : Message Value) : Prop :=
  ∀ field ∈ s.fields, field.presence = .required → (message field.tag).isSome

/-- What a writer of the schema may send: active tags only, each with a value of its kind. -/
structure Valid (kind : Value → FieldKind) (s : Schema) (message : Message Value) : Prop where
  active : ∀ tag value, message tag = some value →
    ∃ field ∈ s.fields, field.tag = tag ∧ field.kind = kind value
  complete : s.Complete message

/-- What a reader of the schema can take in. It skips tags that it does not know. -/
structure Readable (kind : Value → FieldKind) (s : Schema) (message : Message Value) : Prop where
  known : ∀ field ∈ s.fields, ∀ value, message field.tag = some value → kind value = field.kind
  complete : s.Complete message

end Schema

/-! ## Revisions that may not follow -/

/-- Each tag once, across the active and the reserved ones. -/
def Schema.Distinct (s : Schema) : Prop := (s.fields.map FieldSpec.tag ++ s.reservedTags).Nodup

def Schema.Active (s : Schema) (tag : UInt32) : Prop := ∃ field ∈ s.fields, field.tag = tag

/-- What keeps a revision from following another. -/
inductive Breaks (previous next : Schema) : Prop
  | duplicateBefore (h : ¬ previous.Distinct)
  | duplicateAfter (h : ¬ next.Distinct)
  | event (h : previous.event ≠ next.event)
  | major (h : previous.wireMajor ≠ next.wireMajor)
  | kind {old new : FieldSpec} (hold : old ∈ previous.fields) (hnew : new ∈ next.fields)
      (htag : old.tag = new.tag) (h : old.kind ≠ new.kind)
  | presence {old new : FieldSpec} (hold : old ∈ previous.fields) (hnew : new ∈ next.fields)
      (htag : old.tag = new.tag) (h : ¬ (old.presence = .required ↔ new.presence = .required))
  | added {new : FieldSpec} (hnew : new ∈ next.fields) (hrequired : new.presence = .required)
      (h : ¬ previous.Active new.tag)
  | removed {old : FieldSpec} (hold : old ∈ previous.fields) (hrequired : old.presence = .required)
      (h : ¬ next.Active old.tag)
  | unreserved {old : FieldSpec} (hold : old ∈ previous.fields) (hgone : ¬ next.Active old.tag)
      (h : old.tag ∉ next.reservedTags)
  | reused {tag : UInt32} (htag : tag ∈ previous.reservedTags) (h : next.Active tag)
  | dropped {tag : UInt32} (htag : tag ∈ previous.reservedTags) (h : tag ∉ next.reservedTags)

theorem validateReserved_ok {tags : List UInt32} :
    validateReserved tags = .ok () ↔ tags.Nodup := by
  induction tags with
  | nil => simp [validateReserved]
  | cons tag rest ih =>
    unfold validateReserved
    split
    · rename_i hdup
      obtain ⟨other, hother, heq⟩ := List.any_eq_true.mp hdup
      refine ⟨nofun, fun hnodup => absurd ?_ (List.nodup_cons.mp hnodup).1⟩
      exact of_decide_eq_true heq ▸ hother
    · rename_i hdup
      have hnew : tag ∉ rest := fun hmem =>
        hdup (List.any_eq_true.mpr ⟨tag, hmem, decide_eq_true rfl⟩)
      rw [ih, List.nodup_cons]
      exact ⟨fun h => ⟨hnew, h⟩, fun h => h.2⟩

theorem validateSchema_ok {s : Schema} : validateSchema s = .ok () ↔ s.Distinct := by
  have hparts : validateSchema s = .ok () ↔
      validateFields s.reservedTags s.fields = .ok () ∧
        validateReserved s.reservedTags = .ok () := by
    unfold validateSchema
    constructor
    · intro h
      obtain ⟨u, hfields, hreserved⟩ := Exec.except_bind_eq_ok.mp h
      exact ⟨hfields, hreserved⟩
    · rintro ⟨hfields, hreserved⟩
      exact Exec.except_bind_eq_ok.mpr ⟨(), hfields, hreserved⟩
  rw [hparts, validateFields_ok, validateReserved_ok, Schema.Distinct, List.nodup_append]
  constructor
  · rintro ⟨⟨hfields, hfree⟩, hreserved⟩
    refine ⟨hfields, hreserved, ?_⟩
    rintro tag htag _ hmem rfl
    obtain ⟨field, hfield, rfl⟩ := List.mem_map.mp htag
    exact hfree field hfield hmem
  · rintro ⟨hfields, hreserved, hfree⟩
    exact ⟨⟨hfields, fun field hfield hmem =>
      hfree _ (List.mem_map_of_mem hfield) _ hmem rfl⟩, hreserved⟩

section

variable {previous next : Schema}

theorem Schema.not_active {s : Schema} {tag : UInt32} :
    ¬ s.Active tag ↔ s.field tag = none := by
  rw [Schema.field_eq_none]
  unfold Schema.Active
  exact ⟨fun h field hfield heq => h ⟨field, hfield, heq⟩,
    fun h ⟨field, hfield, heq⟩ => h field hfield heq⟩

/-- A field of both revisions has the same kind and has to be there in both or in none. -/
theorem field_kept (h : validateEvolution previous next = .ok ()) {old new : FieldSpec}
    (hold : old ∈ previous.fields) (hnew : new ∈ next.fields) (htag : old.tag = new.tag) :
    old.kind = new.kind ∧ (old.presence = .required ↔ new.presence = .required) := by
  obtain ⟨⟨hprevious, hnext⟩, -, hle⟩ := validateEvolution_ok.mp h
  have hgrown := hle old.tag
  rw [Schema.status_of_mem hprevious hold, htag, Schema.status_of_mem hnext hnew] at hgrown
  exact ⟨hgrown.1, decide_eq_decide.mp hgrown.2⟩

/-- A field that is gone did not have to be there, and its tag is reserved. -/
theorem field_gone (h : validateEvolution previous next = .ok ()) {old : FieldSpec}
    (hold : old ∈ previous.fields) (hgone : ¬ next.Active old.tag) :
    old.presence ≠ .required ∧ old.tag ∈ next.reservedTags := by
  obtain ⟨⟨hprevious, -⟩, -, hle⟩ := validateEvolution_ok.mp h
  have hgrown := hle old.tag
  rw [Schema.status_of_mem hprevious hold] at hgrown
  rcases TagStatus.active_le.mp hgrown with hactive | ⟨hreserved, hoptional⟩
  · obtain ⟨f, hf, -⟩ := Schema.status_active.mp hactive
    rw [Schema.not_active.mp hgone] at hf
    cases hf
  · exact ⟨of_decide_eq_false hoptional, (Schema.status_reserved.mp hreserved).2⟩

theorem field_new (h : validateEvolution previous next = .ok ()) {new : FieldSpec}
    (hnew : new ∈ next.fields) (hrequired : new.presence = .required) :
    previous.Active new.tag := by
  obtain ⟨⟨-, hnext⟩, -, hle⟩ := validateEvolution_ok.mp h
  have hgrown := hle new.tag
  rw [Schema.status_of_mem hnext hnew, decide_eq_true hrequired, TagStatus.le_required] at hgrown
  obtain ⟨old, hold, -⟩ := Schema.status_active.mp hgrown
  obtain ⟨hmem, htag⟩ := Schema.field_mem hold
  exact ⟨old, hmem, htag⟩

theorem reserved_kept (h : validateEvolution previous next = .ok ()) {tag : UInt32}
    (htag : tag ∈ previous.reservedTags) : ¬ next.Active tag ∧ tag ∈ next.reservedTags := by
  obtain ⟨⟨hprevious, -⟩, -, hle⟩ := validateEvolution_ok.mp h
  have hstatus : previous.status tag = .reserved :=
    Schema.status_reserved.mpr ⟨Schema.field_of_reserved hprevious htag, htag⟩
  have hkept := TagStatus.reserved_le.mp (hstatus ▸ hle tag)
  obtain ⟨hfree, hreserved⟩ := Schema.status_reserved.mp hkept
  exact ⟨Schema.not_active.mpr hfree, hreserved⟩

/-- The check looks for exactly what keeps a revision from following. -/
theorem validateEvolution_breaks :
    validateEvolution previous next ≠ .ok () ↔ Breaks previous next := by
  constructor
  · intro herror
    by_contra hbreaks
    have hprevious : validateSchema previous = .ok () :=
      validateSchema_ok.mpr (by_contra fun h => hbreaks (.duplicateBefore h))
    have hnext : validateSchema next = .ok () :=
      validateSchema_ok.mpr (by_contra fun h => hbreaks (.duplicateAfter h))
    refine herror (validateEvolution_ok.mpr ⟨⟨hprevious, hnext⟩,
      ⟨by_contra fun h => hbreaks (.event h), by_contra fun h => hbreaks (.major h)⟩,
      fun tag => ?_⟩)
    cases hstatus : previous.status tag with
    | free =>
      cases hnew : next.status tag with
      | free => exact le_refl _
      | reserved => trivial
      | active kind required =>
        obtain ⟨new, hfield, rfl, rfl⟩ := Schema.status_active.mp hnew
        obtain ⟨hmem, rfl⟩ := Schema.field_mem hfield
        refine decide_eq_false fun hrequired => hbreaks (.added hmem hrequired ?_)
        rintro ⟨old, hold, htag⟩
        rw [← htag, Schema.status_of_mem hprevious hold] at hstatus
        cases hstatus
    | active kind required =>
      obtain ⟨old, hfield, rfl, rfl⟩ := Schema.status_active.mp hstatus
      obtain ⟨hold, rfl⟩ := Schema.field_mem hfield
      rw [TagStatus.active_le]
      by_cases hactive : next.Active old.tag
      · obtain ⟨new, hnew, htag⟩ := hactive
        have hkind : old.kind = new.kind :=
          by_contra fun h => hbreaks (.kind hold hnew htag.symm h)
        have hpresence : old.presence = .required ↔ new.presence = .required :=
          by_contra fun h => hbreaks (.presence hold hnew htag.symm h)
        refine Or.inl ?_
        rw [← htag, Schema.status_of_mem hnext hnew, hkind, decide_eq_decide.mpr hpresence]
      · refine Or.inr ⟨Schema.status_reserved.mpr ⟨Schema.not_active.mp hactive, ?_⟩,
          decide_eq_false fun hrequired => hbreaks (.removed hold hrequired hactive)⟩
        exact by_contra fun h => hbreaks (.unreserved hold hactive h)
    | reserved =>
      have htag := (Schema.status_reserved.mp hstatus).2
      rw [TagStatus.reserved_le, Schema.status_reserved]
      exact ⟨Schema.not_active.mp fun h => hbreaks (.reused htag h),
        by_contra fun h => hbreaks (.dropped htag h)⟩
  · intro hbreaks hok
    obtain ⟨⟨hprevious, hnext⟩, ⟨hevent, hmajor⟩, -⟩ := validateEvolution_ok.mp hok
    cases hbreaks with
    | duplicateBefore h => exact h (validateSchema_ok.mp hprevious)
    | duplicateAfter h => exact h (validateSchema_ok.mp hnext)
    | event h => exact h hevent
    | major h => exact h hmajor
    | kind hold hnew htag h => exact h (field_kept hok hold hnew htag).1
    | presence hold hnew htag h => exact h (field_kept hok hold hnew htag).2
    | added hnew hrequired h => exact h (field_new hok hnew hrequired)
    | removed hold hrequired h => exact (field_gone hok hold h).1 hrequired
    | unreserved hold hgone h => exact h (field_gone hok hold hgone).2
    | reused htag h => exact (reserved_kept hok htag).1 h
    | dropped htag h => exact h (reserved_kept hok htag).2

variable {Value : Type} {kind : Value → FieldKind} {message : Message Value}

/-- A reader of the previous revision takes in what the next one writes. -/
theorem readable_by_previous (h : validateEvolution previous next = .ok ())
    (hmessage : next.Valid kind message) : previous.Readable kind message := by
  obtain ⟨⟨hprevious, hnext⟩, -, -⟩ := validateEvolution_ok.mp h
  refine ⟨fun old hold value hvalue => ?_, fun old hold hrequired => ?_⟩
  · obtain ⟨new, hnew, htag, hkind⟩ := hmessage.active old.tag value hvalue
    rw [← hkind, (field_kept h hold hnew htag.symm).1]
  · have hactive : next.Active old.tag :=
      by_contra fun hgone => (field_gone h hold hgone).1 hrequired
    obtain ⟨new, hnew, htag⟩ := hactive
    rw [← htag]
    exact hmessage.complete new hnew ((field_kept h hold hnew htag.symm).2.mp hrequired)

/-- A reader of the next revision takes in what the previous one has written. -/
theorem readable_by_next (h : validateEvolution previous next = .ok ())
    (hmessage : previous.Valid kind message) : next.Readable kind message := by
  refine ⟨fun new hnew value hvalue => ?_, fun new hnew hrequired => ?_⟩
  · obtain ⟨old, hold, htag, hkind⟩ := hmessage.active new.tag value hvalue
    rw [← hkind, (field_kept h hold hnew htag).1]
  · obtain ⟨old, hold, htag⟩ := field_new h hnew hrequired
    rw [← htag]
    exact hmessage.complete old hold ((field_kept h hold hnew htag).2.mpr hrequired)

end

/-- What an accepted revision means for messages and tags. -/
structure Compatible {Value : Type} (kind : Value → FieldKind) (previous next : Schema) :
    Prop where
  backward : ∀ message : Message Value, next.Valid kind message → previous.Readable kind message
  forward : ∀ message : Message Value, previous.Valid kind message → next.Readable kind message
  unused : ∀ tag ∈ previous.reservedTags, ¬ next.Active tag
  removed : ∀ tag, previous.Active tag → ¬ next.Active tag → tag ∈ next.reservedTags
  reserved : ∀ tag ∈ previous.reservedTags, tag ∈ next.reservedTags

/-- **Compatibility.** A revision that is accepted is compatible with the one before it in
both directions, and one is refused exactly for a reason to refuse it. -/
theorem validateEvolution_compatible {Value : Type} (kind : Value → FieldKind)
    (previous next : Schema) :
    (validateEvolution previous next = .ok () → Compatible kind previous next) ∧
      ((∃ error, validateEvolution previous next = .error error) ↔ Breaks previous next) := by
  refine ⟨fun h => ?_, ?_⟩
  · exact {
      backward := fun message => readable_by_previous h
      forward := fun message => readable_by_next h
      unused := fun tag htag => (reserved_kept h htag).1
      removed := by
        rintro tag ⟨old, hold, rfl⟩ hgone
        exact (field_gone h hold hgone).2
      reserved := fun tag htag => (reserved_kept h htag).2 }
  · rw [← validateEvolution_breaks]
    cases validateEvolution previous next with
    | ok _ => simp
    | error error => simp

end Hiway
