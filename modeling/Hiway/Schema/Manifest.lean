import Hiway.Event

/-!
# Schema manifests

The fields of one event generation, and the checks that a manifest is well formed and that
the next one can be read by a reader of the previous one.

* `validateSchema`: the checks of one manifest.
* `validateEvolution`: the checks of a manifest and the one that is to follow it.
-/

namespace Hiway

/-- Wire field kind used by a schema manifest. -/
inductive FieldKind where
  | bool
  | unsigned
  | signed
  | text
  | bytes
  | message (event : EventId)
  deriving DecidableEq, Repr

/-- Presence contract for one field. -/
inductive FieldPresence where
  | required
  | optional
  | defaulted
  deriving DecidableEq, Repr

structure FieldSpec where
  tag : UInt32
  kind : FieldKind
  presence : FieldPresence
  deriving DecidableEq, Repr

/-- Borrowed schema manifest for one event generation. -/
structure Schema where
  event : EventId
  wireMajor : WireMajor
  fields : List FieldSpec
  reservedTags : List UInt32
  deriving DecidableEq, Repr

inductive SchemaError where
  | duplicateTag (tag : UInt32)
  | fieldKindChanged (tag : UInt32)
  | newlyRequired (tag : UInt32)
  | requiredFieldMadeOptional (tag : UInt32)
  | requiredFieldRemoved (tag : UInt32)
  | removedTagNotReserved (tag : UInt32)
  | reservedTagReused (tag : UInt32)
  | reservedTagRemoved (tag : UInt32)
  | eventChanged
  | majorChanged
  deriving DecidableEq, Repr

/-! ## One manifest -/

/-- The first loop of `validate_schema`, over what is left of the fields. -/
def validateFields (reservedTags : List UInt32) : List FieldSpec → Except SchemaError Unit
  | [] => .ok ()
  | field :: rest =>
    if rest.any (fun other => other.tag = field.tag) || reservedTags.contains field.tag then
      .error (.duplicateTag field.tag)
    else validateFields reservedTags rest

/-- The second loop of `validate_schema`, over what is left of the reserved tags. -/
def validateReserved : List UInt32 → Except SchemaError Unit
  | [] => .ok ()
  | tag :: rest =>
    if rest.any (fun other => other = tag) then .error (.duplicateTag tag)
    else validateReserved rest

/-- `validate_schema`. -/
def validateSchema (schema : Schema) : Except SchemaError Unit := do
  validateFields schema.reservedTags schema.fields
  validateReserved schema.reservedTags

/-! ## Two manifests -/

/-- The field of a tag. -/
def Schema.field (schema : Schema) (tag : UInt32) : Option FieldSpec :=
  schema.fields.find? fun field => field.tag = tag

/-- What `validate_evolution` asks of a tag that the previous revision reserves. -/
def keepReserved (next : Schema) (tag : UInt32) : Except SchemaError Unit :=
  if next.fields.any (fun field => field.tag = tag) then .error (.reservedTagReused tag)
  else if !next.reservedTags.contains tag then .error (.reservedTagRemoved tag)
  else .ok ()

/-- What `validate_evolution` asks of a field of the previous revision. -/
def keepField (next : Schema) (old : FieldSpec) : Except SchemaError Unit :=
  match next.field old.tag with
  | none =>
    if old.presence = .required then .error (.requiredFieldRemoved old.tag)
    else if !next.reservedTags.contains old.tag then .error (.removedTagNotReserved old.tag)
    else .ok ()
  | some current =>
    if old.kind ≠ current.kind then .error (.fieldKindChanged old.tag)
    else
      match old.presence, current.presence with
      | .required, .optional | .required, .defaulted =>
        .error (.requiredFieldMadeOptional old.tag)
      | .optional, .required | .defaulted, .required => .error (.newlyRequired old.tag)
      | _, _ => .ok ()

/-- What `validate_evolution` asks of a field of the next revision. -/
def addField (previous : Schema) (field : FieldSpec) : Except SchemaError Unit :=
  if !previous.fields.any (fun old => old.tag = field.tag) && field.presence = .required then
    .error (.newlyRequired field.tag)
  else .ok ()

/-- `validate_evolution`. -/
def validateEvolution (previous next : Schema) : Except SchemaError Unit := do
  validateSchema previous
  validateSchema next
  if previous.event ≠ next.event then throw .eventChanged
  if previous.wireMajor ≠ next.wireMajor then throw .majorChanged
  previous.reservedTags.forM (keepReserved next)
  previous.fields.forM (keepField next)
  next.fields.forM (addField previous)

end Hiway
