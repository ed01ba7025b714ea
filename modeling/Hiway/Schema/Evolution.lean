import Hiway.Schema.Manifest

/-!
# The evolution of a schema

Each tag of a well-formed schema has one status, and the statuses are ordered by what may
become of a tag: it may be taken into use as long as no value has to have it, be retired
as long as none had to, and never come back. A revision may follow another exactly when
the status of every tag has grown, so only adjacent revisions need to be compared.

* `validateEvolution_ok`: a schema may follow another exactly when both are well formed and
  the status of every tag has grown.
* `Revisions.evolves`: only adjacent revisions are compared, and yet any later one may
  follow.
* `revisions_safe`: what a reader of one revision may rely on in every later one.
-/

namespace Hiway

/-! ## The status of a tag -/

/-- What a schema says of a tag. -/
inductive TagStatus where
  | free
  | active (kind : FieldKind) (required : Bool)
  | reserved
  deriving DecidableEq, Repr

namespace TagStatus

/-- What may become of a tag. -/
def Le : TagStatus → TagStatus → Prop
  | .free, .active _ required => required = false
  | .free, _ => True
  | .active kind required, .active kind' required' => kind = kind' ∧ required = required'
  | .active _ required, .reserved => required = false
  | .reserved, .reserved => True
  | _, _ => False

theorem Le.refl (a : TagStatus) : Le a a := by
  cases a with
  | free => trivial
  | active kind required => exact ⟨rfl, rfl⟩
  | reserved => trivial

theorem Le.trans {a b c : TagStatus} (h : Le a b) (h' : Le b c) : Le a c := by
  cases a with
  | free =>
    cases b with
    | free => exact h'
    | active kind required =>
      cases c with
      | free => exact h'.elim
      | active kind' required' => exact h'.2.symm.trans h
      | reserved => trivial
    | reserved =>
      cases c with
      | free => trivial
      | active kind' required' => exact h'.elim
      | reserved => trivial
  | active kind required =>
    cases b with
    | free => exact h.elim
    | active kind' required' =>
      obtain ⟨rfl, rfl⟩ := h
      exact h'
    | reserved =>
      cases c with
      | free => exact h'.elim
      | active kind' required' => exact h'.elim
      | reserved => exact h
  | reserved =>
    cases b with
    | free => exact h.elim
    | active kind required => exact h.elim
    | reserved => exact h'

theorem Le.antisymm {a b : TagStatus} (h : Le a b) (h' : Le b a) : a = b := by
  cases a with
  | free =>
    cases b with
    | free => rfl
    | active kind required => exact h'.elim
    | reserved => exact h'.elim
  | active kind required =>
    cases b with
    | free => exact h.elim
    | active kind' required' =>
      obtain ⟨rfl, rfl⟩ := h
      rfl
    | reserved => exact h'.elim
  | reserved =>
    cases b with
    | free => exact h.elim
    | active kind required => exact h.elim
    | reserved => rfl

instance : PartialOrder TagStatus where
  le := Le
  le_refl := Le.refl
  le_trans _ _ _ := Le.trans
  le_antisymm _ _ := Le.antisymm

variable {a b c : TagStatus} {kind : FieldKind} {required : Bool}

theorem reserved_le : .reserved ≤ a ↔ a = .reserved := by
  constructor
  · intro h
    cases a with
    | free => exact h.elim
    | active kind required => exact h.elim
    | reserved => rfl
  · rintro rfl
    exact le_refl _

/-- A tag in use stays as it is, or is retired if no value has to have it. -/
theorem active_le :
    .active kind required ≤ a ↔ a = .active kind required ∨ a = .reserved ∧ required = false := by
  constructor
  · intro h
    cases a with
    | free => exact h.elim
    | active kind' required' =>
      obtain ⟨rfl, rfl⟩ := h
      exact Or.inl rfl
    | reserved => exact Or.inr ⟨rfl, h⟩
  · rintro (rfl | ⟨rfl, rfl⟩)
    · exact le_refl _
    · exact rfl

/-- A tag that every value has was in use before. -/
theorem le_required : a ≤ .active kind true ↔ a = .active kind true := by
  constructor
  · intro h
    cases a with
    | free => cases h
    | active kind' required' =>
      obtain ⟨rfl, rfl⟩ := h
      rfl
    | reserved => exact h.elim
  · rintro rfl
    exact le_refl _

/-- A tag that is in use before and after is so in between. -/
theorem active_between {kind' : FieldKind} {required' : Bool} (ha : .active kind required ≤ b)
    (hb : b ≤ .active kind' required') :
    b = .active kind required ∧ kind' = kind ∧ required' = required := by
  rcases active_le.mp ha with rfl | ⟨rfl, -⟩
  · rcases active_le.mp hb with h | ⟨h, -⟩
    · cases h
      exact ⟨rfl, rfl, rfl⟩
    · cases h
  · cases reserved_le.mp hb

end TagStatus

/-! ## A well-formed schema -/

theorem validateFields_ok {reservedTags : List UInt32} {fields : List FieldSpec} :
    validateFields reservedTags fields = .ok () ↔
      (fields.map FieldSpec.tag).Nodup ∧ ∀ field ∈ fields, field.tag ∉ reservedTags := by
  induction fields with
  | nil => simp [validateFields]
  | cons field rest ih =>
    unfold validateFields
    split
    · rename_i hdup
      refine ⟨nofun, fun ⟨hnodup, hfree⟩ => ?_⟩
      rcases Bool.or_eq_true_iff.mp hdup with h | h
      · obtain ⟨other, hother, htag⟩ := List.any_eq_true.mp h
        rw [List.map_cons, List.nodup_cons] at hnodup
        exact absurd (List.mem_map.mpr ⟨other, hother, of_decide_eq_true htag⟩) hnodup.1
      · exact absurd (List.contains_iff_mem.mp h) (hfree field List.mem_cons_self)
    · rename_i hdup
      rw [Bool.or_eq_true, not_or] at hdup
      rw [ih, List.map_cons, List.nodup_cons, List.forall_mem_cons]
      have hnew : field.tag ∉ rest.map FieldSpec.tag := by
        intro hmem
        obtain ⟨other, hother, htag⟩ := List.mem_map.mp hmem
        exact hdup.1 (List.any_eq_true.mpr ⟨other, hother, decide_eq_true htag⟩)
      have hfree : field.tag ∉ reservedTags := fun hmem =>
        hdup.2 (List.contains_iff_mem.mpr hmem)
      exact ⟨fun ⟨h, h'⟩ => ⟨⟨hnew, h⟩, hfree, h'⟩, fun ⟨⟨_, h⟩, _, h'⟩ => ⟨h, h'⟩⟩

namespace Schema

variable {s : Schema} {tag : UInt32}

/-- What the schema says of the tag. -/
def status (s : Schema) (tag : UInt32) : TagStatus :=
  match s.field tag with
  | some field => .active field.kind (field.presence = .required)
  | none => if tag ∈ s.reservedTags then .reserved else .free

theorem field_eq_none : s.field tag = none ↔ ∀ field ∈ s.fields, field.tag ≠ tag := by
  simp [field]

theorem field_mem {f : FieldSpec} (h : s.field tag = some f) : f ∈ s.fields ∧ f.tag = tag :=
  ⟨List.mem_of_find?_eq_some h, by simpa using List.find?_some h⟩

theorem status_reserved : s.status tag = .reserved ↔ s.field tag = none ∧ tag ∈ s.reservedTags := by
  unfold status
  cases s.field tag with
  | some f => simp
  | none => simp

theorem status_active {kind : FieldKind} {required : Bool} :
    s.status tag = .active kind required ↔
      ∃ f, s.field tag = some f ∧ f.kind = kind ∧ decide (f.presence = .required) = required := by
  unfold status
  cases s.field tag with
  | some f => simp
  | none =>
    simp only [reduceCtorEq, false_and, exists_false, iff_false]
    split <;> nofun

/-- In a well-formed schema a field is the only one of its tag. -/
theorem field_of_mem (h : validateSchema s = .ok ()) {f : FieldSpec} (hf : f ∈ s.fields) :
    s.field f.tag = some f := by
  obtain ⟨u, hfields, -⟩ := Exec.except_bind_eq_ok.mp h
  obtain ⟨hnodup, -⟩ := validateFields_ok.mp hfields
  cases hfield : s.field f.tag with
  | none => exact absurd rfl (field_eq_none.mp hfield f hf)
  | some f' =>
    obtain ⟨hf', htag⟩ := field_mem hfield
    rw [List.inj_on_of_nodup_map hnodup hf' hf htag]

/-- In a well-formed schema no field has a reserved tag. -/
theorem field_of_reserved (h : validateSchema s = .ok ()) (htag : tag ∈ s.reservedTags) :
    s.field tag = none := by
  obtain ⟨u, hfields, -⟩ := Exec.except_bind_eq_ok.mp h
  obtain ⟨-, hfree⟩ := validateFields_ok.mp hfields
  refine field_eq_none.mpr fun f hf heq => hfree f hf ?_
  rw [heq]
  exact htag

theorem status_of_mem (h : validateSchema s = .ok ()) {f : FieldSpec} (hf : f ∈ s.fields) :
    s.status f.tag = .active f.kind (f.presence = .required) := by
  unfold status
  rw [field_of_mem h hf]

end Schema

/-! ## One revision after another -/

section

variable {previous next : Schema}

theorem keepReserved_ok {tag : UInt32} :
    keepReserved next tag = .ok () ↔ next.status tag = .reserved := by
  rw [Schema.status_reserved, Schema.field_eq_none]
  unfold keepReserved
  split
  · rename_i hused
    obtain ⟨f, hf, htag⟩ := List.any_eq_true.mp hused
    exact ⟨nofun, fun h => absurd (of_decide_eq_true htag) (h.1 f hf)⟩
  · rename_i hunused
    have hfree : ∀ f ∈ next.fields, f.tag ≠ tag := fun f hf heq =>
      hunused (List.any_eq_true.mpr ⟨f, hf, decide_eq_true heq⟩)
    simp only [Bool.not_eq_true']
    split
    · rename_i hgone
      rw [← Bool.not_eq_true, List.contains_iff_mem] at hgone
      exact ⟨nofun, fun h => absurd h.2 hgone⟩
    · rename_i hkept
      rw [Bool.not_eq_false, List.contains_iff_mem] at hkept
      exact ⟨fun _ => ⟨hfree, hkept⟩, fun _ => rfl⟩

theorem keepField_ok {old : FieldSpec} :
    keepField next old = .ok () ↔
      .active old.kind (old.presence = .required) ≤ next.status old.tag := by
  rw [TagStatus.active_le, Schema.status_reserved]
  unfold keepField Schema.status
  cases hfield : next.field old.tag with
  | none =>
    dsimp only
    by_cases hrequired : old.presence = .required
    · rw [if_pos hrequired]
      refine ⟨nofun, ?_⟩
      rintro (h | ⟨-, h⟩)
      · split at h <;> cases h
      · exact absurd hrequired (of_decide_eq_false h)
    · rw [if_neg hrequired]
      simp only [Bool.not_eq_true']
      split
      · rename_i hgone
        rw [← Bool.not_eq_true, List.contains_iff_mem] at hgone
        refine ⟨nofun, ?_⟩
        rintro (h | ⟨⟨-, h⟩, -⟩)
        · split at h <;> cases h
        · exact absurd h hgone
      · rename_i hkept
        rw [Bool.not_eq_false, List.contains_iff_mem] at hkept
        exact ⟨fun _ => Or.inr ⟨⟨trivial, hkept⟩, decide_eq_false hrequired⟩, fun _ => rfl⟩
  | some current =>
    dsimp only
    simp only [reduceCtorEq, false_and, or_false, TagStatus.active.injEq]
    by_cases hkind : old.kind = current.kind
    · rw [if_neg (not_not.mpr hkind)]
      cases hold : old.presence <;> cases hcurrent : current.presence <;> simp [hkind]
    · rw [if_pos hkind]
      exact ⟨nofun, fun h => absurd h.1.symm hkind⟩

theorem addField_ok {f : FieldSpec} :
    addField previous f = .ok () ↔
      (f.presence = .required → ∃ old, previous.field f.tag = some old) := by
  have hany : previous.fields.any (fun old => old.tag = f.tag) = true ↔
      ∃ old, previous.field f.tag = some old := by
    rw [← Option.isSome_iff_exists]
    unfold Schema.field
    rw [List.find?_isSome, List.any_eq_true]
  unfold addField
  split
  · rename_i hnew
    obtain ⟨hnew, hrequired⟩ := Bool.and_eq_true_iff.mp hnew
    refine ⟨nofun, fun h => ?_⟩
    rw [Bool.not_eq_true', ← Bool.not_eq_true] at hnew
    exact absurd (hany.mpr (h (of_decide_eq_true hrequired))) hnew
  · rename_i hknown
    refine ⟨fun _ hrequired => ?_, fun _ => rfl⟩
    rw [← hany]
    by_contra hnew
    refine hknown (Bool.and_eq_true_iff.mpr ⟨?_, decide_eq_true hrequired⟩)
    rw [Bool.not_eq_true', ← Bool.not_eq_true]
    exact hnew

/-- **One revision.** A schema may follow another exactly when both are well formed, of one
event and one wire generation, and the status of every tag has grown. -/
theorem validateEvolution_ok :
    validateEvolution previous next = .ok () ↔
      (validateSchema previous = .ok () ∧ validateSchema next = .ok ()) ∧
        (previous.event = next.event ∧ previous.wireMajor = next.wireMajor) ∧
          previous.status ≤ next.status := by
  have hall : validateEvolution previous next = .ok () ↔
      validateSchema previous = .ok () ∧ validateSchema next = .ok () ∧
        previous.event = next.event ∧ previous.wireMajor = next.wireMajor ∧
          (∀ tag ∈ previous.reservedTags, keepReserved next tag = .ok ()) ∧
            (∀ old ∈ previous.fields, keepField next old = .ok ()) ∧
              ∀ f ∈ next.fields, addField previous f = .ok () := by
    unfold validateEvolution
    constructor
    · intro h
      obtain ⟨_, hprevious, h⟩ := Exec.except_bind_eq_ok.mp h
      obtain ⟨_, hnext, h⟩ := Exec.except_bind_eq_ok.mp h
      dsimp only at h
      split at h
      · cases h
      · rename_i hevent
        split at h
        · cases h
        · rename_i hmajor
          obtain ⟨_, hreserved, h⟩ := Exec.except_bind_eq_ok.mp h
          obtain ⟨_, hkept, hadded⟩ := Exec.except_bind_eq_ok.mp h
          exact ⟨hprevious, hnext, not_not.mp hevent, not_not.mp hmajor,
            Exec.except_forM_eq_ok.mp hreserved, Exec.except_forM_eq_ok.mp hkept,
            Exec.except_forM_eq_ok.mp hadded⟩
    · rintro ⟨hprevious, hnext, hevent, hmajor, hreserved, hkept, hadded⟩
      refine Exec.except_bind_eq_ok.mpr ⟨(), hprevious,
        Exec.except_bind_eq_ok.mpr ⟨(), hnext, ?_⟩⟩
      dsimp only
      rw [if_neg (not_not.mpr hevent), if_neg (not_not.mpr hmajor)]
      exact Exec.except_bind_eq_ok.mpr ⟨(), Exec.except_forM_eq_ok.mpr hreserved,
        Exec.except_bind_eq_ok.mpr ⟨(), Exec.except_forM_eq_ok.mpr hkept,
          Exec.except_forM_eq_ok.mpr hadded⟩⟩
  rw [hall]
  constructor
  · rintro ⟨hprevious, hnext, hevent, hmajor, hreserved, hkept, hadded⟩
    refine ⟨⟨hprevious, hnext⟩, ⟨hevent, hmajor⟩, fun tag => ?_⟩
    cases hstatus : previous.status tag with
    | free =>
      cases hnew : next.status tag with
      | free => exact le_refl _
      | reserved => trivial
      | active kind required =>
        obtain ⟨f, hf, rfl, rfl⟩ := Schema.status_active.mp hnew
        obtain ⟨hmem, rfl⟩ := Schema.field_mem hf
        refine decide_eq_false fun hrequired => ?_
        obtain ⟨old, hold⟩ := addField_ok.mp (hadded f hmem) hrequired
        rw [Schema.status, hold] at hstatus
        cases hstatus
    | active kind required =>
      obtain ⟨old, hold, rfl, rfl⟩ := Schema.status_active.mp hstatus
      obtain ⟨hmem, rfl⟩ := Schema.field_mem hold
      exact keepField_ok.mp (hkept old hmem)
    | reserved =>
      exact TagStatus.reserved_le.mpr
        (keepReserved_ok.mp (hreserved tag (Schema.status_reserved.mp hstatus).2))
  · rintro ⟨⟨hprevious, hnext⟩, ⟨hevent, hmajor⟩, hle⟩
    refine ⟨hprevious, hnext, hevent, hmajor, fun tag htag => ?_, fun old hold => ?_,
      fun f hf => ?_⟩
    · have hstatus : previous.status tag = .reserved :=
        Schema.status_reserved.mpr ⟨Schema.field_of_reserved hprevious htag, htag⟩
      exact keepReserved_ok.mpr (TagStatus.reserved_le.mp (hstatus ▸ hle tag))
    · exact keepField_ok.mpr (Schema.status_of_mem hprevious hold ▸ hle old.tag)
    · refine addField_ok.mpr fun hrequired => ?_
      have hgrows := hle f.tag
      rw [Schema.status_of_mem hnext hf, decide_eq_true hrequired,
        TagStatus.le_required] at hgrows
      obtain ⟨old, hold, -⟩ := Schema.status_active.mp hgrows
      exact ⟨old, hold⟩

theorem validateEvolution_trans {middle : Schema} (h : validateEvolution previous middle = .ok ())
    (h' : validateEvolution middle next = .ok ()) : validateEvolution previous next = .ok () := by
  obtain ⟨⟨hprevious, -⟩, ⟨hevent, hmajor⟩, hle⟩ := validateEvolution_ok.mp h
  obtain ⟨⟨-, hnext⟩, ⟨hevent', hmajor'⟩, hle'⟩ := validateEvolution_ok.mp h'
  exact validateEvolution_ok.mpr ⟨⟨hprevious, hnext⟩,
    ⟨hevent.trans hevent', hmajor.trans hmajor'⟩, hle.trans hle'⟩

/-- A well-formed schema may follow itself. -/
theorem validateEvolution_refl (h : validateSchema previous = .ok ()) :
    validateEvolution previous previous = .ok () :=
  validateEvolution_ok.mpr ⟨⟨h, h⟩, ⟨rfl, rfl⟩, le_refl _⟩

end

/-! ## Histories -/

/-- Each schema may follow the one before it. -/
def Revisions (schemas : List Schema) : Prop :=
  schemas.IsChain fun previous next => validateEvolution previous next = .ok ()

/-- Only adjacent revisions are compared, and yet any later one may follow. -/
theorem Revisions.evolves {schemas : List Schema} (h : Revisions schemas) {i j : Nat}
    (hij : i ≤ j) {first last : Schema} (hi : schemas[i]? = some first)
    (hj : schemas[j]? = some last) (hvalid : validateSchema first = .ok ()) :
    validateEvolution first last = .ok () := by
  have htrans : IsTrans Schema fun previous next => validateEvolution previous next = .ok () :=
    ⟨fun _ _ _ => validateEvolution_trans⟩
  rcases Nat.eq_or_lt_of_le hij with rfl | hlt
  · cases Option.some.inj (hi.symm.trans hj)
    exact validateEvolution_refl hvalid
  · obtain ⟨hi', rfl⟩ := List.getElem?_eq_some_iff.mp hi
    obtain ⟨hj', rfl⟩ := List.getElem?_eq_some_iff.mp hj
    exact List.pairwise_iff_getElem.mp (List.isChain_iff_pairwise.mp h) i j hi' hj' hlt

/-- What a reader of the first schema can rely on, up to the last. -/
structure Safe (schemas : List Schema) (i j : Nat) (first last : Schema) : Prop where
  evolves : validateEvolution first last = .ok ()
  kept : ∀ old ∈ first.fields, ∀ new ∈ last.fields, new.tag = old.tag →
    (new.kind = old.kind ∧ (new.presence = .required ↔ old.presence = .required)) ∧
      ∀ (k : Nat) (between : Schema), i ≤ k → k ≤ j → schemas[k]? = some between →
        ∃ f ∈ between.fields, f.tag = old.tag ∧ f.kind = old.kind ∧
          (f.presence = .required ↔ old.presence = .required)
  removed : ∀ (k : Nat) (between : Schema), i ≤ k → k ≤ j → schemas[k]? = some between →
    ∀ old ∈ first.fields, (∀ f ∈ between.fields, f.tag ≠ old.tag) →
      ∀ new ∈ last.fields, new.tag ≠ old.tag
  reserved : ∀ tag ∈ first.reservedTags, ∀ new ∈ last.fields, new.tag ≠ tag
  required : ∀ tag, (∃ new ∈ last.fields, new.tag = tag ∧ new.presence = .required) ↔
    ∃ old ∈ first.fields, old.tag = tag ∧ old.presence = .required

/-- **Schema evolution.** A history in which each schema may follow the one before it is
safe for the readers of every schema of it. -/
theorem revisions_safe (schemas : List Schema) (h : Revisions schemas) (i j : Nat)
    (hij : i ≤ j) (first last : Schema) (hi : schemas[i]? = some first)
    (hj : schemas[j]? = some last) (hvalid : validateSchema first = .ok ()) :
    Safe schemas i j first last := by
  have hevolves := h.evolves hij hi hj hvalid
  obtain ⟨⟨-, hlast⟩, -, hle⟩ := validateEvolution_ok.mp hevolves
  have hbetween : ∀ (k : Nat) (between : Schema), i ≤ k → k ≤ j → schemas[k]? = some between →
      validateSchema between = .ok () ∧ first.status ≤ between.status ∧
        between.status ≤ last.status := by
    intro k between hik hkj hk
    obtain ⟨⟨-, hvalid'⟩, -, hle'⟩ := validateEvolution_ok.mp (h.evolves hik hi hk hvalid)
    exact ⟨hvalid', hle', (validateEvolution_ok.mp (h.evolves hkj hk hj hvalid')).2.2⟩
  -- the fields of one tag at both ends
  have hfields : ∀ old ∈ first.fields, ∀ new ∈ last.fields, new.tag = old.tag →
      ∀ (k : Nat) (between : Schema), i ≤ k → k ≤ j → schemas[k]? = some between →
        between.status old.tag = .active old.kind (old.presence = .required) ∧
          new.kind = old.kind ∧
            decide (new.presence = .required) = decide (old.presence = .required) := by
    intro old hold new hnew htag k between hik hkj hk
    obtain ⟨-, hbefore, hafter⟩ := hbetween k between hik hkj hk
    refine TagStatus.active_between ?_ (Schema.status_of_mem hlast hnew ▸ htag ▸ hafter new.tag)
    exact Schema.status_of_mem hvalid hold ▸ hbefore old.tag
  refine ⟨hevolves, ?_, ?_, ?_, ?_⟩
  · intro old hold new hnew htag
    obtain ⟨-, hkind, hpresence⟩ := hfields old hold new hnew htag j last hij (le_refl j) hj
    refine ⟨⟨hkind, decide_eq_decide.mp hpresence⟩, fun k between hik hkj hk => ?_⟩
    obtain ⟨hstatus, -⟩ := hfields old hold new hnew htag k between hik hkj hk
    obtain ⟨f, hf, hkind', hpresence'⟩ := Schema.status_active.mp hstatus
    obtain ⟨hmem, hf'⟩ := Schema.field_mem hf
    exact ⟨f, hmem, hf', hkind', decide_eq_decide.mp hpresence'⟩
  · intro k between hik hkj hk old hold hgone new hnew htag
    obtain ⟨hstatus, -⟩ := hfields old hold new hnew htag k between hik hkj hk
    obtain ⟨f, hf, -⟩ := Schema.status_active.mp hstatus
    obtain ⟨hmem, hf'⟩ := Schema.field_mem hf
    exact hgone f hmem hf'
  · intro tag htag new hnew heq
    have hstatus : first.status tag = .reserved :=
      Schema.status_reserved.mpr ⟨Schema.field_of_reserved hvalid htag, htag⟩
    have hkept := TagStatus.reserved_le.mp (hstatus ▸ hle tag)
    rw [← heq, Schema.status_of_mem hlast hnew] at hkept
    cases hkept
  · intro tag
    constructor
    · rintro ⟨new, hnew, rfl, hrequired⟩
      have hgrown := hle new.tag
      rw [Schema.status_of_mem hlast hnew, decide_eq_true hrequired,
        TagStatus.le_required] at hgrown
      obtain ⟨old, hold, -, hrequired'⟩ := Schema.status_active.mp hgrown
      obtain ⟨hmem, htag⟩ := Schema.field_mem hold
      exact ⟨old, hmem, htag, of_decide_eq_true hrequired'⟩
    · rintro ⟨old, hold, rfl, hrequired⟩
      have hgrown := hle old.tag
      rw [Schema.status_of_mem hvalid hold, decide_eq_true hrequired] at hgrown
      rcases TagStatus.active_le.mp hgrown with hstatus | ⟨-, hoptional⟩
      · obtain ⟨new, hnew, -, hrequired'⟩ := Schema.status_active.mp hstatus
        obtain ⟨hmem, htag⟩ := Schema.field_mem hnew
        exact ⟨new, hmem, htag, of_decide_eq_true hrequired'⟩
      · cases hoptional

/-- A required field, an optional one that is added, and then removed. -/
def retiredField : List Schema :=
  let key : FieldSpec := ⟨1, .unsigned, .required⟩
  let note : FieldSpec := ⟨2, .text, .optional⟩
  [⟨⟨7⟩, 1, [key], []⟩, ⟨⟨7⟩, 1, [key, note], []⟩, ⟨⟨7⟩, 1, [key], [2]⟩]

theorem revisions_safe_retiredField :
    ∃ first last, retiredField[0]? = some first ∧ retiredField[2]? = some last ∧
      Safe retiredField 0 2 first last := by
  refine ⟨_, _, rfl, rfl, revisions_safe retiredField ?_ 0 2 (by decide) _ _ rfl rfl ?_⟩
  · unfold Revisions
    decide
  · decide

end Hiway
