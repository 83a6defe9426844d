import Conform.Proofs.JsonSchema.Outlines

/-!
Forms of document schemas: whether there is a type, and whether a keyword beside it speaks of values
of every type. The projection adds such a keyword beside a type in one place only, the names of
keys; all other document schemas that constructors lead to have no type at all, or only keywords
beside it that speak of values of a type (`Validator.Assembled.pictured`).
-/
namespace Conform

namespace Keywords

/-- The names of the keywords that speak of values of every type. -/
def general : List String := ["type", "const", "enum", "not", "anyOf", "allOf"]

/-- Document schemas without a type, with a type beside which no keyword speaks of values of every
type, and with a type beside which the names of keys are listed. The answer tells whether it is the
latter. -/
inductive Form : Bool → Keywords → Prop
  | untyped {keywords : Keywords} (untyped : Entries.get? keywords (.str "type") = none) :
      Form false keywords
  | typed {rest : Keywords} (types : Value)
      (silent : ∀ entry ∈ rest, ∀ name ∈ general, entry.1 ≠ .str name) :
      Form false ((.str "type", .value types) :: rest)
  | named {rest : Keywords} {names : List String} (types : Value)
      (listed : (.str "enum", .value (.list (names.map .str))) ∈ rest) :
      Form true ((.str "type", .value types) :: rest)

variable {keywords : Keywords} {named : Bool}

theorem form_ofType (name : String) : (ofType name).Form false := .typed (.str name) nofun

/-- The forms are kept when keywords are added that do not speak of values of every type. -/
theorem Form.put (form : keywords.Form named) {name : String} (special : name ∉ general)
    (fragment : Fragment) :
    (keywords.put name fragment).Form named := by
  have apart : ∀ other ∈ general, (Value.str other == .str name) = false := by
    intro other general
    rw [Value.beq_str]
    exact beq_false_of_ne (ne_of_mem_of_not_mem general special)
  have under : ∀ (types : Value) (rest : Keywords),
      Keywords.put ((.str "type", .value types) :: rest) name fragment =
        (.str "type", .value types) :: Entries.insert rest (.str name) fragment := by
    intro types rest
    simp only [Keywords.put, Entries.insert, apart "type" (by decide), Bool.false_eq_true, if_false]
  cases form with
  | untyped untyped =>
    refine .untyped ?_
    rw [Keywords.put,
      Entries.get?_insert_of_ne (ne_of_mem_of_not_mem (by decide) special).symm, untyped]
  | typed types silent =>
    rw [under]
    refine .typed types fun entry member other general => ?_
    rcases Entries.mem_insert member with old | rfl | ⟨first, old, -, rfl⟩
    · exact silent entry old other general
    · exact fun same => special (Value.str.inj same ▸ general)
    · exact silent first old other general
  | named types listed =>
    rw [under]
    refine .named types
      ((Entries.mem_insert_of_mem listed (.str name) fragment).resolve_left fun same => ?_)
    rw [apart "enum" (by decide)] at same
    cases same

/-- Overlaying a document schema with keywords that are not general leaves its form. -/
theorem Form.merge (form : keywords.Form named) {further : Keywords}
    (special : ∀ entry ∈ further, ∃ name, entry.1 = .str name ∧ name ∉ general) :
    Form named (Entries.merge keywords further) := by
  induction further generalizing keywords with
  | nil => exact form
  | cons entry rest ih =>
    obtain ⟨⟨name, spelt, special⟩, others⟩ := List.forall_mem_cons.mp special
    refine ih ?_ others
    change Form named (Entries.insert keywords entry.1 entry.2)
    rw [spelt]
    exact form.put special entry.2

/-- Parameters of a description do not speak of values of every type. -/
theorem special_ofParameters (parameters : List (String × Parameter)) :
    ∀ entry ∈ ofParameters parameters, ∃ name, entry.1 = .str name ∧ name ∉ general := by
  intro entry inside
  obtain ⟨name, taken, spelt⟩ := spelt_of_mem_ofParameters inside
  have apart : ∀ name ∈ copied, name ∉ general := by decide
  exact ⟨name, spelt, apart name taken⟩

theorem Form.overlay (form : keywords.Form named) (parameters : List (String × Parameter)) :
    (keywords.overlay (.ofParameters parameters)).Form named :=
      form.merge (special_ofParameters parameters)

theorem form_ofParameters (parameters : List (String × Parameter)) :
    (ofParameters parameters).Form false := by
  refine .untyped (get?_eq_none_of_others fun entry inside => ?_)
  obtain ⟨name, spelt, special⟩ := special_ofParameters parameters entry inside
  exact ⟨name, spelt, (ne_of_mem_of_not_mem (by decide) special).symm⟩

theorem Form.document (form : keywords.Form named) (docs : Documentation) (default : Value) :
    (keywords.document docs default).Form named := by
  have special : ∀ name ∈ documented, name ∉ general := by decide
  have putting : ∀ name ∈ documented, ∀ (keywords : Keywords) value,
      keywords.Form named → (keywords.putValue name value).Form named :=
    fun name member _ _ form => form.put (special name member) _
  exact keeps_document putting docs default form

/-- The constraints of checks leave the form of a document schema. -/
theorem Form.withChecks (form : keywords.Form named) (steps : List Schema) :
    (Projection.withChecks keywords steps).Form named := by
  induction steps generalizing keywords with
  | nil => exact form
  | cons step rest ih =>
    refine ih ?_
    dsimp only
    split
    · split
      · exact form.overlay _
      · exact form
    · exact form

def withNull : Value → List Value
  | .list types => if types.any (· == .str "null") then types else types ++ [.str "null"]
  | name => [name, .str "null"]

/-- Null is added to the type where there is one, and is an alternative else. -/
theorem orNull_cases (keywords : Keywords) :
    (∃ types, Entries.get? keywords (.str "type") = some (.value types) ∧
      keywords.orNull = keywords.putValue "type" (.list (withNull types))) ∨
    (∀ types, Entries.get? keywords (.str "type") ≠ some (.value types)) ∧
      keywords.orNull = ofList "anyOf" [keywords, ofType "null"] := by
  cases found : Entries.get? keywords (.str "type") with
  | none =>
    refine .inr ⟨fun types same => ?_, by rw [orNull, found]⟩
    cases same
  | some fragment =>
    cases fragment with
    | value types =>
      refine .inl ⟨types, rfl, ?_⟩
      cases types <;> rw [orNull, found] <;> rfl
    | _ =>
      refine .inr ⟨fun types same => ?_, by rw [orNull, found]⟩
      cases same

theorem orNull_of_type (types : Value) (rest : Keywords) :
    orNull ((.str "type", .value types) :: rest) =
      (.str "type", .value (.list (withNull types))) :: rest := by
  rcases orNull_cases ((.str "type", .value types) :: rest) with ⟨_, ⟨⟩, same⟩ | ⟨untyped, -⟩
  · exact same
  · exact absurd rfl (untyped types)

theorem Form.orNull (form : keywords.Form named) : keywords.orNull.Form named := by
  cases form with
  | untyped untyped =>
    rcases orNull_cases keywords with ⟨types, found, -⟩ | ⟨-, same⟩
    · rw [untyped] at found
      cases found
    · exact same ▸ .untyped rfl
  | typed types silent =>
    rw [orNull_of_type]
    exact .typed _ silent
  | named types listed =>
    rw [orNull_of_type]
    exact .named _ listed

end Keywords

def Wrapper.isProper : Wrapper → Bool
  | .accepting kind absence =>
    [(Kind.optional, Absence.missing), (.exactOptional, .missing), (.nullable, .null),
      (.nullish, .either)].contains (kind, absence)
  | .rejecting kind absence =>
    [(Kind.nonNullable, Absence.null), (.nonNullish, .either), (.nonOptional, .missing)].contains
      (kind, absence)
  | _ => true

/-- Whether a wrapper is described by what is said of its part: all are but those of items. -/
def Wrapper.isTransparent : Wrapper → Bool
  | .array | .set => false
  | _ => true

namespace Validator

open Projection

def fields? (v : Validator) : Option (List (Value × Schema)) :=
  v.metadata.bind fun metadata => if metadata.kind.hasFields then
    metadata.children.fields? else none

/-- Validators made by constructors, of any parts. The answer tells whether the document schema is
that of the names of keys. -/
inductive Assembled : Bool → Validator → Prop
  | leaf (l : Leaf) : Assembled false (.leaf l)
  | instanceOf (cls : Class) : Assembled false (.instanceOf cls)
  | literal (value : Value) : Assembled false (.literal value)
  | oneOf {values : List Value} {v : Validator} (made : Validator.oneOf values = .ok v) :
      Assembled false v
  | keyof {schema : Schema} {v : Validator} (made : schema.keyof = .ok v) : Assembled true v
  | test (check : Check) (message : String) (parameters : List (String × Value)) :
      Assembled false (.test check message parameters)
  | standing {rule : Rule} {kind : Kind} (bare : kind = .check ∨ kind = .transform) :
      Assembled false (.described rule (.ofKind kind))
  | redocument {named : Bool} {v : Validator} (change : Documentation → Documentation)
      (part : Assembled named v) : Assembled named (v.redocument change)
  | wrapped {named : Bool} {v : Validator} (wrapper : Wrapper) (proper : wrapper.isProper)
      (part : Assembled named v) : Assembled (wrapper.isTransparent && named) (wrapper.apply v)
  | pipe {named : Bool} {first v : Validator} {rest : List Validator}
      (made : Validator.pipe (first :: rest) = .ok v) (part : Assembled named first) :
        Assembled named v
  | joined {joining : Joining} {vs : List Validator} {v : Validator} (named : Validator → Bool)
      (several : joining ≠ .pipe) (parts : ∀ part ∈ vs, Assembled (named part) part)
      (made : joining.apply vs = .ok v) : Assembled false v
  | tupleWithRest {vs : List Validator} {rest v : Validator} {further : Bool}
      (named : Validator → Bool)
      (parts : ∀ part ∈ vs, Assembled (named part) part) (last : Assembled further rest)
      (made : Validator.tupleWithRest vs rest = .ok v) : Assembled false v
  | record {key value : Validator} {first second : Bool} (keys : Assembled first key)
      (values : Assembled second value) : Assembled false (.record key value)
  | map {key value : Validator} {first second : Bool} (keys : Assembled first key)
      (values : Assembled second value) : Assembled false (.map key value)
  | object {fields : List (Value × Validator)} (named : Validator → Bool)
      (parts : ∀ field ∈ fields, Assembled (named field.2) field.2) :
        Assembled false (.object fields)
  | looseObject {fields : List (Value × Validator)} (named : Validator → Bool)
      (parts : ∀ field ∈ fields, Assembled (named field.2) field.2) :
        Assembled false (.looseObject fields)
  | objectWithRest {fields : List (Value × Validator)} {rest : Validator} {further : Bool}
      (named : Validator → Bool) (parts : ∀ field ∈ fields, Assembled (named field.2) field.2)
      (last : Assembled further rest) : Assembled false (.objectWithRest fields rest)
  | lenient {named : Bool} {inner v : Validator} (part : Assembled named inner)
      (made : Schema.lenient (.validator inner) = .ok v) : Assembled false v
  | required {named : Bool} {inner v : Validator} (part : Assembled named inner)
      (made : Schema.required (.validator inner) = .ok v) : Assembled false v

/-- The outline of the document schema has its form, and the named fields have document schemas. -/
structure Pictured (draft : String) (named : Bool) (v : Validator) : Prop where
  outlined : ∃ outline, Outlined draft v outline ∧ outline.Form named
  fields : ∀ entries, v.fields? = some entries → AllProjected draft (entries.map (·.2))

variable {draft : String} {named : Bool} {v w inner : Validator} {outline : Keywords} {kind : Kind}
  {parameters : List (String × Parameter)} {children : Children} {docs : Documentation}
    {default : Value}

/-- Without fields, a form of the outline is all there is to say. -/
theorem pictured_of_metadata
    (described : v.metadata = some ⟨kind, parameters, children, docs, default⟩)
    (plain : kind.hasFields = false)
    (projected : ∀ onLazy,
      ofMetadata draft onLazy ⟨kind, parameters, children, .empty, .missing⟩ = pure outline)
    (form : outline.Form named) : Pictured draft named v := by
  refine ⟨⟨outline, outlined_of_metadata described projected, form⟩, fun entries shape => ?_⟩
  rw [fields?, described, Option.bind_some, plain] at shape
  cases shape

theorem Pictured.projected (pictured : Pictured draft named v) :
    ∃ keywords, (∀ onLazy, ofSchema draft onLazy (.validator v) = pure keywords) ∧
      keywords.Form named := by
  obtain ⟨outline, outlined, form⟩ := pictured.outlined
  exact ⟨_, outlined.projected, form.document _ _⟩

theorem Pictured.wrapping (pictured : Pictured draft named inner) (passes : kind.passesOn)
    (described : w.metadata = some ⟨kind, parameters, .ofValidator inner, docs, default⟩) :
    Pictured draft named w := by
  obtain ⟨keywords, projected, form⟩ := pictured.projected
  have plain : kind.hasFields = false := by cases kind <;> first | rfl | cases passes
  refine pictured_of_metadata described plain (fun onLazy => ?_) form
  rw [ofMetadata_passesOn passes, ofChild_eq (projected onLazy)]
  rfl

theorem Pictured.orNull (pictured : Pictured draft named inner)
    (nulls : kind = .nullable ∨ kind = .nullish)
    (described : w.metadata = some ⟨kind, parameters, .ofValidator inner, docs, default⟩) :
    Pictured draft named w := by
  obtain ⟨keywords, projected, form⟩ := pictured.projected
  have plain : kind.hasFields = false := by rcases nulls with rfl | rfl <;> rfl
  refine pictured_of_metadata described plain (fun onLazy => ?_) form.orNull
  rcases nulls with rfl | rfl
  all_goals
    change (ofChild draft onLazy (.ofValidator inner) >>= _) >>= _ = _
    rw [ofChild_eq (projected onLazy)]
    rfl

/-- A validator that takes over the description of another is pictured as that. -/
theorem Pictured.of_metadata_eq (pictured : Pictured draft named v)
    (same : w.metadata = v.metadata) :
    Pictured draft named w := by
  obtain ⟨⟨outline, ⟨metadata, described, projected⟩, form⟩, fields⟩ := pictured
  refine ⟨⟨outline, ⟨metadata, same.trans described, projected⟩, form⟩, ?_⟩
  rwa [fields?, same]

/-- What is said about a schema leaves the form of its document schemas. -/
theorem Pictured.redocument (pictured : Pictured draft named v)
    (change : Documentation → Documentation) :
    Pictured draft named (v.redocument change) := by
  obtain ⟨⟨outline, outlined, form⟩, fields⟩ := pictured
  refine ⟨⟨outline, outlined.redocument change, form⟩, ?_⟩
  have ⟨metadata, described, _⟩ := outlined
  have same : (v.redocument change).fields? = v.fields? := by
    simp only [fields?, Validator.redocument, withMetadata, described]
    rfl
  rwa [same]

/-- Named fields that have document schemas, in an object of any mode. -/
theorem pictured_of_shape {entries : List (Value × Schema)}
    (described : v.metadata = some ⟨kind, parameters, .fields entries, docs, default⟩)
    (named : kind.hasFields = true) (parts : AllProjected draft (entries.map (·.2)))
    (projected : ∀ onLazy,
      ofMetadata draft onLazy ⟨kind, parameters, .fields entries, .empty, .missing⟩ = pure outline)
    (form : outline.Form false) : Pictured draft false v := by
  refine ⟨⟨outline, outlined_of_metadata described projected, form⟩, fun others shape => ?_⟩
  rw [fields?, described, Option.bind_some, if_pos named] at shape
  cases shape
  exact parts

section Parts

variable {vs : List Validator} {fields : List (Value × Validator)} {names : Validator → Bool}

theorem allProjected_validators (parts : ∀ part ∈ vs, Pictured draft (names part) part) :
    AllProjected draft (vs.map .validator) := by
  refine List.forall_mem_map.mpr fun part member => ?_
  obtain ⟨keywords, projected, -⟩ := (parts part member).projected
  exact ⟨keywords, projected⟩

theorem allProjected_fields (parts : ∀ field ∈ fields, Pictured draft (names field.2) field.2) :
    AllProjected draft
      ((fields.map fun field => (field.1, Schema.validator field.2)).map (·.2)) := by
  rw [List.map_map]
  refine List.forall_mem_map.mpr fun field member => ?_
  obtain ⟨keywords, projected, -⟩ := (parts field member).projected
  exact ⟨keywords, projected⟩

theorem form_objectOf (properties : Keywords) (required : List Value) :
    (objectOf properties required).Form false := by
  have shape : ((Keywords.ofType "object").put "properties" (.object properties)).Form false :=
    (Keywords.form_ofType "object").put (by decide) _
  unfold objectOf
  dsimp only
  split
  · exact shape
  · exact shape.put (by decide) _

theorem form_entriesOf (keywords : Keywords) :
    ((Keywords.ofType "object").put "additionalProperties" (.object keywords)).Form false :=
  (Keywords.form_ofType "object").put (by decide) _

theorem form_tupleOf (positions : List Keywords) (rest : Option Keywords) (isOpen : Bool) :
    (tupleOf draft positions rest isOpen).Form false := by
  obtain ⟨here, beyond, special, further, spelt⟩ : ∃ here beyond, here ∉ Keywords.general ∧
      beyond ∉ Keywords.general ∧ (if draft = "draft-2020-12" then ("prefixItems", "items")
        else ("items", "additionalItems")) = (here, beyond) := by
    split <;> exact ⟨_, _, by decide, by decide, rfl⟩
  have counted :
      ((Keywords.ofType "array").putValue "minItems" (.int positions.length)).Form false :=
    (Keywords.form_ofType "array").put (by decide) _
  have placed := counted.put special (.list (positions.map .object))
  simp only [tupleOf, spelt]
  rcases rest with _ | rest
  · cases isOpen with
    | true => exact placed
    | false => exact placed.put (by decide) _
  · exact placed.put further _

/-- Several parts, listed as alternatives, as members or as positions. -/
theorem pictured_joined {joining : Joining} (several : joining ≠ .pipe)
    (parts : ∀ part ∈ vs, Pictured draft (names part) part) (made : joining.apply vs = .ok v) :
    Pictured draft false v := by
  obtain ⟨items, -, found⟩ := exists_ofSchemas (allProjected_validators parts)
  have positions : ∀ onLazy, ofPositions draft onLazy (.ofValidators vs) = pure items := found
  -- Without parts there would be no keyword at all.
  have untyped : ∀ name ∈ ["anyOf", "allOf"],
      Keywords.Form false (if items.isEmpty then [] else .ofList name items) := by
    refine List.forall_mem_cons.mpr ⟨.untyped ?_, List.forall_mem_singleton.mpr (.untyped ?_)⟩ <;>
      split <;> rfl
  cases joining with
  | pipe => exact absurd rfl several
  | union | discriminatedUnion | variant =>
    obtain ⟨-, rfl⟩ := nonempty_of_made made
    refine pictured_of_metadata rfl rfl (fun onLazy => ?_) (untyped "anyOf" (by decide))
    change (ofPositions draft onLazy (.ofValidators vs) >>= _) >>= _ = _
    rw [positions]
    rfl
  | intersect =>
    obtain ⟨-, rfl⟩ := nonempty_of_made made
    refine pictured_of_metadata rfl rfl (fun onLazy => ?_) (untyped "allOf" (by decide))
    change (ofPositions draft onLazy (.ofValidators vs) >>= _) >>= _ = _
    rw [positions]
    rfl
  | tuple | looseTuple =>
    obtain ⟨-, rfl⟩ := nonempty_of_made made
    exact pictured_of_metadata rfl rfl (fun onLazy => ofMetadata_tupleOf (positions onLazy) rfl)
      (form_tupleOf _ _ _)

end Parts

/-- The outline of what a wrapper makes has the form of the document schema of its part, save for
items. -/
theorem Pictured.wrapped (pictured : Pictured draft named v) {wrapper : Wrapper}
    (proper : wrapper.isProper) :
    Pictured draft (wrapper.isTransparent && named) (wrapper.apply v) := by
  obtain ⟨keywords, projected, form⟩ := pictured.projected
  cases wrapper with
  | accepting kind absence =>
    have known : kind.passesOn ∨ kind = .nullable ∨ kind = .nullish := by
      revert proper
      cases kind <;> cases absence <;> decide
    rcases known with passes | nulls
    · exact pictured.wrapping passes rfl
    · exact pictured.orNull nulls rfl
  | rejecting kind absence =>
    have passes : kind.passesOn := by
      revert proper
      cases kind <;> cases absence <;> decide
    exact pictured.wrapping passes rfl
  | withDefault | fallback | catching | refine | transform | preprocess | bidirectional =>
    exact pictured.wrapping rfl rfl
  | retitled | forward => exact pictured.of_metadata_eq rfl
  | array =>
    have listed : ((Keywords.ofType "array").put "items" (.object keywords)).Form false :=
      (Keywords.form_ofType "array").put (by decide) _
    refine pictured_of_metadata rfl rfl (fun onLazy => ?_) listed
    change (ofChild draft onLazy (.ofValidator v) >>= _) >>= _ = _
    rw [ofChild_eq (projected onLazy)]
    rfl
  | set =>
    have unique : ((Keywords.ofType "array").putValue "uniqueItems" (.bool true)).Form false :=
      (Keywords.form_ofType "array").put (by decide) _
    have listed : Keywords.Form false (Keywords.put _ "items" (.object keywords)) :=
      unique.put (by decide) _
    refine pictured_of_metadata rfl rfl (fun onLazy => ?_) listed
    change (ofChild draft onLazy (.ofValidator v) >>= _) >>= _ = _
    rw [ofChild_eq (projected onLazy)]
    rfl
  | passthrough =>
    obtain ⟨⟨outline, ⟨metadata, described, outlined⟩, form⟩, fields⟩ := pictured
    obtain ⟨kind, parameters, children, docs, default⟩ := metadata
    have made : v.passthrough.metadata =
        some (if kind = .object then ⟨.looseObject, parameters, children, docs, default⟩
          else ⟨kind, parameters, children, docs, default⟩) := by
      rw [Validator.passthrough, described]
      rfl
    by_cases object : kind = .object
    · subst object
      rw [if_pos rfl] at made
      refine ⟨⟨_, outlined_of_metadata made fun onLazy => ofMetadata_looseObject
        (ofMetadata_object.symm.trans (outlined onLazy)), form.put (by decide) _⟩,
          fun entries shape => ?_⟩
      refine fields entries ?_
      change v.passthrough.fields? = some entries at shape
      rw [fields?, made] at shape
      rw [fields?, described]
      exact shape
    · rw [if_neg object] at made
      exact Pictured.of_metadata_eq ⟨⟨outline, ⟨_, described, outlined⟩, form⟩, fields⟩
        (made.trans described.symm)

/-- Making all fields optional leaves document schemas in form. -/
theorem Pictured.lenient (pictured : Pictured draft named inner)
    (made : Schema.lenient (.validator inner) = .ok v) : Pictured draft false v := by
  have described : ∃ rule, v = described rule
      ⟨.partialObject, [], inner.fields?.elim .absent .fields, Metadata.docsOf inner.metadata,
        .missing⟩ := by
    cases made
    exact ⟨_, rfl⟩
  obtain ⟨rule, rfl⟩ := described
  cases shape : inner.fields? with
  | none =>
    exact ⟨⟨_, outlined_of_metadata rfl fun _ => ofMetadata_partialObject.trans rfl,
      Keywords.form_ofType "object"⟩, nofun⟩
  | some entries =>
    have parts := pictured.fields entries shape
    obtain ⟨properties, shaped⟩ := exists_ofShape parts .never
    exact pictured_of_shape rfl rfl parts (fun onLazy =>
      ofMetadata_partialObject.trans (shaped onLazy))
      (form_objectOf _ _)

/-- Requiring all fields leaves document schemas in form. -/
theorem Pictured.required (pictured : Pictured draft named inner)
    (made : Schema.required (.validator inner) = .ok v) : Pictured draft false v := by
  have described : ∃ rule, v = described rule
      ⟨.required, [], .fields (inner.fields?.getD []), Metadata.docsOf inner.metadata,
        .missing⟩ := by
    obtain ⟨-, rfl⟩ := Value.showing_eq_ok.mp made
    exact ⟨_, rfl⟩
  obtain ⟨rule, rfl⟩ := described
  have parts : AllProjected draft ((inner.fields?.getD []).map (·.2)) := by
    cases shape : inner.fields? with
    | none => exact nofun
    | some entries => exact pictured.fields entries shape
  obtain ⟨properties, shaped⟩ := exists_ofShape parts .always
  exact pictured_of_shape rfl rfl parts (fun onLazy => ofMetadata_required.trans (shaped onLazy))
    (form_objectOf _ _)

/-- The document schemas of constructed validators have the form that goes with their
construction. -/
theorem Assembled.pictured (assembled : Assembled named v) (draft : String) :
    Pictured draft named v := by
  induction assembled with
  | leaf l =>
    cases l with
    | string | number | integer | boolean | null =>
      exact pictured_of_metadata rfl rfl (fun _ => rfl) (Keywords.form_ofType _)
    | any | unknown | never => exact pictured_of_metadata rfl rfl (fun _ => rfl) (.untyped rfl)
  | instanceOf | literal => exact pictured_of_metadata rfl rfl (fun _ => rfl) (.untyped rfl)
  | @oneOf values v made =>
    obtain ⟨-, -, rfl⟩ := eq_of_oneOf made
    exact pictured_of_metadata rfl rfl (fun _ => rfl) (.untyped rfl)
  | keyof made =>
    obtain ⟨entries, -, made⟩ := bind_ok made
    obtain ⟨names, -, made⟩ := bind_ok made
    cases made
    exact pictured_of_metadata rfl rfl (fun _ => rfl)
      (@Keywords.Form.named _ names (.str "string") (.head _))
  | test check message parameters =>
    exact pictured_of_metadata rfl rfl (fun _ => rfl) (Keywords.form_ofParameters _)
  | standing bare =>
    rcases bare with rfl | rfl
    · exact pictured_of_metadata rfl rfl (fun _ => rfl) (.untyped rfl)
    · exact pictured_of_metadata rfl rfl (fun _ => rfl) (.untyped rfl)
  | redocument change _ ih => exact ih.redocument change
  | wrapped wrapper proper _ ih => exact ih.wrapped proper
  | pipe made _ ih =>
    obtain ⟨outline, outlined, form⟩ := ih.outlined
    obtain ⟨-, rfl⟩ := nonempty_of_made made
    exact ⟨⟨_, outlined.pipe made, (form.document _ _).withChecks _⟩, nofun⟩
  | joined names several _ made ih => exact pictured_joined several ih made
  | @tupleWithRest vs rest v further names _ _ made positioned last =>
    obtain ⟨items, -, found⟩ := exists_ofSchemas (allProjected_validators positioned)
    obtain ⟨keywords, projected, -⟩ := last.projected
    obtain ⟨-, rfl⟩ := nonempty_of_made made
    refine pictured_of_metadata rfl rfl (fun onLazy => ofMetadata_tupleOf (found onLazy) ?_)
      (form_tupleOf items (some keywords) _)
    change ofSchema draft onLazy (.validator rest) >>= _ = _
    rw [projected]
    rfl
  | @record key value first second _ _ keys values =>
    obtain ⟨named, spelt, -⟩ := keys.projected
    obtain ⟨keywords, projected, -⟩ := values.projected
    have both : Keywords.Form false (if named.isEmpty || named.isPlainText
        then (Keywords.ofType "object").put "additionalProperties" (.object keywords)
        else ((Keywords.ofType "object").put "additionalProperties" (.object keywords)).put
          "propertyNames"
          (.object named)) := by
      split
      · exact form_entriesOf keywords
      · exact (form_entriesOf keywords).put (by decide) _
    refine pictured_of_metadata rfl rfl (fun onLazy => ?_) both
    change ((ofSchema draft onLazy (.validator value) >>= fun _ =>
      ofSchema draft onLazy (.validator key) >>= _) >>= _) >>= _ = _
    rw [projected, pure_bind, spelt]
    rfl
  | @map key value first second _ _ keys values =>
    obtain ⟨keywords, projected, -⟩ := values.projected
    refine pictured_of_metadata rfl rfl (fun onLazy => ?_) (form_entriesOf keywords)
    change (ofSchema draft onLazy (.validator value) >>= _) >>= _ = _
    rw [projected]
    rfl
  | object names _ ih =>
    obtain ⟨properties, shaped⟩ := exists_ofShape (allProjected_fields ih) .byKind
    exact pictured_of_shape rfl rfl (allProjected_fields ih)
      (fun onLazy => ofMetadata_object.trans (shaped onLazy)) (form_objectOf _ _)
  | looseObject names _ ih =>
    obtain ⟨properties, shaped⟩ := exists_ofShape (allProjected_fields ih) .byKind
    exact pictured_of_shape rfl rfl (allProjected_fields ih)
      (fun onLazy => ofMetadata_looseObject (shaped onLazy)) ((form_objectOf _ _).put (by decide) _)
  | objectWithRest names _ _ ih last =>
    obtain ⟨properties, shaped⟩ := exists_ofShape (allProjected_fields ih) .byKind
    obtain ⟨keywords, projected, -⟩ := last.projected
    exact pictured_of_shape rfl rfl (allProjected_fields ih)
      (fun onLazy => ofMetadata_objectWithRest (projected onLazy) (shaped onLazy))
      ((form_objectOf _ _).put (by decide) _)
  | lenient _ made ih => exact ih.lenient made
  | required _ made ih => exact ih.required made

end Validator

end Conform
