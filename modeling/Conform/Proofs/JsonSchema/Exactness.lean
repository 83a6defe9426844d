import Conform.Proofs.JsonSchema.Outlines
import Mathlib.Tactic.Choose

/-!
Schemas whose document schemas say all there is to say: on document values the safe form accepts
what the document schema admits, in every draft.
-/
namespace Conform

namespace Validator

variable {draft : String}

section Objects

open Checked Projection Rule

variable {keywordsOf : Field → Keywords} {keywords : Keywords} {fields : List Field}

/-- Declared fields are projected to the properties that describe them. -/
private theorem ofFields_eq {fields : List Field}
    {onLazy : Nat → Eval Keywords} (projected : ∀ field ∈ fields,
      ofSchema draft onLazy (.validator field.validator) = pure (keywordsOf field)) :
    ofFields draft onLazy ((Field.declared fields).map fun field => (field.1, .validator field.2)) =
      pure (Keywords.ofNamed (fields.map fun field => (.str field.name, keywordsOf field))) := by
  induction fields with
  | nil => rfl
  | cons field rest ih =>
    have later := ih fun other member => projected other (List.mem_cons_of_mem _ member)
    change ofSchema draft onLazy (.validator field.validator) >>= (fun _ => ofFields draft onLazy
      ((Field.declared rest).map fun field => (field.1, .validator field.2)) >>= _) = _
    rw [projected field List.mem_cons_self, pure_bind, later]
    rfl

/-- A wrapper that lets a field be absent is described as what it wraps. -/
private theorem exact_accepting {inner : Validator} {kind : Kind}
    (part : Faithful draft inner keywords) (wraps : kind = .optional ∨ kind = .exactOptional) :
    Exact draft (accepting kind .missing inner) keywords true where
  projected := fun onLazy => by
    change ofMetadata draft onLazy (wrapping kind inner []) = _
    rw [wrapping, part.undocumented]
    rcases wraps with rfl | rfl
    all_goals
      change (ofChild draft onLazy (.ofValidator inner) >>= _) >>= _ = _
      rw [ofChild_eq (part.projected onLazy)]
      rfl
  decided := fun onLazy x json => by
    change (if x.isMissing then pure x else inner.rule.safe onLazy x : Checked Value).Decides _
    rw [Value.present_of_isJson json]
    exact part.decided onLazy x json
  absent := fun onLazy => decides_pure Value.missing
  listed := by
    rcases wraps with rfl | rfl <;> rfl

private theorem exact_nullish {inner : Validator} (part : Faithful draft inner keywords) :
    Exact draft (nullish inner) keywords.orNull true where
  projected := fun onLazy => by
    change ofMetadata draft onLazy (wrapping .nullish inner []) = _
    rw [wrapping, part.undocumented]
    change (ofChild draft onLazy (.ofValidator inner) >>= _) >>= _ = _
    rw [ofChild_eq (part.projected onLazy)]
    rfl
  decided := fun onLazy x json => by
    rw [Keywords.admits_orNull part.extensible]
    change (if x.isNull || x.isMissing then pure x else inner.rule.safe onLazy x :
      Checked Value).Decides _
    rw [Value.present_of_isJson json, Bool.or_false]
    cases isNull : x.isNull with
    | true => exact decides_pure x
    | false => exact part.decided onLazy x json
  absent := fun onLazy => decides_pure Value.missing
  listed := rfl

private theorem exact_withDefault {inner : Validator} (part : Faithful draft inner keywords)
    (value : Value) :
    Exact draft (withDefault inner value)
      (if value.isMissing then keywords else keywords.putValue "default" value) true where
  projected := fun onLazy => by
    change ofMetadata draft onLazy { wrapping .default inner [("default", value)] with
      default := value } = _
    rw [wrapping, part.undocumented]
    change (ofChild draft onLazy (.ofValidator inner) >>= _) >>= _ = _
    rw [ofChild_eq (part.projected onLazy)]
    cases value <;> rfl
  decided := fun onLazy x json => by
    have annotated : (if value.isMissing then keywords
        else keywords.putValue "default" value).admits draft x = keywords.admits draft x := by
      split
      · rfl
      · exact Keywords.admits_putValue_unread rfl value
    change (if x.isMissing then pure value else inner.rule.safe onLazy x : Checked Value).Decides _
    rw [annotated, Value.present_of_isJson json]
    exact part.decided onLazy x json
  absent := fun onLazy => decides_pure value
  listed := rfl

/-- Every field has a document schema that is exact for it, required or not. -/
theorem exact_field {field : Field} (part : Faithful draft field.schema keywords) :
    ∃ keywords, Exact draft field.validator keywords (!field.isRequired) := by
  cases field with
  | mk name presence schema =>
    cases presence with
    | required => exact ⟨_, part.toExact⟩
    | optional => exact ⟨_, exact_accepting part (.inl rfl)⟩
    | exactOptional => exact ⟨_, exact_accepting part (.inr rfl)⟩
    | nullish => exact ⟨_, exact_nullish part⟩
    | withDefault value => exact ⟨_, exact_withDefault part value⟩

/-- The properties that fields are described by. -/
private def properties (keywordsOf : Field → Keywords) (fields : List Field) :
    List (Value × Keywords) :=
  fields.map fun field => (.str field.name, keywordsOf field)

/-- The names of the fields that have to be there. -/
private def requiredNames (fields : List Field) : List Value :=
  (fields.filter (·.isRequired)).map fun field => .str field.name

private theorem ofShape_eq {onLazy : Nat → Eval Keywords}
    (parts : ∀ field ∈ fields, Exact draft field.validator (keywordsOf field) (!field.isRequired)) :
    ofShape draft onLazy .byKind (.ofFields (Field.declared fields)) =
      pure (objectOf (Keywords.ofNamed (properties keywordsOf fields)) (requiredNames fields)) := by
  change ofFields draft onLazy
    ((Field.declared fields).map fun field => (field.1, .validator field.2)) >>= _ = _
  rw [ofFields_eq fun field member => (parts field member).projected onLazy]
  have required :
      (((Field.declared fields).map fun field => (field.1, Schema.validator field.2)).filter
        fun entry => Listing.byKind.lists entry.2).map (·.1) = requiredNames fields := by
    have listed : ∀ field ∈ fields, Listing.byKind.lists (.validator field.validator) =
        field.isRequired := fun field member => by
      rw [(parts field member).listed, Bool.not_not]
    simp only [Field.declared, List.map_map, List.filter_map, requiredNames]
    exact congrArg _ (List.filter_congr listed)
  rw [pure_bind, required]
  rfl

private theorem has_eq_isSome (entries : List (Value × Value)) (key : Value) :
    Entries.has entries key = (Entries.get? entries key).isSome := by
  rw [Entries.has, Entries.get?, Option.isSome_map, List.isSome_find?]

/-- Whether a field is admitted where it is there, and may be absent where it is not. -/
private def admitsField (draft : String) (keywordsOf : Field → Keywords)
    (entries : List (Value × Value)) (field : Field) : Bool :=
  match Entries.get? entries (.str field.name) with
  | some y => (keywordsOf field).admits draft y
  | none => !field.isRequired

/-- The document schema of fields admits a dictionary if every field admits its entry or its
absence. -/
private theorem admits_fields (entries : List (Value × Value)) :
    (objectOf (Keywords.ofNamed (properties keywordsOf fields)) (requiredNames fields)).admits draft
      (.dict entries) = fields.all (admitsField draft keywordsOf entries) := by
  have split : ∀ field, admitsField draft keywordsOf entries field =
      ((Entries.get? entries (.str field.name)).all ((keywordsOf field).admits draft) &&
        (!field.isRequired || Entries.has entries (.str field.name))) := by
    intro field
    rw [admitsField, has_eq_isSome]
    cases Entries.get? entries (.str field.name) <;> simp
  rw [admits_objectOf, Value.hasType, beq_self_eq_true, Bool.true_and, properties, requiredNames,
    List.all_map, List.all_map, List.all_filter, funext split, Bool.eq_iff_iff]
  simp only [Bool.and_eq_true, List.all_eq_true]
  constructor
  · intro both field member
    exact ⟨both.1 field member, both.2 field member⟩
  · intro all
    exact ⟨fun field member => (all field member).1, fun field member => (all field member).2⟩

/-- The visits of declared fields decide what the document schema of the fields admits. -/
private theorem decides_fields {onLazy : Nat → SafeForm} {entries : List (Value × Value)}
    (parts : ∀ field ∈ fields, Exact draft field.validator (keywordsOf field) (!field.isRequired))
    (json : ∀ entry ∈ entries, entry.1.isStr ∧ entry.2.isJson) :
    (runVisits onLazy (fieldVisits entries (fieldRules (Field.declared fields)))).Decides
      ((objectOf (Keywords.ofNamed (properties keywordsOf fields))
        (requiredNames fields)).admits draft
        (.dict entries)) := by
  have present : ∀ key value, Entries.get? entries key = some value → value.isJson := by
    intro key value found
    obtain ⟨entry, inside, rfl⟩ := Option.map_eq_some_iff.mp found
    exact (json entry (List.mem_of_find?_eq_some inside)).2
  have visits : fieldVisits entries (fieldRules (Field.declared fields)) = fields.map fun field =>
      ⟨some (.key (.str field.name)), field.validator.rule,
        (Entries.get? entries (.str field.name)).getD .missing⟩ := by
    simp only [fieldVisits, fieldRules, Field.declared, List.map_map]
    rfl
  rw [visits, admits_fields]
  refine decides_runVisits fields _ (admitsField draft keywordsOf entries)
    (fun field _ => .key (Value.isWritable_of_isStr rfl) _ _) fun field member => ?_
  unfold admitsField
  cases found : Entries.get? entries (.str field.name) with
  | some y => exact (parts field member).decided onLazy y (present _ y found)
  | none => exact (parts field member).absent onLazy

/-- The document schema of named fields. -/
private def shape (keywordsOf : Field → Keywords) (fields : List Field) : Keywords :=
  objectOf (Keywords.ofNamed (properties keywordsOf fields)) (requiredNames fields)

private theorem refused_shape {x : Value} (otherType : x.hasType "object" = false) :
    (shape keywordsOf fields).admits draft x = false := by
  rw [shape, admits_objectOf, otherType, Bool.false_and]

/-- An object is described by its fields, whatever else it is given. -/
theorem faithful_object
    (parts : ∀ field ∈ fields, Exact draft field.validator (keywordsOf field) (!field.isRequired)) :
    Faithful draft (object (Field.declared fields)) (shape keywordsOf fields) where
  projected := fun onLazy => by
    change ofShape draft onLazy .byKind (.ofFields (Field.declared fields)) >>= _ = _
    rw [ofShape_eq parts]
    rfl
  decided := fun onLazy x json => by
    rcases Value.object_or_not json with ⟨entries, rfl, inside⟩ | ⟨unvisited, otherType⟩
    · exact decides_of_visits rfl (decides_fields parts inside)
    · rw [refused_shape otherType]
      exact decides_of_unvisited rfl (Option.map_eq_none_iff.mpr unvisited)
  absent := fun onLazy => decides_of_unvisited rfl rfl
  listed := rfl
  undocumented := rfl
  extensible := .inl (typed_objectOf _ _)

/-- An object that keeps further entries says that they may be there. -/
theorem faithful_looseObject
    (parts : ∀ field ∈ fields, Exact draft field.validator (keywordsOf field) (!field.isRequired)) :
    Faithful draft (looseObject (Field.declared fields))
      ((shape keywordsOf fields).putValue "additionalProperties" (.bool true)) where
  projected := fun onLazy => by
    change (ofShape draft onLazy .byKind (.ofFields (Field.declared fields)) >>= _) >>= _ = _
    rw [ofShape_eq parts]
    rfl
  decided := fun onLazy x json => by
    have admitted :
        ((shape keywordsOf fields).putValue "additionalProperties" (.bool true)).admits draft x =
          (shape keywordsOf fields).admits draft x := by
      refine (admits_openObject _ _ _).trans ?_
      have open' : (x.members.all fun member => ((properties keywordsOf fields).map (·.1)).any
          (· == member.1) || ((Fragment.value (.bool true)).meaning draft).admits member.2) =
            true :=
        List.all_eq_true.mpr fun member _ => Bool.or_true _
      rw [open', Bool.and_true]
      rfl
    rw [admitted]
    rcases Value.object_or_not json with ⟨entries, rfl, inside⟩ | ⟨unvisited, otherType⟩
    · exact decides_of_visits rfl (decides_fields parts inside)
    · rw [refused_shape otherType]
      exact decides_of_unvisited rfl (Option.map_eq_none_iff.mpr unvisited)
  absent := fun onLazy => decides_of_unvisited rfl rfl
  listed := rfl
  undocumented := rfl
  extensible := .inl (typed_openObject _ _ _)

/-- An object whose further entries pass a schema describes them by that schema's document schema.
-/
theorem faithful_objectWithRest {rest : Validator}
    (parts : ∀ field ∈ fields, Exact draft field.validator (keywordsOf field) (!field.isRequired))
    (further : Faithful draft rest keywords) :
    Faithful draft (objectWithRest (Field.declared fields) rest)
      ((shape keywordsOf fields).put "additionalProperties" (.object keywords)) where
  projected := fun onLazy => by
    change (ofRest draft onLazy [("rest", .schema (.validator rest))] >>= fun _ =>
      ofShape draft onLazy .byKind (.ofFields (Field.declared fields)) >>= _) >>= _ = _
    have kept : ofRest draft onLazy [("rest", .schema (.validator rest))] =
        pure (some keywords) := by
      change ofSchema draft onLazy (.validator rest) >>= _ = _
      rw [further.projected]
      rfl
    rw [kept, pure_bind, ofShape_eq parts]
    rfl
  decided := fun onLazy x json => by
    have admitted :
        ((shape keywordsOf fields).put "additionalProperties" (.object keywords)).admits draft x =
          ((shape keywordsOf fields).admits draft x && x.members.all fun member =>
            ((fieldRules (Field.declared fields)).map (·.1)).any (· == member.1) ||
              keywords.admits draft member.2) := by
      refine (admits_openObject _ _ _).trans ?_
      simp only [Keywords.admits_object, properties, fieldRules, Field.declared, List.map_map]
      rfl
    rw [admitted]
    rcases Value.object_or_not json with ⟨entries, rfl, inside⟩ | ⟨unvisited, otherType⟩
    · exact decides_of_visits rfl (decides_append (decides_fields parts inside)
        (decides_restVisits entries
          (fun entry member => Value.isWritable_of_isStr (inside entry member).1)
          fun entry member => further.decided onLazy _ (inside entry member).2))
    · rw [refused_shape otherType, Bool.false_and]
      exact decides_of_unvisited rfl (Option.map_eq_none_iff.mpr unvisited)
  absent := fun onLazy => decides_of_unvisited rfl rfl
  listed := rfl
  undocumented := rfl
  extensible := .inl (typed_openObject _ _ _)

end Objects

/-- Every projectable schema has a document schema that says exactly what it accepts. -/
theorem Projectable.faithful {v : Validator} (projectable : Projectable v) (draft : String) :
    ∃ keywords, Faithful draft v keywords := by
  induction projectable with
  | typed named =>
    obtain ⟨name, named⟩ := Option.isSome_iff_exists.mp named
    exact ⟨_, faithful_typed named⟩
  | never => exact ⟨_, faithful_never⟩
  | literal scalar => exact ⟨_, faithful_literal scalar⟩
  | oneOf scalar made => exact ⟨_, faithful_oneOf scalar made⟩
  | @limited l measure limits v sized fits once made =>
    have named : ∃ name, l.typeName? = some name := by
      cases l <;> first | exact ⟨_, rfl⟩ | cases sized
    obtain ⟨name, named⟩ := named
    exact ⟨_, faithful_limitedLeaf named sized fits once made⟩
  | limitedArray _ fits once made ih =>
    obtain ⟨keywords, part⟩ := ih
    exact ⟨_, faithful_limitedArray part fits once made⟩
  | nullable _ ih =>
    obtain ⟨keywords, part⟩ := ih
    exact ⟨_, faithful_nullable part⟩
  | union _ made ih =>
    choose! keywordsOf parts using ih
    exact ⟨_, faithful_union parts made⟩
  | intersect _ made ih =>
    choose! keywordsOf parts using ih
    exact ⟨_, faithful_intersect parts made⟩
  | array _ ih =>
    obtain ⟨keywords, part⟩ := ih
    exact ⟨_, faithful_array part⟩
  | tuple _ made ih =>
    choose! keywordsOf parts using ih
    exact ⟨_, faithful_tuple parts made⟩
  | looseTuple _ made ih =>
    choose! keywordsOf parts using ih
    exact ⟨_, faithful_looseTuple parts made⟩
  | tupleWithRest _ _ made ih further =>
    choose! keywordsOf parts using ih
    obtain ⟨keywords, further⟩ := further
    exact ⟨_, faithful_tupleWithRest parts further made⟩
  | record _ ih =>
    obtain ⟨keywords, part⟩ := ih
    exact ⟨_, faithful_record part⟩
  | object _ ih =>
    choose! keywordsOf parts using fun field member => (ih field member).elim fun _ => exact_field
    exact ⟨_, faithful_object parts⟩
  | looseObject _ ih =>
    choose! keywordsOf parts using fun field member => (ih field member).elim fun _ => exact_field
    exact ⟨_, faithful_looseObject parts⟩
  | objectWithRest _ _ ih further =>
    choose! keywordsOf parts using fun field member => (ih field member).elim fun _ => exact_field
    obtain ⟨keywords, further⟩ := further
    exact ⟨_, faithful_objectWithRest parts further⟩

/-- A schema made of the listed constructions has a document schema in every draft, whatever has
been built or configured, and a document value is accepted exactly when the document schema admits
it. -/
theorem Projectable.accepts_iff_admitted {v : Validator} (projectable : Projectable v)
    {draft : String} (known : (Settings.draftAddress? draft).isSome) (includeAddress : Bool) :
    ∃ keywords,
      (∀ world,
        (Schema.toDocument ⟨includeAddress, some draft, false, []⟩ (.validator v)).Returns world
        keywords world) ∧
      ∀ world x, x.isJson →
        ((∃ y, (v.safe x).Returns world y world) ↔ keywords.admits draft x = true) ∧
        ((∃ failure, (v.safe x).Reports world failure world) ↔
          keywords.admits draft x = false) := by
  obtain ⟨keywords, faithful⟩ := projectable.faithful draft
  obtain ⟨address, known⟩ := Option.isSome_iff_exists.mp known
  refine ⟨if includeAddress then keywords.putValue "$schema" (.str address) else keywords,
    Schema.returns_toDocument known includeAddress faithful.projected, fun world x json => ?_⟩
  have annotated : (if includeAddress then keywords.putValue "$schema" (.str address)
      else keywords).admits draft x = keywords.admits draft x := by
    split
    · exact Keywords.admits_putValue_unread rfl _
    · rfl
  have decides := faithful.decided (Rule.lazySafe (world.budget x)) x json
  simp only [annotated, returns_safe, reports_safe]
  exact ⟨decides.returns_iff world, decides.reports_iff world⟩

/-- A profile: a name, perhaps tags, and marks under any other key. -/
private def profile : Validator :=
  objectWithRest
    (Field.declared [⟨"name", .required, leaf .string⟩, ⟨"tags", .optional, array (leaf .string)⟩])
    (nullable (leaf .boolean))

private theorem profile_projectable : Projectable profile := by
  refine .objectWithRest (fun field member => ?_) (.nullable (.typed rfl))
  rcases List.mem_cons.mp member with rfl | member
  · exact .typed rfl
  · cases List.mem_singleton.mp member
    exact .array (.typed rfl)

/-- A profile with a tag that is no text is refused, and its document schema does not admit it. -/
theorem profile_refused_not_admitted :
    Projectable profile ∧ (Settings.draftAddress? "draft-2019-09").isSome ∧
    (Value.dict [(.str "name", .str "a"), (.str "tags", .list [.str "b", .null])]).isJson ∧
    ∃ keywords,
      (Schema.toDocument ⟨true, some "draft-2019-09", false, []⟩ (.validator profile)).Returns
        (World.initial "profile") keywords (World.initial "profile") ∧
      keywords.admits "draft-2019-09"
        (.dict [(.str "name", .str "a"), (.str "tags", .list [.str "b", .null])]) = false := by
  have known : (Settings.draftAddress? "draft-2019-09").isSome := rfl
  have json :
    (Value.dict [(.str "name", .str "a"), (.str "tags", .list [.str "b", .null])]).isJson := rfl
  refine ⟨profile_projectable, known, json, ?_⟩
  obtain ⟨keywords, projected, decided⟩ :=
    Projectable.accepts_iff_admitted profile_projectable known true
  refine ⟨keywords, projected _, (decided (World.initial "profile") _ json).2.mp ?_⟩
  exact ⟨_, rfl⟩

end Validator

end Conform
