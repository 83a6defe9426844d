import Conform.Proofs.JsonSchema.Converting
import Conform.Proofs.RecordModel.Mirroring

/-!
Which fields are required, in the record model and in the document schema of one description.
-/
namespace Conform

namespace ValueType

variable {held : ValueType} {keywords further : Keywords}

section Fields

open Projection

/-- Fields that all have a default are never listed, those that keep the default of their kind are
listed by their kind, and those that are always listed have no default by their kind. -/
private inductive Paired : Bool → Listing → List (Value × Schema) → Prop where
  | never {entries : List (Value × Schema)} : Paired true .never entries
  | byKind {entries : List (Value × Schema)} : Paired false .byKind entries
  | always {entries : List (Value × Schema)}
      (present : ∀ entry ∈ entries, Listing.byKind.lists entry.2 = true) :
        Paired false .always entries

/-- The default that a field has by its kind. -/
private def ownDefault (schema : Schema) : Option Value :=
  schema.metadata?.bind fun metadata => defaultOf metadata.kind metadata.default

private theorem lists_iff_ownDefault (schema : Schema) :
    Listing.byKind.lists schema = true ↔ ownDefault schema = none := by
  unfold Listing.lists ownDefault
  cases schema.metadata? with
  | none => simp
  | some metadata => cases kind : metadata.kind <;> simp [kind, Kind.acceptsAbsence, defaultOf]

/-- A field has no default exactly if it has none of its own and the model does not make all
optional. -/
private theorem default_of_fieldOf {default : Option Value} {field : ModelField}
    {allOptional : Bool} (made : fieldOf allOptional held default = .ok field) :
    field.default = none ↔ allOptional = false ∧ default = none := by
  unfold fieldOf at made
  split at made
  · next widened =>
    obtain ⟨optional, -⟩ := Bool.and_eq_true_iff.mp widened
    obtain ⟨wide, -, rfl⟩ := map_ok made
    simp [optional]
  · next kept =>
    cases made
    cases allOptional <;> simp_all

/-- A model field mirrors the document schema that the type of the field mirrors. -/
private theorem mirrors_fieldOf {default : Option Value} {field : ModelField} {allOptional : Bool}
    (made : fieldOf allOptional held default = .ok field) (mirrors : held.Mirrors keywords) :
    field.held.Mirrors keywords := by
  unfold fieldOf at made
  split at made
  · obtain ⟨wide, chosen, rfl⟩ := map_ok made
    refine mirrors_choice chosen (List.forall_mem_cons.mpr ⟨mirrors, ?_⟩)
    exact List.forall_mem_singleton.mpr (.plain rfl)
  · cases made
    exact mirrors

/-- A field is listed just if it has no default. -/
private theorem lists_iff {allOptional : Bool} {listing : Listing} {entries : List (Value × Schema)}
    {entry : Value × Schema} {field : ModelField} (paired : Paired allOptional listing entries)
    (member : entry ∈ entries) (made : fieldOf allOptional held (ownDefault entry.2) = .ok field) :
    listing.lists entry.2 = true ↔ field.default = none := by
  rw [default_of_fieldOf made]
  cases paired with
  | never => simp [Listing.lists]
  | byKind => simp [lists_iff_ownDefault]
  | always present =>
    have absent := (lists_iff_ownDefault entry.2).mp (present entry member)
    simp [Listing.lists, absent]

/-- Of fields with different names just those that are listed are required. -/
private theorem requires_iff {listing : Listing} {entries : List (Value × Schema)}
    {entry : Value × Schema} (distinct : Entries.Distinct entries) (member : entry ∈ entries)
    (same : Entries.get? keywords (.str "required") = Entries.get? (objectOf properties
      ((entries.filter fun entry => listing.lists entry.2).map (·.1))) (.str "required")) :
    keywords.Requires entry.1 ↔ listing.lists entry.2 = true := by
  have found : ∀ required : List Value,
      Entries.get? (objectOf properties required) (.str "required") =
        if required.isEmpty then none else some (.value (.list required)) := by
    intro required
    unfold objectOf
    split <;> rfl
  have listed : keywords.Requires entry.1 ↔
      entry.1 ∈ (entries.filter fun entry => listing.lists entry.2).map (·.1) := by
    rw [Keywords.Requires, same, found]
    cases (entries.filter fun entry => listing.lists entry.2).map (·.1) with
    | nil => simp
    | cons first rest => simp
  rw [listed, List.mem_map]
  constructor
  · rintro ⟨other, kept, equal⟩
    obtain ⟨inside, lists⟩ := List.mem_filter.mp kept
    have only : other = entry := distinct.unique inside member (by rw [equal, BEq.refl])
    rwa [← only]
  · exact fun lists => ⟨entry, List.mem_filter.mpr ⟨member, lists⟩, rfl⟩

/-- Every name of a model is text. -/
private theorem names_of_named {fields : List (Value × ModelField)}
    {model : List (String × ModelField)} (made : named fields = .ok model) :
    (∀ field ∈ fields, ∃ name, field.1 = .str name) ∧
      model = fields.map fun field => (field.1.text, field.2) := by
  obtain ⟨text, joined, made⟩ := bind_ok made
  obtain ⟨texts, each, -⟩ := bind_ok joined
  cases made
  refine ⟨fun field member => ?_, rfl⟩
  obtain ⟨i, inside, rfl⟩ := List.mem_iff_getElem.mp member
  have listed : ((fields[i]).1, i) ∈ (fields.map (·.1)).zipIdx := by
    rw [List.mem_zipIdx_iff_getElem?]
    simp [inside]
  obtain ⟨name, spelt⟩ := mapM_ok each _ listed
  cases key : (fields[i]).1 with
  | str s => exact ⟨s, rfl⟩
  | _ =>
    simp only [key] at spelt
    cases spelt

end Fields

section Descriptions

open Eval (returns_bind returns_pure)

variable {draft : String} {onLazy : Nat → Eval Keywords} {world after : World}

private theorem plain_ofLiteral {parameters : List (String × Parameter)}
    (made : ofLiteral parameters = .ok held) : held.isPlain := by
  obtain ⟨parameter, -, made⟩ := bind_ok made
  have literal : ∀ values, (ofLiterals values).isPlain := by
    intro values
    unfold ofLiterals
    split <;> rfl
  split at made
  · cases made
    exact literal _
  · cases made
    exact literal _
  · cases made
    rfl

private theorem plain_ofListed {parameters : List (String × Parameter)}
    (made : ofListed parameters = .ok held) : held.isPlain := by
  obtain ⟨parameter, -, made⟩ := bind_ok made
  have literal : ∀ values, (ofLiterals values).isPlain := by
    intro values
    unfold ofLiterals
    split <;> rfl
  split at made
  · split at made
    · cases made
      exact literal _
    · cases made
  · split at made
    · cases made
      exact literal _
    · cases made

/-- Every description that the record model is read off is consistent. -/
private def Sound (schema : Schema) : Prop := ∀ metadata,
    schema.Models metadata → metadata.Consistent

/-- The type of an object schema is a model of its fields, if it has any. -/
private theorem ofMetadata_object {name : String} {metadata : Metadata}
    (object : metadata.kind.hasFields) (made : ofMetadata name metadata = .ok held) :
    held = .any ∨ ∃ fields doc,
      ofFields name (metadata.kind == .partialObject) metadata.children = .ok (some fields) ∧
        held = .model ⟨name, doc, fields⟩ := by
  obtain ⟨kind, parameters, children, docs, default⟩ := metadata
  have built : ∃ found, ofFields name (kind == .partialObject) children = .ok found ∧
      (held = .any ∨ ∃ fields, found = some fields ∧
        held = .model ⟨name, docs.description.filter Value.truthy, fields⟩) := by
    cases kind with
    | object | looseObject | objectWithRest | partialObject | required =>
      obtain ⟨found, built, made⟩ := bind_ok made
      refine ⟨found, built, ?_⟩
      cases found with
      | none =>
        cases made
        exact .inl rfl
      | some fields =>
        cases made
        exact .inr ⟨fields, rfl, rfl⟩
    | _ => cases object
  obtain ⟨found, built, rfl | ⟨fields, rfl, rfl⟩⟩ := built
  · exact .inl rfl
  · exact .inr ⟨fields, _, built, rfl⟩

private theorem modelled_object {metadata : Metadata} (object : metadata.kind.hasFields) :
    metadata.modelled = metadata.children.schemas := by
  obtain ⟨kind, parameters, children, docs, default⟩ := metadata
  cases kind <;> first | rfl | cases object

/-- The document schema of an object schema has the properties of its shape and lists the same ones
as required, whatever is said beside them. -/
private theorem shape_of_returns {metadata : Metadata} (object : metadata.kind.hasFields)
    (consistent : metadata.Consistent)
    (projected : (Projection.ofMetadata draft onLazy metadata).Returns world keywords after) :
    ∃ listing start shape between,
      Paired (metadata.kind == .partialObject) listing metadata.fields ∧
      (Projection.ofShape draft onLazy listing metadata.children).Returns start shape between ∧
      Entries.get? keywords (.str "properties") = Entries.get? shape (.str "properties") ∧
      Entries.get? keywords (.str "required") = Entries.get? shape (.str "required") := by
  obtain ⟨kind, parameters, children, docs, default⟩ := metadata
  obtain ⟨described, between, found, finished⟩ := returns_bind.mp projected
  obtain ⟨rfl, rfl⟩ := returns_pure.mp finished
  have documented : SameLook described (described.document docs default) :=
    sameLook_document docs default
  have bare : ∃ listing start shape between, Paired (kind == .partialObject) listing
      (children.fields?.getD []) ∧
      (Projection.ofShape draft onLazy listing children).Returns start shape between ∧
      Entries.get? described (.str "properties") = Entries.get? shape (.str "properties") ∧
      Entries.get? described (.str "required") = Entries.get? shape (.str "required") := by
    cases kind with
    | object => exact ⟨_, _, _, _, .byKind, found, rfl, rfl⟩
    | partialObject => exact ⟨_, _, _, _, .never, found, rfl, rfl⟩
    | required => exact ⟨_, _, _, _, .always (consistent.present rfl), found, rfl, rfl⟩
    | looseObject =>
      obtain ⟨shape, _, read, finished⟩ := returns_bind.mp found
      obtain ⟨rfl, rfl⟩ := returns_pure.mp finished
      exact ⟨_, _, shape, _, .byKind, read, Entries.get?_insert_of_ne (by decide) _ _,
        Entries.get?_insert_of_ne (by decide) _ _⟩
    | objectWithRest =>
      obtain ⟨rest, _, _, shaped⟩ := returns_bind.mp found
      obtain ⟨shape, _, read, finished⟩ := returns_bind.mp shaped
      obtain ⟨rfl, rfl⟩ := returns_pure.mp finished
      exact ⟨_, _, shape, _, .byKind, read, Entries.get?_insert_of_ne (by decide) _ _,
        Entries.get?_insert_of_ne (by decide) _ _⟩
    | _ => cases object
  obtain ⟨listing, start, shape, reached, paired, shaped, properties, required⟩ := bare
  exact ⟨listing, start, shape, reached, paired, shaped,
    (documented "properties" (by decide)).trans properties,
    (documented "required" (by decide)).trans required⟩

/-- Named children are no steps: whatever lies under the key zero, nothing is projected. -/
private theorem not_returns_ofZero {keywords : Keywords} : ∀ (entries : List (Value × Schema))
    {world after : World}, ¬(Projection.ofZero draft onLazy entries).Returns world keywords after
  | [], _, _, returned => Eval.returns_misuse returned
  | (key, schema) :: rest, world, after, returned => by
    change (if key == .int 0 then Projection.ofSchema draft onLazy schema >>= fun _ =>
      Eval.misuse (.unhashable "slice") else Projection.ofZero draft onLazy rest).Returns _
        _ _ at returned
    split at returned
    · obtain ⟨_, _, _, refused⟩ := returns_bind.mp returned
      exact Eval.returns_misuse refused
    · exact not_returns_ofZero rest returned

mutual

/-- The type of a schema mirrors its document schema. -/
private theorem mirrors_ofSchema : ∀ (schema : Schema) {name : String} {held : ValueType}
    {keywords : Keywords} {world after : World}, Sound schema → ofSchema name schema = .ok held →
    (Projection.ofSchema draft onLazy schema).Returns world keywords after → held.Mirrors keywords
  | .validator ⟨_, some metadata, _⟩, _, _, _, _, _, sound, made, projected
  | .foreign ⟨_, _, _, some metadata⟩, _, _, _, _, _, sound, made, projected =>
    mirrors_ofMetadata metadata (sound metadata (.own rfl))
      (fun _ member inner models => sound inner (.part rfl member models)) made projected
  | .validator ⟨_, none, _⟩, _, _, _, _, _, _, made, _
  | .foreign ⟨_, _, _, none⟩, _, _, _, _, _, _, made, _
  | .cls _, _, _, _, _, _, _, made, _ | .choice _, _, _, _, _, _, _, made, _
  | .null, _, _, _, _, _, _, made, _ | .dict _, _, _, _, _, _, _, made, _
  | .mapping _, _, _, _, _, _, _, made, _ | .list _, _, _, _, _, _, _, made, _
  | .tuple _, _, _, _, _, _, _, made, _ | .value _, _, _, _, _, _, _, made, _
  | .function _, _, _, _, _, _, _, made, _ => by
    cases made
    exact .plain rfl
termination_by structural schema => schema

/-- The type of a description mirrors the document schema of the description. -/
private theorem mirrors_ofMetadata : ∀ (metadata : Metadata) {name : String} {held : ValueType}
    {keywords : Keywords} {world after : World}, metadata.Consistent →
    (∀ part ∈ metadata.modelled, Sound part) → ofMetadata name metadata = .ok held →
    (Projection.ofMetadata draft onLazy metadata).Returns world keywords after →
      held.Mirrors keywords
  | ⟨kind, parameters, children, docs, default⟩, name, held, keywords, world, after,
      consistent, parts,
      made, projected => by
    by_cases object : kind.hasFields
    · rcases ofMetadata_object object made with rfl | ⟨fields, doc, built, rfl⟩
      · exact .plain rfl
      · rw [modelled_object object] at parts
        obtain ⟨_, _, _, _, paired, shaped, properties, required⟩ :=
          shape_of_returns object consistent projected
        obtain ⟨_, named, mirror⟩ :=
          fields_ofShape children consistent.distinct paired parts built shaped
          properties required
        exact .model named mirror
    obtain ⟨described, between, found, finished⟩ := returns_bind.mp projected
    obtain ⟨rfl, rfl⟩ := returns_pure.mp finished
    refine Mirrors.congr (sameLook_document docs default) ?_
    cases kind with
    | string | number | integer | boolean | null | any | unknown | instanceOf | never | check
    | tuple | lazy | intersect | transform | codec =>
      cases made
      exact .plain rfl
    | literal => exact .plain (plain_ofLiteral made)
    | enum | keyof => exact .plain (plain_ofListed made)
    | object | looseObject | objectWithRest | partialObject | required => exact absurd rfl object
    | array =>
      obtain ⟨item, child, rfl⟩ := map_ok made
      obtain ⟨fragment, _, read, finished⟩ := returns_bind.mp found
      obtain ⟨rfl, rfl⟩ := returns_pure.mp finished
      refine Mirrors.congr (sameLook_overlay parameters) ?_
      rcases mirrors_ofChild children parts child read with rfl | ⟨inner, rfl, mirrors⟩
      · exact .plain rfl
      · exact .list rfl mirrors
    | set =>
      obtain ⟨item, child, rfl⟩ := map_ok made
      obtain ⟨fragment, _, read, finished⟩ := returns_bind.mp found
      obtain ⟨rfl, rfl⟩ := returns_pure.mp finished
      rcases mirrors_ofChild children parts child read with rfl | ⟨inner, rfl, mirrors⟩
      · exact .plain rfl
      · exact .set rfl mirrors
    | record =>
      obtain ⟨⟨value, key⟩, _, read, finished⟩ := returns_bind.mp found
      obtain ⟨rfl, rfl⟩ := returns_pure.mp finished
      obtain ⟨keys, values, rfl, named, given⟩ := mirrors_ofPair children parts made read
      split
      · exact .dict rfl given fun names said => by cases said
      · exact .dict rfl given fun names said => by
          cases said
          exact named
    | map =>
      obtain ⟨value, _, read, finished⟩ := returns_bind.mp found
      obtain ⟨rfl, rfl⟩ := returns_pure.mp finished
      obtain ⟨keys, values, rfl, given⟩ := mirrors_ofSecond children parts made read
      exact .dict rfl given fun names said => by cases said
    | union | discriminatedUnion | variant =>
      obtain ⟨options, _, read, finished⟩ := returns_bind.mp found
      obtain ⟨rfl, rfl⟩ := returns_pure.mp finished
      obtain ⟨members, listed, made⟩ := bind_ok made
      have all := mirrors_ofOptions children parts listed read
      have each : ∀ member ∈ members, member.Mirrors
          (if options.isEmpty then [] else .ofList "anyOf" options) := by
        intro member inside
        rcases all member inside with free | ⟨inner, offered, mirrors⟩
        · exact .plain free
        · rw [if_neg (by simpa using List.ne_nil_of_mem offered)]
          exact .offered rfl (List.mem_map.mpr ⟨inner, offered, rfl⟩) mirrors
      rcases members with _ | ⟨first, _ | ⟨second, rest⟩⟩
      · exact mirrors_choice made each
      · cases made
        exact each _ (List.mem_singleton.mpr rfl)
      · exact mirrors_choice made each
    | nullable | nullish =>
      obtain ⟨fragment, _, read, finished⟩ := returns_bind.mp found
      obtain ⟨rfl, rfl⟩ := returns_pure.mp finished
      obtain ⟨inner, child, made⟩ := bind_ok made
      refine mirrors_choice made
        (List.forall_mem_cons.mpr ⟨?_, List.forall_mem_singleton.mpr (.plain rfl)⟩)
      rcases mirrors_ofChild children parts child read with rfl | ⟨inner, rfl, mirrors⟩
      · exact .plain rfl
      · exact mirrors.orNull
    | optional | exactOptional =>
      obtain ⟨fragment, _, read, finished⟩ := returns_bind.mp found
      obtain ⟨rfl, rfl⟩ := returns_pure.mp finished
      obtain ⟨inner, child, made⟩ := bind_ok made
      refine mirrors_choice made
        (List.forall_mem_cons.mpr ⟨?_, List.forall_mem_singleton.mpr (.plain rfl)⟩)
      rcases mirrors_ofChild children parts child read with rfl | ⟨inner, rfl, mirrors⟩
      · exact .plain rfl
      · exact mirrors
    | default | fallback | «catch» | refine | nonNullable | nonNullish | nonOptional =>
      obtain ⟨fragment, _, read, finished⟩ := returns_bind.mp found
      obtain ⟨rfl, rfl⟩ := returns_pure.mp finished
      rcases mirrors_ofChild children parts made read with rfl | ⟨inner, rfl, mirrors⟩
      · exact .plain rfl
      · exact mirrors
    | pipe => exact mirrors_ofSteps children parts made found
termination_by structural metadata => metadata

/-- The type of an only child mirrors its document schema, unless anything goes. -/
private theorem mirrors_ofChild : ∀ (children : Children) {name : String} {held : ValueType}
    {fragment : Option Keywords} {world after : World}, (∀ part ∈ children.schemas, Sound part) →
    ofChild name children = .ok held →
    (Projection.ofChild draft onLazy children).Returns world fragment after →
    held = .any ∨ ∃ inner, fragment = some inner ∧ held.Mirrors inner
  | .one schema, _, _, _, _, _, parts, made, projected => by
    obtain ⟨inner, _, found, finished⟩ := returns_bind.mp projected
    obtain ⟨rfl, rfl⟩ := returns_pure.mp finished
    have sound := parts schema (List.mem_singleton.mpr rfl)
    exact .inr ⟨inner, rfl, mirrors_ofSchema schema sound made found⟩
  | .absent, _, _, _, _, _, _, made, _ | .many _, _, _, _, _, _, _, made, _
  | .fields _, _, _, _, _, _, _, made, _ | .deferred _, _, _, _, _, _, _, made, _ => by
    cases made
    exact .inl rfl
termination_by structural children => children

/-- The type of a first step mirrors the document schema of the steps. -/
private theorem mirrors_ofSteps : ∀ (children : Children) {name : String} {held : ValueType}
    {keywords : Keywords} {world after : World}, (∀ part ∈ children.schemas.take 1, Sound part) →
    ofFirst name children = .ok held →
    (Projection.ofSteps draft onLazy children).Returns world keywords after → held.Mirrors keywords
  | .many (first :: rest), _, _, _, _, _, parts, made, projected => by
    obtain ⟨inner, _, found, finished⟩ := returns_bind.mp projected
    obtain ⟨rfl, rfl⟩ := returns_pure.mp finished
    have sound := parts first (List.mem_singleton.mpr rfl)
    exact (mirrors_ofSchema first sound made found).withChecks rest
  | .fields (entry :: rest), _, _, _, _, _, _, _, projected =>
    absurd projected (not_returns_ofZero (entry :: rest))
  | .one _, _, _, _, _, _, _, made, _ => by cases made
  | .absent, _, _, _, _, _, _, made, _ | .many [], _, _, _, _, _, _, made, _
  | .fields [], _, _, _, _, _, _, made, _ | .deferred _, _, _, _, _, _, _, made, _ => by
    cases made
    exact .plain rfl
termination_by structural children => children

/-- The types of a key and a value mirror their document schemas. -/
private theorem mirrors_ofPair : ∀ (children : Children) {name : String} {held : ValueType}
    {value key : Keywords} {world after : World}, (∀ part ∈ children.schemas, Sound part) →
    ofPair name children = .ok held →
    (Projection.ofPair draft onLazy children).Returns world (value, key) after →
    ∃ keys values, held = .dict keys values ∧ keys.Mirrors key ∧ values.Mirrors value
  | .many [first, second], _, _, _, _, _, _, parts, made, projected => by
    obtain ⟨keys, one, made⟩ := bind_ok made
    obtain ⟨values, two, made⟩ := bind_ok made
    cases made
    obtain ⟨value, _, found, projected⟩ := returns_bind.mp projected
    obtain ⟨key, _, named, finished⟩ := returns_bind.mp projected
    obtain ⟨same, rfl⟩ := returns_pure.mp finished
    cases same
    exact ⟨keys, values, rfl, mirrors_ofSchema first
      (parts first (by simp [Children.schemas])) one named,
      mirrors_ofSchema second (parts second (by simp [Children.schemas])) two found⟩
  | .fields [_, _], _, _, _, _, _, _, _, made, _ => by
    cases made
    exact ⟨.any, .any, rfl, .plain rfl, .plain rfl⟩
  | .absent, _, _, _, _, _, _, _, made, _ | .one _, _, _, _, _, _, _, _, made, _
  | .deferred _, _, _, _, _, _, _, _, made, _ | .many [], _, _, _, _, _, _, _, made, _
  | .many [_], _, _, _, _, _, _, _, made, _ | .many (_ :: _ :: _ :: _), _, _, _, _, _, _, _, made, _
  | .fields [], _, _, _, _, _, _, _, made, _ | .fields [_], _, _, _, _, _, _, _, made, _
  | .fields (_ :: _ :: _ :: _), _, _, _, _, _, _, _, made, _ => by cases made
termination_by structural children => children

private theorem mirrors_ofSecond : ∀ (children : Children) {name : String} {held : ValueType}
    {value : Keywords} {world after : World}, (∀ part ∈ children.schemas, Sound part) →
    ofPair name children = .ok held →
    (Projection.ofSecond draft onLazy children).Returns world value after →
    ∃ keys values, held = .dict keys values ∧ values.Mirrors value
  | .many [first, second], _, _, _, _, _, parts, made, projected => by
    obtain ⟨keys, one, made⟩ := bind_ok made
    obtain ⟨values, two, made⟩ := bind_ok made
    cases made
    exact ⟨keys, values, rfl,
      mirrors_ofSchema second (parts second (by simp [Children.schemas])) two projected⟩
  | .fields [_, _], _, _, _, _, _, _, made, _ => by
    cases made
    exact ⟨.any, .any, rfl, .plain rfl⟩
  | .absent, _, _, _, _, _, _, made, _ | .one _, _, _, _, _, _, _, made, _
  | .deferred _, _, _, _, _, _, _, made, _ | .many [], _, _, _, _, _, _, made, _
  | .many [_], _, _, _, _, _, _, made, _ | .many (_ :: _ :: _ :: _), _, _, _, _, _, _, made, _
  | .fields [], _, _, _, _, _, _, made, _ | .fields [_], _, _, _, _, _, _, made, _
  | .fields (_ :: _ :: _ :: _), _, _, _, _, _, _, made, _ => by cases made
termination_by structural children => children

/-- Of several options each is a plain type or mirrors one of the document schemas. -/
private theorem mirrors_ofOptions :
    ∀ (children : Children) {name : String} {members : List ValueType}
    {options : List Keywords} {world after : World}, (∀ part ∈ children.schemas, Sound part) →
    ofOptions name children = .ok members →
    (Projection.ofPositions draft onLazy children).Returns world options after →
    ∀ member ∈ members, member.isPlain ∨ ∃ inner ∈ options, member.Mirrors inner
  | .many (first :: rest), _, _, _, _, _, parts, made, projected =>
    fun member inside =>
      .inr (mirrors_ofPositions (first :: rest) parts made projected member inside)
  | .fields (_ :: _), _, _, _, _, _, _, made, _ => by
    cases made
    intro member inside
    obtain ⟨_, _, rfl⟩ := List.mem_map.mp inside
    exact .inl rfl
  | .many [], _, _, _, _, _, _, made, _ | .fields [], _, _, _, _, _, _, made, _
  | .absent, _, _, _, _, _, _, made, _ | .one _, _, _, _, _, _, _, made, _
  | .deferred _, _, _, _, _, _, _, made, _ => by cases made
termination_by structural children => children

/-- Of several positions each mirrors one of the document schemas. -/
private theorem mirrors_ofPositions : ∀ (schemas : List Schema) {name : String} {i : Nat}
    {members : List ValueType} {options : List Keywords} {world after : World},
    (∀ part ∈ schemas, Sound part) → ofPositions name i schemas = .ok members →
    (Projection.ofSchemas draft onLazy schemas).Returns world options after →
    ∀ member ∈ members, ∃ inner ∈ options, member.Mirrors inner
  | [], _, _, _, _, _, _, _, made, _ => by
    cases made
    exact nofun
  | schema :: rest, _, _, _, _, _, _, parts, made, projected => by
    obtain ⟨held, one, made⟩ := bind_ok made
    obtain ⟨others, each, made⟩ := bind_ok made
    cases made
    obtain ⟨keywords, _, found, projected⟩ := returns_bind.mp projected
    obtain ⟨further, _, later, finished⟩ := returns_bind.mp projected
    obtain ⟨rfl, rfl⟩ := returns_pure.mp finished
    refine List.forall_mem_cons.mpr ⟨⟨keywords, List.mem_cons_self, ?_⟩, fun member inside => ?_⟩
    · exact mirrors_ofSchema schema (parts schema List.mem_cons_self) one found
    · obtain ⟨inner, offered, mirrors⟩ := mirrors_ofPositions rest
        (fun part member => parts part (List.mem_cons_of_mem _ member)) each later member inside
      exact ⟨inner, List.mem_cons_of_mem _ offered, mirrors⟩
termination_by structural schemas => schemas

/-- The fields of a model mirror the properties of the document schema, and both list the same as
required. -/
private theorem fields_ofShape : ∀ (children : Children) {name : String} {allOptional : Bool}
    {listing : Projection.Listing} {fields : List (String × ModelField)} {shape keywords : Keywords}
    {world after : World}, Entries.Distinct (children.fields?.getD []) →
    Paired allOptional listing (children.fields?.getD []) →
      (∀ part ∈ children.schemas, Sound part) →
    ofFields name allOptional children = .ok (some fields) →
    (Projection.ofShape draft onLazy listing children).Returns world shape after →
    Entries.get? keywords (.str "properties") = Entries.get? shape (.str "properties") →
    Entries.get? keywords (.str "required") = Entries.get? shape (.str "required") →
    ∃ properties, Entries.get? keywords (.str "properties") = some (.object properties) ∧
      FieldsMirror keywords fields properties
  | .fields entries, _, _, _, _, _, _, _, _, distinct, paired, parts, built, projected, properties,
      required => by
    obtain ⟨found, each, built⟩ := bind_ok built
    obtain ⟨names, spelt, built⟩ := bind_ok built
    cases built
    obtain ⟨texts, rfl⟩ := names_of_named spelt
    obtain ⟨fragments, _, listed, finished⟩ := returns_bind.mp projected
    obtain ⟨rfl, rfl⟩ := returns_pure.mp finished
    refine ⟨fragments, properties.trans ?_, mirrors_ofEntries entries parts ?_ texts each listed⟩
    · unfold Projection.objectOf
      split <;> rfl
    · intro entry member held field made
      exact (requires_iff distinct member required).trans (lists_iff paired member made)
  | .absent, _, _, _, _, _, _, _, _, _, _, _, built, _, _, _
  | .one _, _, _, _, _, _, _, _, _, _, _, _, built, _, _, _
  | .many _, _, _, _, _, _, _, _, _, _, _, _, built, _, _, _
  | .deferred _, _, _, _, _, _, _, _, _, _, _, _, built, _, _, _ => by cases built
termination_by structural children => children

/-- Named schemas mirror their document schemas entry by entry. -/
private theorem mirrors_ofEntries : ∀ (entries : List (Value × Schema)) {name : String}
    {allOptional : Bool} {fields : List (Value × ModelField)} {keywords properties : Keywords}
    {world after : World}, (∀ part ∈ entries.map (·.2), Sound part) →
    (∀ entry ∈ entries, ∀ held field, fieldOf allOptional held (ownDefault entry.2) = .ok field →
      (keywords.Requires entry.1 ↔ field.default = none)) →
    (∀ field ∈ fields, ∃ name, field.1 = .str name) →
      ofEntries name allOptional entries = .ok fields →
    (Projection.ofFields draft onLazy entries).Returns world properties after →
    FieldsMirror keywords (fields.map fun field => (field.1.text, field.2)) properties
  | [], _, _, _, _, _, _, _, _, _, _, made, projected => by
    cases made
    obtain ⟨rfl, rfl⟩ := returns_pure.mp projected
    exact .nil
  | (key, schema) :: rest, _, _, _, _, _, _, _, parts, required, texts, made, projected => by
    obtain ⟨below, -, made⟩ := bind_ok made
    obtain ⟨held, one, made⟩ := bind_ok made
    obtain ⟨field, fitted, made⟩ := bind_ok made
    obtain ⟨others, each, made⟩ := bind_ok made
    cases made
    obtain ⟨inner, _, found, projected⟩ := returns_bind.mp projected
    obtain ⟨further, _, later, finished⟩ := returns_bind.mp projected
    obtain ⟨rfl, rfl⟩ := returns_pure.mp finished
    obtain ⟨name, rfl⟩ := texts (key, field) List.mem_cons_self
    refine .cons (required (.str name, schema) List.mem_cons_self held field fitted) ?_ ?_
    · have sound := parts schema List.mem_cons_self
      exact mirrors_fieldOf fitted (mirrors_ofSchema schema sound one found)
    · exact mirrors_ofEntries rest (fun part member => parts part (List.mem_cons_of_mem _ member))
        (fun entry member => required entry (List.mem_cons_of_mem _ member))
        (fun other member => texts other (List.mem_cons_of_mem _ member)) each later
termination_by structural entries => entries

end

end Descriptions

end ValueType

namespace Schema

open ValueType Eval

variable {name : String} {model : Model} {keywords : Keywords} {world after : World}

/-- A document schema has the keywords of the projection, with an address before and definitions
behind that say nothing about fields. -/
private theorem projects_of_toDocument {schema : Schema} {options : DocumentOptions}
    (documented : (schema.toDocument options).Returns world keywords after) :
    ∃ draft onLazy body between reached,
      (Projection.ofSchema draft onLazy schema).Returns between body reached ∧
        SameLook body keywords := by
  obtain ⟨draft, between, chosen, further⟩ := returns_bind.mp documented
  cases known : Settings.draftAddress? draft with
  | none =>
    simp only [known] at further
    exact absurd further returns_misuse
  | some address =>
    obtain rfl : world = between := congrArg Prod.snd chosen
    rw [Returns, ending_toDocument_of_chosen chosen known] at documented
    obtain ⟨body, reached, projected, documented⟩ := returns_bind.mp documented
    rw [Returns, ending_project] at projected
    refine ⟨draft, _, body, world, reached, projected, ?_⟩
    have addressed : SameLook body (options.addressed address body) := by
      unfold DocumentOptions.addressed
      split
      · exact sameLook_put (by decide) _
      · exact fun _ _ => rfl
    obtain ⟨current, _, -, documented⟩ := returns_bind.mp documented
    split at documented
    · obtain ⟨rfl, -⟩ := returns_pure.mp documented
      exact addressed
    · obtain ⟨_, _, -, documented⟩ := returns_bind.mp documented
      obtain ⟨rfl, -⟩ := returns_pure.mp documented
      exact addressed.trans (sameLook_put (by decide) _)

/-- The record model and the document schema of an object schema declare the same fields in the same
order, and a field has to be there in one just if it has to be there in the other, at every depth;
unless a schema that makes every field required declares one that may be absent by its own kind. -/
theorem required_alike {v : Validator} {options : DocumentOptions}
    (consistent : ∀ metadata, (validator v).Models metadata → metadata.Consistent)
    (modelled : (validator v).toModel name = .ok model)
    (documented : ((validator v).toDocument options).Returns world keywords after) :
    ∃ properties, Entries.get? keywords (.str "properties") = some (.object properties) ∧
      FieldsMirror keywords model.fields properties := by
  obtain ⟨draft, onLazy, body, between, reached, projected, same⟩ :=
    projects_of_toDocument documented
  obtain ⟨rule, described, codec⟩ := v
  cases described with
  | none => cases modelled
  | some metadata =>
    obtain ⟨w, read, modelled⟩ := bind_ok modelled
    cases read
    change (if metadata.kind.hasFields then _ else _) = _ at modelled
    split at modelled
    · next object =>
      obtain ⟨held, made, modelled⟩ := bind_ok modelled
      have whole : held = .model model := by
        cases held <;> cases modelled
        rfl
      subst whole
      obtain sole | ⟨fields, doc, built, sole⟩ := ofMetadata_object object made
      · cases sole
      · cases sole
        have own := consistent metadata (.own rfl)
        have parts : ∀ part ∈ metadata.children.schemas, Sound part := by
          rw [← modelled_object object]
          exact fun part member inner models => consistent inner (.part rfl member models)
        obtain ⟨_, _, _, _, paired, shaped, properties, required⟩ :=
          shape_of_returns object own projected
        exact fields_ofShape metadata.children own.distinct paired parts built shaped
          ((same "properties" (by decide)).trans properties)
            ((same "required" (by decide)).trans required)
    · cases modelled

/-- An address: a street, and a flat that is one unless said otherwise. -/
private def address : Validator :=
  .object [(.str "street", .leaf .string), (.str "flat", .withDefault (.leaf .integer) (.int 1))]

/-- A person with a name, perhaps a mail address, and any number of addresses that may hold more. -/
private def resident : Validator :=
  .looseObject [(.str "name", .leaf .string), (.str "mail", .optional (.leaf .string)),
    (.str "homes", .array (.passthrough address))]

/-- A consistent description with consistent parts is consistent throughout. -/
private theorem consistent_of_parts {schema : Schema} {metadata : Metadata}
    (described : schema.metadata? = some metadata) (consistent : metadata.Consistent)
    (parts : ∀ part ∈ metadata.modelled, ∀ inner, part.Models inner → inner.Consistent) :
    ∀ inner, schema.Models inner → inner.Consistent := by
  intro inner models
  cases models with
  | own same =>
    rw [described] at same
    cases same
    exact consistent
  | part same member below =>
    rw [described] at same
    cases same
    exact parts _ member inner below

private theorem consistent_resident :
    ∀ metadata, (validator resident).Models metadata → metadata.Consistent := by
  have leaf : ∀ l metadata, (validator (.leaf l)).Models metadata → metadata.Consistent := fun l =>
    consistent_of_parts rfl ⟨.nil, by cases l <;> nofun⟩ (by cases l <;> nofun)
  have home : ∀ metadata, (validator (.passthrough address)).Models metadata →
      metadata.Consistent := by
    refine consistent_of_parts rfl ⟨by decide, nofun⟩ ?_
    refine List.forall_mem_cons.mpr ⟨leaf .string, List.forall_mem_singleton.mpr ?_⟩
    exact consistent_of_parts rfl ⟨.nil, nofun⟩ (List.forall_mem_singleton.mpr (leaf .integer))
  refine consistent_of_parts rfl ⟨by decide, nofun⟩ ?_
  refine List.forall_mem_cons.mpr ⟨leaf .string, List.forall_mem_cons.mpr ⟨?_,
    List.forall_mem_singleton.mpr ?_⟩⟩
  · exact consistent_of_parts rfl ⟨.nil, nofun⟩ (List.forall_mem_singleton.mpr (leaf .string))
  · exact consistent_of_parts rfl ⟨.nil, nofun⟩ (List.forall_mem_singleton.mpr home)

private def asked : DocumentOptions := ⟨true, none, false, []⟩

/-- The model and the document schema of a resident require a name and homes with a street, and
nothing else. -/
theorem resident_required_alike :
    (∀ metadata, (validator resident).Models metadata → metadata.Consistent) ∧
      ∃ model keywords after, (validator resident).toModel "Resident" = .ok model ∧
        ((validator resident).toDocument asked).Returns (World.initial "people") keywords after ∧
        ∃ properties, Entries.get? keywords (.str "properties") = some (.object properties) ∧
          FieldsMirror keywords model.fields properties := by
  refine ⟨consistent_resident, _, _, _, rfl, rfl, ?_⟩
  have documented : ((validator resident).toDocument asked).Returns
    (World.initial "people") _ _ := rfl
  have modelled : (validator resident).toModel "Resident" = .ok _ := rfl
  exact required_alike consistent_resident modelled documented

/-- A person who may have a mail address, but has to in the required form: the document schema lists
it as required, and the model gives it a default. -/
theorem not_all_required_alike :
    ∃ v model keywords after held,
      required (.validator (.object [(.str "mail", .optional (.leaf .string))])) = .ok v ∧
        (validator v).toModel "Person" = .ok model ∧
        ((validator v).toDocument asked).Returns (World.initial "people") keywords after ∧
        keywords.Requires (.str "mail") ∧ model.fields = [("mail", ⟨held, some .null⟩)] :=
  ⟨_, _, _, _, _, rfl, rfl, rfl, ⟨_, rfl, List.mem_singleton.mpr rfl⟩, rfl⟩

end Schema

end Conform
