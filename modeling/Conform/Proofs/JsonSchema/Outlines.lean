import Conform.Proofs.JsonSchema.Converting
import Conform.Proofs.JsonSchema.Faithful

/-!
Outlines of document schemas: what a description is projected to before its documentation is added,
where this does not depend on what lazy schemas stand for. Wrappers make their outline of the whole
document schema of what they wrap, and the outline stays when only the documentation changes.
-/
namespace Conform

/-- Whether a description of this kind is projected as its child is. -/
def Kind.passesOn : Kind → Bool
  | .optional | .exactOptional | .default | .fallback | .nonNullable | .nonNullish | .nonOptional
  | .refine | .transform | .catch | .codec => true
  | _ => false

namespace Projection

variable {draft : String} {onLazy : Nat → Eval Keywords} {kind : Kind}
  {parameters : List (String × Parameter)} {children : Children} {docs : Documentation}
    {default : Value}

/-- Documentation is added to what is projected without any. -/
theorem ofMetadata_document : ofMetadata draft onLazy ⟨kind, parameters, children, docs, default⟩ =
    ofMetadata draft onLazy ⟨kind, parameters, children, .empty, .missing⟩ >>= fun outline =>
      pure (outline.document docs default) := by
  have undocumented : ∀ keywords : Keywords,
    keywords.document .empty .missing = keywords := fun _ => rfl
  simp only [ofMetadata, bind_assoc, pure_bind, undocumented]

/-- A description that passes on is projected from its child alone. -/
theorem ofMetadata_passesOn (passes : kind.passesOn) :
    ofMetadata draft onLazy ⟨kind, parameters, children, .empty, .missing⟩ =
      ofChild draft onLazy children >>= fun inner => pure (inner.getD []) := by
  have bare : ofMetadata draft onLazy ⟨kind, parameters, children, .empty, .missing⟩ =
      (ofChild draft onLazy children >>= fun inner => pure (inner.getD [])) >>= fun outline =>
        pure (outline.document .empty .missing) := by
    cases kind <;> first | rfl | cases passes
  rw [bare, bind_assoc]
  rfl

section Objects

variable {shape keywords : Keywords}

theorem ofMetadata_object :
    ofMetadata draft onLazy ⟨.object, parameters, children, .empty, .missing⟩ =
    ofShape draft onLazy .byKind children := bind_pure _

theorem ofMetadata_partialObject :
    ofMetadata draft onLazy ⟨.partialObject, parameters, children, .empty, .missing⟩ =
      ofShape draft onLazy .never children := bind_pure _

theorem ofMetadata_required :
    ofMetadata draft onLazy ⟨.required, parameters, children, .empty, .missing⟩ =
    ofShape draft onLazy .always children := bind_pure _

theorem ofMetadata_looseObject (shaped : ofShape draft onLazy .byKind children = pure shape) :
    ofMetadata draft onLazy ⟨.looseObject, parameters, children, .empty, .missing⟩ =
      pure (shape.putValue "additionalProperties" (.bool true)) := by
  change (ofShape draft onLazy .byKind children >>= _) >>= _ = _
  rw [shaped]
  rfl

theorem ofMetadata_objectWithRest {rest : Schema}
    (further : ofSchema draft onLazy rest = pure keywords)
    (shaped : ofShape draft onLazy .byKind children = pure shape) :
    ofMetadata draft onLazy ⟨.objectWithRest, [("rest", .schema rest)], children,
      .empty, .missing⟩ =
      pure (shape.put "additionalProperties" (.object keywords)) := by
  have kept : ofRest draft onLazy [("rest", .schema rest)] = pure (some keywords) := by
    change ofSchema draft onLazy rest >>= _ = _
    rw [further]
    rfl
  change (ofRest draft onLazy [("rest", .schema rest)] >>= fun _ =>
    ofShape draft onLazy .byKind children >>= _) >>= _ = _
  rw [kept, pure_bind, shaped]
  rfl

end Objects

/-- Positions are followed by what the parameters say of further items. -/
theorem ofMetadata_tupleOf {positions : List Keywords} {rest : Option Keywords}
    (listed : ofPositions draft onLazy children = pure positions)
    (further : ofRest draft onLazy parameters = pure rest) :
    ofMetadata draft onLazy ⟨.tuple, parameters, children, .empty, .missing⟩ =
      pure (tupleOf draft positions rest (isTrue (Entries.get? parameters "loose"))) := by
  change (ofPositions draft onLazy children >>= fun _ =>
    ofRest draft onLazy parameters >>= _) >>= _ = _
  rw [listed, pure_bind, further]
  rfl

/-- The schemas are projected to some document schema, whatever lazy schemas stand for. -/
def AllProjected (draft : String) (schemas : List Schema) : Prop :=
  ∀ schema ∈ schemas, ∃ keywords, ∀ onLazy, ofSchema draft onLazy schema = pure keywords

/-- Schemas that are projected without lazy schemas have document schemas in their order. -/
theorem exists_ofSchemas {schemas : List Schema} (projected : AllProjected draft schemas) :
    ∃ items, items.length = schemas.length ∧ ∀ onLazy,
      ofSchemas draft onLazy schemas = pure items := by
  induction schemas with
  | nil => exact ⟨[], rfl, fun _ => rfl⟩
  | cons schema rest ih =>
    obtain ⟨first, others⟩ := List.forall_mem_cons.mp projected
    obtain ⟨keywords, here⟩ := first
    obtain ⟨items, length, later⟩ := ih others
    refine ⟨keywords :: items, congrArg (· + 1) length, fun onLazy => ?_⟩
    change ofSchema draft onLazy schema >>= (fun _ => ofSchemas draft onLazy rest >>= _) = _
    rw [here, pure_bind, later]
    rfl

theorem exists_ofFields {entries : List (Value × Schema)}
    (projected : AllProjected draft (entries.map (·.2))) :
    ∃ properties, ∀ onLazy, ofFields draft onLazy entries = pure properties := by
  induction entries with
  | nil => exact ⟨[], fun _ => rfl⟩
  | cons entry rest ih =>
    obtain ⟨first, others⟩ := List.forall_mem_cons.mp projected
    obtain ⟨keywords, here⟩ := first
    obtain ⟨properties, later⟩ := ih others
    refine ⟨(entry.1, .object keywords) :: properties, fun onLazy => ?_⟩
    change ofSchema draft onLazy entry.2 >>= (fun _ => ofFields draft onLazy rest >>= _) = _
    rw [here, pure_bind, later]
    rfl

/-- The document schema of named children has their properties and the keys that are listed. -/
theorem exists_ofShape {entries : List (Value × Schema)}
    (projected : AllProjected draft (entries.map (·.2))) (listing : Listing) :
    ∃ properties, ∀ onLazy, ofShape draft onLazy listing (.fields entries) =
      pure
        (objectOf properties ((entries.filter fun entry => listing.lists entry.2).map (·.1))) := by
  obtain ⟨properties, found⟩ := exists_ofFields projected
  refine ⟨properties, fun onLazy => ?_⟩
  change ofFields draft onLazy entries >>= _ = _
  rw [found]
  rfl

end Projection

namespace Schema

variable {draft : String} {world : World} {schema : Schema} {keywords : Keywords}

/-- A known dialect that is asked for is the one that is chosen. -/
theorem returns_chosenDraft (known : (Settings.draftAddress? draft).isSome) :
    (chosenDraft (some draft)).Returns world draft world := by
  have nonempty : draft.isEmpty = false := by
    rw [Bool.eq_false_iff]
    intro isEmpty
    rw [String.isEmpty_iff.mp isEmpty] at known
    cases known
  refine Eval.returns_bind.mpr ⟨world, world, Eval.returns_get.mpr ⟨rfl, rfl⟩, ?_⟩
  simp only [nonempty]
  exact Eval.returns_pure.mpr ⟨rfl, rfl⟩

/-- Without address and definitions the whole document schema is the projected one. -/
theorem ending_toDocument (known : (Settings.draftAddress? draft).isSome) (schema : Schema)
    (world : World) :
    (toDocument ⟨false, some draft, false, []⟩ schema).ending world =
      (schema.project draft []).ending world := by
  obtain ⟨address, found⟩ := Option.isSome_iff_exists.mp known
  rw [ending_toDocument_of_chosen (returns_chosenDraft known) found, DocumentOptions.assembled,
    Eval.ending_bind]
  rcases (schema.project draft []).ending world with ⟨_ | _, after⟩ <;> rfl

/-- A schema that is projected alike whatever lazy schemas stand for has its document schema in
every world in which the dialect is chosen, by name or by default. -/
theorem returns_toDocument_of_chosen {asked : Option String} {address : String}
    (chosen : (chosenDraft asked).Returns world draft world)
    (found : Settings.draftAddress? draft = some address) (includeAddress : Bool)
    (projected : ∀ onLazy, Projection.ofSchema draft onLazy schema = pure keywords) :
    (toDocument ⟨includeAddress, asked, false, []⟩ schema).Returns world
      (if includeAddress then keywords.putValue "$schema" (.str address) else keywords) world := by
  have body : (schema.project draft []).Returns world keywords world := by
    rw [Eval.Returns, Eval.ending_project, projected]
    rfl
  rw [Eval.Returns, ending_toDocument_of_chosen chosen found, DocumentOptions.assembled,
    Eval.ending_bind, body]
  cases includeAddress <;> rfl

/-- A schema that is projected alike whatever lazy schemas stand for has its document schema in
every world. -/
theorem returns_toDocument {address : String} (found : Settings.draftAddress? draft = some address)
    (includeAddress : Bool) (projected : ∀ onLazy,
      Projection.ofSchema draft onLazy schema = pure keywords)
    (world : World) : (toDocument ⟨includeAddress, some draft, false, []⟩ schema).Returns world
      (if includeAddress then keywords.putValue "$schema" (.str address) else keywords) world :=
  returns_toDocument_of_chosen (returns_chosenDraft (by rw [found, Option.isSome_some])) found
    includeAddress projected

end Schema

namespace Validator

open Projection

/-- The documentation of a validator added to an outline of its document schema. -/
def annotated (v : Validator) (outline : Keywords) : Keywords :=
  outline.document (Metadata.docsOf v.metadata) ((v.metadata.map (·.default)).getD .missing)

/-- The validator is described, and without its documentation the description is projected to the
outline, whatever lazy schemas stand for. -/
def Outlined (draft : String) (v : Validator) (outline : Keywords) : Prop :=
  ∃ metadata, v.metadata = some metadata ∧ ∀ onLazy,
    ofMetadata draft onLazy { metadata with docs := .empty, default := .missing } = pure outline

variable {draft : String} {v w inner : Validator} {outline : Keywords} {kind : Kind}
  {parameters : List (String × Parameter)} {children : Children} {docs : Documentation}
    {default : Value}

theorem outlined_of_metadata
    (described : v.metadata = some ⟨kind, parameters, children, docs, default⟩)
    (projected : ∀ onLazy,
      ofMetadata draft onLazy ⟨kind, parameters, children, .empty, .missing⟩ = pure outline) :
    Outlined draft v outline := ⟨_, described, projected⟩

/-- The document schema is the outline with the documentation added. -/
theorem Outlined.projected (outlined : Outlined draft v outline) (onLazy : Nat → Eval Keywords) :
    ofSchema draft onLazy (.validator v) = pure (v.annotated outline) := by
  obtain ⟨rule, metadata, codec⟩ := v
  obtain ⟨⟨kind, parameters, children, docs, default⟩, ⟨⟩, projected⟩ := outlined
  change ofMetadata draft onLazy ⟨kind, parameters, children, docs, default⟩ = _
  rw [ofMetadata_document, projected, pure_bind]
  rfl

theorem Outlined.redocument (outlined : Outlined draft v outline)
    (change : Documentation → Documentation) :
    Outlined draft (v.redocument change) outline := by
  obtain ⟨rule, metadata, codec⟩ := v
  obtain ⟨metadata, ⟨⟩, projected⟩ := outlined
  exact ⟨_, rfl, projected⟩

/-- A wrapper that passes on what it wraps. -/
theorem Outlined.wrapping (outlined : Outlined draft inner outline) (passes : kind.passesOn)
    (described : w.metadata = some ⟨kind, parameters, .ofValidator inner, docs, default⟩) :
    Outlined draft w (inner.annotated outline) := by
  refine outlined_of_metadata described fun onLazy => ?_
  rw [ofMetadata_passesOn passes, ofChild_eq (outlined.projected onLazy)]
  rfl

/-- A wrapper that admits null beside what it wraps. -/
theorem Outlined.orNull (outlined : Outlined draft inner outline)
    (nulls : kind = .nullable ∨ kind = .nullish)
    (described : w.metadata = some ⟨kind, parameters, .ofValidator inner, docs, default⟩) :
    Outlined draft w (inner.annotated outline).orNull := by
  refine outlined_of_metadata described fun onLazy => ?_
  rcases nulls with rfl | rfl
  all_goals
    change (ofChild draft onLazy (.ofValidator inner) >>= _) >>= _ = _
    rw [ofChild_eq (outlined.projected onLazy)]
    rfl

/-- A sequence begins with the document schema of its first step. -/
theorem Outlined.pipe {steps : List Validator} (outlined : Outlined draft v outline)
    (made : Validator.pipe (v :: steps) = .ok w) :
    Outlined draft w (withChecks (v.annotated outline) (steps.map .validator)) := by
  obtain ⟨-, rfl⟩ := nonempty_of_made made
  refine outlined_of_metadata rfl fun onLazy => ?_
  change (ofSchema draft onLazy (.validator v) >>= _) >>= _ = _
  rw [outlined.projected onLazy]
  rfl

end Validator

end Conform
