import Conform.Proofs.JsonSchema.Admission
import Conform.Proofs.JsonSchema.Congruence
import Conform.Proofs.RecordModel.Choices

/-!
Record models beside document schemas. The two are read off one description in ways that share
nothing; `ValueType.Mirrors` says that they declare the same fields in the same order and require
the same ones, at every depth.
-/
namespace Conform

/-- The document schema lists a key as required. -/
def Keywords.Requires (keywords : Keywords) (key : Value) : Prop :=
  ∃ keys, Entries.get? keywords (.str "required") = some (.value (.list keys)) ∧ key ∈ keys

def ValueType.isPlain : ValueType → Bool
  | .any | .str | .int | .float | .bool | .null | .literal _ | .list .any | .set .any => true
  | _ => false

mutual

/-- A document schema goes along with a type: where the type is a model, or has one inside, the
document schema has an object with the same fields. One that offers alternatives goes along with
what one of them goes along with. -/
inductive ValueType.Mirrors : ValueType → Keywords → Prop where
  | plain {held : ValueType} {keywords : Keywords} (free : held.isPlain) : Mirrors held keywords
  | list {item : ValueType} {keywords inner : Keywords}
      (items : Entries.get? keywords (.str "items") = some (.object inner))
      (mirrors : Mirrors item inner) : Mirrors (.list item) keywords
  | set {item : ValueType} {keywords inner : Keywords}
      (items : Entries.get? keywords (.str "items") = some (.object inner))
      (mirrors : Mirrors item inner) : Mirrors (.set item) keywords
  | dict {key value : ValueType} {keywords inner : Keywords}
      (further : Entries.get? keywords (.str "additionalProperties") = some (.object inner))
      (values : Mirrors value inner)
      (keys : ∀ names, Entries.get? keywords (.str "propertyNames") = some (.object names) →
        Mirrors key names) : Mirrors (.dict key value) keywords
  | union {members : List ValueType} {keywords : Keywords}
      (all : ∀ member ∈ members, Mirrors member keywords) : Mirrors (.union members) keywords
  | offered {held : ValueType} {keywords inner : Keywords} {items : List Fragment}
      (offers : Entries.get? keywords (.str "anyOf") = some (.list items))
      (member : .object inner ∈ items) (mirrors : Mirrors held inner) : Mirrors held keywords
  | model {model : Model} {keywords properties : Keywords}
      (named : Entries.get? keywords (.str "properties") = some (.object properties))
      (fields : FieldsMirror keywords model.fields properties) : Mirrors (.model model) keywords

/-- The fields of a model and the properties of a document schema have the same names in the same
order, a field lacks a default just if its name is listed as required, and what a field may hold is
mirrored by its property. -/
inductive ValueType.FieldsMirror : Keywords → List (String × ModelField) → Keywords → Prop where
  | nil {keywords : Keywords} : FieldsMirror keywords [] []
  | cons {keywords inner properties : Keywords} {name : String} {field : ModelField}
      {fields : List (String × ModelField)}
      (required : keywords.Requires (.str name) ↔ field.default = none)
      (held : Mirrors field.held inner) (rest : FieldsMirror keywords fields properties) :
      FieldsMirror keywords ((name, field) :: fields) ((.str name, .object inner) :: properties)

end

namespace Metadata

/-- The schemas that the record model of a description is read off. -/
def modelled (metadata : Metadata) : List Schema :=
  match metadata.kind with
  | .pipe => metadata.children.schemas.take 1
  | .tuple | .lazy | .intersect | .transform | .codec => []
  | _ => metadata.children.schemas

def fields (metadata : Metadata) : List (Value × Schema) := metadata.children.fields?.getD []

/-- The fields have different names, and if all are required, none may be absent by its own kind. -/
structure Consistent (metadata : Metadata) : Prop where
  distinct : Entries.Distinct metadata.fields
  present : metadata.kind = .required → ∀ field ∈ metadata.fields,
    Projection.Listing.byKind.lists field.2 = true

end Metadata

/-- A description that the record model of a schema is read off. -/
inductive Schema.Models : Schema → Metadata → Prop where
  | own {schema : Schema} {metadata : Metadata} (described : schema.metadata? = some metadata) :
      Models schema metadata
  | part {schema part : Schema} {metadata inner : Metadata}
      (described : schema.metadata? = some metadata) (member : part ∈ metadata.modelled)
      (models : Models part inner) : Models schema inner

namespace ValueType

/-- The names of the keywords that go along with types. -/
def looked : List String :=
  ["properties", "required", "items", "additionalProperties", "propertyNames", "anyOf"]

/-- Two document schemas have the same keywords, as far as they go along with types. -/
def SameLook (one two : Keywords) : Prop :=
  ∀ name ∈ looked, Entries.get? two (.str name) = Entries.get? one (.str name)

/-- Fields mirror document schemas that list the same keys as required. -/
theorem FieldsMirror.congr {keywords further properties : Keywords}
    {fields : List (String × ModelField)}
    (same : Entries.get? further (.str "required") = Entries.get? keywords (.str "required"))
    (mirror : FieldsMirror keywords fields properties) :
      FieldsMirror further fields properties := by
  match mirror with
  | .nil => exact .nil
  | .cons required held rest =>
    refine .cons ?_ held (rest.congr same)
    rw [← required, Keywords.Requires, Keywords.Requires, same]

/-- A type mirrors document schemas that look the same. -/
theorem Mirrors.congr {held : ValueType} {keywords further : Keywords}
    (same : SameLook keywords further) (mirrors : held.Mirrors keywords) :
      held.Mirrors further := by
  match mirrors with
  | .plain free => exact .plain free
  | .list items inner => exact .list ((same "items" (by simp [looked])).trans items) inner
  | .set items inner => exact .set ((same "items" (by simp [looked])).trans items) inner
  | .dict additional values keys =>
    refine .dict ((same "additionalProperties" (by simp [looked])).trans additional) values ?_
    rwa [same "propertyNames" (by simp [looked])]
  | .union all => exact .union fun member inside => (all member inside).congr same
  | .offered offers member inner =>
    exact .offered ((same "anyOf" (by simp [looked])).trans offers) member inner
  | .model named fields =>
    exact .model ((same "properties" (by simp [looked])).trans named)
      (fields.congr (same "required" (by simp [looked])))

/-- What goes along with a choice goes along with each of its members. -/
theorem Mirrors.alternative {held : ValueType} {keywords : Keywords}
    (mirrors : held.Mirrors keywords) : ∀ member ∈ held.alternatives, member.Mirrors keywords := by
  have alone : ∀ {held : ValueType}, held.alternatives = [held] → held.Mirrors keywords →
      ∀ member ∈ held.alternatives, member.Mirrors keywords := by
    intro held lone mirrors
    rw [lone]
    exact List.forall_mem_singleton.mpr mirrors
  match mirrors with
  | .union all => exact all
  | .offered offers inside inner =>
    exact fun member held => .offered offers inside (inner.alternative member held)
  | .plain free =>
    refine alone ?_ (.plain free)
    cases held <;> first | rfl | cases free
  | .list items inner => exact alone rfl (.list items inner)
  | .set items inner => exact alone rfl (.set items inner)
  | .dict additional values keys => exact alone rfl (.dict additional values keys)
  | .model named fields => exact alone rfl (.model named fields)

variable {held : ValueType} {keywords further : Keywords}

section Keywords

theorem sameLook_put {name : String} (fresh : name ∉ looked) (fragment : Fragment) :
    SameLook keywords (keywords.put name fragment) := by
  intro other member
  refine Entries.get?_insert_of_ne ?_ keywords fragment
  rintro rfl
  exact fresh member

theorem sameLook_overlay (parameters : List (String × Parameter)) :
    SameLook keywords (keywords.overlay (.ofParameters parameters)) := by
  intro name member
  refine Entries.get?_merge_of_get?_eq_none (Keywords.get?_eq_none_of_others fun entry inside => ?_)
  obtain ⟨other, copied, spelt⟩ := Keywords.spelt_of_mem_ofParameters inside
  have apart : ∀ name ∈ looked, name ∉ Keywords.copied := by decide
  exact ⟨other, spelt, ne_of_mem_of_not_mem copied (apart name member)⟩

theorem SameLook.trans {third : Keywords} (first : SameLook keywords further)
    (second : SameLook further third) : SameLook keywords third :=
  fun name member => (second name member).trans (first name member)

theorem sameLook_document (docs : Documentation) (default : Value) :
    SameLook keywords (keywords.document docs default) := by
  have fresh : ∀ name ∈ Keywords.documented, name ∉ looked := by decide
  have putting : ∀ name ∈ Keywords.documented, ∀ further value,
      SameLook keywords further → SameLook keywords (further.putValue name value) :=
    fun name member _ _ same => same.trans (sameLook_put (fresh name member) _)
  exact Keywords.keeps_document putting docs default fun _ _ => rfl

theorem Mirrors.orNull (mirrors : held.Mirrors keywords) : held.Mirrors keywords.orNull := by
  unfold Keywords.orNull
  split
  · exact mirrors.congr (sameLook_put (by decide) _)
  · exact mirrors.congr (sameLook_put (by decide) _)
  · exact .offered rfl (List.mem_map.mpr ⟨keywords, List.mem_cons_self, rfl⟩) mirrors

/-- A type mirrors the document schema with the constraints of checks added. -/
theorem Mirrors.withChecks (mirrors : held.Mirrors keywords) (steps : List Schema) :
    held.Mirrors (Projection.withChecks keywords steps) := by
  induction steps generalizing keywords with
  | nil => exact mirrors
  | cons step rest ih =>
    refine ih ?_
    dsimp only
    split
    · split
      · exact mirrors.congr (sameLook_overlay _)
      · exact mirrors
    · exact mirrors

end Keywords

/-- A choice goes along with what all its members go along with. -/
theorem mirrors_choice {members : List ValueType} (made : choice members = .ok held)
    (all : ∀ member ∈ members, member.Mirrors keywords) : held.Mirrors keywords := by
  obtain ⟨kept, once, made⟩ := bind_ok made
  have each : ∀ member ∈ kept, member.Mirrors keywords := by
    intro member inside
    obtain ⟨whole, given, part⟩ := List.mem_flatMap.mp (mem_of_distinct once member inside)
    exact (all whole given).alternative member part
  rcases kept with _ | ⟨first, _ | ⟨second, rest⟩⟩
  · cases made
    exact .union each
  · cases made
    exact each _ (List.mem_singleton.mpr rfl)
  · cases made
    exact .union each

end ValueType

end Conform
