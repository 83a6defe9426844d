import Conform.Proofs.JsonSchema.Forms
import Conform.Proofs.JsonSchema.Satisfaction

/-!
Null beside what a schema admits. Null is added to the type of a document schema where there is one,
and else as an alternative. What satisfied the document schema satisfies it still; null satisfies it
unless a keyword beside the type goes on to refuse null, and of all document schemas that are
projected this happens for the names of keys alone (`Validator.nullable_admits_null`).
-/
namespace Conform

namespace Reading

variable {reading : Reading} {draft : String} {keywords : Keywords} {named : Bool} {x : Value}

theorem satisfies_object (keywords : Keywords) (x : Value) :
    (reading.meaning draft (.object keywords)).admits x = reading.satisfies draft x keywords := by
  simp only [meaning]
  rfl

/-- A choice is satisfied by what satisfies one of its options. -/
theorem satisfies_anyOf (options : List Keywords) :
    reading.satisfies draft x (.ofList "anyOf" options) =
      options.any (reading.satisfies draft x) := by
  have schemas : (reading.meaning draft (.list (options.map .object))).schemas =
      options.map fun keywords => fun x => reading.satisfies draft x keywords := by
    simp only [meaning, Meaning.schemas, meanings_eq_map, List.map_map]
    exact List.map_congr_left fun keywords _ => funext (satisfies_object keywords)
  change ((reading.meaning draft (.list (options.map .object))).schemas.any (· x) && true) = _
  rw [schemas, List.any_map, Bool.and_true]
  rfl

theorem isOf_withNull {types : Value}
    (typed : (Meaning.plain types).types.any (reading.isOf x) = true) :
    (Keywords.withNull types).any (reading.isOf x) = true := by
  cases types with
  | list types =>
    change types.any (reading.isOf x) = true at typed
    unfold Keywords.withNull
    dsimp only
    split
    · exact typed
    · rw [List.any_append, typed, Bool.true_or]
  | _ =>
    change ([_].any (reading.isOf x)) = true at typed
    change ([_, Value.str "null"].any (reading.isOf x)) = true
    rw [List.any_cons, List.any_nil, Bool.or_false] at typed
    rw [List.any_cons, typed, Bool.true_or]

/-- Null is of the types to which null was added. -/
theorem isOf_null_withNull (types : Value) :
    (Keywords.withNull types).any (reading.isOf .null) = true := by
  cases types with
  | list types =>
    unfold Keywords.withNull
    dsimp only
    split
    · assumption
    · rw [List.any_append]
      exact Bool.or_true _
  | _ => exact Bool.or_true _

/-- What satisfies a document schema satisfies it with null added. -/
theorem satisfies_orNull (satisfied : reading.satisfies draft x keywords = true) :
    reading.satisfies draft x keywords.orNull = true := by
  rcases Keywords.orNull_cases keywords with ⟨types, found, same⟩ | ⟨-, same⟩
  · have all := satisfies_iff.mp satisfied
    -- Only what the type means is changed, and no keyword looks at the type.
    have widened : reading.holdsEntry draft (reading.meaningEntries draft keywords) x
        (.str "type", .plain (.list (Keywords.withNull types))) = true := by
      obtain ⟨entry, looked, value⟩ := Option.map_eq_some_iff.mp found
      have typed := all entry (List.mem_of_find?_eq_some looked)
      have spelt := List.find?_some looked
      rw [Value.eq_str_of_beq spelt, value] at typed
      exact isOf_withNull typed
    rw [same, Keywords.putValue, satisfies_iff]
    intro entry member
    rw [holdsEntry_put (by decide)]
    rcases Entries.mem_insert member with old | rfl | ⟨first, old, spelt, rfl⟩
    · exact all entry old
    · exact widened
    · rw [Value.eq_str_of_beq spelt]
      exact widened
  · rw [same, satisfies_anyOf, List.any_cons, satisfied, Bool.true_or]

/-- Documentation says nothing. -/
theorem satisfies_document (docs : Documentation) (default : Value) :
    reading.satisfies draft x (keywords.document docs default) =
      reading.satisfies draft x keywords := by
  have unasserted : ∀ name ∈ Keywords.documented,
    (Assertion.ofName? (.str name)).isNone := by decide
  have putting : ∀ name ∈ Keywords.documented, ∀ (further : Keywords) value,
      reading.satisfies draft x further = reading.satisfies draft x keywords →
      reading.satisfies draft x (further.putValue name value) =
        reading.satisfies draft x keywords :=
    fun name member _ _ same =>
      (satisfies_put (Option.isNone_iff_eq_none.mp (unasserted name member)) _).trans same
  exact Keywords.keeps_document putting docs default rfl

/-- A keyword that does not speak of values of every type holds of null. -/
theorem holdsEntry_null {siblings : List (Value × Meaning)} {entry : Value × Meaning}
    (special : ∀ name ∈ Keywords.general, entry.1 ≠ .str name) :
    reading.holdsEntry draft siblings .null entry = true := by
  have kinds : ∀ pair ∈ Assertion.names,
    pair.2.isConditional = true ∨ pair.1 ∈ Keywords.general := by decide
  rw [holdsEntry, Option.all_eq_true]
  intro assertion found
  obtain ⟨pair, looked, rfl⟩ := Option.map_eq_some_iff.mp found
  have spelt := List.find?_some looked
  have conditional := (kinds pair (List.mem_of_find?_eq_some looked)).resolve_right fun general =>
    special pair.1 general (Value.eq_str_of_beq spelt)
  cases assertion : pair.2 with
  | object | array | text | number => rfl
  | _ =>
    rw [assertion] at conditional
    cases conditional

/-- Null satisfies what null is added to, unless the names of keys are listed there. -/
theorem satisfies_null_orNull (form : keywords.Form named) :
    reading.satisfies draft .null keywords.orNull = !named := by
  cases form with
  | untyped untyped =>
    rcases Keywords.orNull_cases keywords with ⟨types, found, -⟩ | ⟨-, same⟩
    · rw [untyped] at found
      cases found
    · rw [same, satisfies_anyOf]
      exact Bool.or_true _
  | typed types silent =>
    rw [Keywords.orNull_of_type]
    refine satisfies_iff.mpr fun entry member => ?_
    rcases List.mem_cons.mp member with rfl | later
    · exact isOf_null_withNull types
    · exact holdsEntry_null (silent entry later)
  | @named rest names types listed =>
    rw [Keywords.orNull_of_type]
    refine Bool.eq_false_iff.mpr fun satisfied => ?_
    have enumerated := satisfies_iff.mp satisfied _ (List.mem_cons_of_mem _ listed)
    change (names.map Value.str).any (reading.same .null) = true at enumerated
    rw [List.any_map, List.any_eq_true] at enumerated
    obtain ⟨name, -, equal⟩ := enumerated
    rw [Function.comp_apply, reading.same_null] at equal
    cases equal

end Reading

namespace Validator

variable {draft : String} {named : Bool} {v : Validator} {outline : Keywords}

theorem satisfies_annotated (reading : Reading) (x : Value) :
    reading.satisfies draft x (v.annotated outline) = reading.satisfies draft x outline :=
  Reading.satisfies_document _ _

/-- The document schema that is returned means what the outline means. -/
theorem Outlined.document (outlined : Outlined draft v outline)
    (known : (Settings.draftAddress? draft).isSome) (includeAddress : Bool) : ∃ keywords,
      (∀ world,
        (Schema.toDocument ⟨includeAddress, some draft, false, []⟩ (.validator v)).Returns world
        keywords world) ∧
      ∀ (reading : Reading) (x : Value),
        reading.satisfies draft x keywords = reading.satisfies draft x outline := by
  obtain ⟨address, found⟩ := Option.isSome_iff_exists.mp known
  refine ⟨_, Schema.returns_toDocument found includeAddress outlined.projected, fun reading x => ?_⟩
  cases includeAddress with
  | true => exact (Reading.satisfies_put rfl _).trans (satisfies_annotated reading x)
  | false => exact satisfies_annotated reading x

/-- What `nullable` and `nullish` make of a constructed validator has document schemas in every
draft. Null satisfies them unless they are made of the names of keys, and what satisfies the
document schema of the validator itself satisfies them as well. -/
theorem nullable_admits_null (assembled : Assembled named v)
    (known : (Settings.draftAddress? draft).isSome)
    (includeAddress : Bool) : ∃ own nulled nullished,
      (∀ world, (Schema.toDocument ⟨includeAddress, some draft, false, []⟩ (.validator v)).Returns
        world own world) ∧
      (∀ world,
        (Schema.toDocument ⟨includeAddress, some draft, false, []⟩
          (.validator (nullable v))).Returns
        world nulled world) ∧
      (∀ world,
        (Schema.toDocument ⟨includeAddress, some draft, false, []⟩ (.validator (nullish v))).Returns
        world nullished world) ∧
      ∀ (reading : Reading), ∀ widened ∈ [nulled, nullished],
        reading.satisfies draft .null widened = !named ∧
        ∀ x, reading.satisfies draft x own = true → reading.satisfies draft x widened = true := by
  obtain ⟨outline, outlined, form⟩ := (assembled.pictured draft).outlined
  have nulledOutlined : Outlined draft (nullable v) (v.annotated outline).orNull :=
    outlined.orNull (.inl rfl) rfl
  have nullishedOutlined : Outlined draft (nullish v) (v.annotated outline).orNull :=
    outlined.orNull (.inr rfl) rfl
  obtain ⟨own, ownReturned, ownMeans⟩ := outlined.document known includeAddress
  obtain ⟨nulled, nulledReturned, nulledMeans⟩ := nulledOutlined.document known includeAddress
  obtain ⟨nullished, nullishedReturned, nullishedMeans⟩ :=
    nullishedOutlined.document known includeAddress
  refine ⟨own, nulled, nullished, ownReturned, nulledReturned, nullishedReturned, fun reading => ?_⟩
  have annotatedForm : (v.annotated outline).Form named := form.document _ _
  have widens : ∀ widened, (∀ x, reading.satisfies draft x widened =
        reading.satisfies draft x (v.annotated outline).orNull) →
      reading.satisfies draft .null widened = !named ∧
      ∀ x, reading.satisfies draft x own = true → reading.satisfies draft x widened = true := by
    intro widened means
    refine ⟨?_, fun x satisfied => ?_⟩
    · rw [means, Reading.satisfies_null_orNull annotatedForm]
    · rw [ownMeans, ← satisfies_annotated (v := v)] at satisfied
      rw [means]
      exact Reading.satisfies_orNull satisfied
  exact List.forall_mem_cons.mpr ⟨widens nulled (nulledMeans reading),
    List.forall_mem_singleton.mpr (widens nullished (nullishedMeans reading))⟩

/-- A documented object, further tested, of a key and of a set of texts. -/
private def signpost (key : Validator) : Validator :=
  let shape := object [(.str "to", key), (.str "via", .set (withDefault (leaf .string) (.str "")))]
  refine (shape.document { Documentation.empty with title := some (.str "Signpost") })
    ⟨"known", fun _ => pure (.bool true)⟩ "Unknown"

/-- Null is admitted beside an object, also where a field of it takes the names of keys. -/
theorem signpost_admits_null :
    ∃ key, Schema.keyof (.dict [(.str "north", .cls .str), (.str "south", .cls .int)]) = .ok key ∧
    Assembled true key ∧ Assembled false (signpost key) ∧
      (Settings.draftAddress? "draft-07").isSome ∧
    ∃ keywords,
      (Schema.toDocument ⟨true, some "draft-07", false, []⟩
        (.validator (nullable (signpost key)))).Returns
        (World.initial "") keywords (World.initial "") ∧
      ∀ reading : Reading, reading.satisfies "draft-07" .null keywords = true := by
  obtain ⟨key, made, kind⟩ : ∃ key,
      Schema.keyof (.dict [(.str "north", .cls .str), (.str "south", .cls .int)]) = .ok key ∧
      key.metadata.map (·.kind) = some .keyof := ⟨_, rfl, rfl⟩
  have named : Assembled true key := .keyof made
  have assembled : Assembled false (signpost key) := by
    have via : Assembled false (.set (withDefault (leaf .string) (.str ""))) :=
      .wrapped .set rfl (.wrapped (.withDefault (.str "")) rfl (.leaf .string))
    refine .wrapped (.refine _ _) rfl (.redocument _ (.object
      (fun part => part.metadata.map (·.kind) == some .keyof) ?_))
    refine List.forall_mem_cons.mpr ⟨?_, List.forall_mem_singleton.mpr via⟩
    rwa [kind]
  have known : (Settings.draftAddress? "draft-07").isSome := rfl
  obtain ⟨_, keywords, _, -, returned, -, admits⟩ := nullable_admits_null assembled known true
  exact ⟨key, made, named, assembled, known, keywords, returned _,
    fun reading => (admits reading keywords (.head _)).1⟩

/-- Null beside the names of keys is refused by them, although the validator accepts it. -/
theorem keys_refuse_null : ∃ v keywords, Schema.keyof (.dict [(.str "a", .cls .str)]) = .ok v ∧
    (Schema.toDocument ⟨false, some "draft-2020-12", false, []⟩ (.validator (nullable v))).Returns
      (World.initial "") keywords (World.initial "") ∧
    (∀ reading : Reading, reading.satisfies "draft-2020-12" .null keywords = false) ∧
    ((nullable v).safe .null).Returns (World.initial "") .null (World.initial "") := by
  refine ⟨_, _, rfl, rfl, fun reading => ?_, rfl⟩
  exact Reading.satisfies_null_orNull
    (@Keywords.Form.named [(.str "enum", .value (.list [.str "a"]))] ["a"]
      (.str "string") (.head _))

end Validator

end Conform
